import Mathlib.Tactic.Ring

/-!
# Byte strings

* What holds of every byte of a string is decided along the string.
* `leBytes n v` is the low `n` bytes of `v`, least significant first, and `leValue` reads such a
  string back. Both ends of every link here (ARM and x86-64) store integers this way.
-/

namespace Cs140e.Lib

/-- Preferred to trying all 256 bytes. Source: none: infrastructure. Kind: D -/
instance (priority := high) decidableForallByte (p : UInt8 → Prop) [DecidablePred p]
    (l : List UInt8) : Decidable (∀ c ∈ l, p c) :=
  List.decidableBAll p l

/-! ## Little-endian numbers -/

/-- The `n` low bytes of `v`, least significant first. Source: none: infrastructure. Kind: D -/
def leBytes : Nat → Nat → List UInt8
  | 0, _ => []
  | n + 1, v => UInt8.ofNat v :: leBytes n (v / 256)

/-- The number a little-endian byte string denotes. Source: none: infrastructure. Kind: D -/
def leValue : List UInt8 → Nat
  | [] => 0
  | b :: bs => b.toNat + 256 * leValue bs

/-- `leBytes n` has `n` bytes. Source: none: infrastructure. Kind: L -/
@[simp] theorem leBytes_length (n v : Nat) : (leBytes n v).length = n := by
  induction n generalizing v with
  | zero => rfl
  | succ n ih => simp [leBytes, ih]

/-- Reading back what was written, modulo the width. Source: none: infrastructure. Kind: L -/
theorem leValue_leBytes (n v : Nat) : leValue (leBytes n v) = v % 256 ^ n := by
  induction n generalizing v with
  | zero => simp [leBytes, leValue, Nat.mod_one]
  | succ n ih =>
      simp only [leBytes, leValue, ih, UInt8.toNat_ofNat']
      rw [show 256 ^ (n + 1) = 256 * 256 ^ n by ring, Nat.mod_mul]

/-- A value in range survives the round trip. Source: none: infrastructure. Kind: L -/
theorem leValue_leBytes_of_lt {n v : Nat} (h : v < 256 ^ n) : leValue (leBytes n v) = v := by
  rw [leValue_leBytes, Nat.mod_eq_of_lt h]

/-- Writing back what was read. Source: none: infrastructure. Kind: L -/
theorem leBytes_leValue (bs : List UInt8) : leBytes bs.length (leValue bs) = bs := by
  induction bs with
  | nil => rfl
  | cons b bs ih =>
      have hb := b.toNat_lt
      have hmod : (b.toNat + 256 * leValue bs) % 2 ^ 8 = b.toNat := by omega
      have hdiv : (b.toNat + 256 * leValue bs) / 256 = leValue bs := by omega
      rw [List.length_cons, leBytes, leValue, hdiv, ih]
      congr 1
      apply UInt8.toNat_inj.mp
      rw [UInt8.toNat_ofNat', hmod]

/-- A string of `n` bytes is a number below `256 ^ n`. Source: none: infrastructure. Kind: L -/
theorem leValue_lt (bs : List UInt8) : leValue bs < 256 ^ bs.length := by
  induction bs with
  | nil => simp [leValue]
  | cons b bs ih =>
      have hb := b.toNat_lt
      rw [leValue, List.length_cons, show 256 ^ (bs.length + 1) = 256 * 256 ^ bs.length by ring]
      omega

/-! ## Words and their bytes -/

/-- A word is its four bytes. Source: none: infrastructure. Kind: L -/
theorem leBytes_ofNat {bs : List UInt8} (h : bs.length = 4) :
    leBytes 4 (UInt32.ofNat (leValue bs)).toNat = bs := by
  have hlt := leValue_lt bs
  rw [h] at hlt
  rw [UInt32.toNat_ofNat_of_lt' hlt, ← h, leBytes_leValue]

/-- Or-ing in a number above all bits of another one adds it. Source: none: infrastructure.
Kind: L -/
theorem or_shiftLeft_of_lt {a i : Nat} (h : a < 2 ^ i) (b : Nat) : a ||| b <<< i = a + b * 2 ^ i := by
  rw [Nat.or_comm, ← Nat.shiftLeft_add_eq_or_of_lt h, Nat.shiftLeft_eq, Nat.add_comm]

/-- A shift of a byte within a word loses nothing. Source: none: infrastructure. Kind: L -/
theorem toUInt32_shiftLeft_toNat (b : UInt8) {i : UInt32} (hi : i.toNat ≤ 24) :
    (b.toUInt32 <<< i).toNat = b.toNat <<< i.toNat := by
  rw [UInt32.toNat_shiftLeft, UInt8.toNat_toUInt32, Nat.mod_eq_of_lt (by omega : i.toNat < 32)]
  apply Nat.mod_eq_of_lt
  rw [Nat.shiftLeft_eq]
  calc b.toNat * 2 ^ i.toNat < 2 ^ 8 * 2 ^ i.toNat :=
        Nat.mul_lt_mul_of_pos_right b.toNat_lt (Nat.two_pow_pos _)
    _ ≤ 2 ^ 32 := by
        rw [← pow_add]
        exact Nat.pow_le_pow_right (by omega) (by omega)

/-- The word that four bytes are shifted into. Source: none: infrastructure. Kind: P -/
theorem word_toNat (b₀ b₁ b₂ b₃ : UInt8) :
    (b₀.toUInt32 ||| b₁.toUInt32 <<< 8 ||| b₂.toUInt32 <<< 16 ||| b₃.toUInt32 <<< 24).toNat =
      leValue [b₀, b₁, b₂, b₃] := by
  have h₀ := b₀.toNat_lt
  have h₁ := b₁.toNat_lt
  have h₂ := b₂.toNat_lt
  have h₃ := b₃.toNat_lt
  simp only [UInt32.toNat_or, UInt8.toNat_toUInt32]
  rw [toUInt32_shiftLeft_toNat b₁ (by decide), toUInt32_shiftLeft_toNat b₂ (by decide),
    toUInt32_shiftLeft_toNat b₃ (by decide)]
  simp only [UInt32.reduceToNat]
  rw [or_shiftLeft_of_lt (a := b₀.toNat) (by omega),
    or_shiftLeft_of_lt (a := b₀.toNat + b₁.toNat * 2 ^ 8) (by omega), or_shiftLeft_of_lt (by omega)]
  simp only [leValue]
  omega

/-- A byte of a word, shifted out and masked. Source: none: infrastructure. Kind: L -/
theorem byte_of_word (u i : UInt32) :
    ((u >>> i) &&& 0xff).toUInt8 = UInt8.ofNat (u.toNat / 2 ^ (i.toNat % 32)) := by
  apply UInt8.toNat_inj.mp
  rw [UInt32.toNat_toUInt8, UInt32.toNat_and, UInt32.toNat_shiftRight, UInt8.toNat_ofNat',
    show (0xff : UInt32).toNat = 2 ^ 8 - 1 from rfl, Nat.and_two_pow_sub_one_eq_mod, Nat.mod_mod,
    Nat.shiftRight_eq_div_pow]

/-- The four bytes of a word. Source: none: infrastructure. Kind: P -/
theorem leBytes_word (u : UInt32) :
    [((u >>> 0) &&& 0xff).toUInt8, ((u >>> 8) &&& 0xff).toUInt8, ((u >>> 16) &&& 0xff).toUInt8,
      ((u >>> 24) &&& 0xff).toUInt8] = leBytes 4 u.toNat := by
  simp only [byte_of_word, leBytes, Nat.div_div_eq_div_mul]
  simp

end Cs140e.Lib
