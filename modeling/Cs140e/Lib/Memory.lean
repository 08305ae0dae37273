import Mathlib.Data.List.Basic
import Mathlib.Data.Set.Lattice
import Mathlib.Order.CompletePartialOrder
import Mathlib.Tactic.Ring

/-!
# Byte memory with 32-bit addresses

A memory is a function from addresses to bytes; addresses wrap, and the offset of `x` from `a` is
`x - a`.

* `bytes m a n` — the `n` bytes from `a` on; `write m a bs` — a block stored there.
* `copied m dst src n` — `n` bytes of `src` as they were, stored at `dst`.
* `Apart dst src n` — no byte to be read is one that is stored to: the two `block`s are disjoint.
  `copied_step` — then a copy goes on from where it stands, in units of any size.
-/

namespace Cs140e.Lib

/-- A memory. Source: none: infrastructure. Kind: D -/
abbrev Memory := UInt32 → UInt8

namespace Memory

variable {m : Memory} {a dst src x : UInt32} {n k : Nat} {bs cs : List UInt8}

/-- The `n` bytes from `a` on. Source: none: infrastructure. Kind: D -/
def bytes (m : Memory) (a : UInt32) (n : Nat) : List UInt8 :=
  (List.range n).map fun i => m (a + UInt32.ofNat i)

/-- Store `bs` from `a` on. Source: none: infrastructure. Kind: D -/
def write (m : Memory) (a : UInt32) (bs : List UInt8) : Memory := fun x =>
  if h : (x - a).toNat < bs.length then bs[(x - a).toNat] else m x

/-- The `n` bytes from `src` on, stored from `dst` on. Source: none: infrastructure. Kind: D -/
def copied (m : Memory) (dst src : UInt32) (n : Nat) : Memory := fun x =>
  if (x - dst).toNat < n then m (src + (x - dst)) else m x

/-! ## Offsets -/

/-- Source: none: infrastructure. Kind: L -/
theorem offset_toNat (a : UInt32) (hk : k < 2 ^ 32) : (a + UInt32.ofNat k - a).toNat = k := by
  rw [UInt32.add_comm, UInt32.add_sub_cancel, UInt32.toNat_ofNat_of_lt' hk]

/-- Source: none: infrastructure. Kind: L -/
theorem add_ofNat_add (a : UInt32) (n k : Nat) :
    a + UInt32.ofNat (n + k) = a + UInt32.ofNat n + UInt32.ofNat k := by
  rw [UInt32.ofNat_add, UInt32.add_assoc]

/-- The offset from a later address. Source: none: infrastructure. Kind: L -/
theorem offset_sub (a x : UInt32) (hn : n < 2 ^ 32) :
    (x - (a + UInt32.ofNat n)).toNat =
      if n ≤ (x - a).toNat then (x - a).toNat - n else 2 ^ 32 - n + (x - a).toNat := by
  have hlt := (x - a).toNat_lt
  have hn' : (UInt32.ofNat n).toNat = n := UInt32.toNat_ofNat_of_lt' hn
  have hsub : x - (a + UInt32.ofNat n) = x - a - UInt32.ofNat n := by grind
  rw [hsub, UInt32.toNat_sub, hn']
  split <;> omega

/-- An address that does not wrap. Source: none: infrastructure. Kind: L -/
theorem add_ofNat_toNat (h : a.toNat + k < 2 ^ 32) : (a + UInt32.ofNat k).toNat = a.toNat + k := by
  rw [UInt32.toNat_add, UInt32.toNat_ofNat_of_lt' (show k < 2 ^ 32 by omega), Nat.mod_eq_of_lt h]

/-- The offset from a higher address wraps. Source: none: infrastructure. Kind: L -/
theorem offset_below (h : x.toNat < a.toNat) : (x - a).toNat = 2 ^ 32 - a.toNat + x.toNat := by
  have ha := a.toNat_lt
  rw [UInt32.toNat_sub, Nat.mod_eq_of_lt (by omega)]

/-! ## Blocks -/

/-- Source: none: infrastructure. Kind: L -/
@[simp] theorem bytes_length : (m.bytes a n).length = n := by simp [bytes]

/-- Source: none: infrastructure. Kind: L -/
theorem bytes_getElem {i : Nat} (h : i < (m.bytes a n).length) :
    (m.bytes a n)[i] = m (a + UInt32.ofNat i) := by simp [bytes]

/-- A block in two parts. Source: none: infrastructure. Kind: L -/
theorem bytes_add (m : Memory) (a : UInt32) (n k : Nat) :
    m.bytes a (n + k) = m.bytes a n ++ m.bytes (a + UInt32.ofNat n) k := by
  rw [bytes, List.range_add, List.map_append, List.map_map]
  simp only [bytes, Function.comp_def, add_ofNat_add]

/-- A block that is two. Source: none: infrastructure. Kind: L -/
theorem bytes_append_iff : m.bytes a (bs ++ cs).length = bs ++ cs ↔
    m.bytes a bs.length = bs ∧ m.bytes (a + UInt32.ofNat bs.length) cs.length = cs := by
  rw [List.length_append, bytes_add]
  constructor
  · intro h
    exact List.append_inj h bytes_length
  · rintro ⟨h₁, h₂⟩
    rw [h₁, h₂]

/-- The start of a block. Source: none: infrastructure. Kind: L -/
theorem bytes_take (h : k ≤ n) : (m.bytes a n).take k = m.bytes a k := by
  obtain ⟨d, rfl⟩ := Nat.le.dest h
  rw [bytes_add, List.take_left' bytes_length]

/-- A block within a block. Source: none: infrastructure. Kind: L -/
theorem bytes_mid {ds : List UInt8} (h : m.bytes a (bs ++ (cs ++ ds)).length = bs ++ (cs ++ ds)) :
    m.bytes (a + UInt32.ofNat bs.length) cs.length = cs :=
  (bytes_append_iff.mp (bytes_append_iff.mp h).2).1

/-- Memories that agree on a block. Source: none: infrastructure. Kind: L -/
theorem bytes_congr {m' : Memory} (h : ∀ i < n, m (a + UInt32.ofNat i) = m' (a + UInt32.ofNat i)) :
    m.bytes a n = m'.bytes a n := by
  unfold bytes
  exact List.map_congr_left fun i hi => h i (List.mem_range.mp hi)

/-! ## Copies -/

/-- The bytes that were copied. Source: none: infrastructure. Kind: L -/
theorem bytes_copied (m : Memory) (dst src : UInt32) (hn : n ≤ 2 ^ 32) :
    (m.copied dst src n).bytes dst n = m.bytes src n := by
  unfold bytes
  refine List.map_congr_left fun i hi => ?_
  have hi := List.mem_range.mp hi
  have hoff := offset_toNat dst (k := i) (by omega)
  rw [copied, if_pos (by omega), UInt32.add_comm dst, UInt32.add_sub_cancel]

/-- Nothing else changes. Source: none: infrastructure. Kind: L -/
theorem copied_of_le (h : n ≤ (x - dst).toNat) : m.copied dst src n x = m x := by
  rw [copied, if_neg (by omega)]

/-- Nothing is copied. Source: none: infrastructure. Kind: L -/
@[simp] theorem copied_zero (m : Memory) (dst src : UInt32) : m.copied dst src 0 = m := by
  funext x
  exact copied_of_le (Nat.zero_le _)

/-- A copy onto itself. Source: none: infrastructure. Kind: L -/
theorem copied_self (m : Memory) (a : UInt32) (n : Nat) : m.copied a a n = m := by
  funext x
  have haddr : a + (x - a) = x := by grind
  simp only [copied, haddr, ite_self]

/-- A block below a copy stays as it was. Source: none: infrastructure. Kind: L -/
theorem bytes_copied_below (h : x.toNat + k ≤ dst.toNat) (hdst : dst.toNat + n ≤ 2 ^ 32) :
    (m.copied dst src n).bytes x k = m.bytes x k := by
  refine bytes_congr fun i hi => copied_of_le ?_
  have hread : (x + UInt32.ofNat i).toNat = x.toNat + i := add_ofNat_toNat (by omega)
  rw [offset_below (by omega)]
  omega

/-- No byte of the source is one of the destination. Source: none: infrastructure. Kind: D -/
def Apart (dst src : UInt32) (n : Nat) : Prop :=
  ∀ i < n, n ≤ (src + UInt32.ofNat i - dst).toNat

/-- Blocks that do not meet. Source: none: infrastructure. Kind: L -/
theorem apart_of_le (hsrc : src.toNat + n ≤ dst.toNat) (hdst : dst.toNat + n ≤ 2 ^ 32) :
    Apart dst src n := by
  intro i hi
  have hread : (src + UInt32.ofNat i).toNat = src.toNat + i := add_ofNat_toNat (by omega)
  rw [offset_below (by omega)]
  omega

/-- The addresses of `n` bytes from `a` on. Source: none: infrastructure. Kind: D -/
def block (a : UInt32) (n : Nat) : Set UInt32 := {x | ∃ i < n, a + UInt32.ofNat i = x}

/-- Source: none: infrastructure. Kind: L -/
theorem mem_block_iff (hn : n ≤ 2 ^ 32) : x ∈ block a n ↔ (x - a).toNat < n := by
  constructor
  · rintro ⟨i, hi, rfl⟩
    rw [offset_toNat a (by omega)]
    exact hi
  · intro h
    refine ⟨(x - a).toNat, h, ?_⟩
    rw [UInt32.ofNat_toNat, UInt32.add_comm, UInt32.sub_add_cancel]

/-- Source: none: infrastructure. Kind: L -/
theorem apart_iff_disjoint (hn : n ≤ 2 ^ 32) :
    Apart dst src n ↔ Disjoint (block dst n) (block src n) := by
  rw [Set.disjoint_left]
  constructor
  · rintro h x hdst ⟨i, hi, rfl⟩
    have hlt := (mem_block_iff hn).mp hdst
    have hge := h i hi
    omega
  · intro h i hi
    by_contra hlt
    exact h ((mem_block_iff hn).mpr (Nat.lt_of_not_le hlt)) ⟨i, hi, rfl⟩

/-- One more unit of a copy. Source: none: infrastructure. Kind: P -/
theorem copied_step (m : Memory) (bs : List UInt8) (h : Apart dst src n)
    (hk : k + bs.length ≤ n) (hn : n < 2 ^ 32)
    (hbs : bs = (m.copied dst src k).bytes (src + UInt32.ofNat k) bs.length) :
    (m.copied dst src k).write (dst + UInt32.ofNat k) bs = m.copied dst src (k + bs.length) := by
  funext x
  have hread : ∀ i (hi : i < bs.length), bs[i] = m (src + UInt32.ofNat (k + i)) := by
    intro i hi
    have hi' : i < ((m.copied dst src k).bytes (src + UInt32.ofNat k) bs.length).length := by
      rwa [bytes_length]
    have hget : bs[i] = ((m.copied dst src k).bytes (src + UInt32.ofNat k) bs.length)[i] := by
      congr 1
    have hfar := h (k + i) (by omega)
    rw [hget, bytes_getElem, ← add_ofNat_add, copied_of_le (by omega)]
  have hlt := (x - dst).toNat_lt
  by_cases hbefore : (x - dst).toNat < k
  · -- below the unit: the offset from the unit wraps
    have hoff := offset_sub dst x (n := k) (by omega)
    rw [if_neg (by omega)] at hoff
    rw [write, dif_neg (by omega), copied, copied, if_pos hbefore, if_pos (by omega)]
  · have hoff := offset_sub dst x (n := k) (by omega)
    rw [if_pos (by omega)] at hoff
    rw [write, copied, copied, if_neg hbefore]
    by_cases hin : (x - dst).toNat < k + bs.length
    · rw [if_pos hin, dif_pos (by omega), hread]
      congr 2
      rw [hoff, show k + ((x - dst).toNat - k) = (x - dst).toNat by omega, UInt32.ofNat_toNat]
    · rw [if_neg hin, dif_neg (by omega)]

/-- A store of one byte. Source: none: infrastructure. Kind: L -/
theorem write_one (m : Memory) (a x : UInt32) (v : UInt8) :
    m.write a [v] x = if x = a then v else m x := by
  by_cases hxa : x = a
  · subst hxa
    simp [write]
  · have hoff : (x - a).toNat ≠ 0 := by
      intro hzero
      have hsub : x - a = 0 := UInt32.toNat_inj.mp hzero
      exact hxa (UInt32.sub_eq_iff_eq_add.mp hsub |>.trans (UInt32.zero_add a))
    rw [write, dif_neg (by simpa using hoff), if_neg hxa]

/-- The last byte first, when the bytes still to be read are not the one stored to.
Source: none: infrastructure. Kind: P -/
theorem copied_write_last (m : Memory) (hn : n < 2 ^ 32)
    (h : ∀ i < n, src + UInt32.ofNat i ≠ dst + UInt32.ofNat n) :
    (m.write (dst + UInt32.ofNat n) [m (src + UInt32.ofNat n)]).copied dst src n =
      m.copied dst src (n + 1) := by
  funext x
  have hoff := offset_toNat dst hn
  simp only [copied, write_one]
  by_cases hx : (x - dst).toNat < n
  · have hread := h _ hx
    rw [UInt32.ofNat_toNat] at hread
    rw [if_pos hx, if_neg hread, if_pos (by omega)]
  · rw [if_neg hx]
    by_cases hlast : x = dst + UInt32.ofNat n
    · subst hlast
      have hback : dst + UInt32.ofNat n - dst = UInt32.ofNat n := by grind
      rw [if_pos rfl, if_pos (by omega), hback]
    · have hne : (x - dst).toNat ≠ n := by
        intro heq
        have hx' : x = dst + (x - dst) := by grind
        rw [hx', ← heq, UInt32.ofNat_toNat] at hlast
        exact hlast rfl
      rw [if_neg hlast, if_neg (by omega)]

/-- The first byte first, when the bytes still to be read are not the one stored to.
Source: none: infrastructure. Kind: P -/
theorem copied_write_first (m : Memory) (hn : n < 2 ^ 32)
    (h : ∀ i < n, src + 1 + UInt32.ofNat i ≠ dst) :
    (m.write dst [m src]).copied (dst + 1) (src + 1) n = m.copied dst src (n + 1) := by
  funext x
  have hlt := (x - dst).toNat_lt
  have hone : (1 : UInt32) = UInt32.ofNat 1 := rfl
  have hoff := offset_sub dst x (n := 1) (by omega)
  rw [← hone] at hoff
  simp only [copied, write_one]
  by_cases hx : x = dst
  · subst hx
    have hzero : (x - x).toNat = 0 := by simp
    rw [if_neg (by omega)] at hoff
    rw [if_neg (by omega), if_pos rfl, if_pos (by omega)]
    simp
  · have hpos : (x - dst).toNat ≠ 0 := by
      intro hzero
      exact hx (UInt32.sub_eq_iff_eq_add.mp (UInt32.toNat_inj.mp hzero) |>.trans
        (UInt32.zero_add dst))
    rw [if_pos (by omega)] at hoff
    by_cases hin : (x - (dst + 1)).toNat < n
    · have hread := h _ hin
      rw [UInt32.ofNat_toNat] at hread
      have haddr : src + 1 + (x - (dst + 1)) = src + (x - dst) := by grind
      rw [if_pos hin, if_neg hread, if_pos (by omega), haddr]
    · rw [if_neg hin, if_neg hx, if_neg (by omega)]

end Memory

end Cs140e.Lib
