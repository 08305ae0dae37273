import Cs140e.Libpi.Printk

/-!
# Numbers of 64 bits

`%llx` and `%lld` print the two halves of a number next to each other.

* `value_halves` — what digits of the halves denote together.
* `print_long_iff` — exactly which numbers are printed right; `print_long_two_words` is the first
  one that is not.
-/

namespace Cs140e.Libpi

open Cs140e.Lib

/-! ## The halves as digits -/

/-- The digits of two numbers next to each other: the second has its own number of digits.
Source: `libpi/libc/va-printk.c` `va_printk`
Kind: L -/
theorem value_halves {b : Nat} (hb : 1 < b) (hi lo : Nat) :
    value b (numeral b hi ++ numeral b lo) = hi * b ^ (numeral b lo).length + lo := by
  rw [value_append, value_numeral hb, value_numeral hb]

/-- A half of 32 bits has eight hexadecimal digits unless it is small.
Source: `libpi/libc/va-printk.c` `va_printk`
Kind: L -/
theorem hex_length_eq_iff {lo : Nat} (h : lo < 2 ^ 32) :
    (numeral 16 lo).length = 8 ↔ 2 ^ 28 ≤ lo := by
  have hle : (numeral 16 lo).length ≤ 8 :=
    (numeral_length_le_iff (by decide) (by decide)).mpr (Nat.lt_of_lt_of_eq h (by decide))
  have hseven : (numeral 16 lo).length ≤ 7 ↔ lo < 2 ^ 28 :=
    (numeral_length_le_iff (by decide) (by decide)).trans (by norm_num)
  omega

/-- Hexadecimal halves denote the number when the lower one has all its digits, or the upper one is
zero. Source: `libpi/libc/va-printk.c` `va_printk`. Kind: L -/
theorem hex_halves_iff {hi lo : Nat} (hlo : lo < 2 ^ 32) :
    value 16 (numeral 16 hi ++ numeral 16 lo) = hi * 2 ^ 32 + lo ↔ hi = 0 ∨ 2 ^ 28 ≤ lo := by
  rw [value_halves (by decide), ← hex_length_eq_iff hlo, Nat.add_right_cancel_iff]
  constructor
  · intro h
    rcases Nat.eq_zero_or_pos hi with hzero | hpos
    · exact .inl hzero
    · have hpow : 16 ^ (numeral 16 lo).length = 16 ^ 8 :=
        (Nat.eq_of_mul_eq_mul_left hpos h).trans (by decide)
      exact .inr (Nat.pow_right_injective (Nat.le_of_ble_eq_true rfl) hpow)
  · rintro (rfl | hlen)
    · rw [Nat.zero_mul, Nat.zero_mul]
    · rw [hlen, show 16 ^ 8 = 2 ^ 32 by decide]

/-- Decimal halves never denote the number, unless the upper one is zero: no power of ten is the
power of two that separates them. Source: `libpi/libc/va-printk.c` `va_printk`. Kind: L -/
theorem decimal_halves {hi : Nat} (lo : Nat) (hhi : hi ≠ 0) :
    value 10 (numeral 10 hi ++ numeral 10 lo) ≠ hi * 2 ^ 32 + lo := by
  rw [value_halves (by decide)]
  intro h
  have hpow : 10 ^ (numeral 10 lo).length = 2 ^ 32 :=
    Nat.eq_of_mul_eq_mul_left (Nat.pos_of_ne_zero hhi) (Nat.add_right_cancel h)
  have hpos : (numeral 10 lo).length ≠ 0 := by
    rw [Ne, List.length_eq_zero_iff]
    exact numeral_ne_nil (by decide) lo
  have hfive : 5 ∣ 2 ^ 32 := by
    rw [← hpow]
    exact (Dvd.intro 2 rfl : 5 ∣ 10).trans (dvd_pow_self 10 hpos)
  exact absurd hfive (by decide)

/-! ## The text -/

/-- The characters are `0x` and hexadecimal digits in lower case that denote `x`.
Source: `libpi/libc/va-printk.c` `va_printk`
Kind: D -/
def HexOf (x : UInt64) (t : List UInt8) : Prop :=
  ∃ ds, (∀ d ∈ ds, d < 16) ∧ t = 0x30 :: 0x78 :: ds.map digitByte ∧ value 16 ds = x.toNat

/-- The characters are the decimal numeral of `x`. Source: `libpi/libc/va-printk.c` `va_printk`.
Kind: D -/
def DecimalOf (x : UInt64) (t : List UInt8) : Prop :=
  t = (Nat.toDigits 10 x.toNat).map fun c => c.toNat.toUInt8

/-- A character stands for one digit. Source: `libpi/libc/va-printk.c` `emit`. Kind: L -/
theorem map_digitByte_inj {ds es : List Nat} (hd : ∀ d ∈ ds, d < 16) (he : ∀ d ∈ es, d < 16)
    (h : ds.map digitByte = es.map digitByte) : ds = es := by
  have hall : ∀ d < 16, ∀ e < 16, digitByte d = digitByte e → d = e := by decide
  induction ds generalizing es with
  | nil => exact (List.map_eq_nil_iff.mp h.symm).symm
  | cons d ds ih =>
      cases es with
      | nil => exact absurd h (by simp)
      | cons e es =>
          rw [List.map_cons, List.map_cons, List.cons.injEq] at h
          rw [hall d (hd d List.mem_cons_self) e (he e List.mem_cons_self) h.1,
            ih (fun d hmem => hd d (List.mem_cons_of_mem _ hmem))
              (fun d hmem => he d (List.mem_cons_of_mem _ hmem)) h.2]

/-- A number and its halves. Source: `libpi/libc/va-printk.c` `va_printk`. Kind: L -/
theorem hiWord_loWord (x : UInt64) : hiWord x * 2 ^ 32 + loWord x = x.toNat := by
  rw [Nat.mul_comm]
  exact Nat.div_add_mod x.toNat (2 ^ 32)

/-- Source: `libpi/libc/va-printk.c` `va_printk`. Kind: L -/
theorem hiWord_eq_zero_iff (x : UInt64) : hiWord x = 0 ↔ x.toNat < 2 ^ 32 :=
  Nat.div_eq_zero_iff_lt (by decide)

/-- Source: `libpi/libc/va-printk.c` `va_printk`. Kind: L -/
theorem loWord_lt (x : UInt64) : loWord x < 2 ^ 32 := Nat.mod_lt _ (by decide)

/-- What `%llx` prints. Source: `libpi/libc/va-printk.c` `va_printk`. Kind: L -/
theorem llx_text (x : UInt64) : (Conv.llx x).text 0 =
    0x30 :: 0x78 :: (numeral 16 (hiWord x) ++ numeral 16 (loWord x)).map digitByte := by
  rw [Conv.text, padLeft_zero, padLeft_zero, List.map_append]
  rfl

/-- What `%lld` prints. Source: `libpi/libc/va-printk.c` `va_printk`. Kind: L -/
theorem lld_text (x : UInt64) : (Conv.lld x).text 0 =
    (if hiWord x = 0 then numeral 10 (loWord x)
      else numeral 10 (hiWord x) ++ numeral 10 (loWord x)).map digitByte := by
  have hzero : digitText 10 (hiWord x) = [0x30] ↔ hiWord x = 0 := by
    constructor
    · intro h
      have hdigits : numeral 10 (hiWord x) = [0] := by
        refine map_digitByte_inj (fun d hd => ?_) (by decide) h
        exact Nat.lt_of_lt_of_le (numeral_lt (by decide) hd) (by decide)
      rw [← value_numeral (b := 10) (by decide) (hiWord x), hdigits]
      rfl
    · intro h
      rw [h]
      rfl
  rw [Conv.text, padLeft_zero, padLeft_zero, if_congr hzero rfl rfl]
  split
  · rfl
  · rw [List.map_append]
    rfl

/-- `%llx` is right when the upper half is zero or the lower one has all its digits.
Source: `libpi/libc/va-printk.c` `va_printk`
Kind: L -/
theorem hexOf_iff (x : UInt64) :
    HexOf x ((Conv.llx x).text 0) ↔ x.toNat < 2 ^ 32 ∨ 2 ^ 28 ≤ x.toNat % 2 ^ 32 := by
  have hdigits : ∀ d ∈ numeral 16 (hiWord x) ++ numeral 16 (loWord x), d < 16 := by
    intro d hd
    rcases List.mem_append.mp hd with hd | hd
    · exact numeral_lt (by decide) hd
    · exact numeral_lt (by decide) hd
  rw [← hiWord_eq_zero_iff, ← loWord, ← hex_halves_iff (loWord_lt x), hiWord_loWord, llx_text]
  constructor
  · rintro ⟨ds, hds, htext, hvalue⟩
    rw [List.cons.injEq, List.cons.injEq] at htext
    rwa [map_digitByte_inj hdigits hds htext.2.2]
  · intro hvalue
    exact ⟨_, hdigits, rfl, hvalue⟩

/-- `%lld` is right when the upper half is zero. Source: `libpi/libc/va-printk.c` `va_printk`.
Kind: L -/
theorem decimalOf_iff (x : UInt64) : DecimalOf x ((Conv.lld x).text 0) ↔ x.toNat < 2 ^ 32 := by
  rw [DecimalOf, ← digitText_eq_toDigits (by decide) (by decide), lld_text, ← hiWord_eq_zero_iff]
  have hsum := hiWord_loWord x
  constructor
  · intro h
    by_contra hhi
    rw [if_neg hhi] at h
    have hten : ∀ {v d : Nat}, d ∈ numeral 10 v → d < 16 := fun hd =>
      Nat.lt_of_lt_of_le (numeral_lt (by decide) hd) (by decide)
    have hdigits := map_digitByte_inj (fun d hd => (List.mem_append.mp hd).elim hten hten)
      (fun d hd => hten hd) h
    refine decimal_halves (loWord x) hhi ?_
    rw [hdigits, value_numeral (by decide), hsum]
  · intro hhi
    rw [if_pos hhi, digitText]
    rw [hhi, Nat.zero_mul, Nat.zero_add] at hsum
    rw [hsum]

/-! ## The calls -/

section

variable {m n : Nat}

/-- What a call with one conversion leaves in a buffer with room for it.
Source: `libpi/libc/va-printk.c` `va_printk`
Kind: L -/
theorem va_printk_conv (num num1 : Buf UInt8 128) (more : List UInt8) (buf : Buf UInt8 m)
    (hm : n ≤ m) (cv : Conv) {a : VaArg} (ha : cv.Passed a) (hroom : (cv.text 0).length < n)
    (P : List UInt8 → Prop) :
    (∃ buf' r, vaPrintk num num1 buf n (0x25 :: (cv.spec ++ 0 :: more)) [a] = .ok (buf', r) ∧
      P (cText buf'.elems)) ↔ P (cv.text 0) := by
  obtain ⟨buf', r, hrun, hread⟩ := va_printk_one num num1 more buf hm (List.forall_mem_nil _)
    (by decide) cv ha hroom
  rw [List.nil_append] at hrun
  rw [hrun]
  constructor
  · rintro ⟨buf₂, r₂, hok, hP⟩
    cases hok
    rwa [hread] at hP
  · intro hP
    exact ⟨buf', _, rfl, by rwa [hread]⟩

/-- Two halves have at most twenty digits. Source: `libpi/libc/va-printk.c` `va_printk`. Kind: L -/
theorem long_text_length (x : UInt64) :
    ((Conv.llx x).text 0).length < 21 ∧ ((Conv.lld x).text 0).length < 21 := by
  have hhi : hiWord x < 2 ^ 32 := Nat.div_lt_of_lt_mul x.toNat_lt
  have hlo := loWord_lt x
  have hhex : ∀ v < 2 ^ 32, (numeral 16 v).length ≤ 8 := fun v hv =>
    (numeral_length_le_iff (by decide) (by decide)).mpr (Nat.lt_of_lt_of_le hv (by decide))
  have hdec : ∀ v < 2 ^ 32, (numeral 10 v).length ≤ 10 := fun v hv =>
    (numeral_length_le_iff (by decide) (by decide)).mpr (Nat.lt_of_lt_of_le hv (by decide))
  have := hhex _ hhi
  have := hhex _ hlo
  have := hdec _ hhi
  have := hdec _ hlo
  constructor
  · rw [llx_text, List.length_cons, List.length_cons, List.length_map, List.length_append]
    omega
  · rw [lld_text, List.length_map]
    split
    · omega
    · rw [List.length_append]
      omega

/-- **Long numbers**: `%llx` prints a number right exactly when it has one word or its lower word has
all its digits, and `%lld` exactly when it has one word.
Source: `libpi/libc/va-printk.c` `va_printk`
Kind: P -/
theorem print_long_iff (x : UInt64) (num num1 : Buf UInt8 128) (more : List UInt8)
    (buf : Buf UInt8 m) (hn : 21 ≤ n) (hm : n ≤ m) :
    ((∃ buf' r, vaPrintk num num1 buf n (0x25 :: 0x6c :: 0x6c :: 0x78 :: 0 :: more) [.dword x] =
        .ok (buf', r) ∧ HexOf x (cText buf'.elems)) ↔
      x.toNat < 2 ^ 32 ∨ 2 ^ 28 ≤ x.toNat % 2 ^ 32) ∧
    (x.toNat < 2 ^ 63 →
      ((∃ buf' r, vaPrintk num num1 buf n (0x25 :: 0x6c :: 0x6c :: 0x64 :: 0 :: more) [.dword x] =
        .ok (buf', r) ∧ DecimalOf x (cText buf'.elems)) ↔ x.toNat < 2 ^ 32)) := by
  obtain ⟨hllx, hlld⟩ := long_text_length x
  constructor
  · rw [← hexOf_iff]
    exact va_printk_conv num num1 more buf hm (.llx x) rfl (by omega) (HexOf x)
  · intro _
    rw [← decimalOf_iff]
    exact va_printk_conv num num1 more buf hm (.lld x) rfl (by omega) (DecimalOf x)

/-- The theorem at a number of two words. Source: `libpi/libc/va-printk.c` `va_printk`. Kind: P -/
theorem print_long_full_word :
    ∃ buf' r, vaPrintk (.fill 128 0) (.fill 128 0) (.fill 32 0xff) 32
        [0x25, 0x6c, 0x6c, 0x78, 0] [.dword 0x1f0000000] = .ok (buf', r) ∧
      HexOf 0x1f0000000 (cText buf'.elems) :=
  (print_long_iff 0x1f0000000 (.fill 128 0) (.fill 128 0) [] (.fill 32 0xff) (by decide)
    (Nat.le_refl 32)).1.mpr (.inr (by decide))

/-- The number `2 ^ 32` is printed as `0x10` and as `10`.
Source: `libpi/libc/va-printk.c` `va_printk`
Kind: P -/
theorem print_long_two_words :
    (∃ buf' r, vaPrintk (.fill 128 0) (.fill 128 0) (.fill 32 0xff) 32
        [0x25, 0x6c, 0x6c, 0x78, 0] [.dword 0x100000000] = .ok (buf', r) ∧
      cText buf'.elems = [0x30, 0x78, 0x31, 0x30] ∧ ¬ HexOf 0x100000000 (cText buf'.elems)) ∧
    (∃ buf' r, vaPrintk (.fill 128 0) (.fill 128 0) (.fill 32 0xff) 32
        [0x25, 0x6c, 0x6c, 0x64, 0] [.dword 0x100000000] = .ok (buf', r) ∧
      cText buf'.elems = [0x31, 0x30] ∧ ¬ DecimalOf 0x100000000 (cText buf'.elems)) := by
  have hhi : hiWord 0x100000000 = 1 := by decide
  have hlo : loWord 0x100000000 = 0 := by decide
  have hllx : (Conv.llx 0x100000000).text 0 = [0x30, 0x78, 0x31, 0x30] := by
    rw [llx_text, hhi, hlo]
    simp [numeral, digitByte, digitTable]
  have hlld : (Conv.lld 0x100000000).text 0 = [0x31, 0x30] := by
    rw [lld_text, hhi, hlo]
    simp [numeral, digitByte, digitTable]
  constructor
  · refine (va_printk_conv _ _ [] _ (Nat.le_refl 32) (.llx 0x100000000) rfl
      (by rw [hllx]; decide) fun t => t = _ ∧ ¬ HexOf _ t).mpr ⟨hllx, ?_⟩
    rw [hexOf_iff]
    decide
  · refine (va_printk_conv _ _ [] _ (Nat.le_refl 32) (.lld 0x100000000) rfl
      (by rw [hlld]; decide) fun t => t = _ ∧ ¬ DecimalOf _ t).mpr ⟨hlld, ?_⟩
    rw [decimalOf_iff]
    decide

end

end Cs140e.Libpi
