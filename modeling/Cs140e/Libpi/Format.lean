import Cs140e.Libpi.VaPrintk
import Cs140e.Lib.Numeral

/-!
# Conversions and their text

What a conversion of `va_printk` prints for its value.

* `digitText`, `hexText`, `intText`, `padLeft` — numbers as characters.
* `Emits` — what `emit` is asked for, and `emit_eq` what it leaves.
* `Conv` — a conversion with its value, and `Conv.text` what it prints; `convert_eq` says that the
  code prints that.
-/

namespace Cs140e.Libpi

open Cs140e.Lib

/-! ## Numbers -/

/-- `"0123456789abcdef"[d]`. Source: `libpi/libc/va-printk.c` `emit`. Kind: D -/
def digitByte (d : Nat) : UInt8 := digitTable.getD d 0

/-- The digits of a number, as characters. Source: `libpi/libc/va-printk.c` `emit`. Kind: D -/
def digitText (b v : Nat) : List UInt8 := (numeral b v).map digitByte

/-- `0x` and the digits. Source: `libpi/libc/va-printk.c` `emit`. Kind: D -/
def hexText (v : Nat) : List UInt8 := 0x30 :: 0x78 :: digitText 16 v

/-- The digits of an `int`, behind its sign. Source: `libpi/libc/va-printk.c` `emit`. Kind: D -/
def intText (v : UInt32) : List UInt8 :=
  if v.toNat < 2 ^ 31 then digitText 10 v.toNat else 0x2d :: digitText 10 (2 ^ 32 - v.toNat)

/-- A text behind spaces. Source: `libpi/libc/va-printk.c` `pad`. Kind: D -/
def padLeft (width : Nat) (t : List UInt8) : List UInt8 :=
  List.replicate (width - t.length) 0x20 ++ t

/-- A digit is a character of its own. Source: `libpi/libc/va-printk.c` `emit`. Kind: L -/
theorem digitByte_ne_zero {d : Nat} (h : d < 16) : digitByte d ≠ 0 := by
  have hall : ∀ d < 16, digitByte d ≠ 0 := by decide
  exact hall d h

/-- A numeral has no NUL in it. Source: `libpi/libc/va-printk.c` `emit`. Kind: L -/
theorem digitText_not_nul {b : Nat} (hb : 1 < b) (hb' : b ≤ 16) (v : Nat) : 0 ∉ digitText b v := by
  intro h
  obtain ⟨d, hd, hzero⟩ := List.mem_map.mp h
  exact digitByte_ne_zero (Nat.lt_of_lt_of_le (numeral_lt hb hd) hb') hzero

/-- The characters of a numeral are those of the standard library.
Source: `libpi/libc/va-printk.c` `emit`
Kind: L -/
theorem digitText_eq_toDigits {b : Nat} (hb : 1 < b) (hb' : b ≤ 16) (v : Nat) :
    digitText b v = (Nat.toDigits b v).map fun c => c.toNat.toUInt8 := by
  have hall : ∀ d < 16, digitByte d = (Nat.digitChar d).toNat.toUInt8 := by decide
  rw [toDigits_eq hb, List.map_map, digitText]
  exact List.map_congr_left fun d hd => hall d (Nat.lt_of_lt_of_le (numeral_lt hb hd) hb')

/-- Source: `libpi/libc/va-printk.c` `pad`. Kind: L -/
theorem padLeft_not_nul {t : List UInt8} (h : 0 ∉ t) (width : Nat) : 0 ∉ padLeft width t := by
  intro hmem
  rcases List.mem_append.mp hmem with hmem | hmem
  · exact absurd (List.eq_of_mem_replicate hmem) (by decide)
  · exact h hmem

/-- Source: `libpi/libc/va-printk.c` `pad`. Kind: L -/
theorem padLeft_length (width : Nat) (t : List UInt8) :
    (padLeft width t).length = max width t.length := by
  rw [padLeft, List.length_append, List.length_replicate]
  omega

/-- Without a width there are no spaces. Source: `libpi/libc/va-printk.c` `pad`. Kind: L -/
@[simp] theorem padLeft_zero (t : List UInt8) : padLeft 0 t = t := by
  simp [padLeft]

/-- **The digit loop** writes the numeral from its last digit.
Source: `libpi/libc/va-printk.c` `emit`
Kind: P -/
theorem putDigits_eq {base : UInt32} (hb : 1 < base.toNat) {room : Nat} (hroom : 0 < room)
    {u : UInt32} (hu : u.toNat < base.toNat ^ room) :
    putDigits base room u = .ok (digitText base.toNat u.toNat).reverse := by
  induction room generalizing u with
  | zero => exact absurd hroom (Nat.lt_irrefl 0)
  | succ room ih =>
      have hdiv : (u / base).toNat = u.toNat / base.toNat := UInt32.toNat_div u base
      have hmod : (u % base).toNat = u.toNat % base.toNat := UInt32.toNat_mod u base
      have hstep : digitText base.toNat u.toNat =
          (if u.toNat / base.toNat = 0 then [] else digitText base.toNat (u.toNat / base.toNat)) ++
            [digitByte (u.toNat % base.toNat)] := by
        rw [digitText, numeral_eq hb, List.map_append]
        split <;> rfl
      rw [putDigits, hstep, List.reverse_append]
      by_cases h0 : u / base = 0
      · have hn : u.toNat / base.toNat = 0 := by rw [← hdiv, h0]; rfl
        simp [h0, hn, hmod, digitByte]
      · have hn : u.toNat / base.toNat ≠ 0 := by
          rw [← hdiv]
          exact fun h => h0 (UInt32.toNat_inj.mp h)
        have hlt : (u / base).toNat < base.toNat ^ room := by
          rw [hdiv]
          exact Nat.div_lt_of_lt_mul (by rwa [← Nat.pow_succ'])
        have hpos : 0 < room := by
          rcases Nat.eq_zero_or_pos room with rfl | h
          · rw [hdiv] at hlt
            exact absurd (Nat.lt_one_iff.mp (by simpa using hlt)) hn
          · exact h
        have hrest := ih hpos hlt
        rw [hdiv] at hrest
        simp [h0, hn, hmod, hrest, digitByte]

/-- How many digits there are. Source: `libpi/libc/va-printk.c` `emit`. Kind: L -/
theorem digitText_length_le {b k v : Nat} (hb : 1 < b) (hk : 0 < k) (hv : v < b ^ k) :
    (digitText b v).length ≤ k := by
  rw [digitText, List.length_map]
  exact (numeral_length_le_iff hb hk).mpr hv

/-! ## `emit` -/

/-- A text that the cases of `emit` leave reversed. Source: `libpi/libc/va-printk.c` `emit`.
Kind: D -/
inductive Emits : (base : Nat) → (val : UInt32) → (signedP : Bool) → List UInt8 → Prop where
  | signed (v : UInt32) : Emits 10 v true (intText v)
  | decimal (v : UInt32) : Emits 10 v false (digitText 10 v.toNat)
  | hex (v : UInt32) : Emits 16 v false (hexText v.toNat)
  | binary (v : UInt32) : Emits 2 v false (digitText 2 v.toNat)
  | char (v : UInt32) : Emits 8 v false [v.toUInt8]

section

variable {base : Nat} {val : UInt32} {signedP : Bool} {t : List UInt8}

/-- A number of 32 bits in a base. Source: `libpi/libc/va-printk.c` `emit`. Kind: L -/
theorem putDigits_word (base : UInt32) (hb : 1 < base.toNat) (v : UInt32) :
    putDigits base emitRoom v = .ok (digitText base.toNat v.toNat).reverse := by
  refine putDigits_eq hb (by decide) (Nat.lt_of_lt_of_le v.toNat_lt ?_)
  calc 2 ^ 32 ≤ 2 ^ emitRoom := by decide
    _ ≤ base.toNat ^ emitRoom := Nat.pow_le_pow_left hb _

/-- What the cases write. Source: `libpi/libc/va-printk.c` `emit`. Kind: L -/
theorem emitDigits_eq (h : Emits base val signedP t) :
    emitDigits base val signedP = .ok t.reverse := by
  cases h with
  | signed v =>
      have hten : (10 : UInt32).toNat = 10 := rfl
      have hlt := val.toNat_lt
      unfold intText
      by_cases hneg : val.toNat < 2 ^ 31
      · have hge : ¬ val ≥ 0x80000000 := by
          rw [ge_iff_le, UInt32.le_iff_toNat_le]
          exact Nat.not_le_of_gt hneg
        have hdigits := putDigits_word 10 (by decide) val
        rw [hten] at hdigits
        rw [if_pos hneg]
        simp [emitDigits, hge, hdigits]
      · have hge : val ≥ 0x80000000 := by
          rw [ge_iff_le, UInt32.le_iff_toNat_le]
          exact Nat.le_of_not_lt hneg
        have hminus : (-val).toNat = 2 ^ 32 - val.toNat := by
          have hsize : UInt32.size = 2 ^ 32 := rfl
          rw [UInt32.toNat_neg, hsize]
          omega
        have hdigits := putDigits_word 10 (by decide) (-val)
        rw [hten, hminus] at hdigits
        rw [if_neg hneg]
        simp [emitDigits, hge, hdigits]
  | decimal v =>
      have hdigits := putDigits_word 10 (by decide) val
      rw [show (10 : UInt32).toNat = 10 from rfl] at hdigits
      simp [emitDigits, hdigits]
  | hex v =>
      have hdigits := putDigits_word 16 (by decide) val
      rw [show (16 : UInt32).toNat = 16 from rfl] at hdigits
      simp [emitDigits, hdigits, hexText]
  | binary v =>
      have hdigits := putDigits_word 2 (by decide) val
      rw [show (2 : UInt32).toNat = 2 from rfl] at hdigits
      exact hdigits
  | char v => rfl

/-- A conversion has at most 32 characters. Source: `libpi/libc/va-printk.c` `emit`. Kind: L -/
theorem Emits.length_le (h : Emits base val signedP t) : t.length ≤ 32 := by
  have hlt := val.toNat_lt
  cases h with
  | signed v =>
      unfold intText
      split
      · have := digitText_length_le (b := 10) (k := 10) (v := val.toNat) (by decide) (by decide)
          (by omega)
        omega
      · have := digitText_length_le (b := 10) (k := 10) (v := 2 ^ 32 - val.toNat) (by decide)
          (by decide) (by omega)
        rw [List.length_cons]
        omega
  | decimal v =>
      have := digitText_length_le (b := 10) (k := 10) (v := val.toNat) (by decide) (by decide)
        (by omega)
      omega
  | hex v =>
      have := digitText_length_le (b := 16) (k := 8) (v := val.toNat) (by decide) (by decide)
        (by omega)
      rw [hexText, List.length_cons, List.length_cons]
      omega
  | binary v => exact digitText_length_le (by decide) (by decide) hlt
  | char v => exact Nat.le_of_ble_eq_true rfl

/-- **What `emit` leaves**: the text behind the spaces that the width asks for.
Source: `libpi/libc/va-printk.c` `emit`
Kind: P -/
theorem emit_eq (h : Emits base val signedP t) {width : Nat} (hwidth : width < 32)
    (dst : Buf UInt8 128) : ∃ dst' tail, emit base dst val width signedP = .ok dst' ∧
      dst'.elems = padLeft width t ++ 0 :: tail := by
  have hlen := h.length_le
  have hpadlen := padLeft_length width t
  have hpad : pad t.reverse width = .ok (padLeft width t).reverse := by
    have hrev : t.reverse ++ List.replicate (width - t.reverse.length) 0x20 =
        (padLeft width t).reverse := by
      rw [padLeft, List.reverse_append, List.reverse_replicate, List.length_reverse]
    have hroom : (padLeft width t).reverse.length < emitRoom := by
      rw [List.length_reverse]
      show _ < 64
      omega
    rw [pad, hrev, if_pos hroom]
    rfl
  obtain ⟨dst', hw, helems⟩ := Buf.write_append (List.nil_append dst.elems).symm
    (padLeft width t ++ [0]) (by rw [dst.size, List.length_append, List.length_singleton]; omega)
  rw [List.length_nil] at hw
  refine ⟨dst', _, ?_, by rw [helems, List.nil_append, List.append_assoc]; rfl⟩
  rw [emit, if_neg (by omega), emitDigits_eq h, ok_bind, hpad, ok_bind, reverse]
  simp only [List.length_reverse]
  rw [if_neg (by omega), List.reverse_reverse, hw]
  rfl

end

/-! ## Conversions -/

/-- A conversion and its value. Source: `libpi/libc/va-printk.c` `va_printk`. Kind: D -/
inductive Conv where
  | d (v : UInt32)
  | u (v : UInt32)
  | x (v : UInt32)
  | p (v : UInt32)
  | b (v : UInt32)
  | c (v : UInt32)
  | s (t : List UInt8) (not_nul : 0 ∉ t)
  | llx (v : UInt64)
  | lld (v : UInt64)

/-- The specifier. Source: `libpi/libc/va-printk.c` `va_printk`. Kind: D -/
def Conv.spec : Conv → List UInt8
  | .d _ => [0x64]
  | .u _ => [0x75]
  | .x _ => [0x78]
  | .p _ => [0x70]
  | .b _ => [0x62]
  | .c _ => [0x63]
  | .s _ _ => [0x73]
  | .llx _ => [0x6c, 0x6c, 0x78]
  | .lld _ => [0x6c, 0x6c, 0x64]

/-- The argument passes the value. Source: `libpi/libc/va-printk.c` `va_printk`. Kind: D -/
def Conv.Passed : Conv → VaArg → Prop
  | .s t _, a => ∃ q, a = .ptr q ∧ q.Spells t
  | .llx v, a => a = .dword v
  | .lld v, a => a = .dword v
  | .d v, a => a = .word v
  | .u v, a => a = .word v
  | .x v, a => a = .word v
  | .p v, a => a = .word v
  | .b v, a => a = .word v
  | .c v, a => a = .word v

/-- The upper half. Source: `libpi/libc/va-printk.c` `va_printk`. Kind: D -/
def hiWord (v : UInt64) : Nat := v.toNat / 2 ^ 32

/-- The lower half. Source: `libpi/libc/va-printk.c` `va_printk`. Kind: D -/
def loWord (v : UInt64) : Nat := v.toNat % 2 ^ 32

/-- What a conversion prints. The halves of a long number are printed next to each other, and a
character that is a NUL only its spaces. Source: `libpi/libc/va-printk.c` `va_printk`. Kind: D -/
def Conv.text (width : Nat) : Conv → List UInt8
  | .d v => padLeft width (intText v)
  | .u v => padLeft width (digitText 10 v.toNat)
  | .x v => padLeft width (hexText v.toNat)
  | .p v => padLeft width (hexText v.toNat)
  | .b v => padLeft width (digitText 2 v.toNat)
  | .c v => cText (padLeft width [v.toUInt8])
  | .s t _ => t
  | .llx v => padLeft width (hexText (hiWord v)) ++ (padLeft width (hexText (loWord v))).drop 2
  | .lld v =>
    if padLeft width (digitText 10 (hiWord v)) = [0x30] then padLeft width (digitText 10 (loWord v))
    else padLeft width (digitText 10 (hiWord v)) ++ padLeft width (digitText 10 (loWord v))

/-- Source: `libpi/libc/va-printk.c` `emit`. Kind: L -/
theorem hexText_not_nul (v : Nat) : 0 ∉ hexText v := by
  intro h
  rcases List.mem_cons.mp h with h | h
  · exact absurd h (by decide)
  rcases List.mem_cons.mp h with h | h
  · exact absurd h (by decide)
  · exact digitText_not_nul (by decide) (by decide) v h

/-- Source: `libpi/libc/va-printk.c` `emit`. Kind: L -/
theorem intText_not_nul (v : UInt32) : 0 ∉ intText v := by
  intro h
  unfold intText at h
  split at h
  · exact digitText_not_nul (by decide) (by decide) _ h
  · rcases List.mem_cons.mp h with h | h
    · exact absurd h (by decide)
    · exact digitText_not_nul (by decide) (by decide) _ h

/-- A text has no NUL in it. Source: `libpi/libc/va-printk.c` `va_printk`. Kind: L -/
theorem Conv.text_not_nul (width : Nat) (cv : Conv) : 0 ∉ cv.text width := by
  cases cv with
  | d v => exact padLeft_not_nul (intText_not_nul v) width
  | u v => exact padLeft_not_nul (digitText_not_nul (by decide) (by decide) _) width
  | x v => exact padLeft_not_nul (hexText_not_nul _) width
  | p v => exact padLeft_not_nul (hexText_not_nul _) width
  | b v => exact padLeft_not_nul (digitText_not_nul (by decide) (by decide) _) width
  | c v => exact zero_notMem_cText _
  | s t h => exact h
  | llx v =>
      intro h
      rcases List.mem_append.mp h with h | h
      · exact padLeft_not_nul (hexText_not_nul _) width h
      · exact padLeft_not_nul (hexText_not_nul _) width (List.mem_of_mem_drop h)
  | lld v =>
      have hhalf := fun n => padLeft_not_nul (digitText_not_nul (b := 10) (by decide) (by decide) n)
        width
      intro h
      rw [Conv.text] at h
      split at h
      · exact hhalf _ h
      · rcases List.mem_append.mp h with h | h
        · exact hhalf _ h
        · exact hhalf _ h

section

variable {width : Nat} {num num1 : Buf UInt8 128} {args : List VaArg}

/-- A word is converted. Source: `libpi/libc/va-printk.c` `va_printk`. Kind: L -/
theorem convertWord_eq {base : Nat} {v : UInt32} {signedP : Bool} {t : List UInt8}
    (h : Emits base v signedP t) (hwidth : width < 32) (num : Buf UInt8 128) (args : List VaArg) :
    ∃ q, convertWord base num width signedP (.word v :: args) = .ok (q, args) ∧
      q.Spells (cText (padLeft width t)) := by
  obtain ⟨dst, tail, hemit, helems⟩ := emit_eq h hwidth num
  refine ⟨.ofBuf dst, by simp [convertWord, vaWord, hemit], ?_⟩
  obtain ⟨rest, hrest⟩ := exists_cText (p := dst.elems) (by simp [helems])
  have htext : cText dst.elems = cText (padLeft width t) := by rw [helems, cText_append_zero]
  exact CharPtr.spells_ofBuf (zero_notMem_cText _) (by rw [← htext]; exact hrest)

/-- The halves of a long number. Source: `libpi/libc/va-printk.c` `va_printk`. Kind: L -/
theorem halves_eq (v : UInt64) :
    (v >>> 32).toUInt32.toNat = hiWord v ∧ v.toUInt32.toNat = loWord v := by
  have hlt := v.toNat_lt
  constructor
  · rw [UInt64.toNat_toUInt32, UInt64.toNat_shiftRight, Nat.shiftRight_eq_div_pow]
    simp only [UInt64.reduceToNat, Nat.reduceMod]
    exact Nat.mod_eq_of_lt (Nat.div_lt_of_lt_mul (by omega))
  · exact UInt64.toNat_toUInt32 v

/-- Source: `libpi/libc/va-printk.c` `emit`. Kind: L -/
theorem Emits.padLeft_length_le {base : Nat} {v : UInt32} {signedP : Bool} {t : List UInt8}
    (h : Emits base v signedP t) (hwidth : width < 32) : (padLeft width t).length ≤ 32 := by
  have := h.length_le
  rw [padLeft_length]
  omega

/-- `%llx`. Source: `libpi/libc/va-printk.c` `va_printk`. Kind: L -/
theorem convertLong_llx (hwidth : width < 32) (num num1 : Buf UInt8 128) (v : UInt64)
    (more : List UInt8) (args : List VaArg) : ∃ num' tail,
      convertLong num num1 width (0x6c :: 0x6c :: 0x78 :: more) (.dword v :: args) =
        .ok (num', args) ∧ num'.elems = (Conv.llx v).text width ++ 0 :: tail := by
  obtain ⟨hhi, hlo⟩ := halves_eq v
  have hname : strncmp (.ofBytes (0x6c :: 0x6c :: 0x78 :: more)) (.ofBytes textLlx) 3 = .ok 0 := by
    simp [strncmp, strncmpFrom, CharPtr.get, CharPtr.ofBytes, textLlx]
  have hhex := Emits.hex (v >>> 32).toUInt32
  have hhex' := Emits.hex v.toUInt32
  obtain ⟨hi, tail, hemit, helems⟩ := emit_eq hhex hwidth num
  obtain ⟨lo, tail', hemit', helems'⟩ := emit_eq hhex' hwidth num1
  have hlen := hhex.padLeft_length_le hwidth
  have hlen' := hhex'.padLeft_length_le hwidth
  rw [hhi] at helems hlen
  rw [hlo] at helems' hlen'
  have htwo : 2 ≤ (padLeft width (hexText (loWord v))).length := by
    rw [padLeft_length, hexText, List.length_cons, List.length_cons]
    omega
  have hspells := (CharPtr.spells_ofBuf (padLeft_not_nul (hexText_not_nul _) width) helems').add
    htwo
  obtain ⟨hfit, -⟩ := strcat_eq helems (padLeft_not_nul (hexText_not_nul _) width) (Nat.zero_le _)
    hspells
  obtain ⟨num', tail'', hcat, hdone⟩ := hfit (by rw [List.length_drop]; omega)
  refine ⟨num', tail'', ?_, hdone⟩
  simp [convertLong, hname, vaDword, hemit, hemit', hcat]

/-- `%lld`. Source: `libpi/libc/va-printk.c` `va_printk`. Kind: L -/
theorem convertLong_lld (hwidth : width < 32) (num num1 : Buf UInt8 128) (v : UInt64)
    (more : List UInt8) (args : List VaArg) : ∃ num' tail,
      convertLong num num1 width (0x6c :: 0x6c :: 0x64 :: more) (.dword v :: args) =
        .ok (num', args) ∧ num'.elems = (Conv.lld v).text width ++ 0 :: tail := by
  obtain ⟨hhi, hlo⟩ := halves_eq v
  have hllx : strncmp (.ofBytes (0x6c :: 0x6c :: 0x64 :: more)) (.ofBytes textLlx) 3 =
      .ok (-20) := by
    simp [strncmp, strncmpFrom, CharPtr.get, CharPtr.ofBytes, textLlx]
  have hlld : strncmp (.ofBytes (0x6c :: 0x6c :: 0x64 :: more)) (.ofBytes textLld) 3 = .ok 0 := by
    simp [strncmp, strncmpFrom, CharPtr.get, CharPtr.ofBytes, textLld]
  have hdec := Emits.decimal (v >>> 32).toUInt32
  have hdec' := Emits.decimal v.toUInt32
  obtain ⟨hi, tail, hemit, helems⟩ := emit_eq hdec hwidth num
  obtain ⟨lo, tail', hemit', helems'⟩ := emit_eq hdec' hwidth num1
  have hlen := hdec.padLeft_length_le hwidth
  have hlen' := hdec'.padLeft_length_le hwidth
  rw [hhi] at helems hlen
  rw [hlo] at helems' hlen'
  have hnul := fun n => padLeft_not_nul (digitText_not_nul (b := 10) (by decide) (by decide) n) width
  have hspells := CharPtr.spells_ofBuf (hnul _) helems
  have hspells' := CharPtr.spells_ofBuf (hnul _) helems'
  have hzero : (CharPtr.ofBytes [0x30, 0]).Spells [0x30] := ⟨by decide, rfl, by decide, rfl⟩
  obtain ⟨r, hcmp, -, hr, -⟩ := strcmp_signed hspells hzero
  rw [Conv.text]
  split
  · rename_i heq
    obtain ⟨num', post, hcpy, hdone⟩ := strcpy_split hi hspells' (by omega)
    refine ⟨num', post, ?_, hdone⟩
    simp [convertLong, hllx, hlld, vaDword, hemit, hemit', hcmp, hr.mpr heq, hcpy]
  · rename_i hne
    have hr0 : r ≠ 0 := fun h => hne (hr.mp h)
    obtain ⟨hfit, -⟩ := strcat_eq helems (hnul _) (Nat.zero_le _) hspells'
    obtain ⟨num', tail'', hcat, hdone⟩ := hfit (by omega)
    refine ⟨num', tail'', ?_, hdone⟩
    simp [convertLong, hllx, hlld, vaDword, hemit, hemit', hcmp, hr0, hcat]

/-- A conversion of a word, by the branch of the `switch` that its specifier takes.
Source: `libpi/libc/va-printk.c` `va_printk`
Kind: L -/
theorem convert_word {c : UInt8} {base : Nat} {signedP : Bool} {v : UInt32} {t : List UInt8}
    {more : List UInt8} (hbranch : ∀ args, convert num num1 width (c :: more) args =
      convertWord base num width signedP args >>= fun r => .ok (r.1, r.2, more))
    (h : Emits base v signedP t) (hwidth : width < 32) (args : List VaArg) :
    ∃ q, convert num num1 width (c :: more) (.word v :: args) = .ok (q, args, more) ∧
      q.Spells (cText (padLeft width t)) := by
  obtain ⟨q, hrun, hq⟩ := convertWord_eq h hwidth num args
  refine ⟨q, ?_, hq⟩
  rw [hbranch, hrun, ok_bind]

/-- **A conversion** prints its text, and takes its argument and its specifier.
Source: `libpi/libc/va-printk.c` `va_printk`
Kind: P -/
theorem convert_eq (hwidth : width < 32) (num num1 : Buf UInt8 128) {cv : Conv} {a : VaArg}
    (ha : cv.Passed a) (more : List UInt8) (args : List VaArg) :
    ∃ q, convert num num1 width (cv.spec ++ more) (a :: args) = .ok (q, args, more) ∧
      q.Spells (cv.text width) := by
  have htext := cText_eq_self (cv.text_not_nul width)
  cases cv with
  | d v =>
      obtain rfl := ha
      rw [← htext]
      exact convert_word (fun _ => rfl) (.signed v) hwidth args
  | u v =>
      obtain rfl := ha
      rw [← htext]
      exact convert_word (fun _ => rfl) (.decimal v) hwidth args
  | x v =>
      obtain rfl := ha
      rw [← htext]
      exact convert_word (fun _ => rfl) (.hex v) hwidth args
  | p v =>
      obtain rfl := ha
      rw [← htext]
      exact convert_word (fun _ => rfl) (.hex v) hwidth args
  | b v =>
      obtain rfl := ha
      rw [← htext]
      exact convert_word (fun _ => rfl) (.binary v) hwidth args
  | c v =>
      obtain rfl := ha
      exact convert_word (fun _ => rfl) (.char v) hwidth args
  | s t ht =>
      obtain ⟨q, rfl, hq⟩ := ha
      exact ⟨q, rfl, hq⟩
  | llx v =>
      obtain rfl := ha
      obtain ⟨num', tail, hrun, helems⟩ := convertLong_llx hwidth num num1 v more args
      refine ⟨.ofBuf num', by simp [convert, Conv.spec, hrun], ?_⟩
      exact CharPtr.spells_ofBuf (Conv.text_not_nul width _) helems
  | lld v =>
      obtain rfl := ha
      obtain ⟨num', tail, hrun, helems⟩ := convertLong_lld hwidth num num1 v more args
      refine ⟨.ofBuf num', by simp [convert, Conv.spec, hrun], ?_⟩
      exact CharPtr.spells_ofBuf (Conv.text_not_nul width _) helems

end

end Cs140e.Libpi
