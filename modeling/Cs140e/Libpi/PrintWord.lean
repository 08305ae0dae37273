import Cs140e.Libpi.Printk

/-!
# Numbers of 32 bits

`%d`, `%u`, `%x`, `%p` and `%b` print the numeral of the standard library behind the spaces that the
width asks for, and reading it back gives the number.

* `WordConv` — the conversions, with the numeral each is to print; `WordConv.text_eq`.
* `WordConv.read` — reading a text in the base of the conversion.
* `print_word` — what a call prints.
-/

namespace Cs140e.Libpi

open Cs140e.Lib

/-! ## Numerals -/

/-- The conversions of a number of 32 bits. Source: `libpi/libc/va-printk.c` `va_printk`. Kind: D -/
inductive WordConv where
  | d
  | u
  | x
  | p
  | b
  deriving DecidableEq, Repr

namespace WordConv

/-- Source: `libpi/libc/va-printk.c` `va_printk`. Kind: D -/
def spec : WordConv → UInt8
  | d => 0x64
  | u => 0x75
  | x => 0x78
  | p => 0x70
  | b => 0x62

/-- The numeral that is asked for. Source: `libpi/libc/va-printk.c` `va_printk`. Kind: D -/
def numeral : WordConv → UInt32 → List Char
  | d, v => v.toInt32.toInt.repr.toList
  | u, v => Nat.toDigits 10 v.toNat
  | x, v => '0' :: 'x' :: Nat.toDigits 16 v.toNat
  | p, v => '0' :: 'x' :: Nat.toDigits 16 v.toNat
  | b, v => Nat.toDigits 2 v.toNat

/-- The number that is meant: `%d` takes it as an `int`. Source: `libpi/libc/va-printk.c`
`va_printk`. Kind: D -/
def number : WordConv → UInt32 → Int
  | d, v => v.toInt32.toInt
  | _, v => v.toNat

/-- The conversion of the format. Source: `libpi/libc/va-printk.c` `va_printk`. Kind: D -/
def conv : WordConv → UInt32 → Conv
  | d, v => .d v
  | u, v => .u v
  | x, v => .x v
  | p, v => .p v
  | b, v => .b v

end WordConv

/-- The byte of a character. Source: `libpi/libc/va-printk.c` `emit`. Kind: D -/
def charByte (c : Char) : UInt8 := c.toNat.toUInt8

/-- The value of an `int`. Source: `libpi/libc/va-printk.c` `emit`. Kind: L -/
theorem toInt_eq (v : UInt32) : v.toInt32.toInt =
    if v.toNat < 2 ^ 31 then (v.toNat : Int) else -((2 ^ 32 - v.toNat : Nat) : Int) := by
  have hlt := v.toNat_lt
  have hint : v.toInt32.toInt =
      if 2 * v.toNat < 2 ^ 32 then (v.toNat : Int) else v.toNat - (2 ^ 32 : Nat) :=
    BitVec.toInt_eq_toNat_cond v.toBitVec
  rw [hint]
  split <;> split <;> omega

/-- The numeral of an `int`. Source: `libpi/libc/va-printk.c` `emit`. Kind: L -/
theorem intText_eq_repr (v : UInt32) : intText v = v.toInt32.toInt.repr.toList.map charByte := by
  have hlt := v.toNat_lt
  unfold intText
  by_cases hpos : v.toNat < 2 ^ 31
  · rw [if_pos hpos, toInt_eq, if_pos hpos, digitText_eq_toDigits (by decide) (by decide)]
    simp [Int.repr, Nat.repr, charByte]
  · have hneg : v.toInt32.toInt = Int.negSucc (2 ^ 32 - v.toNat - 1) := by
      rw [toInt_eq, if_neg hpos]
      omega
    have hsucc : (2 ^ 32 - v.toNat - 1).succ = 2 ^ 32 - v.toNat := by omega
    rw [if_neg hpos, hneg, digitText_eq_toDigits (by decide) (by decide)]
    simp only [Int.repr, hsucc, Nat.repr, String.toList_append, String.toList_ofList]
    rfl

/-- **The text is the numeral** behind spaces. Source: `libpi/libc/va-printk.c` `emit`. Kind: P -/
theorem WordConv.text_eq (k : WordConv) (v : UInt32) (width : Nat) :
    (k.conv v).text width = padLeft width ((k.numeral v).map charByte) := by
  have hdigits : ∀ {base : Nat}, 1 < base → base ≤ 16 → ∀ n,
      digitText base n = (Nat.toDigits base n).map charByte := digitText_eq_toDigits
  cases k with
  | d => rw [conv, Conv.text, intText_eq_repr]; rfl
  | u => rw [conv, Conv.text, hdigits (by decide) (by decide)]; rfl
  | x => rw [conv, Conv.text, hexText, hdigits (by decide) (by decide)]; rfl
  | p => rw [conv, Conv.text, hexText, hdigits (by decide) (by decide)]; rfl
  | b => rw [conv, Conv.text, hdigits (by decide) (by decide)]; rfl

/-! ## Reading back -/

/-- The digit that a character stands for. Source: `libpi/libc/va-printk.c` `emit`. Kind: D -/
def digitOf (c : UInt8) : Option Nat := digitTable.idxOf? c

/-- The digits of a text. Source: `libpi/libc/va-printk.c` `emit`. Kind: D -/
def readDigits (base : Nat) : List UInt8 → Option (List Nat)
  | [] => some []
  | c :: t => do
    let d ← digitOf c
    let ds ← readDigits base t
    if d < base then some (d :: ds) else none

/-- The number that a text of digits denotes. Source: `libpi/libc/va-printk.c` `emit`. Kind: D -/
def readNat (base : Nat) (t : List UInt8) : Option Nat :=
  if t = [] then none else (readDigits base t).map (value base)

/-- A number behind its sign. Source: `libpi/libc/va-printk.c` `emit`. Kind: D -/
def readInt : List UInt8 → Option Int
  | 0x2d :: t => (readNat 10 t).map fun n : Nat => -(n : Int)
  | t => (readNat 10 t).map fun n : Nat => (n : Int)

/-- A number behind `0x`. Source: `libpi/libc/va-printk.c` `emit`. Kind: D -/
def readHex : List UInt8 → Option Int
  | 0x30 :: 0x78 :: t => (readNat 16 t).map fun n : Nat => (n : Int)
  | _ => none

/-- The number that a text denotes, behind spaces. Source: `libpi/libc/va-printk.c` `va_printk`.
Kind: D -/
def WordConv.read (k : WordConv) (t : List UInt8) : Option Int :=
  let t := t.dropWhile (· == 0x20)
  match k with
  | d => readInt t
  | u => (readNat 10 t).map fun n : Nat => (n : Int)
  | x => readHex t
  | p => readHex t
  | b => (readNat 2 t).map fun n : Nat => (n : Int)

section

variable {base n : Nat}

/-- Source: `libpi/libc/va-printk.c` `emit`. Kind: L -/
theorem digitOf_digitByte {d : Nat} (hd : d < 16) : digitOf (digitByte d) = some d := by
  have hall : ∀ d < 16, digitOf (digitByte d) = some d := by decide
  exact hall d hd

/-- Source: `libpi/libc/va-printk.c` `emit`. Kind: L -/
theorem readDigits_map (hb : base ≤ 16) {ds : List Nat} (h : ∀ d ∈ ds, d < base) :
    readDigits base (ds.map digitByte) = some ds := by
  induction ds with
  | nil => rfl
  | cons d ds ih =>
      have hd : d < base := h d List.mem_cons_self
      have hds := ih fun e he => h e (List.mem_cons_of_mem d he)
      simp [readDigits, digitOf_digitByte (show d < 16 by omega), hds, hd]

/-- A digit for each character. Source: `libpi/libc/va-printk.c` `emit`. Kind: L -/
theorem readDigits_some {t : List UInt8} {ds : List Nat} (h : readDigits base t = some ds) :
    ds.length = t.length ∧ ∀ d ∈ ds, d < base := by
  induction t generalizing ds with
  | nil =>
      obtain rfl : [] = ds := Option.some.inj h
      simp
  | cons c t ih =>
      obtain ⟨d, -, es, hes, hd, rfl⟩ : ∃ d, digitOf c = some d ∧
          ∃ es, readDigits base t = some es ∧ d < base ∧ d :: es = ds := by
        simpa [readDigits, Option.bind_eq_some_iff] using h
      obtain ⟨hlen, hlt⟩ := ih hes
      exact ⟨by simp [hlen], by simpa [hd] using hlt⟩

/-- A numeral denotes its number. Source: `libpi/libc/va-printk.c` `emit`. Kind: P -/
theorem readNat_digitText (hb : 1 < base) (hb' : base ≤ 16) (n : Nat) :
    readNat base (digitText base n) = some n := by
  have hne : digitText base n ≠ [] := by
    simpa [digitText] using numeral_ne_nil hb n
  rw [readNat, if_neg hne, digitText, readDigits_map hb' fun d => numeral_lt hb, Option.map_some,
    value_numeral hb]

/-- A text that denotes a number has as many characters as its numeral, or more.
Source: `libpi/libc/va-printk.c` `emit`
Kind: P -/
theorem digitText_shortest (hb : 1 < base) {t : List UInt8} (h : readNat base t = some n) :
    (digitText base n).length ≤ t.length := by
  unfold readNat at h
  split at h
  · cases h
  · rename_i hne
    obtain ⟨ds, hds, rfl⟩ := Option.map_eq_some_iff.mp h
    obtain ⟨hlen, hlt⟩ := readDigits_some hds
    rw [digitText, List.length_map, ← hlen]
    refine numeral_length_le hb hlt ?_
    rintro rfl
    exact hne (List.length_eq_zero_iff.mp hlen.symm)

/-- The characters of a numeral. Source: `libpi/libc/va-printk.c` `emit`. Kind: L -/
theorem not_mem_digitText (hb : 1 < base) (hb' : base ≤ 16) {c : UInt8}
    (hc : ∀ d < 16, digitByte d ≠ c) (n : Nat) : c ∉ digitText base n := by
  intro hmem
  obtain ⟨d, hd, hdc⟩ := List.mem_map.mp hmem
  exact hc d (Nat.lt_of_lt_of_le (numeral_lt hb hd) hb') hdc

/-- A text without a sign. Source: `libpi/libc/va-printk.c` `emit`. Kind: L -/
theorem readInt_of_not_mem {t : List UInt8} (h : 0x2d ∉ t) :
    readInt t = (readNat 10 t).map fun n : Nat => (n : Int) := by
  unfold readInt
  split
  · exact absurd List.mem_cons_self h
  · rfl

/-- Source: `libpi/libc/va-printk.c` `emit`. Kind: L -/
theorem readInt_intText (v : UInt32) : readInt (intText v) = some v.toInt32.toInt := by
  rw [toInt_eq, intText]
  split
  · rw [readInt_of_not_mem (not_mem_digitText (by decide) (by decide) (by decide) _),
      readNat_digitText (by decide) (by decide)]
    rfl
  · rw [readInt, readNat_digitText (by decide) (by decide)]
    rfl

/-- Source: `libpi/libc/va-printk.c` `emit`. Kind: L -/
theorem intText_shortest {v : UInt32} {t : List UInt8} (h : readInt t = some v.toInt32.toInt) :
    (intText v).length ≤ t.length := by
  have hlt := v.toNat_lt
  rw [toInt_eq] at h
  unfold readInt at h
  split at h
  · rename_i t
    obtain ⟨n, hn, hval⟩ := Option.map_eq_some_iff.mp h
    rw [intText, List.length_cons]
    split
    · -- a number that is not negative, behind a sign, is zero
      rename_i hpos
      rw [if_pos hpos] at hval
      have hzero : v.toNat = 0 := by omega
      rw [hzero]
      exact Nat.succ_pos _
    · rename_i hneg
      rw [if_neg hneg] at hval
      obtain rfl : n = 2 ^ 32 - v.toNat := by omega
      rw [List.length_cons]
      exact Nat.succ_le_succ (digitText_shortest (by decide) hn)
  · obtain ⟨n, hn, hval⟩ := Option.map_eq_some_iff.mp h
    rw [intText]
    split
    · rename_i hpos
      rw [if_pos hpos] at hval
      obtain rfl : n = v.toNat := by omega
      exact digitText_shortest (by decide) hn
    · rename_i hneg
      rw [if_neg hneg] at hval
      omega

/-- Source: `libpi/libc/va-printk.c` `emit`. Kind: L -/
theorem hexText_shortest {v : UInt32} {t : List UInt8} (h : readHex t = some (v.toNat : Int)) :
    (hexText v.toNat).length ≤ t.length := by
  unfold readHex at h
  split at h
  · rename_i t
    obtain ⟨n, hn, hval⟩ := Option.map_eq_some_iff.mp h
    obtain rfl : n = v.toNat := by omega
    rw [hexText]
    exact Nat.succ_le_succ (Nat.succ_le_succ (digitText_shortest (by decide) hn))
  · cases h

/-- A text of digits that denotes a word. Source: `libpi/libc/va-printk.c` `emit`. Kind: L -/
theorem readNat_shortest (hb : 1 < base) {v : UInt32} {t : List UInt8}
    (h : (readNat base t).map (fun n : Nat => (n : Int)) = some (v.toNat : Int)) :
    (digitText base v.toNat).length ≤ t.length := by
  obtain ⟨n, hn, hval⟩ := Option.map_eq_some_iff.mp h
  obtain rfl : n = v.toNat := by omega
  exact digitText_shortest hb hn

end

/-- The leading spaces of a text are the ones in front of it. Source: `libpi/libc/va-printk.c` `pad`.
Kind: L -/
theorem dropWhile_padLeft {t : List UInt8} (h : 0x20 ∉ t) (width : Nat) :
    (padLeft width t).dropWhile (· == 0x20) = t := by
  have hspaces : ∀ c ∈ List.replicate (width - t.length) (0x20 : UInt8), (c == 0x20) = true :=
    fun c hc => beq_iff_eq.mpr (List.eq_of_mem_replicate hc)
  rw [padLeft, List.dropWhile_append_of_pos hspaces]
  cases t with
  | nil => rfl
  | cons c t =>
      have hc : c ≠ 0x20 := fun heq => h (heq ▸ List.mem_cons_self)
      rw [List.dropWhile_cons_of_neg (by simpa using hc)]

namespace WordConv

variable (k : WordConv) (v : UInt32)

/-- A numeral has no spaces. Source: `libpi/libc/va-printk.c` `emit`. Kind: L -/
theorem space_not_mem : 0x20 ∉ (k.conv v).text 0 := by
  have hdigits : ∀ {base : Nat}, 1 < base → base ≤ 16 → ∀ n, 0x20 ∉ digitText base n :=
    fun hb hb' => not_mem_digitText hb hb' (by decide)
  cases k with
  | d =>
      simp only [conv, Conv.text, padLeft_zero, intText]
      split
      · exact hdigits (by decide) (by decide) _
      · simpa using hdigits (by decide) (by decide) _
  | u => simpa [conv, Conv.text] using hdigits (by decide) (by decide) _
  | x => simpa [conv, Conv.text, hexText] using hdigits (by decide) (by decide) _
  | p => simpa [conv, Conv.text, hexText] using hdigits (by decide) (by decide) _
  | b => simpa [conv, Conv.text] using hdigits (by decide) (by decide) _

/-- **Reading back.** Source: `libpi/libc/va-printk.c` `va_printk`. Kind: P -/
theorem read_text (width : Nat) : k.read ((k.conv v).text width) = some (k.number v) := by
  have hpad : ∀ t, (k.conv v).text 0 = t → (k.conv v).text width = padLeft width t := by
    rintro t rfl
    rw [text_eq, text_eq, padLeft_zero]
  have hdrop := dropWhile_padLeft (k.space_not_mem v) width
  rw [← hpad _ rfl] at hdrop
  unfold read
  rw [hdrop]
  cases k with
  | d => simpa [conv, Conv.text, number] using readInt_intText v
  | u => simp [conv, Conv.text, readNat_digitText, number]
  | x => simp [conv, Conv.text, hexText, readHex, readNat_digitText, number]
  | p => simp [conv, Conv.text, hexText, readHex, readNat_digitText, number]
  | b => simp [conv, Conv.text, readNat_digitText, number]

/-- No text that denotes the number is shorter than the numeral.
Source: `libpi/libc/va-printk.c` `va_printk`
Kind: P -/
theorem shortest {t : List UInt8} (h : k.read t = some (k.number v)) :
    (k.numeral v).length ≤ t.length := by
  have hdrop := (List.dropWhile_suffix (l := t) (p := (· == 0x20))).length_le
  have htext := congrArg List.length (k.text_eq v 0)
  rw [padLeft_zero, List.length_map] at htext
  refine Nat.le_trans ?_ hdrop
  rw [← htext]
  unfold read at h
  cases k with
  | d => simpa [conv, Conv.text] using intText_shortest h
  | u => simpa [conv, Conv.text] using readNat_shortest (by decide) h
  | x => simpa [conv, Conv.text] using hexText_shortest h
  | p => simpa [conv, Conv.text] using hexText_shortest h
  | b => simpa [conv, Conv.text] using readNat_shortest (by decide) h

end WordConv

/-! ## The calls -/

/-- **Numbers of 32 bits**: a call prints the numeral, behind as many spaces as make up the width;
read in its base it denotes the number, and no shorter text does.
Source: `libpi/libc/va-printk.c` `va_printk`, `emit`, `pad`, `reverse`
Kind: P -/
theorem print_word {m n : Nat} (k : WordConv) (v : UInt32) (digits : List UInt8)
    (hdigits : ∀ c ∈ digits, isDigit c) (hwidth : widthOf digits < 32) (num num1 : Buf UInt8 128)
    (more : List UInt8) (buf : Buf UInt8 m) (hn : 33 ≤ n) (hm : n ≤ m) :
    ∃ buf' r, vaPrintk num num1 buf n (0x25 :: (digits ++ k.spec :: 0 :: more)) [.word v] =
        .ok (buf', r) ∧
      cText buf'.elems = List.replicate (widthOf digits - (k.numeral v).length) 0x20 ++
        (k.numeral v).map charByte ∧
      (cText buf'.elems).length = max (widthOf digits) (k.numeral v).length ∧
      k.read (cText buf'.elems) = some (k.number v) ∧
      ∀ t, k.read t = some (k.number v) → (k.numeral v).length ≤ t.length := by
  have hspec : (k.conv v).spec = [k.spec] := by cases k <;> rfl
  have hpassed : (k.conv v).Passed (.word v) := by cases k <;> rfl
  have hemits : ∃ base signedP, Emits base v signedP ((k.conv v).text 0) := by
    cases k with
    | d => exact ⟨10, true, by simpa [WordConv.conv, Conv.text] using Emits.signed v⟩
    | u => exact ⟨10, false, by simpa [WordConv.conv, Conv.text] using Emits.decimal v⟩
    | x => exact ⟨16, false, by simpa [WordConv.conv, Conv.text] using Emits.hex v⟩
    | p => exact ⟨16, false, by simpa [WordConv.conv, Conv.text] using Emits.hex v⟩
    | b => exact ⟨2, false, by simpa [WordConv.conv, Conv.text] using Emits.binary v⟩
  obtain ⟨base, signedP, hemits⟩ := hemits
  have hlen := hemits.padLeft_length_le hwidth
  rw [k.text_eq, padLeft_zero, ← k.text_eq] at hlen
  obtain ⟨buf', r, hrun, htext⟩ := va_printk_one num num1 more buf hm hdigits hwidth (k.conv v)
    hpassed (by omega)
  rw [hspec] at hrun
  refine ⟨buf', r, hrun, ?_, ?_, ?_, fun t => k.shortest v⟩
  · rw [htext, k.text_eq, padLeft, List.length_map]
  · rw [htext, k.text_eq, padLeft_length, List.length_map]
  · rw [htext, k.read_text]

/-- The least `int`, to 20 characters. Source: `libpi/libc/va-printk.c` `va_printk`. Kind: P -/
theorem print_word_least :
    ∃ buf' r, vaPrintk (.fill 128 0) (.fill 128 0) (.fill 40 0xff) 40
        [0x25, 0x32, 0x30, 0x64, 0] [.word 0x80000000] = .ok (buf', r) ∧
      cText buf'.elems = List.replicate (widthOf [0x32, 0x30] -
        (WordConv.d.numeral 0x80000000).length) 0x20 ++
          (WordConv.d.numeral 0x80000000).map charByte ∧
      (cText buf'.elems).length =
        max (widthOf [0x32, 0x30]) (WordConv.d.numeral 0x80000000).length ∧
      WordConv.d.read (cText buf'.elems) = some (-2147483648) ∧
      ∀ t, WordConv.d.read t = some (-2147483648) →
        (WordConv.d.numeral 0x80000000).length ≤ t.length :=
  print_word .d 0x80000000 [0x32, 0x30] (by decide) (by decide) (.fill 128 0) (.fill 128 0) []
    (.fill 40 0xff) (by decide) (Nat.le_refl 40)

end Cs140e.Libpi
