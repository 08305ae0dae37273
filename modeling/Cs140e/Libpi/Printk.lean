import Cs140e.Libpi.Format

/-!
# Formats and their text

What `va_printk` prints for a format and its arguments, and how a small buffer cuts it. The strings
that are passed lie outside of the buffer.

* `Piece` — a piece of a format; `Piece.fmt` is how it is written and `Piece.text` what it prints.
* `turn_eq`, `run_eq` — one turn of the loop prints one piece as far as there is room, and a run the
  whole format.
* `va_printk_eq` — the function; `va_printk_truncates` — what that means for two buffers.
-/

namespace Cs140e.Libpi

open Cs140e.Lib

/-! ## Pieces of a format -/

/-- The number that the characters of a width denote. Source: `libpi/libc/va-printk.c` `va_printk`.
Kind: D -/
def widthOf (digits : List UInt8) : Nat := value 10 (digits.map fun c => c.toNat - 0x30)

/-- A piece of a format: a character, `%%`, or a conversion with its width.
Source: `libpi/libc/va-printk.c` `va_printk`
Kind: D -/
inductive Piece where
  | lit (c : UInt8) (not_nul : c ≠ 0) (not_percent : c ≠ 0x25)
  | percent
  | conv (digits : List UInt8) (decimal : ∀ c ∈ digits, isDigit c) (small : widthOf digits < 32)
      (cv : Conv)

/-- How a piece is written. Source: `libpi/libc/va-printk.c` `va_printk`. Kind: D -/
def Piece.fmt : Piece → List UInt8
  | .lit c _ _ => [c]
  | .percent => [0x25, 0x25]
  | .conv digits _ _ cv => 0x25 :: (digits ++ cv.spec)

/-- What a piece prints. Source: `libpi/libc/va-printk.c` `va_printk`. Kind: D -/
def Piece.text : Piece → List UInt8
  | .lit c _ _ => [c]
  | .percent => [0x25]
  | .conv digits _ _ cv => cv.text (widthOf digits)

/-- A piece takes its argument, and leaves `args'`. Source: `libpi/libc/va-printk.c` `va_printk`.
Kind: D -/
def Piece.Takes : Piece → (args args' : List VaArg) → Prop
  | .conv _ _ _ cv, args, args' => ∃ a, cv.Passed a ∧ args = a :: args'
  | .lit _ _ _, args, args' => args = args'
  | .percent, args, args' => args = args'

/-- The arguments match the format: each conversion finds its own.
Source: `libpi/libc/va-printk.c` `va_printk`
Kind: D -/
def Matching : List Piece → List VaArg → Prop
  | [], _ => True
  | piece :: pieces, args => ∃ args', piece.Takes args args' ∧ Matching pieces args'

/-- A format. Source: `libpi/libc/va-printk.c` `va_printk`. Kind: D -/
def fmtOf (pieces : List Piece) : List UInt8 := pieces.flatMap Piece.fmt

/-- What a format prints. Source: `libpi/libc/va-printk.c` `va_printk`. Kind: D -/
def textOf (pieces : List Piece) : List UInt8 := pieces.flatMap Piece.text

/-- Source: `libpi/libc/va-printk.c` `va_printk`. Kind: L -/
theorem Piece.fmt_length_pos (piece : Piece) : 0 < piece.fmt.length := by
  cases piece with
  | lit c h h' => exact Nat.one_pos
  | percent => exact Nat.two_pos
  | conv digits h h' cv => exact Nat.succ_pos _

/-- Source: `libpi/libc/va-printk.c` `va_printk`. Kind: L -/
theorem Piece.text_not_nul (piece : Piece) : 0 ∉ piece.text := by
  cases piece with
  | lit c h h' => exact fun hmem => h (List.mem_singleton.mp hmem).symm
  | percent => decide
  | conv digits h h' cv => exact cv.text_not_nul _

/-- Source: `libpi/libc/va-printk.c` `va_printk`. Kind: L -/
theorem textOf_not_nul (pieces : List Piece) : 0 ∉ textOf pieces := by
  intro h
  obtain ⟨piece, -, hmem⟩ := List.mem_flatMap.mp h
  exact piece.text_not_nul hmem

/-! ## One turn -/

/-- A digit that was read. Source: `libpi/libc/va-printk.c` `isdigit`. Kind: L -/
theorem isDigit_iff (c : UInt8) : isDigit c = true ↔ 48 ≤ c.toNat ∧ c.toNat ≤ 57 := by
  rw [isDigit, Bool.and_eq_true, decide_eq_true_iff, decide_eq_true_iff, ge_iff_le,
    UInt8.le_iff_toNat_le, UInt8.le_iff_toNat_le]
  rfl

/-- The width is read up to the specifier. Source: `libpi/libc/va-printk.c` `va_printk`. Kind: L -/
theorem scanWidth_eq {digits : List UInt8} (hdigits : ∀ c ∈ digits, isDigit c) {c : UInt8}
    (hc : isDigit c = false) (more : List UInt8) {width : UInt32} {n : Nat}
    (hn : width.toNat = n % 2 ^ 32) :
    ∃ w, scanWidth width (digits ++ c :: more) = .ok (w, c :: more) ∧
      w.toNat = ((digits.map fun c => c.toNat - 0x30).foldl (fun n d => n * 10 + d) n) % 2 ^ 32 := by
  induction digits generalizing width n with
  | nil => exact ⟨width, by simp [scanWidth, hc], hn⟩
  | cons d digits ih =>
      have hd := hdigits d List.mem_cons_self
      obtain ⟨hge, hle⟩ := (isDigit_iff d).mp hd
      have hnext : (width * 10 + d.toUInt32 - 0x30).toNat = (n * 10 + (d.toNat - 0x30)) % 2 ^ 32 := by
        rw [UInt32.toNat_sub, UInt32.toNat_add, UInt32.toNat_mul, UInt8.toNat_toUInt32, hn]
        simp only [UInt32.reduceToNat]
        omega
      obtain ⟨w, hscan, hw⟩ := ih (fun e he => hdigits e (List.mem_cons_of_mem _ he)) hnext
      refine ⟨w, ?_, by rw [hw, List.map_cons, List.foldl_cons]⟩
      rw [List.cons_append, scanWidth, if_pos hd, hscan]

/-- The copy of a text stops at its end, or when there is no more room.
Source: `libpi/libc/va-printk.c` `va_printk`
Kind: L -/
theorem copyText_eq {m : Nat} {s : CharPtr} {t : List UInt8} {i : Nat} (hs : SpellsFrom s.char i t)
    (hroom : i + t.length < s.room) {buf : Buf UInt8 m} {done rest : List UInt8}
    (hbuf : buf.elems = done ++ rest) (left : Nat) (hleft : left ≤ rest.length) :
    ∃ buf', copyText s i buf done.length left = .ok (buf', (done ++ t.take left).length) ∧
      buf'.elems = done ++ t.take left ++ rest.drop (t.take left).length := by
  induction left generalizing i t buf done rest with
  | zero =>
      refine ⟨buf, by simp [copyText], ?_⟩
      simpa using hbuf
  | succ left ih =>
      rw [copyText, CharPtr.get_lt (by omega), ok_bind]
      cases t with
      | nil =>
          refine ⟨buf, ?_, by simpa using hbuf⟩
          have hzero : s.char i = 0 := hs
          simp [hzero]
      | cons c t =>
          obtain ⟨hchar, hc, hs⟩ := hs
          obtain ⟨buf₁, hwrite, hbuf₁⟩ := Buf.write_append hbuf [c] (by
            rw [List.length_singleton]
            omega)
          obtain ⟨buf', hcopy, hbuf'⟩ := ih hs (by rw [List.length_cons] at hroom; omega) hbuf₁
            (by rw [List.length_drop, List.length_singleton]; omega)
          refine ⟨buf', ?_, ?_⟩
          · rw [hchar, if_pos (bne_iff_ne.mpr hc), hwrite, inBounds_some, ok_bind]
            rw [List.length_append, List.length_singleton] at hcopy
            rw [hcopy]
            simp
          · rw [hbuf', List.take_succ_cons]
            simp

/-- A specifier starts neither with a digit nor with `%`. Source: `libpi/libc/va-printk.c`
`va_printk`. Kind: L -/
theorem Conv.spec_head (cv : Conv) :
    ∃ c cs, cv.spec = c :: cs ∧ isDigit c = false ∧ c ≠ 0x25 := by
  cases cv <;> exact ⟨_, _, rfl, by decide, by decide⟩

/-- Behind `%` comes another character than `%`. Source: `libpi/libc/va-printk.c` `va_printk`.
Kind: L -/
theorem conv_head {digits : List UInt8} (hdigits : ∀ c ∈ digits, isDigit c) (cv : Conv)
    (more : List UInt8) : ∃ c cs, digits ++ (cv.spec ++ more) = c :: cs ∧ c ≠ 0x25 := by
  cases digits with
  | nil =>
      obtain ⟨c, cs, hspec, -, hc⟩ := cv.spec_head
      exact ⟨c, cs ++ more, by rw [hspec]; rfl, hc⟩
  | cons d digits =>
      refine ⟨d, _, rfl, ?_⟩
      rintro rfl
      exact absurd (hdigits 0x25 List.mem_cons_self) (by decide)

/-- What is written of a text when `n - 1` characters have room.
Source: `libpi/libc/va-printk.c` `va_printk`
Kind: D -/
def cut (n : Nat) (done t : List UInt8) : List UInt8 := t.take (n - 1 - done.length)

/-- A text is cut piece by piece. Source: `libpi/libc/va-printk.c` `va_printk`. Kind: L -/
theorem cut_append (n : Nat) (done t u : List UInt8) :
    cut n done (t ++ u) = cut n done t ++ cut n (done ++ cut n done t) u := by
  have hleft : n - 1 - (done ++ cut n done t).length = n - 1 - done.length - t.length := by
    rw [List.length_append, cut, List.length_take]
    omega
  rw [cut, List.take_append, cut, cut, ← cut, hleft]

section

variable {m n : Nat} {num num1 : Buf UInt8 128}

/-- A character is written where there is room for one. Source: `libpi/libc/va-printk.c`
`va_printk`. Kind: L -/
theorem put_char (c : UInt8) {buf : Buf UInt8 m} {done rest : List UInt8}
    (hbuf : buf.elems = done ++ rest) (hleft : done.length + 1 < n) (hm : n ≤ m) :
    cut n done [c] = [c] ∧ ∃ buf', buf.write done.length [c] = some buf' ∧
      buf'.elems = done ++ [c] ++ rest.drop 1 := by
  have hsize := buf.size
  rw [hbuf, List.length_append] at hsize
  constructor
  · rw [cut, List.take_of_length_le (by rw [List.length_singleton]; omega)]
  · exact Buf.write_append hbuf [c] (by rw [List.length_singleton]; omega)

/-- The width of a conversion is the one that is written. Source: `libpi/libc/va-printk.c`
`va_printk`. Kind: L -/
theorem scanWidth_conv {digits : List UInt8} (hdigits : ∀ c ∈ digits, isDigit c)
    (hsmall : widthOf digits < 32) (cv : Conv) (more : List UInt8) :
    ∃ w, scanWidth 0 (digits ++ (cv.spec ++ more)) = .ok (w, cv.spec ++ more) ∧
      w.toNat = widthOf digits ∧ w < 32 := by
  obtain ⟨c, cs, hspec, hc, -⟩ := cv.spec_head
  obtain ⟨w, hscan, hw⟩ := scanWidth_eq hdigits hc (cs ++ more)
    (rfl : (0 : UInt32).toNat = 0 % 2 ^ 32)
  have hwidth : w.toNat = widthOf digits := by
    rw [hw]
    exact Nat.mod_eq_of_lt (Nat.lt_of_lt_of_le hsmall (by decide))
  refine ⟨w, by rw [hspec]; exact hscan, hwidth, ?_⟩
  rw [UInt32.lt_iff_toNat_lt, hwidth]
  exact hsmall

variable (num num1) in
/-- **One turn** prints a piece as far as there is room, and takes its arguments.
Source: `libpi/libc/va-printk.c` `va_printk`
Kind: P -/
theorem turn_eq {piece : Piece} {args args' : List VaArg} (hargs : piece.Takes args args')
    (fuel : Nat) (more : List UInt8) {buf : Buf UInt8 m} {done rest : List UInt8}
    (hbuf : buf.elems = done ++ rest) (hleft : done.length + 1 < n) (hm : n ≤ m) :
    ∃ buf', vaPrintkFrom num num1 n (fuel + 1) (piece.fmt ++ more) args buf done.length =
        vaPrintkFrom num num1 n fuel more args' buf' (done ++ cut n done piece.text).length ∧
      buf'.elems = done ++ cut n done piece.text ++ rest.drop (cut n done piece.text).length := by
  cases piece with
  | lit c hc hc' =>
      obtain rfl := hargs
      obtain ⟨hone, buf', hwrite, hbuf'⟩ := put_char c hbuf hleft hm
      refine ⟨buf', ?_, by rw [Piece.text, hone]; exact hbuf'⟩
      rw [Piece.text, hone]
      simp [vaPrintkFrom, Piece.fmt, hc, hc', hleft, hwrite]
  | percent =>
      obtain rfl := hargs
      obtain ⟨hone, buf', hwrite, hbuf'⟩ := put_char 0x25 hbuf hleft hm
      refine ⟨buf', ?_, by rw [Piece.text, hone]; exact hbuf'⟩
      rw [Piece.text, hone]
      simp [vaPrintkFrom, Piece.fmt, hleft, hwrite]
  | conv digits hdigits hsmall cv =>
      obtain ⟨a, ha, rfl⟩ := hargs
      obtain ⟨c, cs, hhead, hc⟩ := conv_head hdigits cv more
      obtain ⟨w, hscan, hwidth, hlt⟩ := scanWidth_conv hdigits hsmall cv more
      obtain ⟨q, hconvert, hroom, hq⟩ := convert_eq hsmall num num1 ha more args'
      have hsize := buf.size
      rw [hbuf, List.length_append] at hsize
      obtain ⟨buf', hcopy, hbuf'⟩ := copyText_eq (t := cv.text (widthOf digits)) (i := 0) hq
        (by omega) hbuf (n - 1 - done.length) (by omega)
      refine ⟨buf', ?_, hbuf'⟩
      have hfmt : (Piece.conv digits hdigits hsmall cv).fmt ++ more =
          0x25 :: (digits ++ (cv.spec ++ more)) := by
        rw [Piece.fmt, List.cons_append, List.append_assoc]
      rw [hfmt, vaPrintkFrom]
      have hsecond : (0x25 :: (digits ++ (cv.spec ++ more)))[1]? = some c := by rw [hhead]; rfl
      simp [hsecond, hc, hleft, hscan, hlt, hwidth, hconvert, hcopy, cut, Piece.text]

/-! ## Whole formats -/

/-- The loop ends at the NUL of the format, or when there is no more room.
Source: `libpi/libc/va-printk.c` `va_printk`
Kind: L -/
theorem vaPrintkFrom_end {fuel : Nat} {fmt : List UInt8} {c : UInt8} (hhead : fmt.head? = some c)
    (args : List VaArg) (buf : Buf UInt8 m) {p : Nat} (h : c = 0 ∨ ¬ p + 1 < n) :
    vaPrintkFrom num num1 n (fuel + 1) fmt args buf p = .ok (buf, p) := by
  have hstop : ¬ (c != 0 && p + 1 < n) = true := by
    rw [Bool.and_eq_true, bne_iff_ne, decide_eq_true_iff, not_and_or, not_not]
    exact h
  rw [vaPrintkFrom, hhead, inBounds_some, ok_bind, if_neg hstop]
  rfl

variable (num num1) in
/-- **The run** prints the text of the format as far as there is room. (Induction on the format; what
one piece leaves of the room is what the next one finds.)
Source: `libpi/libc/va-printk.c` `va_printk`
Kind: P -/
theorem run_eq {pieces : List Piece} {args : List VaArg} (hargs : Matching pieces args)
    {fuel : Nat} (hfuel : pieces.length < fuel) (more : List UInt8) {buf : Buf UInt8 m}
    {done rest : List UInt8} (hbuf : buf.elems = done ++ rest) (hdone : done.length < n)
    (hm : n ≤ m) :
    ∃ buf', vaPrintkFrom num num1 n fuel (fmtOf pieces ++ 0 :: more) args buf done.length =
        .ok (buf', (done ++ cut n done (textOf pieces)).length) ∧
      buf'.elems = done ++ cut n done (textOf pieces) ++
        rest.drop (cut n done (textOf pieces)).length := by
  induction pieces generalizing args fuel buf done rest with
  | nil =>
      obtain ⟨fuel, rfl⟩ := Nat.exists_eq_add_one_of_ne_zero (Nat.ne_of_gt hfuel)
      have hnone : cut n done (textOf []) = [] := List.take_nil
      refine ⟨buf, ?_, by simpa [hnone] using hbuf⟩
      rw [hnone, List.append_nil]
      exact vaPrintkFrom_end rfl args buf (.inl rfl)
  | cons piece pieces ih =>
      obtain ⟨args', htakes, hargs⟩ := hargs
      have hfmt : fmtOf (piece :: pieces) ++ 0 :: more =
          piece.fmt ++ (fmtOf pieces ++ 0 :: more) := by
        rw [fmtOf, List.flatMap_cons, List.append_assoc]
        rfl
      have htext : textOf (piece :: pieces) = piece.text ++ textOf pieces := List.flatMap_cons
      rw [List.length_cons] at hfuel
      obtain ⟨fuel, rfl⟩ := Nat.exists_eq_add_one_of_ne_zero (n := fuel) (by omega)
      by_cases hleft : done.length + 1 < n
      · obtain ⟨buf₁, hturn, hbuf₁⟩ := turn_eq num num1 htakes fuel
          (fmtOf pieces ++ 0 :: more) hbuf hleft hm
        obtain ⟨buf', hrun, hbuf'⟩ := ih hargs (Nat.lt_of_succ_lt_succ hfuel) hbuf₁ (by
          rw [List.length_append, cut, List.length_take]
          omega)
        refine ⟨buf', ?_, ?_⟩
        · rw [hfmt, hturn, hrun, htext, cut_append, List.append_assoc]
        · rw [hbuf', htext, cut_append, List.drop_drop, List.length_append]
          simp only [List.append_assoc]
      · have hnone : cut n done (textOf (piece :: pieces)) = [] := by
          rw [cut, Nat.sub_eq_zero_of_le (by omega), List.take_zero]
        refine ⟨buf, ?_, by simpa [hnone] using hbuf⟩
        obtain ⟨c, cs, hc⟩ := List.exists_cons_of_length_pos piece.fmt_length_pos
        rw [hnone, List.append_nil, hfmt, hc]
        exact vaPrintkFrom_end rfl args buf (.inr hleft)

/-- A format has at least one byte for each piece. Source: `libpi/libc/va-printk.c` `va_printk`.
Kind: L -/
theorem length_le_fmtOf (pieces : List Piece) : pieces.length ≤ (fmtOf pieces).length := by
  induction pieces with
  | nil => exact Nat.le_refl 0
  | cons piece pieces ih =>
      have hpos := piece.fmt_length_pos
      rw [fmtOf, List.flatMap_cons, List.length_append, ← fmtOf, List.length_cons]
      omega

/-- **The function** prints the first `n - 1` characters of the text, and a NUL behind them.
Source: `libpi/libc/va-printk.c` `va_printk`
Kind: P -/
theorem va_printk_eq {pieces : List Piece} {args : List VaArg} (hargs : Matching pieces args)
    (num num1 : Buf UInt8 128) (more : List UInt8) (buf : Buf UInt8 m) (hn : 1 ≤ n) (hm : n ≤ m) :
    ∃ buf', vaPrintk num num1 buf n (fmtOf pieces ++ 0 :: more) args =
        .ok (buf', ((textOf pieces).take (n - 1)).length + 1) ∧
      buf'.elems = (textOf pieces).take (n - 1) ++
        0 :: buf.elems.drop (((textOf pieces).take (n - 1)).length + 1) := by
  have hsize := buf.size
  have hlen : ((textOf pieces).take (n - 1)).length < n := by
    rw [List.length_take]
    omega
  obtain ⟨buf₁, hfirst, hbuf₁⟩ := Buf.write_append (b := buf) (List.nil_append _).symm [0] (by
    rw [List.length_singleton]
    omega)
  have hfuel : pieces.length < (fmtOf pieces ++ 0 :: more).length := by
    have := length_le_fmtOf pieces
    rw [List.length_append, List.length_cons]
    omega
  have hstart : buf₁.elems = [] ++ (0 :: buf.elems.drop 1) := hbuf₁
  obtain ⟨buf₂, hrun, hbuf₂⟩ := run_eq num num1 hargs hfuel more hstart hn hm
  have hcut : cut n [] (textOf pieces) = (textOf pieces).take (n - 1) := rfl
  rw [hcut, List.nil_append] at hrun hbuf₂
  obtain ⟨buf₃, hlast, hbuf₃⟩ := Buf.write_append hbuf₂ [0] (by
    simp only [List.length_drop, List.length_cons, List.length_nil]
    omega)
  refine ⟨buf₃, ?_, ?_⟩
  · rw [vaPrintk]
    simp only [List.length_nil] at hfirst hrun
    rw [hfirst, inBounds_some, ok_bind, hrun, ok_bind]
    show (inBounds (buf₂.write _ [0]) >>= _) = _
    rw [hlast]
    rfl
  · rw [hbuf₃]
    simp

/-- A call with one conversion, in a buffer with room for its text.
Source: `libpi/libc/va-printk.c` `va_printk`
Kind: L -/
theorem va_printk_one (num num1 : Buf UInt8 128) (more : List UInt8) (buf : Buf UInt8 m)
    (hm : n ≤ m) {digits : List UInt8} (hdigits : ∀ c ∈ digits, isDigit c) (hsmall : widthOf digits < 32)
    (cv : Conv) {a : VaArg} (ha : cv.Passed a) (hroom : (cv.text (widthOf digits)).length < n) :
    ∃ buf' r, vaPrintk num num1 buf n (0x25 :: (digits ++ (cv.spec ++ 0 :: more))) [a] =
        .ok (buf', r) ∧ cText buf'.elems = cv.text (widthOf digits) := by
  have hargs : Matching [.conv digits hdigits hsmall cv] [a] := ⟨[], ⟨a, ha, rfl⟩, trivial⟩
  obtain ⟨buf', hrun, helems⟩ := va_printk_eq hargs num num1 more buf (by omega) hm
  have htext : textOf [.conv digits hdigits hsmall cv] = cv.text (widthOf digits) := by
    rw [textOf, List.flatMap_singleton]
    rfl
  have hfmt : fmtOf [.conv digits hdigits hsmall cv] ++ 0 :: more =
      0x25 :: (digits ++ (cv.spec ++ 0 :: more)) := by
    rw [fmtOf, List.flatMap_singleton, Piece.fmt, List.cons_append, List.append_assoc]
  rw [htext, List.take_of_length_le (by omega)] at hrun helems
  rw [hfmt] at hrun
  exact ⟨buf', _, hrun, by rw [helems, cText_append (cv.text_not_nul _)]⟩

/-! ## Truncation -/

/-- A call with `n` bytes of the buffer `buf` that leaves `buf'` and returns `r`: nothing behind the
`n` bytes is touched, a NUL stands in them, and `r` counts the string and its NUL.
Source: `libpi/libc/va-printk.c` `va_printk`; `libpi/libc/snprintk.c` `snprintk`
Kind: D -/
structure Bounded (n : Nat) (buf buf' : Buf UInt8 m) (r : Nat) : Prop where
  frame : buf'.elems.drop n = buf.elems.drop n
  nul : 0 ∈ buf'.elems.take n
  count : r = (cText buf'.elems).length + 1

/-- The first characters of the text and a NUL are such a result.
Source: `libpi/libc/va-printk.c` `va_printk`
Kind: L -/
theorem bounded_of_elems {buf buf' : Buf UInt8 m} {t : List UInt8} (ht : 0 ∉ t)
    (hlen : t.length < n)
    (helems : buf'.elems = t ++ 0 :: buf.elems.drop (t.length + 1)) :
    Bounded n buf buf' (t.length + 1) where
  frame := by
    obtain ⟨k, rfl⟩ := Nat.exists_eq_add_of_lt hlen
    have happend : buf'.elems = (t ++ [0]) ++ buf.elems.drop (t.length + 1) := by
      rw [helems, List.append_assoc]
      rfl
    have hcount : t.length + k + 1 = (t ++ [0]).length + k := by
      rw [List.length_append, List.length_singleton]
      omega
    rw [happend, hcount, List.drop_length_add_append, List.drop_drop, List.length_append,
      List.length_singleton]
  nul := by
    obtain ⟨k, rfl⟩ := Nat.exists_eq_add_of_lt hlen
    rw [helems, Nat.add_assoc, List.take_length_add_append, List.take_succ_cons]
    exact List.mem_append_right _ List.mem_cons_self
  count := by rw [helems, cText_append ht]

/-- **Truncation**: the call writes in its `n` bytes only, ends the text with a NUL and counts it; the
text is the first `n - 1` characters of the text for a larger buffer. (`buf` may have `n` bytes and
no more. A `%c` that prints a NUL prints nothing, so the count is right for it, too.)
Source: `libpi/libc/va-printk.c` `va_printk`; `libpi/libc/snprintk.c` `snprintk`
Kind: P -/
theorem va_printk_truncates (pieces : List Piece) (args : List VaArg)
    (hargs : Matching pieces args) (num num1 : Buf UInt8 128) (more : List UInt8)
    (buf : Buf UInt8 m) (hn : 1 ≤ n) (hm : n ≤ m) :
    ∃ buf' r, vaPrintk num num1 buf n (fmtOf pieces ++ 0 :: more) args = .ok (buf', r) ∧
      Bounded n buf buf' r ∧
      ∀ {m₂ n₂ : Nat} (num₂ num1₂ : Buf UInt8 128) (buf₂ : Buf UInt8 m₂), n ≤ n₂ → n₂ ≤ m₂ →
        ∃ buf₂' r₂,
          vaPrintk num₂ num1₂ buf₂ n₂ (fmtOf pieces ++ 0 :: more) args = .ok (buf₂', r₂) ∧
            cText buf'.elems = (cText buf₂'.elems).take (n - 1) := by
  have hnul : ∀ k, 0 ∉ (textOf pieces).take k := fun k hmem =>
    textOf_not_nul pieces (List.mem_of_mem_take hmem)
  obtain ⟨buf', hrun, helems⟩ := va_printk_eq hargs num num1 more buf hn hm
  refine ⟨buf', _, hrun, bounded_of_elems (hnul _) ?_ helems, ?_⟩
  · rw [List.length_take]
    omega
  · intro m₂ n₂ num₂ num1₂ buf₂ hle hm₂
    obtain ⟨buf₂', hrun₂, helems₂⟩ := va_printk_eq hargs num₂ num1₂ more buf₂ (by omega) hm₂
    refine ⟨buf₂', _, hrun₂, ?_⟩
    rw [helems, helems₂, cText_append (hnul _), cText_append (hnul _), List.take_take,
      Nat.min_eq_left (by omega)]

/-- `a%d` cut to two bytes: the text is `a`, the first character of the whole text.
Source: `libpi/libc/va-printk.c` `va_printk`
Kind: P -/
theorem va_printk_truncates_number :
    vaPrintk (.fill 128 0) (.fill 128 0) (.fill 4 0xff) 4 [0x61, 0x25, 0x64, 0] [.word 7] =
        .ok (⟨[0x61, 0x37, 0, 0xff], rfl⟩, 3) ∧
      ∃ buf' r, vaPrintk (.fill 128 0) (.fill 128 0) (.fill 4 0xff) 2 [0x61, 0x25, 0x64, 0]
        [.word 7] = .ok (buf', r) ∧ Bounded 2 (.fill 4 0xff) buf' r ∧ cText buf'.elems = [0x61] := by
  have hwhole : vaPrintk (.fill 128 0) (.fill 128 0) (.fill 4 0xff) 4 [0x61, 0x25, 0x64, 0] [.word 7] =
      .ok (⟨[0x61, 0x37, 0, 0xff], rfl⟩, 3) := by
    rfl
  obtain ⟨buf', r, hrun, hbounded, hlarger⟩ := va_printk_truncates
    [.lit 0x61 (by decide) (by decide), .conv [] (by simp) (by decide) (.d 7)] [.word 7]
    ⟨_, rfl, _, ⟨_, rfl, rfl⟩, trivial⟩ (.fill 128 0) (.fill 128 0) [] (.fill 4 0xff) (by decide)
    (show 2 ≤ 4 by decide)
  obtain ⟨buf₂, r₂, hrun₂, htext⟩ := hlarger (.fill 128 0) (.fill 128 0) (.fill 4 0xff)
    (show 2 ≤ 4 by decide) (Nat.le_refl 4)
  obtain ⟨rfl, -⟩ := Prod.mk.inj (Except.ok.inj (hrun₂.symm.trans hwhole))
  exact ⟨hwhole, buf', r, hrun, hbounded, htext⟩

end

end Cs140e.Libpi
