import Cs140e.Esp.LexView
import Cs140e.Esp.Parse
import Mathlib.Data.List.DropRight

/-!
# The parser's functions on a view

What each function of `esp-parse.c` does, as a function of the unread part of the stream.

* `Lexing R` — what the functions that look for the end of a line ask of a description of worlds by
  views; `Lexing.*` — what they do, under any such description.
* `matchEol` is the one function whose result depends on the cutting: it eats the end-of-line
  characters that happen to be buffered. `EolRun v r v'` says how far it may have got.
* `skipBlankLines_ends` — skipping blank lines undoes that: what is left after the blanks of its
  result is the stream from its first character that is neither a blank nor an end of line.
* `matchUint_ends` — reading a numeral. `*_settles` — everything else is independent of the
  cutting, by the rules for `Settles`.
-/

namespace Cs140e.Esp

open Cs140e.Lib Cs140e.Lib.Prog

/-- A blank or an end of line. Source: `esp-parse.c` `is_space_ch`, `is_eol_ch`. Kind: D -/
def isBlankCh (ch : UInt8) : Bool := isSpaceCh ch || isEolCh ch

/-- No character is both. Source: `esp-parse.c` `is_space_ch`, `is_eol_ch`. Kind: L -/
theorem isSpaceCh_of_isEolCh {c : UInt8} (h : isEolCh c = true) : isSpaceCh c = false := by
  simp only [isEolCh, Bool.or_eq_true, beq_iff_eq] at h
  rcases h with rfl | rfl <;> rfl

/-- An end of line is passed over with the blanks. Source: `esp-parse.c` `skip_blank_lines`.
Kind: L -/
theorem isBlankCh_of_isEolCh (c : UInt8) (h : isEolCh c = true) : isBlankCh c = true := by
  unfold isBlankCh
  rw [h, Bool.or_true]

/-- Dropping blanks first changes nothing. Source: none: infrastructure. Kind: L -/
theorem dropWhile_isSpaceCh_isBlankCh (r : List UInt8) :
    (r.dropWhile isSpaceCh).dropWhile isBlankCh = r.dropWhile isBlankCh := by
  induction r with
  | nil => rfl
  | cons c r ih =>
      by_cases hc : isSpaceCh c
      · rw [List.dropWhile_cons_of_pos hc, ih, List.dropWhile_cons_of_pos (by simp [isBlankCh, hc])]
      · rw [List.dropWhile_cons_of_neg (by simpa using hc)]

/-- What is left after dropping is no longer than what there was. Source: none: infrastructure.
Kind: L -/
theorem length_le_of_dropWhile {p : UInt8 → Bool} {r : List UInt8} {c : UInt8} {s : List UInt8}
    (h : r.dropWhile p = c :: s) : s.length < r.length := by
  have := (List.dropWhile_suffix p (l := r)).length_le
  rw [h, List.length_cons] at this
  omega

/-- Dropping stops at the first character that is kept. Source: none: infrastructure. Kind: L -/
theorem dropWhile_append_cons {p : UInt8 → Bool} {l r : List UInt8} {c : UInt8}
    (hl : ∀ x ∈ l, p x = true) (hc : p c = false) : (l ++ c :: r).dropWhile p = c :: r := by
  rw [List.dropWhile_append_of_pos hl, List.dropWhile_cons_of_neg (by simp [hc])]

/-- Blanks in front of an end of line. Source: `esp-parse.c` `skip_blank_space`. Kind: L -/
theorem dropWhile_blank_eol {l r : List UInt8} {e : UInt8} (hl : ∀ x ∈ l, isSpaceCh x = true)
    (he : isEolCh e = true) : (l ++ e :: r).dropWhile isSpaceCh = e :: r :=
  dropWhile_append_cons hl (isSpaceCh_of_isEolCh he)

variable {v : View} {c : UInt8} {r s : List UInt8}

/-! ## Relations that follow the lexer -/

/-- A description of worlds by views that follows the lexer forwards, and back over blanks.
Source: `esp-lex-simple.h` `lex_t`
Kind: D -/
structure Lexing (R : View → World → Prop) : Prop where
  getc {v : View} {c : UInt8} {r : List UInt8} (hr : v.rest = c :: r) :
    Ends R lexGetc v (.ok c) (· = v.seek r)
  peek {v : View} {c : UInt8} {r : List UInt8} (hr : v.rest = c :: r) :
    Ends R lexPeek v (.ok c) (· = v)
  ckpt {v : View} {α : Type} {k : Nat → Prog World Stop α} {o : Except Stop α} {Q : View → Prop}
    (hk : v.rest <:+ v.all → Ends R (k v.pos) v o Q) : Ends R (lexGetCkpt.bind k) v o Q
  restore {v : View} {α : Type} {k : Unit → Prog World Stop α} {o : Except Stop α}
    {Q : View → Prop} (hsuf : v.rest <:+ v.all) (hk : Ends R (k ()) v o Q) :
    Ends R ((lexRestoreCkpt v.pos).bind k) (v.seek (v.rest.dropWhile isSpaceCh)) o Q

/-- `Reads` does. Source: `esp-lex-simple.h` `lex_t`. Kind: L -/
theorem lexing_reads : Lexing Reads where
  getc := lexGetc_ends
  peek := lexPeek_ends
  ckpt := lexGetCkpt_ends
  restore hsuf hk :=
    lexRestoreCkpt_ends hsuf ⟨rfl, (List.dropWhile_suffix isSpaceCh).length_le⟩ hk

section

variable {R : View → World → Prop} {Q : View → Prop}

/-- Source: `esp-parse.c` `is_space`. Kind: L -/
theorem Lexing.isSpace (h : Lexing R) (hr : v.rest = c :: r) :
    Ends R isSpace v (.ok (isSpaceCh c)) (· = v) :=
  (h.peek hr).seq (.ret rfl)

/-- Source: `esp-parse.c` `is_eol`. Kind: L -/
theorem Lexing.isEol (h : Lexing R) (hr : v.rest = c :: r) :
    Ends R isEol v (.ok (isEolCh c)) (· = v) :=
  (h.peek hr).seq (.ret rfl)

/-- Skipping blanks stops at the first character that is not one.
Source: `esp-parse.c` `skip_blank_space`
Kind: P -/
theorem Lexing.skipBlankSpace (h : Lexing R) (hs : v.rest.dropWhile isSpaceCh = c :: r) :
    Ends R skipBlankSpace v (.ok ()) (· = v.seek (c :: r)) := by
  induction hv : v.rest generalizing v with
  | nil => simp [hv] at hs
  | cons d s ih =>
      by_cases hd : isSpaceCh d
      · refine Ends.while_true (by simpa [hd] using h.isSpace hv)
          ((h.getc hv).seq (.ret rfl)) ?_
        rintro _ rfl
        rw [hv, List.dropWhile_cons_of_pos hd] at hs
        exact ih (v := v.seek s) hs rfl
      · rw [hv, List.dropWhile_cons_of_neg (by simpa using hd)] at hs
        have hstay : v.seek (c :: r) = v := by rw [← hs, ← hv, View.seek_self]
        rw [hstay]
        exact Ends.while_false (by simpa [hd] using h.isSpace hv)

/-- The end-of-line characters that `match_eol` consumes. Source: `esp-parse.c` `match_eol`.
Kind: D -/
def eatEols : Prog World Stop Unit := do
  let _ ← lexGetc
  whileDo bufferedEol (do let _ ← lexGetc)

/-- `match_eol` at an end of line. Source: `esp-parse.c` `match_eol`. Kind: P -/
theorem Lexing.matchEol_true (h : Lexing R) (hs : v.rest.dropWhile isSpaceCh = c :: r)
    (hc : isEolCh c = true) (heat : Ends R eatEols (v.seek (c :: r)) (.ok ()) Q) :
    Ends R matchEol v (.ok true) Q := by
  unfold matchEol
  simp only [bind_eq_seq, pure_eq_ret]
  refine h.ckpt fun _ => ?_
  refine (h.skipBlankSpace hs).seq ?_
  refine (h.isEol rfl).seq ?_
  rw [hc]
  have hthen := heat.bind (f := fun _ => (ret true : Prog World Stop Bool)) fun _ hq => .ret hq
  rwa [eatEols, bind_eq_seq, seq_seq] at hthen

/-- `match_eol` elsewhere consumes nothing. Source: `esp-parse.c` `match_eol`. Kind: L -/
theorem Lexing.matchEol_false (h : Lexing R) (hs : v.rest.dropWhile isSpaceCh = c :: r)
    (hc : isEolCh c = false) : Ends R matchEol v (.ok false) (· = v) := by
  unfold matchEol
  simp only [bind_eq_seq, pure_eq_ret]
  apply h.ckpt
  intro hsuf
  refine (h.skipBlankSpace hs).seq ?_
  refine (h.isEol rfl).seq ?_
  rw [hc, ← hs]
  exact h.restore hsuf (.ret rfl)

/-- `match_blank_line` on a blank line. Source: `esp-parse.c` `match_blank_line`. Kind: P -/
theorem Lexing.matchBlankLine_true (h : Lexing R) (hs : v.rest.dropWhile isSpaceCh = c :: r)
    (hc : isEolCh c = true) (heat : Ends R eatEols (v.seek (c :: r)) (.ok ()) Q) :
    Ends R matchBlankLine v (.ok true) Q := by
  unfold matchBlankLine
  simp only [bind_eq_seq, pure_eq_ret]
  refine h.ckpt fun _ => ?_
  refine (h.skipBlankSpace hs).seq ?_
  have hdrop : (c :: r).dropWhile isSpaceCh = c :: r := dropWhile_blank_eol (l := []) (by simp) hc
  refine (h.matchEol_true (v := v.seek (c :: r)) hdrop hc heat).bind ?_
  intro v' hv'
  exact .ret hv'

/-- `match_blank_line` elsewhere consumes nothing. Source: `esp-parse.c` `match_blank_line`.
Kind: L -/
theorem Lexing.matchBlankLine_false (h : Lexing R) (hs : v.rest.dropWhile isSpaceCh = c :: r)
    (hc : isEolCh c = false) : Ends R matchBlankLine v (.ok false) (· = v) := by
  have hdrop : (c :: r).dropWhile isSpaceCh = c :: r := by
    rw [← hs]
    exact List.dropWhile_idempotent isSpaceCh v.rest
  unfold matchBlankLine
  simp only [bind_eq_seq, pure_eq_ret]
  apply h.ckpt
  intro hsuf
  refine (h.skipBlankSpace hs).seq ?_
  refine (h.matchEol_false (v := v.seek (c :: r)) hdrop hc).seq ?_
  rw [← hs]
  exact h.restore hsuf (.ret rfl)

end

/-! ## Blanks -/

/-- Skipping blanks stops at the first character that is not one.
Source: `esp-parse.c` `skip_blank_space`
Kind: P -/
theorem skipBlankSpace_ends (h : v.rest.dropWhile isSpaceCh = c :: r) :
    Ends Reads skipBlankSpace v (.ok ()) (· = v.seek (c :: r)) :=
  lexing_reads.skipBlankSpace h

/-- Skipping blanks waits for a character that is not one. Source: `esp-parse.c`
`skip_blank_space`. Kind: L -/
theorem skipBlankSpace_block (h : v.rest.dropWhile isSpaceCh = []) :
    Ends Reads skipBlankSpace v (.error .block) (· = v.seek []) := by
  induction hv : v.rest generalizing v with
  | nil =>
      have hstay : v.seek [] = v := by rw [← hv, View.seek_self]
      rw [hstay]
      exact Ends.while_error (lexPeek_block hv).bind_error
  | cons d s ih =>
      have hd : isSpaceCh d = true := by
        by_contra hd
        rw [hv, List.dropWhile_cons_of_neg hd] at h
        simp at h
      refine Ends.while_true (by simpa [hd] using lexing_reads.isSpace hv)
        ((lexGetc_ends hv).seq (.ret rfl)) ?_
      rintro _ rfl
      rw [hv, List.dropWhile_cons_of_pos hd] at h
      exact ih (v := v.seek s) h rfl

/-! ## Ends of lines -/

/-- Some of the end-of-line characters that start `r` have been consumed.
Source: `esp-parse.c` `match_eol`
Kind: D -/
def EolRun (v : View) (r : List UInt8) (v' : View) : Prop :=
  ∃ e r', r = e ++ r' ∧ (∀ c ∈ e, isEolCh c) ∧ v' = v.seek r'

/-- With nothing buffered, none is found. Source: `esp-parse.c` `match_eol`. Kind: L -/
theorem bufferedEol_none {w : World} (h : w.lex.pos = w.lex.stream.length) :
    Runs bufferedEol w (.ok false) w := by
  simp only [bufferedEol, bind_eq_seq, runs_lexNstream_iff (Nat.le_of_eq h)]
  simp [h]

/-- Otherwise the next character is looked at, and nothing is read. Source: `esp-parse.c`
`match_eol`. Kind: L -/
theorem bufferedEol_some {w : World} (h : Reads v w) (hlt : w.lex.pos < w.lex.stream.length)
    (hr : v.rest = c :: r) : Runs bufferedEol w (.ok (isEolCh c)) w := by
  have hn : (w.lex.stream.length - w.lex.pos == 0) = false := beq_eq_false_iff_ne.mpr (by omega)
  have hhead := h.head hlt
  rw [hr, List.cons.injEq] at hhead
  simp only [bufferedEol, bind_eq_seq, runs_lexNstream_iff h.pos_le, hn, Bool.false_eq_true,
    if_false]
  have hpeek : Runs lexPeek w (.ok c) w := by
    refine (lexFill_buffered hlt).bind ?_
    simp [load, access, hhead.1]
  exact hpeek.bind (by simp)

/-- Whether a buffered end-of-line character follows, which depends on the cutting.
Source: `esp-parse.c` `match_eol` `lex_nstream(l) && is_eol(l)`
Kind: L -/
theorem bufferedEol_runs {w : World} (h : Reads v w) :
    ∃ b w', Runs bufferedEol w (.ok b) w' ∧ Reads v w' ∧
      (b = true → ∃ c r, v.rest = c :: r ∧ isEolCh c = true) := by
  rcases Nat.eq_or_lt_of_le h.pos_le with hpos | hlt
  · exact ⟨false, w, bufferedEol_none hpos, h, by simp⟩
  · have hhead := h.head hlt
    exact ⟨_, w, bufferedEol_some h hlt hhead, h, fun hc => ⟨_, _, hhead, hc⟩⟩

/-- The loop that consumes the buffered end-of-line characters.
Source: `esp-parse.c` `match_eol`
Kind: L -/
theorem bufferedEols_ends (v : View) :
    Ends Reads (whileDo bufferedEol (do let _ ← lexGetc)) v (.ok ()) (EolRun v v.rest) := by
  induction hv : v.rest generalizing v with
  | nil =>
      intro w h
      obtain ⟨b, w', hrun, hw', hb⟩ := bufferedEol_runs h
      rcases b with _ | _
      · refine ⟨w', runs_whileDo_iff.mpr (hrun.bind (by simp)), v, hw', [], [], rfl, by simp, ?_⟩
        rw [← hv, View.seek_self]
      · obtain ⟨c, r, hr, -⟩ := hb rfl
        rw [hv] at hr
        simp at hr
  | cons d s ih =>
      intro w h
      obtain ⟨b, w', hrun, hw', hb⟩ := bufferedEol_runs h
      rcases b with _ | _
      · refine ⟨w', runs_whileDo_iff.mpr (hrun.bind (by simp)), v, hw', [], d :: s, rfl, by simp, ?_⟩
        rw [← hv, View.seek_self]
      · obtain ⟨c, r, hr, hc⟩ := hb rfl
        rw [hv, List.cons.injEq] at hr
        obtain ⟨rfl, rfl⟩ := hr
        obtain ⟨w₁, hrun₁, v₁, hw₁, rfl⟩ := lexGetc_ends hv w' hw'
        obtain ⟨t, ht, v', hv', e, r', hs, he, rfl⟩ := ih (v.seek s) rfl w₁ hw₁
        refine ⟨t, runs_whileDo_iff.mpr (hrun.bind ?_), _, hv', d :: e, r', by rw [hs]; rfl, ?_, rfl⟩
        · have hbody : Runs (do let _ ← lexGetc) w' (.ok ()) w₁ := hrun₁.bind (by simp)
          exact hbody.bind ht
        · rintro x (_ | ⟨_, hx⟩)
          · exact hc
          · exact he x hx

/-- Some of them are consumed, at least the first. Source: `esp-parse.c` `match_eol`. Kind: L -/
theorem eatEols_ends (hr : v.rest = c :: r) : Ends Reads eatEols v (.ok ()) (EolRun v r) :=
  (lexGetc_ends hr).seq (bufferedEols_ends _)

/-- `match_eol` at an end of line. Source: `esp-parse.c` `match_eol`. Kind: P -/
theorem matchEol_ends (h : v.rest.dropWhile isSpaceCh = c :: r) (hc : isEolCh c = true) :
    Ends Reads matchEol v (.ok true) (EolRun v r) :=
  lexing_reads.matchEol_true h hc (eatEols_ends rfl)

/-- `match_eol` elsewhere consumes nothing. Source: `esp-parse.c` `match_eol`. Kind: L -/
theorem matchEol_false (h : v.rest.dropWhile isSpaceCh = c :: r) (hc : isEolCh c = false) :
    Ends Reads matchEol v (.ok false) (· = v) :=
  lexing_reads.matchEol_false h hc

/-- Source: `esp-parse.c` `match_eol`. Kind: L -/
theorem matchEol_block (h : v.rest.dropWhile isSpaceCh = []) :
    Ends Reads matchEol v (.error .block) (· = v.seek []) :=
  lexGetCkpt_ends fun _ => (skipBlankSpace_block h).bind_error

/-- What follows an end of line is the same however much of it was consumed.
Source: `esp-parse.c` `match_eol`
Kind: L -/
theorem EolRun.dropWhile {p : UInt8 → Bool} (hp : ∀ c, isEolCh c = true → p c = true)
    {v' : View} (h : EolRun v r v') :
    v'.rest.dropWhile p = r.dropWhile p ∧ v'.all = v.all ∧ v'.host = v.host ∧
      v'.rest.length ≤ r.length := by
  obtain ⟨e, r', rfl, he, rfl⟩ := h
  refine ⟨(List.dropWhile_append_of_pos fun c hc => hp c (he c hc)).symm, rfl, rfl, ?_⟩
  simp

/-! ## Blank lines -/

/-- `match_blank_line` on a blank line. Source: `esp-parse.c` `match_blank_line`. Kind: P -/
theorem matchBlankLine_ends (h : v.rest.dropWhile isSpaceCh = c :: r) (hc : isEolCh c = true) :
    Ends Reads matchBlankLine v (.ok true) (EolRun v r) :=
  lexing_reads.matchBlankLine_true h hc (eatEols_ends rfl)

/-- `match_blank_line` elsewhere consumes nothing. Source: `esp-parse.c` `match_blank_line`.
Kind: L -/
theorem matchBlankLine_false (h : v.rest.dropWhile isSpaceCh = c :: r) (hc : isEolCh c = false) :
    Ends Reads matchBlankLine v (.ok false) (· = v) :=
  lexing_reads.matchBlankLine_false h hc

/-- Source: `esp-parse.c` `match_blank_line`. Kind: L -/
theorem matchBlankLine_block (h : v.rest.dropWhile isSpaceCh = []) :
    Ends Reads matchBlankLine v (.error .block) (· = v.seek []) :=
  lexGetCkpt_ends fun _ => (skipBlankSpace_block h).bind_error

/-- **Skipping blank lines** stops before the blanks of the first line that has text, however the
ends of lines are cut. Source: `esp-parse.c` `skip_blank_lines`. Kind: P -/
theorem skipBlankLines_ends (h : v.rest.dropWhile isBlankCh = c :: r) :
    Ends Reads skipBlankLines v (.ok ())
      (fun v' => ∃ s, v' = v.seek s ∧ s.dropWhile isSpaceCh = c :: r) := by
  induction hn : v.rest.length using Nat.strong_induction_on generalizing v with
  | _ n ih =>
      rcases hs : v.rest.dropWhile isSpaceCh with _ | ⟨d, s⟩
      · rw [← dropWhile_isSpaceCh_isBlankCh, hs] at h
        simp at h
      · have hlt := length_le_of_dropWhile hs
        rw [← dropWhile_isSpaceCh_isBlankCh, hs] at h
        by_cases hd : isEolCh d
        · -- a blank line: what is left of its end is skipped by the next turns
          rw [List.dropWhile_cons_of_pos (by simp [isBlankCh, hd])] at h
          refine Ends.loop_again ((matchBlankLine_ends hs hd).bind fun _ hv => .ret hv) ?_
          intro v' hv'
          obtain ⟨hdrop, -, -, hlen⟩ := hv'.dropWhile isBlankCh_of_isEolCh
          obtain ⟨e, r', -, -, rfl⟩ := hv'
          exact ih _ (by omega) (hdrop.trans h) rfl
        · have hdb : ¬ isBlankCh d = true := by
            have := List.head?_dropWhile_not isSpaceCh v.rest
            rw [hs] at this
            simpa [isBlankCh, hd] using this
          rw [List.dropWhile_cons_of_neg hdb] at h
          refine Ends.while_false ((matchBlankLine_false hs (by simpa using hd)).mono ?_)
          intro v' hv'
          exact ⟨v.rest, hv', hs.trans h⟩

/-- Source: `esp-parse.c` `skip_blank_lines`. Kind: L -/
theorem skipBlankLines_block (h : v.rest.dropWhile isBlankCh = []) :
    Ends Reads skipBlankLines v (.error .block) (· = v.seek []) := by
  induction hn : v.rest.length using Nat.strong_induction_on generalizing v with
  | _ n ih =>
      rcases hs : v.rest.dropWhile isSpaceCh with _ | ⟨d, s⟩
      · exact Ends.while_error (matchBlankLine_block hs)
      · have hlt := length_le_of_dropWhile hs
        have hd : isEolCh d = true := by
          have hsp := List.head?_dropWhile_not isSpaceCh v.rest
          rw [← dropWhile_isSpaceCh_isBlankCh, hs, List.dropWhile_eq_nil_iff] at h
          simp only [hs, List.head?_cons] at hsp
          simpa [isBlankCh, hsp] using h d List.mem_cons_self
        rw [← dropWhile_isSpaceCh_isBlankCh, hs,
          List.dropWhile_cons_of_pos (by simp [isBlankCh, hd])] at h
        refine Ends.loop_again ((matchBlankLine_ends hs hd).bind fun _ hv => .ret hv) ?_
        intro v' hv'
        obtain ⟨hdrop, -, -, hlen⟩ := hv'.dropWhile isBlankCh_of_isEolCh
        obtain ⟨e, r', -, -, rfl⟩ := hv'
        exact ih _ (by omega) (hdrop.trans h) rfl

/-- What every matcher starts with: go to the first character that is neither blank nor an end of
line. Source: `esp-parse.c` `match_tok`, `matchv`. Kind: L -/
theorem skipToText_ends {α : Type} {k : Unit → Prog World Stop α} {o : Except Stop α}
    {Q : View → Prop} (h : v.rest.dropWhile isBlankCh = c :: r)
    (hk : Ends Reads (k ()) (v.seek (c :: r)) o Q) :
    Ends Reads (skipBlankLines.bind fun _ => skipBlankSpace.bind k) v o Q := by
  refine (skipBlankLines_ends h).bind ?_
  rintro _ ⟨s, rfl, hs⟩
  exact (skipBlankSpace_ends (v := v.seek s) hs).seq hk

/-! ## Values -/

/-- The number a numeral stands for, in the arithmetic of `unsigned`.
Source: `esp-parse.c` `match_uint` `*x = *x*10 + lex_getc(l) - '0'`
Kind: D -/
def uintValue (n : UInt32) (ds : List UInt8) : UInt32 :=
  ds.foldl (fun n d => n * 10 + d.toUInt32 - 48) n

/-- The number a numeral stands for. Source: none: infrastructure. Kind: D -/
def decValue (n : Nat) (ds : List UInt8) : Nat := ds.foldl (fun n d => n * 10 + (d.toNat - 48)) n

/-- `unsigned` arithmetic computes the number modulo its range. Source: `esp-parse.c` `match_uint`.
Kind: P -/
theorem uintValue_ofNat (n : Nat) {ds : List UInt8} (hds : ∀ d ∈ ds, isDigit d = true) :
    uintValue (UInt32.ofNat n) ds = UInt32.ofNat (decValue n ds) := by
  induction ds generalizing n with
  | nil => rfl
  | cons d ds ih =>
      have hd := hds d List.mem_cons_self
      simp only [isDigit, Bool.and_eq_true, decide_eq_true_eq, UInt8.le_iff_toNat_le] at hd
      have h48 : 48 ≤ d.toNat := hd.1
      have hdigit : d.toUInt32 = UInt32.ofNat (d.toNat - 48) + 48 := by
        rw [show (48 : UInt32) = UInt32.ofNat 48 from rfl, ← UInt32.ofNat_add,
          Nat.sub_add_cancel h48]
        have := d.toNat_lt
        apply UInt32.toNat_inj.mp
        rw [UInt8.toNat_toUInt32, UInt32.toNat_ofNat']
        omega
      have hstep : UInt32.ofNat n * 10 + d.toUInt32 - 48 =
          UInt32.ofNat (n * 10 + (d.toNat - 48)) := by
        rw [hdigit, ← UInt32.add_assoc, UInt32.add_sub_cancel, UInt32.ofNat_add, UInt32.ofNat_mul]
        rfl
      rw [uintValue, List.foldl_cons, hstep]
      exact ih _ fun x hx => hds x (List.mem_cons_of_mem _ hx)

/-- A run of decimal digits, of any length. Source: `esp-parse.c` `match_uint`. Kind: D -/
structure Digits (ds : List UInt8) : Prop where
  ne_nil : ds ≠ []
  digit : ∀ d ∈ ds, isDigit d = true

/-- What `match_uint` makes of a numeral. Source: `esp-parse.c` `match_uint`. Kind: L -/
theorem Digits.toNat {ds : List UInt8} (h : Digits ds) :
    (uintValue 0 ds).toNat = decValue 0 ds % 2 ^ 32 := by
  rw [show (0 : UInt32) = UInt32.ofNat 0 from rfl, uintValue_ofNat 0 h.digit]
  exact UInt32.toNat_ofNat'

/-- The first character of a numeral. Source: `ctype.h` `isdigit`. Kind: L -/
theorem Digits.exists_cons {ds : List UInt8} (h : Digits ds) :
    ∃ d ds', ds = d :: ds' ∧ isBlankCh d = false := by
  obtain ⟨d, ds', rfl⟩ := List.exists_cons_of_ne_nil h.ne_nil
  refine ⟨d, ds', rfl, ?_⟩
  have hd := h.digit d List.mem_cons_self
  rw [Bool.eq_false_iff]
  intro hb
  simp only [isBlankCh, isSpaceCh, isEolCh, Bool.or_eq_true, beq_iff_eq] at hb
  rcases hb with (rfl | rfl) | (rfl | rfl) <;> simp [isDigit] at hd

/-- `ds` is a decimal numeral for `n`, which fits an `unsigned`. Source: `esp-parse.c` `match_uint`.
Kind: D -/
structure Numeral (ds : List UInt8) (n : Nat) : Prop where
  ne_nil : ds ≠ []
  digit : ∀ d ∈ ds, isDigit d = true
  value : decValue 0 ds = n
  lt : n < 2 ^ 32

/-- Source: `esp-parse.c` `match_uint`. Kind: L -/
theorem Numeral.digits {ds : List UInt8} {n : Nat} (h : Numeral ds n) : Digits ds :=
  ⟨h.ne_nil, h.digit⟩

/-- `match_uint` reads a numeral exactly. Source: `esp-parse.c` `match_uint`. Kind: L -/
theorem Numeral.toNat {ds : List UInt8} {n : Nat} (h : Numeral ds n) :
    (uintValue 0 ds).toNat = n := by
  rw [h.digits.toNat, h.value, Nat.mod_eq_of_lt h.lt]

/-- A second store to a word overwrites the first. Source: none: infrastructure. Kind: L -/
@[simp] theorem Host.setUint_setUint (x : Ptr) (m n : UInt32) (h : Host) :
    (h.setUint x m).setUint x n = h.setUint x n := by
  simp [Host.setUint]

/-- Source: none: infrastructure. Kind: L -/
@[simp] theorem Host.setUint_uints_self (x : Ptr) (n : UInt32) (h : Host) :
    (h.setUint x n).uints x = n := by
  simp [Host.setUint]

/-- A digit adds to the number. Source: `esp-parse.c` `match_uint`. Kind: L -/
theorem uintTurn_digit {x : Ptr} {n : UInt32} {i : Nat} {d : UInt8} (hr : v.rest = d :: r)
    (hd : isDigit d = true) (hn : v.host.uints x = n) :
    Ends Reads (uintTurn x i) v (.ok (.inl (i + 1)))
      (· = (v.seek r).on (Host.setUint x (n * 10 + d.toUInt32 - 48))) := by
  unfold uintTurn
  simp only [bind_eq_seq, pure_eq_ret]
  refine (lexPeek_ends hr).seq ?_
  rw [if_pos hd]
  refine host_ends (f := fun h => h.uints x) ?_
  rw [hn]
  exact (lexGetc_ends hr).seq (onHost_ends (.ret rfl))

/-- Source: `esp-parse.c` `match_uint`. Kind: L -/
theorem uintTurn_other {x : Ptr} {i : Nat} (hr : v.rest = c :: r) (hc : isDigit c = false) :
    Ends Reads (uintTurn x i) v (.ok (.inr (i != 0))) (· = v) := by
  unfold uintTurn
  simp only [bind_eq_seq, pure_eq_ret]
  refine (lexPeek_ends hr).seq ?_
  rw [if_neg (by simp [hc])]
  exact .ret rfl

/-- The loop of `match_uint` reads the digits that come next.
Source: `esp-parse.c` `match_uint`
Kind: L -/
theorem uintLoop_ends {x : Ptr} {ds : List UInt8} {n : UInt32} {i : Nat}
    (hds : ∀ d ∈ ds, isDigit d = true) (hc : isDigit c = false) (hr : v.rest = ds ++ c :: r) :
    Ends Reads (loop (uintTurn x) i ret) (v.on (Host.setUint x n)) (.ok (i + ds.length != 0))
      (· = (v.seek (c :: r)).on (Host.setUint x (uintValue n ds))) := by
  induction ds generalizing v n i with
  | nil =>
      refine Ends.loop_exit (uintTurn_other hr hc) ?_
      rintro _ rfl
      refine .ret ?_
      rw [← show v.rest = c :: r from hr, View.seek_self]
      rfl
  | cons d ds ih =>
      have hrest : v.rest = d :: (ds ++ c :: r) := hr
      refine Ends.loop_again (uintTurn_digit (n := n) hrest (hds d List.mem_cons_self) (by simp)) ?_
      rintro _ rfl
      have hview : ((v.on (Host.setUint x n)).seek (ds ++ c :: r)).on
          (Host.setUint x (n * 10 + d.toUInt32 - 48)) =
          (v.seek (ds ++ c :: r)).on (Host.setUint x (n * 10 + d.toUInt32 - 48)) := by
        simp [View.on, View.seek]
      have hlen : i + (d :: ds).length = i + 1 + ds.length := by
        rw [List.length_cons]
        omega
      rw [hview, hlen]
      exact ih (v := v.seek (ds ++ c :: r)) (fun e he => hds e (List.mem_cons_of_mem _ he)) rfl

/-- **Reading a numeral**: blanks, then digits up to a character that is not one.
Source: `esp-parse.c` `match_uint`
Kind: P -/
theorem matchUint_ends {x : Ptr} {ds : List UInt8} (hds : ∀ d ∈ ds, isDigit d = true)
    (hc : isDigit c = false) (hr : v.rest.dropWhile isSpaceCh = ds ++ c :: r) :
    Ends Reads (matchUint x) v (.ok (ds.length != 0))
      (· = (v.seek (c :: r)).on (Host.setUint x (uintValue 0 ds))) := by
  obtain ⟨d, s, hs⟩ : ∃ d s, ds ++ c :: r = d :: s := by
    cases ds with
    | nil => exact ⟨c, r, rfl⟩
    | cons d ds => exact ⟨d, ds ++ c :: r, rfl⟩
  simp only [matchUint, bind_eq_seq]
  refine (skipBlankSpace_ends (hr.trans hs)).seq (onHost_ends ?_)
  rw [← hs]
  simpa using uintLoop_ends (v := v.seek (ds ++ c :: r)) (n := 0) (i := 0) hds hc rfl

/-! ## Independence of the cutting -/

section

variable {α : Type} {P : α → View → Prop}

/-- Source: `esp-parse.c` `skip_blank_space`. Kind: L -/
theorem skipBlankSpace_settles {k : Unit → Prog World Stop α}
    (hk : ∀ v', Forward v v' → Settles Reads (k ()) v' P) :
    Settles Reads (skipBlankSpace.bind k) v P := by
  refine Settles.bind (P := fun _ => Forward v) ?_ fun _ => hk
  rcases hs : v.rest.dropWhile isSpaceCh with _ | ⟨c, s⟩
  · exact (skipBlankSpace_block hs).settles_error
  · exact (skipBlankSpace_ends hs).settles ⟨rfl, length_le_of_dropWhile hs⟩

/-- Source: `esp-parse.c` `va_arg`. Kind: L -/
theorem vaArg_settles {va : Nat → Ptr} {i : Nat} {k : Ptr → Prog World Stop α}
    (hk : ∀ v', Forward v v' → Settles Reads (k (va i)) v' P) :
    Settles Reads ((vaArg va i).bind k) v P := by
  rw [vaArg, bind_eq_seq, seq_seq]
  exact onHost_settles hk

end

/-- Source: `esp-parse.c` `match_uint`. Kind: L -/
theorem uintLoop_settles (x : Ptr) (i : Nat) (v : View) :
    Settles Reads (loop (uintTurn x) i ret) v fun _ => Forward v := by
  induction hr : v.rest generalizing i v with
  | nil => exact (Ends.loop_error (lexPeek_block hr).bind_error).settles_error
  | cons c r ih =>
      by_cases hc : isDigit c
      · obtain ⟨o, v', h, hP⟩ := ih (i + 1) ((v.seek r).on
          (Host.setUint x (v.host.uints x * 10 + c.toUInt32 - 48))) rfl
        refine ⟨o, v', Ends.loop_again (uintTurn_digit hr hc rfl) ?_, fun b hb => ?_⟩
        · rintro _ rfl
          exact h
        · have hstep : Forward v ((v.seek r).on
              (Host.setUint x (v.host.uints x * 10 + c.toUInt32 - 48))) := ⟨rfl, by simp [hr]⟩
          exact hstep.trans (hP b hb)
      · have hexit := uintTurn_other (x := x) (i := i) hr (by simpa using hc)
        exact Ends.settles (hexit.loop_exit fun _ hv => .ret hv) (.refl v)

/-- Source: `esp-parse.c` `match_uint`. Kind: L -/
theorem matchUint_settles (x : Ptr) (v : View) :
    Settles Reads (matchUint x) v fun _ => Forward v := by
  refine skipBlankSpace_settles fun v₁ h₁ => onHost_settles fun v₂ h₂ => ?_
  obtain ⟨o, v', h, hP⟩ := uintLoop_settles x 0 v₂
  exact ⟨o, v', h, fun b hb => (h₁.trans h₂).trans (hP b hb)⟩

/-- Source: `esp-parse.c` `match_literal_string`. Kind: L -/
theorem literalLoop_settles (out : Ptr) (i left : Nat) {v₀ v : View} (hv : Forward v₀ v) :
    Settles Reads (literalLoop out i left) v fun _ => Forward v₀ := by
  induction left generalizing i v with
  | zero => exact Settles.raise
  | succ left ih =>
      refine lexGetc_settles fun c v₁ h₁ => onHost_settles fun v₂ h₂ => ?_
      have hv₂ := (hv.trans h₁).trans h₂
      split
      · exact onHost_settles fun v₃ h₃ => Settles.ret (hv₂.trans h₃)
      · exact ih (i + 1) hv₂

/-- Source: `esp-parse.c` `match_literal_string`. Kind: L -/
theorem matchLiteralString_settles (out : Ptr) (nbytes : Nat) (v : View) :
    Settles Reads (matchLiteralString out nbytes) v fun _ => Forward v := by
  refine skipBlankSpace_settles fun v₁ h₁ => lexPeek_settles fun c => ?_
  split
  · exact Settles.ret h₁
  · exact lexGetc_settles fun _ v₂ h₂ => literalLoop_settles out 0 nbytes (h₁.trans h₂)

/-- Source: `esp-parse.c` `match_tok`. Kind: L -/
theorem tokScan_settles (tgt : Target) (tok : List UInt8) (last : UInt8) {v₀ v : View}
    (hv : Forward v₀ v) : Settles Reads (tokScan tgt tok last) v fun _ => Forward v₀ := by
  induction tok generalizing last v with
  | nil =>
      unfold tokScan
      split
      · exact lexPeek_settles fun _ => Settles.ret hv
      · exact Settles.ret hv
  | cons c p ih =>
      apply lexGetc_settles
      intro ch v₁ h₁
      split
      · exact Settles.ret (hv.trans h₁)
      · exact ih c (hv.trans h₁)

/-- A turn of the loop of `matchv` that goes on has a shorter format left.
Source: `esp-parse.c` `matchv`
Kind: L -/
theorem scanTurn_settles (tgt : Target) (va : Nat → Ptr) (fmtString : List UInt8)
    (st : ScanState) (v : View) :
    Settles Reads (scanTurn tgt va fmtString st) v
      fun r v' => Forward v v' ∧ ∀ st', r = .inl st' → st'.fmt.length < st.fmt.length := by
  obtain ⟨fmt, mustMatch, k⟩ := st
  cases fmt with
  | nil => exact Settles.ret ⟨.refl v, by simp⟩
  | cons c fmt =>
      refine cAssert_settles (lexPeek_settles fun ch => ?_)
      split
      · exact Settles.ret ⟨.refl v, by simp⟩
      split
      · -- a literal character
        split
        · refine skipBlankSpace_settles fun v₁ h₁ => lexGetc_settles fun d v₂ h₂ => ?_
          split
          · exact Settles.ret ⟨h₁.trans h₂, by simp⟩
          · exact Settles.ret ⟨h₁.trans h₂, by simp⟩
        · exact Settles.ret ⟨.refl v, by simp⟩
      · -- a conversion
        split
        · exact Settles.raise
        · next d fmt =>
          have hshort : fmt.length < fmt.length + 1 + 1 := by omega
          split
          · refine vaArg_settles fun v₁ h₁ =>
              (matchLiteralString_settles _ 32 v₁).bind fun ok v₂ h₂ => ?_
            cases ok with
            | true => exact Settles.ret ⟨h₁.trans h₂, by rintro _ ⟨rfl⟩; exact hshort⟩
            | false => exact Settles.ret ⟨h₁.trans h₂, by simp⟩
          split
          · refine vaArg_settles fun v₁ h₁ => (matchUint_settles _ v₁).bind fun ok v₂ h₂ => ?_
            cases ok with
            | true => exact Settles.ret ⟨h₁.trans h₂, by rintro _ ⟨rfl⟩; exact hshort⟩
            | false => exact Settles.ret ⟨h₁.trans h₂, by simp⟩
          · exact Settles.raise

/-- Source: `esp-parse.c` `matchv`. Kind: L -/
theorem scanLoop_settles (tgt : Target) (va : Nat → Ptr) (fmtString : List UInt8)
    (st : ScanState) (v : View) :
    Settles Reads (loop (scanTurn tgt va fmtString) st ret) v fun _ => Forward v :=
  Settles.loop (fun st => st.fmt.length) Forward Forward.trans (scanTurn_settles tgt va fmtString)
    st v fun _ _ h => Settles.ret h

end Cs140e.Esp
