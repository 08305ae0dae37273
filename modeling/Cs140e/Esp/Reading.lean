import Cs140e.Lib.Records
import Cs140e.Esp.Lines

/-!
# Reading lines, and where the input was cut

`get_nonblank_line` does not skip blank lines first, so what `match_eol` leaves of an end of line at
the end of a read is a blank line for the next call.

* `Midway input v w` — the world is on its way through `input`: behind its position, the reads still
  to come split the ends of lines where `input` does. `lexing_midway`: this follows the lexer.
* `eatEols_midway` — so what `match_eol` leaves is known exactly.
* `getNonblankLine_reads` — a call takes the first of the `records` of what is left.
* `LineReads nbytes n w obs` — what `n` calls report; `lineReads_iff`: the records, and a wait at
  their end.
* `reading_independent_iff` — two cuttings of a stream report the same if and only if they split the
  ends of lines equally often in front of every text; and the line behind a `"\r\n"` is delivered
  next if and only if that is not split.
-/

namespace Cs140e.Esp

open Cs140e.Lib Cs140e.Lib.Prog

/-- An end of line is split by a read. Source: `esp-parse.c` `match_eol`. Kind: D -/
abbrev splitEol : List (List UInt8) → Nat → Bool := splitAt isEolCh

/-- From offset `n` on, the reads to come split the ends of lines where `input` does.
Source: `esp-lex.c` `lex_readin`
Kind: D -/
def SplitsFrom (input : List (List UInt8)) (n : Nat) (w : World) : Prop :=
  ∀ p, n ≤ p → splitEol (w.lex.stream :: w.lex.input) p = splitEol input p

/-- The world reads `input`, of which all cuts behind its position are still to come.
Source: `esp-lex-simple.h` `lex_t`
Kind: D -/
structure Midway (input : List (List UInt8)) (v : View) (w : World) : Prop where
  reads : Reads v w
  whole : input.flatten = v.all
  splits : SplitsFrom input (w.lex.pos + 1) w

variable {input : List (List UInt8)} {v : View} {w : World} {c e : UInt8} {r : List UInt8}

/-- A fresh lexer is at the start of its input. Source: `esp-lex-simple.c` `lex_init_simple`.
Kind: L -/
theorem start_midway (hne : ∀ c ∈ input, c ≠ []) (hsmall : input.flatten.length < lexMaxbuf)
    (host : Host) : Midway input ⟨input.flatten, input.flatten, host⟩ (start input host) :=
  ⟨start_reads hne hsmall host, rfl, fun p _ => splitAt_nil_cons p input⟩

/-! ## Following the lexer -/

/-- Filling the buffer uses up the cut at the position, and no other.
Source: `esp-lex.c` `lex_readin`
Kind: P -/
theorem lexFill_splits : Keeps (fun w => SplitsFrom input (w.lex.pos + 1) w) lexFill := by
  have hempty : Keeps (fun w => SplitsFrom input (w.lex.pos + 1) w) lexEmpty :=
    .bind (.access fun _ h => h) fun _ => .bind .check fun _ => .ret
  have hreadin : Keeps (fun w => SplitsFrom input (w.lex.pos + 1) w) lexReadin := by
    intro w n t hw hr
    obtain ⟨hpos, c, cs, hin, -, -, -, rfl⟩ := lexReadin_ok hr
    intro p hp
    rw [← hw p hp, hin]
    exact (splitAt_join (hpos ▸ hp) cs).symm
  exact .bind hempty fun _ => .ite (.bind hreadin fun _ => .bind hempty fun _ => .check)
    (.bind hempty fun _ => .check)

/-- With a byte left, filling the buffer leaves one at the position. Source: `esp-lex-simple.c`
`lex_getc_simple`. Kind: L -/
theorem lexFill_midway (h : Midway input v w) (hne : v.rest ≠ []) :
    ∃ w', Runs lexFill w (.ok ()) w' ∧ Midway input v w' ∧ w'.lex.pos < w'.lex.stream.length := by
  obtain ⟨w', hrun, hw', hlt⟩ := lexFill_runs h.reads hne
  exact ⟨w', hrun, ⟨hw', h.whole, lexFill_splits w () w' h.splits hrun⟩, hlt⟩

/-- A byte is read: also the cut behind it is still to come. Source: `esp-lex-simple.c`
`lex_getc_simple`. Kind: L -/
theorem lexGetc_midway (h : Midway input v w) (hr : v.rest = c :: r) :
    ∃ w', Runs lexGetc w (.ok c) w' ∧ Reads (v.seek r) w' ∧ SplitsFrom input w'.lex.pos w' := by
  obtain ⟨w₁, hrun, hw₁, hlt⟩ := lexFill_midway h (by simp [hr])
  have hhead := hw₁.reads.head hlt
  rw [hr, List.cons.injEq] at hhead
  refine ⟨{ w₁ with lex := { w₁.lex with pos := w₁.lex.pos + 1 } }, hrun.bind ?_, ?_, hw₁.splits⟩
  · simp [access, hhead.1]
  · have hr₁ := hw₁.reads
    exact ⟨hr₁.all, hlt, hhead.2.symm, hr₁.chunks, hr₁.small, hr₁.host⟩

/-- A byte of the stream by its offset. Source: none: infrastructure. Kind: L -/
theorem Reads.getElem?_pos (h : Reads v w) (i : Nat) : v.all[w.lex.pos + i]? = v.rest[i]? := by
  rw [← h.rest, List.getElem?_drop]

/-- No end of line is split where a blank comes last. Source: `esp-parse.c` `is_space_ch`.
Kind: L -/
theorem splitEol_of_blank {chunks : List (List UInt8)} {p : Nat}
    (h : ∀ x ∈ chunks.flatten[p]?, isSpaceCh x = true) : splitEol chunks (p + 1) = false := by
  rw [Bool.eq_false_iff]
  intro hsplit
  simp only [splitEol, splitAt, Bool.and_eq_true] at hsplit
  obtain ⟨x, hx, he⟩ := (Option.any_eq_true _ _).mp hsplit.1.2
  have hsp := h x hx
  rw [isSpaceCh_of_isEolCh he] at hsp
  simp at hsp

/-- Skipping blanks passes over blanks only. Source: `esp-parse.c` `skip_blank_space`. Kind: L -/
theorem isSpaceCh_of_skipped (hsuf : v.rest <:+ v.all) {q : Nat} (hle : v.pos ≤ q)
    (hlt : q < (v.seek (v.rest.dropWhile isSpaceCh)).pos) :
    ∀ x ∈ v.all[q]?, isSpaceCh x = true := by
  obtain ⟨pre, hpre⟩ := hsuf
  have hsplit : v.rest.takeWhile isSpaceCh ++ v.rest.dropWhile isSpaceCh = v.rest :=
    List.takeWhile_append_dropWhile
  have hall := congrArg List.length hpre
  have hrest := congrArg List.length hsplit
  rw [List.length_append] at hall hrest
  simp only [View.pos, View.seek_all, View.seek_rest] at hle hlt
  intro x hx
  rw [← hpre, List.getElem?_append_right (by omega), ← hsplit,
    List.getElem?_append_left (by omega)] at hx
  exact List.mem_takeWhile_imp (List.mem_of_getElem? hx)

/-- Going back over blanks passes no end of line. Source: `esp-lex-simple.h` `lex_restore_ckpt`.
Kind: L -/
theorem Midway.restore (hsuf : v.rest <:+ v.all)
    (h : Midway input (v.seek (v.rest.dropWhile isSpaceCh)) w) :
    Midway input v { w with lex := { w.lex with pos := v.pos } } := by
  have hends : Ends Reads ((lexRestoreCkpt v.pos).bind fun _ => ret ())
      (v.seek (v.rest.dropWhile isSpaceCh)) (.ok ()) (· = v) :=
    lexing_reads.restore hsuf (.ret rfl)
  obtain ⟨t, ht, v', hv', rfl⟩ := hends w h.reads
  simp only [lexRestoreCkpt, runs_store_bind_iff, runs_ret_iff] at ht
  refine ⟨ht.2 ▸ hv', h.whole, fun p hp => ?_⟩
  by_cases hlt : w.lex.pos + 1 ≤ p
  · exact h.splits p hlt
  · obtain ⟨q, rfl⟩ : ∃ q, p = q + 1 := ⟨p - 1, by omega⟩
    have hblank : ∀ x ∈ v'.all[q]?, isSpaceCh x = true := by
      refine isSpaceCh_of_skipped hsuf (Nat.le_of_succ_le_succ hp) ?_
      rw [← h.reads.pos_eq]
      omega
    have hnot : splitEol (w.lex.stream :: w.lex.input) (q + 1) = false := by
      apply splitEol_of_blank
      rw [List.flatten_cons, h.reads.all]
      exact hblank
    have hnot' : splitEol input (q + 1) = false := by
      apply splitEol_of_blank
      rw [h.whole]
      exact hblank
    exact hnot.trans hnot'.symm

/-- `Midway` follows the lexer. Source: `esp-lex-simple.h` `lex_t`. Kind: P -/
theorem lexing_midway : Lexing (Midway input) where
  getc hr w h := by
    obtain ⟨w', hrun, hw', hs⟩ := lexGetc_midway h hr
    exact ⟨w', hrun, _, ⟨hw', h.whole, fun p hp => hs p (by omega)⟩, rfl⟩
  peek {v c r} hr w h := by
    obtain ⟨w', hrun, hw', hlt⟩ := lexFill_midway h (by simp [hr])
    have hhead := hw'.reads.head hlt
    rw [hr, List.cons.injEq] at hhead
    refine ⟨w', hrun.bind ?_, v, hw', rfl⟩
    simp [load, access, hhead.1]
  ckpt hk w h := by
    have hsuf := h.reads.rest ▸ List.drop_suffix w.lex.pos _
    exact Ends.load (fun _ h => h.reads.pos_eq) (hk hsuf) w h
  restore hsuf hk := .store (fun _ h => h.restore hsuf) hk

/-! ## Ends of lines -/

/-- The end of a line is passed over up to where a read splits it.
Source: `esp-parse.c` `match_eol`
Kind: D -/
def EolEnd (input : List (List UInt8)) (v v' : View) : Prop :=
  ∃ run s, v.rest = run ++ s ∧ v' = v.seek s ∧ (∀ x ∈ run, isEolCh x = true) ∧
    (∀ q, v.pos ≤ q → q < v.pos + run.length → splitEol input q = false) ∧
    ∀ x ∈ s.head?, isEolCh x = true → splitEol input (v.pos + run.length) = true

/-- It ends here: a text follows, or a read splits it. Source: `esp-parse.c` `match_eol`.
Kind: L -/
theorem EolEnd.here (h : ∀ x ∈ v.rest.head?, isEolCh x = true → splitEol input v.pos = true) :
    EolEnd input v v := by
  refine ⟨[], v.rest, rfl, rfl, by simp, ?_, h⟩
  intro q hle hlt
  simp only [List.length_nil, Nat.add_zero] at hlt
  omega

/-- It goes on for one more character. Source: `esp-parse.c` `match_eol`. Kind: L -/
theorem EolEnd.cons {v' : View} (h : EolEnd input (v.seek r) v') (hr : v.rest = c :: r)
    (hc : isEolCh c = true) (hpos : (v.seek r).pos = v.pos + 1)
    (hno : splitEol input v.pos = false) : EolEnd input v v' := by
  obtain ⟨run, s, hrun, rfl, heol, hin, hend⟩ := h
  have hlen : (v.seek r).pos + run.length = v.pos + (c :: run).length := by
    rw [hpos, List.length_cons]
    omega
  rw [hlen] at hin hend
  refine ⟨c :: run, s, ?_, rfl, ?_, ?_, hend⟩
  · rw [hr, List.cons_append, ← hrun]
    rfl
  · rintro x (_ | ⟨_, hx⟩)
    · exact hc
    · exact heol x hx
  · intro q hle hlt
    rcases Nat.eq_or_lt_of_le hle with rfl | hgt
    · exact hno
    · exact hin q (by omega) hlt

/-- Reading a byte moves on by one. Source: `esp-lex-simple.h` `l->pos`. Kind: L -/
theorem Reads.pos_seek {w' : World} (h : Reads v w) (h' : Reads (v.seek r) w')
    (hr : v.rest = c :: r) : w'.lex.pos = w.lex.pos + 1 := by
  have hlen := h.rest_length
  have hlen' := h'.rest_length
  rw [hr, List.length_cons] at hlen
  simp only [View.seek_rest, View.seek_all] at hlen'
  omega

/-- A buffered character is not behind a cut. Source: `esp-lex.c` `lex_readin`. Kind: L -/
theorem SplitsFrom.buffered (hs : SplitsFrom input w.lex.pos w)
    (hlt : w.lex.pos < w.lex.stream.length) : splitEol input w.lex.pos = false := by
  have hcut := cutAt_of_lt hlt w.lex.input
  rw [← hs w.lex.pos (Nat.le_refl _)]
  rcases hpos : w.lex.pos with _ | q
  · rfl
  · rw [hpos] at hcut
    simp [splitEol, splitAt, hcut]

/-- With nothing buffered there is a cut, which splits the end of a line between two of its
characters. Source: `esp-lex.c` `lex_readin`. Kind: L -/
theorem SplitsFrom.exhausted (hs : SplitsFrom input w.lex.pos w) (h : Reads v w)
    (hpos : w.lex.pos = w.lex.stream.length)
    (hlast : ∃ q x, w.lex.pos = q + 1 ∧ v.all[q]? = some x ∧ isEolCh x = true)
    (hr : v.rest = c :: r) (hc : isEolCh c = true) : splitEol input w.lex.pos = true := by
  obtain ⟨q, x, hq, hx, hex⟩ := hlast
  have hnext := h.getElem?_pos 0
  have hcut : cutAt (w.lex.stream :: w.lex.input) (q + 1) = true := by
    rw [← hq, hpos, cutAt_length]
  rw [hr, Nat.add_zero, hq] at hnext
  rw [← hs w.lex.pos (Nat.le_refl _), hq]
  simp only [splitEol, splitAt, hcut, List.flatten_cons, h.all, hx, hnext]
  simp [hex, hc]

/-- The loop that consumes the buffered end-of-line characters, behind one of them.
Source: `esp-parse.c` `match_eol`
Kind: P -/
theorem bufferedEols_midway (h : Reads v w) (hwhole : input.flatten = v.all)
    (hs : SplitsFrom input w.lex.pos w)
    (hlast : ∃ q x, w.lex.pos = q + 1 ∧ v.all[q]? = some x ∧ isEolCh x = true) :
    ∃ t, Runs (whileDo bufferedEol (do let _ ← lexGetc)) w (.ok ()) t ∧
      ∃ v', Midway input v' t ∧ EolEnd input v v' := by
  induction hn : v.rest.length generalizing v w with
  | zero =>
      have hmid : Midway input v w := ⟨h, hwhole, fun p hp => hs p (by omega)⟩
      have hpos : w.lex.pos = w.lex.stream.length := by
        have := h.rest_length
        have := h.stream_length_le
        have := h.pos_le
        omega
      refine ⟨w, runs_whileDo_iff.mpr ((bufferedEol_none hpos).bind (by simp)), v, hmid, .here ?_⟩
      rw [List.length_eq_zero_iff.mp hn]
      simp
  | succ n ih =>
      have hmid : Midway input v w := ⟨h, hwhole, fun p hp => hs p (by omega)⟩
      obtain ⟨d, s, hv⟩ : ∃ d s, v.rest = d :: s := List.exists_cons_of_length_eq_add_one hn
      rcases Nat.eq_or_lt_of_le h.pos_le with hpos | hlt
      · -- nothing is buffered: a read ends here
        refine ⟨w, runs_whileDo_iff.mpr ((bufferedEol_none hpos).bind (by simp)), v, hmid, .here ?_⟩
        intro x hx hex
        rw [hv] at hx
        obtain rfl : d = x := by simpa using hx
        rw [← h.pos_eq]
        exact hs.exhausted h hpos hlast hv hex
      · have hcond := bufferedEol_some h hlt hv
        by_cases hd : isEolCh d
        · rw [hd] at hcond
          obtain ⟨w₁, hget, hw₁, hs₁⟩ := lexGetc_midway hmid hv
          have hpos₁ := h.pos_seek hw₁ hv
          have hat := h.getElem?_pos 0
          rw [hv] at hat
          obtain ⟨t, ht, v', hv', hend⟩ := ih (v := v.seek s) hw₁ hwhole hs₁
            ⟨w.lex.pos, d, hpos₁, hat, hd⟩ (by rw [hv] at hn; simpa using hn)
          have hbody : Runs (do let _ ← lexGetc) w (.ok ()) w₁ := hget.bind (by simp)
          refine ⟨t, runs_whileDo_iff.mpr (hcond.bind (hbody.bind ht)), v', hv', ?_⟩
          exact hend.cons hv hd (by rw [← hw₁.pos_eq, hpos₁, h.pos_eq])
            (h.pos_eq ▸ hs.buffered hlt)
        · -- the next line starts
          have hcond' : Runs bufferedEol w (.ok false) w := by simpa [hd] using hcond
          refine ⟨w, runs_whileDo_iff.mpr (hcond'.bind (by simp)), v, hmid, .here ?_⟩
          intro x hx hex
          rw [hv] at hx
          obtain rfl : d = x := by simpa using hx
          exact absurd hex hd

/-- What `match_eol` consumes of the end of a line. Source: `esp-parse.c` `match_eol`. Kind: P -/
theorem eatEols_midway (hr : v.rest = c :: r) (hc : isEolCh c = true) :
    Ends (Midway input) eatEols v (.ok ()) (EolEnd input (v.seek r)) := by
  intro w h
  obtain ⟨w₁, hget, hw₁, hs₁⟩ := lexGetc_midway h hr
  have hpos₁ := h.reads.pos_seek hw₁ hr
  have hat := h.reads.getElem?_pos 0
  rw [hr] at hat
  obtain ⟨t, ht, v', hv', hend⟩ := bufferedEols_midway hw₁ h.whole hs₁
    ⟨w.lex.pos, c, hpos₁, hat, hc⟩
  exact ⟨t, hget.bind ht, v', hv', hend⟩

/-! ## One call -/

/-- Every line of the stream, without the blanks around its text, fits a buffer of `nbytes` with its
NUL. Source: `esp-parse.c` `get_nonblank_line`. Kind: D -/
def FitsBuf (nbytes : Nat) (s : List UInt8) : Prop :=
  ∀ t, t <:+: s → NoEol t → (trim t).length < nbytes

/-- What the calls report of what the view has left. Source: `esp-parse.c` `get_nonblank_line`.
Kind: D -/
def readings (input : List (List UInt8)) (v : View) : List (List UInt8) :=
  records isEolCh trim (splitEol input) v.pos false [] v.rest

/-- A line that has not ended waits. Source: `esp-parse.c` `get_nonblank_line`. Kind: L -/
theorem lineLoop_block {t : List UInt8} {left : Nat} (hline : NoEol t)
    (hlen : (t.rdropWhile isSpaceCh).length < left) (hr : v.rest = t) :
    Ends Reads (lineLoop left) v (.error .block) fun _ => True := by
  induction left generalizing t v with
  | zero => simp at hlen
  | succ left ih =>
      by_cases ht : Blank t
      · have hdrop : v.rest.dropWhile isSpaceCh = [] := by
          rw [hr]
          exact List.dropWhile_eq_nil_iff.mpr ht
        exact ((matchEol_block hdrop).mono fun _ _ => trivial).bind_error
      · obtain ⟨x, t', htx, hx⟩ := exists_text hline ht
        simp only [isBlankCh, Bool.or_eq_false_iff] at hx
        obtain ⟨c, t, rfl⟩ : ∃ c u, t = c :: u := by
          cases t with
          | nil => exact absurd (fun _ h => by simp at h) ht
          | cons c t => exact ⟨c, t, rfl⟩
        rw [rdropWhile_cons_of_text ht, List.length_cons, Nat.add_lt_add_iff_right] at hlen
        refine (matchEol_false (hr ▸ htx) hx.2).seq ((lexGetc_ends hr).seq ?_)
        refine (ih (v := v.seek t) ?_ hlen rfl).bind_error
        exact fun y hy => hline y (List.mem_cons_of_mem _ hy)

/-- Reading a line that has not ended waits. Source: `esp-parse.c` `get_nonblank_line`. Kind: P -/
theorem getNonblankLine_block {nbytes : Nat} (hline : NoEol v.rest)
    (hlen : (trim v.rest).length < nbytes) :
    Ends Reads (getNonblankLine nbytes) v (.error .block) fun _ => True := by
  by_cases ht : Blank v.rest
  · have hdrop := List.dropWhile_eq_nil_iff.mpr ht
    exact ((matchBlankLine_block hdrop).mono fun _ _ => trivial).bind_error
  · obtain ⟨x, t', htx, hx⟩ := exists_text hline ht
    simp only [isBlankCh, Bool.or_eq_false_iff] at hx
    have hline' : NoEol (x :: t') := by
      intro y hy
      apply hline
      exact (List.dropWhile_suffix isSpaceCh).subset (htx ▸ hy)
    rw [trim, htx] at hlen
    refine (matchBlankLine_false htx hx.2).seq ((skipBlankSpace_ends htx).seq ?_)
    exact (lineLoop_block (v := v.seek (x :: t')) hline' hlen rfl).bind_error

/-- A list has an end-of-line character, or is one unfinished line. Source: none: infrastructure.
Kind: L -/
theorem exists_line (s : List UInt8) :
    NoEol s ∨ ∃ t e r, s = t ++ e :: r ∧ NoEol t ∧ isEolCh e = true := by
  induction s with
  | nil => exact .inl (by simp [NoEol])
  | cons c s ih =>
      rcases hc : isEolCh c with _ | _
      · rcases ih with h | ⟨t, e, r, rfl, ht, he⟩
        · exact .inl (List.forall_mem_cons.mpr ⟨hc, h⟩)
        · exact .inr ⟨c :: t, e, r, rfl, List.forall_mem_cons.mpr ⟨hc, ht⟩, he⟩
      · exact .inr ⟨[], c, s, rfl, by simp [NoEol], hc⟩

/-- The first line is reported, and then what is left behind its end.
Source: `esp-parse.c` `get_nonblank_line`
Kind: P -/
theorem readings_cons {t : List UInt8} {v' : View} (hline : NoEol t) (he : isEolCh e = true)
    (hr : v.rest = t ++ e :: r) (hle : v.rest.length ≤ v.all.length)
    (hend : EolEnd input (v.seek r) v') : readings input v = trim t :: readings input v' := by
  obtain ⟨run, s, hrun, rfl, heol, hin, hlast⟩ := hend
  rw [View.seek_rest] at hrun
  have hlen := congrArg List.length hr
  simp only [hrun, List.length_append, List.length_cons] at hlen
  have hpos : (v.seek r).pos = v.pos + t.length + 1 := by
    simp only [View.pos, View.seek_all, View.seek_rest, hrun, List.length_append]
    omega
  have hpos' : (v.seek s).pos = v.pos + t.length + 1 + run.length := by
    simp only [View.pos, View.seek_all, View.seek_rest]
    omega
  rw [hpos] at hin hlast
  rw [readings, hr, records_text (by simp) hline he, List.nil_append, hrun,
    records_run heol hin hlast, readings, View.seek_seek, hpos', View.seek_rest]

/-- **A call takes the first reading**, or waits when there is none.
Source: `esp-parse.c` `get_nonblank_line`
Kind: P -/
theorem getNonblankLine_reads {nbytes : Nat} (h : Midway input v w) (hfit : FitsBuf nbytes v.rest) :
    (readings input v = [] ∧ ∃ t, Runs (getNonblankLine nbytes) w (.error .block) t) ∨
      ∃ line v' t, readings input v = line :: readings input v' ∧
        Runs (getNonblankLine nbytes) w (.ok line) t ∧ Midway input v' t ∧ v'.rest <:+ v.rest := by
  rcases exists_line v.rest with hline | ⟨t, e, r, hr, hline, he⟩
  · left
    refine ⟨records_open hline false, ?_⟩
    obtain ⟨u, hu, -⟩ :=
      getNonblankLine_block hline (hfit _ (List.infix_refl _) hline) w h.reads
    exact ⟨u, hu⟩
  · right
    have hlen := hfit t ⟨[], e :: r, by rw [hr]; rfl⟩ hline
    have heat : Ends (Midway input) eatEols (v.seek (e :: r)) (.ok ())
        (EolEnd input (v.seek r)) := eatEols_midway rfl he
    obtain ⟨u, hu, v', hv', hend⟩ := lexing_midway.getNonblankLine hline he hlen hr heat w h
    have hle := h.reads.rest_length
    refine ⟨trim t, v', u, readings_cons hline he hr (by omega) hend, hu, hv', ?_⟩
    obtain ⟨run, s, hrun, rfl, -⟩ := hend
    rw [View.seek_rest] at hrun
    exact ⟨t ++ e :: run, by rw [hr, hrun, View.seek_rest, List.append_assoc, List.cons_append]⟩

/-! ## Sequences of calls -/

/-- What `n` calls report, up to the first one that does not return.
Source: `esp-run.c` `cmd_echo_line`; `esp-run.h` `cmd_reject_line`
Kind: D -/
def LineReads (nbytes : Nat) : Nat → World → List (Except Stop (List UInt8)) → Prop
  | 0, _, obs => obs = []
  | n + 1, w, obs => ∃ o w' rest, Runs (getNonblankLine nbytes) w o w' ∧ obs = o :: rest ∧
      match o with
      | .ok _ => LineReads nbytes n w' rest
      | .error _ => rest = []

/-- `n` calls that return lead from `w` to `w'`. Source: `esp-run.c` `cmd_echo_line`. Kind: D -/
def LinesTo (nbytes : Nat) : Nat → World → World → Prop
  | 0, w, w' => w' = w
  | n + 1, w, w' => ∃ line u, Runs (getNonblankLine nbytes) w (.ok line) u ∧ LinesTo nbytes n u w'

/-- The first `n` of the lines, and a wait when there are fewer. Source: none: infrastructure.
Kind: D -/
def reported (n : Nat) (lines : List (List UInt8)) : List (Except Stop (List UInt8)) :=
  (lines.take n).map .ok ++ if n ≤ lines.length then [] else [.error .block]

/-- A suffix has no lines that the stream has not. Source: none: infrastructure. Kind: L -/
theorem FitsBuf.of_suffix {nbytes : Nat} {s s' : List UInt8} (h : FitsBuf nbytes s)
    (hs : s' <:+ s) : FitsBuf nbytes s' :=
  fun t ht hline => h t (ht.trans hs.isInfix) hline

/-- **`n` calls report the first `n` readings.** Source: `esp-run.c` `cmd_echo_line`. Kind: P -/
theorem lineReads_iff {nbytes : Nat} (h : Midway input v w) (hfit : FitsBuf nbytes v.rest) (n : Nat)
    {obs : List (Except Stop (List UInt8))} :
    LineReads nbytes n w obs ↔ obs = reported n (readings input v) := by
  induction n generalizing v w obs with
  | zero => simp [LineReads, reported]
  | succ n ih =>
      rcases getNonblankLine_reads h hfit with ⟨hnil, t, ht⟩ | ⟨line, v', t, hcons, ht, hv', hsuf⟩
      · rw [hnil]
        constructor
        · rintro ⟨o, u, rest, hu, rfl, hrest⟩
          obtain ⟨rfl, -⟩ := hu.det ht
          rw [show rest = [] from hrest]
          rfl
        · rintro rfl
          exact ⟨_, t, [], ht, rfl, rfl⟩
      · have hnext : ∀ {rest}, LineReads nbytes n t rest ↔ rest = reported n (readings input v') :=
          ih hv' (hfit.of_suffix hsuf)
        have hrep : reported (n + 1) (readings input v) =
            .ok line :: reported n (readings input v') := by
          rw [hcons]
          simp [reported]
        rw [hrep]
        constructor
        · rintro ⟨o, u, rest, hu, rfl, hrest⟩
          obtain ⟨rfl, rfl⟩ := hu.det ht
          rw [hnext.mp hrest]
        · rintro rfl
          exact ⟨_, t, _, ht, rfl, hnext.mpr rfl⟩

/-- Calls that return stay on the way. Source: `esp-run.c` `cmd_echo_line`. Kind: L -/
theorem LinesTo.midway {nbytes n : Nat} {w' : World} (h : Midway input v w)
    (hfit : FitsBuf nbytes v.rest) (hto : LinesTo nbytes n w w') :
    ∃ v', Midway input v' w' ∧ FitsBuf nbytes v'.rest := by
  induction n generalizing v w with
  | zero =>
      obtain rfl : w' = w := hto
      exact ⟨v, h, hfit⟩
  | succ n ih =>
      obtain ⟨line, u, hu, hto⟩ := hto
      rcases getNonblankLine_reads h hfit with ⟨-, t, ht⟩ | ⟨line', v', t, -, ht, hv', hsuf⟩
      · have := (hu.det ht).1
        simp at this
      · obtain ⟨-, rfl⟩ := hu.det ht
        exact ih hv' (hfit.of_suffix hsuf) hto

/-- What is reported tells the lines. Source: none: infrastructure. Kind: L -/
theorem reported_eq_iff {l l' : List (List UInt8)} :
    (∀ n, reported n l = reported n l') ↔ l = l' := by
  refine ⟨fun h => ?_, fun h _ => h ▸ rfl⟩
  have htake : ∀ n, l.take n = l'.take n := by
    intro n
    have hok : Except.toOption ∘ (.ok : List UInt8 → Except Stop (List UInt8)) = some := rfl
    have hlines : ∀ l : List (List UInt8), (reported n l).filterMap Except.toOption = l.take n := by
      intro l
      rw [reported, List.filterMap_append, List.filterMap_map, hok, List.filterMap_some]
      split <;> simp [Except.toOption]
    rw [← hlines l, ← hlines l', h n]
  have := htake (max l.length l'.length)
  rwa [List.take_of_length_le (Nat.le_max_left _ _),
    List.take_of_length_le (Nat.le_max_right _ _)] at this

/-! ## Two cuttings of one stream -/

/-- How often `input` splits an end of line in front of offset `p`. Source: `esp-parse.c`
`match_eol`. Kind: D -/
def splitsBefore (input : List (List UInt8)) (p : Nat) : Nat :=
  Nat.count (fun q => splitEol input q) p

/-- The two split the ends of lines equally often in front of every character of a text, and in all.
Source: `esp-parse.c` `match_eol`
Kind: D -/
def SameSplits (input input' : List (List UInt8)) : Prop :=
  ∀ p ≤ input.flatten.length, (∀ c ∈ input.flatten[p]?, isBlankCh c = false) →
    splitsBefore input p = splitsBefore input' p

/-- Cuttings that split no end of a line. Source: `esp-parse.c` `match_eol`. Kind: L -/
theorem sameSplits_of_none {input input' : List (List UInt8)}
    (h : ∀ q < input.flatten.length, splitEol input q = false)
    (h' : ∀ q < input.flatten.length, splitEol input' q = false) : SameSplits input input' := by
  intro p hp _
  rw [splitsBefore, splitsBefore, Nat.count_of_forall_not, Nat.count_of_forall_not]
  · intro q hq
    simp [h' q (by omega)]
  · intro q hq
    simp [h q (by omega)]

/-- The readings of two cuttings of one stream. Source: `esp-parse.c` `get_nonblank_line`.
Kind: P -/
theorem readings_eq_iff {input input' : List (List UInt8)} (hsame : input.flatten = input'.flatten)
    (host : Host) :
    readings input ⟨input.flatten, input.flatten, host⟩ =
        readings input' ⟨input.flatten, input.flatten, host⟩ ↔ SameSplits input input' := by
  have hf : ∀ text, (∀ c ∈ text, isEolCh c = false) →
      (trim text = [] ↔ ∀ c ∈ text, (!isBlankCh c) = false) := by
    intro text hline
    rw [trim_eq_nil_iff]
    refine forall₂_congr fun c hc => ?_
    simp [isBlankCh, hline c hc]
  have hink : ∀ c, (!isBlankCh c) = true → isEolCh c = false := by
    intro c hc
    rw [Bool.eq_false_iff]
    intro he
    simp [isBlankCh_of_isEolCh c he] at hc
  have hpos : (View.mk input.flatten input.flatten host).pos = 0 := Nat.sub_self _
  rw [readings, readings, hpos, records_eq_iff hf hink (splitAt_splitsRuns input)
    (hsame ▸ splitAt_splitsRuns input')]
  simp only [Bool.not_eq_true', SameSplits, splitsBefore]

/-- What comes next behind a line that a `"\r\n"` ends: the line that follows directly, unless a
read ends inside of the `"\r\n"`. Source: `esp-parse.c` `match_eol`. Kind: P -/
theorem lineReads_crlf_iff {nbytes : Nat} (h : Midway input v w) (hfit : FitsBuf nbytes v.rest)
    {text next more : List UInt8} (hr : v.rest = text ++ 13 :: 10 :: (next ++ e :: more))
    (htext : NoEol text) (hnext : NoEol next) (hblank : ¬ Blank next) (he : isEolCh e = true) :
    LineReads nbytes 2 w [.ok (trim text), .ok (trim next)] ↔
      cutAt input (w.lex.pos + text.length + 1) = false := by
  have hsplit : splitEol input (v.pos + text.length + 1) =
      cutAt input (v.pos + text.length + 1) := by
    have hcr := h.reads.getElem?_pos text.length
    have hlf := h.reads.getElem?_pos (text.length + 1)
    rw [h.reads.pos_eq, hr] at hcr hlf
    rw [← Nat.add_assoc] at hlf
    simp only [splitEol, splitAt, h.whole, hcr, hlf]
    simp [isEolCh]
  have hreadings : readings input v = trim text :: records isEolCh trim (splitEol input)
      (v.pos + text.length + 1) true [] (10 :: (next ++ e :: more)) := by
    rw [readings, hr, records_text (by simp) htext (by decide)]
    rfl
  have hne : trim next ≠ [] := fun hnil => hblank (trim_eq_nil_iff.mp hnil)
  rw [lineReads_iff h hfit, hreadings, h.reads.pos_eq, ← hsplit]
  rcases hs : splitEol input (v.pos + text.length + 1) with _ | _
  · have hrun : records isEolCh trim (splitEol input) (v.pos + text.length + 1) true []
        (10 :: (next ++ e :: more)) = records isEolCh trim (splitEol input)
          (v.pos + text.length + 1 + 1) true [] (next ++ e :: more) := by
      rw [records, if_pos (by decide), hs]
      rfl
    have htext' : next ≠ [] := by
      rintro rfl
      exact hblank (by simp [Blank])
    rw [hrun, records_text (fun _ => htext') hnext he]
    simp [reported]
  · -- what is left of the end of the line is reported as a line
    have hrun : records isEolCh trim (splitEol input) (v.pos + text.length + 1) true []
        (10 :: (next ++ e :: more)) = trim [] :: records isEolCh trim (splitEol input)
          (v.pos + text.length + 1 + 1) true [] (next ++ e :: more) := by
      rw [records, if_pos (by decide), hs]
      rfl
    rw [hrun]
    simp [reported, hne, show trim [] = [] from rfl]

/-- **When line reading is independent of chunking**: two cuttings of one stream give the same
readings if and only if they split the ends of lines equally often in front of every text, and in
all. In particular, whatever was read before, the line directly behind a `"\r\n"` is delivered by
the next call if and only if no read ends inside of the `"\r\n"`.
Source: `esp-parse.c` `get_nonblank_line`; `esp-lex.c` `lex_readin`; `esp-run.c` `cmd_echo_line`
Kind: P -/
theorem reading_independent_iff {nbytes : Nat} (host : Host) {input input' : List (List UInt8)}
    (hne : ∀ c ∈ input, c ≠ []) (hne' : ∀ c ∈ input', c ≠ [])
    (hsame : input.flatten = input'.flatten) (hsmall : input.flatten.length < lexMaxbuf)
    (hfit : FitsBuf nbytes input.flatten) :
    ((∀ n, ∃ obs, LineReads nbytes n (start input host) obs ∧
        LineReads nbytes n (start input' host) obs) ↔ SameSplits input input') ∧
      ∀ n w text next more e, LinesTo nbytes n (start input host) w →
        w.unread = text ++ 13 :: 10 :: (next ++ e :: more) → NoEol text → NoEol next →
        ¬ Blank next → isEolCh e = true →
        (LineReads nbytes 2 w [.ok (trim text), .ok (trim next)] ↔
          cutAt input (w.lex.pos + text.length + 1) = false) := by
  have hmid := start_midway hne hsmall host
  have hmid' : Midway input' ⟨input.flatten, input.flatten, host⟩ (start input' host) :=
    hsame ▸ start_midway hne' (hsame ▸ hsmall) host
  constructor
  · rw [← readings_eq_iff hsame host, ← reported_eq_iff]
    refine forall_congr' fun n => ?_
    simp only [lineReads_iff hmid hfit, lineReads_iff hmid' hfit]
    exact ⟨fun ⟨_, h, h'⟩ => h.symm.trans h', fun h => ⟨_, rfl, h⟩⟩
  · intro n w text next more e hto hr htext hnext hblank he
    obtain ⟨v, hv, hfit⟩ := LinesTo.midway hmid hfit hto
    exact lineReads_crlf_iff hv hfit (hv.reads.unread ▸ hr) htext hnext hblank he

/-- Lines shorter than the buffer fit it. Source: `esp-parse.c` `get_nonblank_line`. Kind: L -/
theorem fitsBuf_of_length {nbytes : Nat} {s : List UInt8} (h : s.length < nbytes) :
    FitsBuf nbytes s :=
  fun t ht _ => Nat.lt_of_le_of_lt (trim_length_le t) (Nat.lt_of_le_of_lt ht.length_le h)

/-- Cuts that split no end of a line. Source: `esp-parse.c` `get_nonblank_line`. Kind: L -/
theorem reading_independent_two :
    (∀ n, ∃ obs, LineReads 1024 n (start [cstr "a\r\nb", cstr "\r\n"] espMk) obs ∧
        LineReads 1024 n (start [cstr "a", cstr "\r\nb\r\n"] espMk) obs) ∧
      LineReads 1024 2 (start [cstr "a\r\nb", cstr "\r\n"] espMk)
        [.ok (cstr "a"), .ok (cstr "b")] := by
  have h := @reading_independent_iff 1024 espMk [cstr "a\r\nb", cstr "\r\n"]
    [cstr "a", cstr "\r\nb\r\n"] (by decide) (by decide) (by decide) (by decide)
    (fitsBuf_of_length (by decide))
  refine ⟨h.1.mpr (sameSplits_of_none (by decide) (by decide)), ?_⟩
  exact (h.2 0 _ (cstr "a") (cstr "b") [10] 13 rfl (by decide) (by unfold NoEol; decide)
    (by unfold NoEol; decide) (by unfold Blank; decide) (by decide)).mpr (by decide)

/-- A read that ends inside of a `"\r\n"`: the next call reports an empty line.
Source: `esp-parse.c` `match_eol`, `get_nonblank_line`
Kind: P -/
theorem split_eol_reads_blank :
    [cstr "a\r", cstr "\nb\r\n"].flatten = [cstr "a\r\nb\r\n"].flatten ∧
      FitsBuf 1024 (cstr "a\r\nb\r\n") ∧
      LineReads 1024 2 (start [cstr "a\r", cstr "\nb\r\n"] espMk) [.ok (cstr "a"), .ok []] ∧
      LineReads 1024 2 (start [cstr "a\r\nb\r\n"] espMk) [.ok (cstr "a"), .ok (cstr "b")] ∧
      ¬ ∃ obs, LineReads 1024 2 (start [cstr "a\r", cstr "\nb\r\n"] espMk) obs ∧
        LineReads 1024 2 (start [cstr "a\r\nb\r\n"] espMk) obs := by
  have hfit : FitsBuf 1024 (cstr "a\r\nb\r\n") := fitsBuf_of_length (by decide)
  have hsplit : ∀ {obs}, LineReads 1024 2 (start [cstr "a\r", cstr "\nb\r\n"] espMk) obs ↔
      obs = [.ok (cstr "a"), .ok []] :=
    lineReads_iff (start_midway (by decide) (by decide) espMk) hfit 2
  have hwhole : ∀ {obs}, LineReads 1024 2 (start [cstr "a\r\nb\r\n"] espMk) obs ↔
      obs = [.ok (cstr "a"), .ok (cstr "b")] :=
    lineReads_iff (start_midway (by decide) (by decide) espMk) hfit 2
  refine ⟨by decide, hfit, hsplit.mpr rfl, hwhole.mpr rfl, ?_⟩
  rintro ⟨obs, h, h'⟩
  have heq := (hsplit.mp h).symm.trans (hwhole.mp h')
  simp [cstr] at heq

end Cs140e.Esp
