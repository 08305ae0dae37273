import Cs140e.Esp.Scan
import Cs140e.Esp.Run

/-!
# Lines of input and what the wait loops do with one

* `Lines P s` — `s` is a sequence of lines, each blank or with a text in `P`. Consuming any number
  of the end-of-line characters that start a stream of lines leaves a stream of lines
  (`Lines.eolRun`); `Lines.next` finds the first line that has text, `Lines.first` the first line.
* `matchTok_false` — a token that the next text does not start with.
* `Busy`, `matchBusy_true`, `matchBusy_false` — the "busy" lines.
* `Lexing.getNonblankLine` — reading a line gives its text, `trim`; `cmdEchoLine_blank`,
  `cmdEchoLine_text` — echoing consumes exactly one line.
-/

namespace Cs140e.Esp

open Cs140e.Lib Cs140e.Lib.Prog

/-! ## Streams of lines -/

/-- Nothing but blanks. Source: `esp-parse.c` `is_space_ch`. Kind: D -/
def Blank (t : List UInt8) : Prop := ∀ c ∈ t, isSpaceCh c = true

/-- One or more end-of-line characters. Source: `esp-parse.c` `match_eol`. Kind: D -/
structure Eol (e : List UInt8) : Prop where
  ne_nil : e ≠ []
  eol : ∀ c ∈ e, isEolCh c = true

/-- A sequence of lines, each blank or with a text in `P`. Source: `esp-run.c` `cmd_response`.
Kind: D -/
inductive Lines (P : List UInt8 → Prop) : List UInt8 → Prop where
  | nil : Lines P []
  | cons {t e r : List UInt8} (line : NoEol t) (text : Blank t ∨ P t) (eol : Eol e)
      (rest : Lines P r) : Lines P (t ++ e ++ r)

variable {P : List UInt8 → Prop} {s target : List UInt8}

/-- End-of-line characters in front make blank lines. Source: none: infrastructure. Kind: L -/
theorem Lines.append_eols {e : List UInt8} (he : ∀ c ∈ e, isEolCh c = true) (h : Lines P s) :
    Lines P (e ++ s) := by
  rcases e with _ | ⟨c, e⟩
  · exact h
  · exact Lines.cons (t := []) (by simp [NoEol]) (.inl (by simp [Blank])) ⟨by simp, he⟩ h

/-- Dropping an end-of-line character from the front leaves lines. Source: none: infrastructure.
Kind: L -/
theorem Lines.of_cons {c : UInt8} (h : Lines P (c :: s)) (hc : isEolCh c = true) : Lines P s := by
  generalize hcs : c :: s = cs at h
  cases h with
  | nil => simp at hcs
  | @cons t e r line text eol rest =>
      rcases t with _ | ⟨x, t⟩
      · obtain ⟨y, e, rfl⟩ := List.exists_cons_of_ne_nil eol.ne_nil
        simp only [List.nil_append, List.cons_append, List.cons.injEq] at hcs
        obtain ⟨rfl, rfl⟩ := hcs
        exact rest.append_eols fun x hx => eol.eol x (List.mem_cons_of_mem _ hx)
      · simp only [List.cons_append, List.cons.injEq] at hcs
        have := line x List.mem_cons_self
        rw [← hcs.1, hc] at this
        simp at this

/-- Consuming end-of-line characters in front of a target leaves lines in front of it.
Source: `esp-parse.c` `match_eol`
Kind: P -/
theorem Lines.eolRun (h : Lines P s) (htarget : ∀ c ∈ target.head?, isEolCh c = false)
    {v v' : View} (hv : EolRun v (s ++ target) v') :
    ∃ s', v' = v.seek (s' ++ target) ∧ Lines P s' ∧ s'.length ≤ s.length := by
  obtain ⟨e, r', hsplit, he, rfl⟩ := hv
  induction e generalizing s with
  | nil => exact ⟨s, by rw [hsplit]; rfl, h, Nat.le_refl _⟩
  | cons c e ih =>
      have hc := he c List.mem_cons_self
      rcases s with _ | ⟨d, s⟩
      · have := htarget c (by simp only [List.nil_append] at hsplit; simp [hsplit])
        rw [hc] at this
        simp at this
      · simp only [List.cons_append, List.cons.injEq] at hsplit
        obtain ⟨rfl, hsplit⟩ := hsplit
        obtain ⟨s', hs', hlines, hlen⟩ := ih (h.of_cons hc) hsplit
          fun x hx => he x (List.mem_cons_of_mem _ hx)
        exact ⟨s', hs', hlines, Nat.le_succ_of_le hlen⟩

/-- A text that is not blank starts, after its blanks, with a character that is neither.
Source: none: infrastructure
Kind: L -/
theorem exists_text {t : List UInt8} (hline : NoEol t) (ht : ¬ Blank t) :
    ∃ x t', t.dropWhile isSpaceCh = x :: t' ∧ isBlankCh x = false := by
  rcases h : t.dropWhile isSpaceCh with _ | ⟨x, t'⟩
  · exact absurd (List.dropWhile_eq_nil_iff.mp h) ht
  · refine ⟨x, t', rfl, ?_⟩
    have hsp := List.head?_dropWhile_not isSpaceCh t
    rw [h] at hsp
    have hmem : x ∈ t := (List.dropWhile_suffix isSpaceCh).subset (h ▸ List.mem_cons_self)
    have hx : isSpaceCh x = false := by simpa using hsp
    simp [isBlankCh, hx, hline x hmem]

/-- A line as the matchers see it: its text without the blanks in front.
Source: `esp-parse.c` `skip_blank_space`
Kind: L -/
theorem dropWhile_text {t r : List UInt8} {e : UInt8} (ht : ¬ Blank t) :
    (t ++ e :: r).dropWhile isSpaceCh = t.dropWhile isSpaceCh ++ e :: r := by
  have hne : (t.dropWhile isSpaceCh).isEmpty = false := by
    rw [List.isEmpty_eq_false_iff]
    intro h
    exact ht (List.dropWhile_eq_nil_iff.mp h)
  rw [List.dropWhile_append, hne]
  rfl

/-- A line behind blank ones, as the matchers see it. Source: `esp-parse.c` `matchv`. Kind: L -/
theorem dropWhile_blank_text {pre t r : List UInt8} {e : UInt8}
    (hpre : ∀ c ∈ pre, isBlankCh c = true) (hline : NoEol t) (ht : ¬ Blank t) :
    (pre ++ (t ++ e :: r)).dropWhile isBlankCh = t.dropWhile isSpaceCh ++ e :: r := by
  obtain ⟨x, t', htext, hx⟩ := exists_text hline ht
  rw [List.dropWhile_append_of_pos hpre, ← dropWhile_isSpaceCh_isBlankCh, dropWhile_text ht, htext]
  exact List.dropWhile_cons_of_neg (by simp [hx])

/-- A line that has text, with what follows its first end-of-line character.
Source: none: infrastructure
Kind: D -/
structure TextLine (P : List UInt8 → Prop) (t : List UInt8) (e : UInt8) (r : List UInt8) :
    Prop where
  text : P t
  line : NoEol t
  not_blank : ¬ Blank t
  eol : isEolCh e = true
  lines : Lines P r

/-- The text of a line, as the matchers see it. Source: `esp-parse.c` `matchv`. Kind: L -/
theorem TextLine.trimmed {t r : List UInt8} {e : UInt8} (h : TextLine P t e r) :
    NoEol (t.dropWhile isSpaceCh) ∧ t.dropWhile isSpaceCh ≠ [] := by
  obtain ⟨x, t', ht, -⟩ := exists_text h.line h.not_blank
  refine ⟨fun c hc => h.line c ((List.dropWhile_suffix isSpaceCh).subset hc), ?_⟩
  rw [ht]
  simp

/-- A line that has text is no blank line. Source: `esp-parse.c` `match_blank_line`. Kind: L -/
theorem TextLine.not_eol {t r : List UInt8} {e : UInt8} (h : TextLine P t e r)
    (target : List UInt8) :
    ∃ x s', (t ++ e :: r ++ target).dropWhile isSpaceCh = x :: s' ∧ isEolCh x = false := by
  obtain ⟨x, t', ht, hx⟩ := exists_text h.line h.not_blank
  simp only [isBlankCh, Bool.or_eq_false_iff] at hx
  refine ⟨x, t' ++ e :: (r ++ target), ?_, hx.2⟩
  rw [List.append_assoc, List.cons_append, dropWhile_text h.not_blank, ht, List.cons_append]

/-- **The next line that has text**: the target, or one of the lines before it.
Source: `esp-parse.c` `skip_blank_lines`
Kind: P -/
theorem Lines.next (h : Lines P s) :
    (∀ c ∈ s, isBlankCh c = true) ∨ ∃ t e r, TextLine P t e r ∧ r.length < s.length ∧
      ∀ target, (s ++ target).dropWhile isBlankCh =
        t.dropWhile isSpaceCh ++ e :: (r ++ target) := by
  induction h with
  | nil => exact .inl (by simp)
  | @cons t e r line text eol rest ih =>
      obtain ⟨c, e, rfl⟩ := List.exists_cons_of_ne_nil eol.ne_nil
      by_cases ht : Blank t
      · have hb : ∀ x ∈ t ++ c :: e, isBlankCh x = true := by
          intro x hx
          rcases List.mem_append.mp hx with hx | hx
          · simp [isBlankCh, ht x hx]
          · simp [isBlankCh, eol.eol x hx]
        rcases ih with hblank | ⟨t', e', r', htext, hlen, hdrop⟩
        · left
          intro x hx
          rcases List.mem_append.mp hx with hx | hx
          · exact hb x hx
          · exact hblank x hx
        · refine .inr ⟨t', e', r', htext, by simp only [List.length_append]; omega, fun target => ?_⟩
          rw [List.append_assoc, List.dropWhile_append_of_pos hb, hdrop]
      · refine .inr ⟨t, c, e ++ r, ⟨text.resolve_left ht, line, ht, eol.eol c List.mem_cons_self,
          rest.append_eols fun x hx => eol.eol x (List.mem_cons_of_mem _ hx)⟩, ?_, fun target => ?_⟩
        · simp only [List.length_append, List.length_cons]
          omega
        · have happ : t ++ c :: e ++ r ++ target = [] ++ (t ++ c :: (e ++ r ++ target)) := by simp
          rw [happ]
          exact dropWhile_blank_text (by simp) line ht

/-- **The first line**: there is none, or it is blank, or it has text.
Source: `esp-parse.c` `match_blank_line`
Kind: P -/
theorem Lines.first (h : Lines P s) :
    s = [] ∨
    (∃ e r, isEolCh e = true ∧ Lines P r ∧ r.length < s.length ∧
      ∀ target, (s ++ target).dropWhile isSpaceCh = e :: (r ++ target)) ∨
    ∃ t e r, TextLine P t e r ∧ s = t ++ e :: r := by
  cases h with
  | nil => exact .inl rfl
  | @cons t e r line text eol rest =>
      obtain ⟨c, e, rfl⟩ := List.exists_cons_of_ne_nil eol.ne_nil
      have hc := eol.eol c List.mem_cons_self
      have hrest : Lines P (e ++ r) :=
        rest.append_eols fun x hx => eol.eol x (List.mem_cons_of_mem _ hx)
      right
      by_cases ht : Blank t
      · refine .inl ⟨c, e ++ r, hc, hrest, ?_, fun target => ?_⟩
        · simp only [List.length_append, List.length_cons]
          omega
        · have happ : t ++ c :: e ++ r ++ target = t ++ c :: (e ++ r ++ target) := by simp
          rw [happ]
          exact dropWhile_blank_eol ht hc
      · exact .inr ⟨t, c, e ++ r, ⟨text.resolve_left ht, line, ht, hc, hrest⟩, by simp⟩

/-! ## Tokens -/

section

variable {tgt : Target} {v : View} {e : UInt8} {r : List UInt8}

/-- The loop of `match_tok` on a line that does not start with the token.
Source: `esp-parse.c` `match_tok`
Kind: L -/
theorem tokScan_false {tok line : List UInt8} (last : UInt8)
    (htok : ∀ c ∈ tok, c < 128 ∧ isEolCh c = false) (he : isEolCh e = true)
    (hr : v.rest = line ++ e :: r) (hne : ¬ tok <+: line) :
    Ends Reads (tokScan tgt tok last) v (.ok false)
      (fun v' => ∃ r', v' = v.seek r' ∧ r'.length ≤ v.rest.length) := by
  induction tok generalizing line v last with
  | nil => exact absurd List.nil_prefix hne
  | cons c p ih =>
      obtain ⟨hascii, hc⟩ := htok c List.mem_cons_self
      have hp : ∀ x ∈ p, x < 128 ∧ isEolCh x = false := by
        intro x hx
        apply htok
        exact List.mem_cons_of_mem _ hx
      rcases line with _ | ⟨x, line⟩
      · refine (lexGetc_ends hr).seq ?_
        have hec : e ≠ c := by
          rintro rfl
          simp [hc] at he
        rw [charEq_of_ascii hascii, beq_eq_false_iff_ne.mpr hec]
        exact .ret ⟨r, rfl, by simp [hr]⟩
      · refine (lexGetc_ends (show v.rest = x :: (line ++ e :: r) from hr)).seq ?_
        rw [charEq_of_ascii hascii]
        by_cases hxc : x = c
        · subst hxc
          have hne' : ¬ p <+: line := by
            intro h
            apply hne
            exact List.cons_prefix_cons.mpr ⟨rfl, h⟩
          rw [beq_self_eq_true]
          refine (ih (v := v.seek (line ++ e :: r)) x hp rfl hne').mono ?_
          rintro _ ⟨r', rfl, hlen⟩
          refine ⟨r', rfl, Nat.le_trans hlen ?_⟩
          simp [hr]
        · rw [beq_eq_false_iff_ne.mpr hxc]
          exact .ret ⟨line ++ e :: r, rfl, by simp [hr]⟩

/-- A token that the next line does not start with. Source: `esp-parse.c` `match_tok`. Kind: P -/
theorem matchTok_false {tok line : List UInt8} (htok : ∀ c ∈ tok, c < 128 ∧ isEolCh c = false)
    (hline : line ≠ []) (he : isEolCh e = true)
    (hr : v.rest.dropWhile isBlankCh = line ++ e :: r) (hne : ¬ tok <+: line) :
    Ends Reads (matchTok tgt tok) v (.ok false) (· = v) := by
  obtain ⟨x, line, rfl⟩ := List.exists_cons_of_ne_nil hline
  have htok0 : tok ≠ [] := by
    rintro rfl
    exact hne List.nil_prefix
  refine lexGetCkpt_ends fun hsuf => skipToText_ends hr ?_
  refine cAssert_ends (by simpa using htok0) ?_
  refine (tokScan_false (v := v.seek (x :: (line ++ e :: r))) 0 htok he rfl hne).bind ?_
  rintro _ ⟨r', rfl, hlen⟩
  exact lexRestoreCkpt_ends hsuf ⟨rfl, Nat.le_trans hlen (length_le_of_dropWhile hr)⟩ (.ret rfl)

/-! ## Reading a line -/

/-- A line as `get_nonblank_line` stores it: without the blanks around its text.
Source: `esp-parse.c` `get_nonblank_line`
Kind: D -/
def trim (t : List UInt8) : List UInt8 := (t.dropWhile isSpaceCh).rdropWhile isSpaceCh

/-- A blank line has no text. Source: `esp-parse.c` `get_nonblank_line`. Kind: L -/
theorem trim_eq_nil_iff {t : List UInt8} : trim t = [] ↔ Blank t := by
  rw [trim, List.rdropWhile_eq_nil_iff]
  constructor
  · intro h
    by_contra ht
    obtain ⟨x, hx⟩ : ∃ x, (t.dropWhile isSpaceCh).head? = some x := by
      rcases hd : t.dropWhile isSpaceCh with _ | ⟨x, u⟩
      · exact absurd (List.dropWhile_eq_nil_iff.mp hd) ht
      · exact ⟨x, rfl⟩
    have hsp := List.head?_dropWhile_not isSpaceCh t
    rw [hx] at hsp
    have := h x (List.mem_of_head? hx)
    simp [this] at hsp
  · intro h x hx
    exact h x ((List.dropWhile_suffix isSpaceCh).subset hx)

/-- Source: none: infrastructure. Kind: L -/
theorem trim_length_le (t : List UInt8) : (trim t).length ≤ t.length :=
  Nat.le_trans (List.rdropWhile_prefix _ _).length_le (List.dropWhile_suffix isSpaceCh).length_le

/-- The blanks at the end of a line that has text are behind its first character.
Source: none: infrastructure
Kind: L -/
theorem rdropWhile_cons_of_text {c : UInt8} {t : List UInt8} (h : ¬ Blank (c :: t)) :
    (c :: t).rdropWhile isSpaceCh = c :: t.rdropWhile isSpaceCh := by
  unfold List.rdropWhile
  rw [List.reverse_cons, List.dropWhile_append]
  split
  · next hempty =>
    rw [List.isEmpty_iff, List.dropWhile_eq_nil_iff] at hempty
    have hc : ¬ isSpaceCh c = true := by
      intro hc
      apply h
      rintro x (_ | ⟨_, hx⟩)
      · exact hc
      · exact hempty x (List.mem_reverse.mpr hx)
    rw [List.dropWhile_cons_of_neg hc, List.dropWhile_eq_nil_iff.mpr hempty]
    rfl
  · rw [List.reverse_append]
    rfl

section

variable {R : View → World → Prop} {Q : View → Prop} {t : List UInt8}

/-- The loop of `get_nonblank_line` reads a line that fits, its blanks at the end aside.
Source: `esp-parse.c` `get_nonblank_line`
Kind: P -/
theorem Lexing.lineLoop (h : Lexing R) {left : Nat} (hline : NoEol t) (he : isEolCh e = true)
    (hlen : (t.rdropWhile isSpaceCh).length < left) (hr : v.rest = t ++ e :: r)
    (heat : Ends R eatEols (v.seek (e :: r)) (.ok ()) Q) :
    Ends R (lineLoop left) v (.ok (some (t.rdropWhile isSpaceCh))) Q := by
  induction left generalizing t v with
  | zero => simp at hlen
  | succ left ih =>
      by_cases ht : Blank t
      · have hdrop : v.rest.dropWhile isSpaceCh = e :: r := by
          rw [hr]
          exact dropWhile_blank_eol ht he
        rw [List.rdropWhile_eq_nil_iff.mpr ht]
        exact (h.matchEol_true hdrop he heat).bind fun _ h => .ret h
      · obtain ⟨x, t', htx, hx⟩ := exists_text hline ht
        simp only [isBlankCh, Bool.or_eq_false_iff] at hx
        obtain ⟨c, t, rfl⟩ : ∃ c u, t = c :: u := by
          cases t with
          | nil => exact absurd (fun _ h => by simp at h) ht
          | cons c t => exact ⟨c, t, rfl⟩
        have hdrop : v.rest.dropWhile isSpaceCh = x :: (t' ++ e :: r) := by
          rw [hr, dropWhile_text ht, htx, List.cons_append]
        rw [rdropWhile_cons_of_text ht, List.length_cons, Nat.add_lt_add_iff_right] at hlen
        rw [rdropWhile_cons_of_text ht]
        refine (h.matchEol_false hdrop hx.2).seq ?_
        refine (h.getc (show v.rest = c :: (t ++ e :: r) from hr)).seq ?_
        refine (ih (v := v.seek (t ++ e :: r)) ?_ hlen rfl heat).bind fun _ h => .ret h
        exact fun y hy => hline y (List.mem_cons_of_mem _ hy)

/-- **Reading a line** that fits: its text, or nothing when it is blank.
Source: `esp-parse.c` `get_nonblank_line`
Kind: P -/
theorem Lexing.getNonblankLine (h : Lexing R) {nbytes : Nat} (hline : NoEol t)
    (he : isEolCh e = true) (hlen : (trim t).length < nbytes) (hr : v.rest = t ++ e :: r)
    (heat : Ends R eatEols (v.seek (e :: r)) (.ok ()) Q) :
    Ends R (getNonblankLine nbytes) v (.ok (trim t)) Q := by
  by_cases ht : Blank t
  · have hdrop : v.rest.dropWhile isSpaceCh = e :: r := by
      rw [hr]
      exact dropWhile_blank_eol ht he
    rw [trim_eq_nil_iff.mpr ht]
    exact (h.matchBlankLine_true hdrop he heat).bind fun _ h => .ret h
  · obtain ⟨x, t', htx, hx⟩ := exists_text hline ht
    simp only [isBlankCh, Bool.or_eq_false_iff] at hx
    have hdrop : v.rest.dropWhile isSpaceCh = x :: (t' ++ e :: r) := by
      rw [hr, dropWhile_text ht, htx, List.cons_append]
    have hline' : NoEol (x :: t') := by
      intro y hy
      apply hline
      exact (List.dropWhile_suffix isSpaceCh).subset (htx ▸ hy)
    rw [trim, htx] at hlen ⊢
    refine (h.matchBlankLine_false hdrop hx.2).seq ((h.skipBlankSpace hdrop).seq ?_)
    have hloop := h.lineLoop (v := v.seek (x :: (t' ++ e :: r))) hline' he hlen rfl heat
    exact hloop.bind fun _ h => .ret h

end

/-! ## Echoing a line -/

/-- Echoing consumes a blank line. Source: `esp-run.c` `cmd_echo_line`. Kind: L -/
theorem cmdEchoLine_blank (he : isEolCh e = true) (hr : v.rest.dropWhile isSpaceCh = e :: r) :
    Ends Reads cmdEchoLine v (.ok ()) (EolRun v r) := by
  refine Ends.bind (a := []) (Q := EolRun v r) ?_ fun _ h => .ret h
  exact (matchBlankLine_ends hr he).bind fun _ h => .ret h

/-- Echoing consumes a line that fits the buffer. Source: `esp-run.c` `cmd_echo_line`. Kind: P -/
theorem cmdEchoLine_text {t : List UInt8} (hline : NoEol t) (hlen : t.length ≤ 1023)
    (he : isEolCh e = true) (hr : v.rest = t ++ e :: r) :
    Ends Reads cmdEchoLine v (.ok ()) (EolRun v r) := by
  have hfit : (trim t).length < 1024 := Nat.lt_succ_of_le (Nat.le_trans (trim_length_le t) hlen)
  have heat : Ends Reads eatEols (v.seek (e :: r)) (.ok ()) (EolRun v r) := eatEols_ends rfl
  exact (lexing_reads.getNonblankLine hline he hfit hr heat).bind fun _ h => .ret h

end

/-! ## Busy lines -/

/-- What the esp says when it is busy. Source: `esp-run.c` `match_busy`. Kind: D -/
def Busy (t : List UInt8) : Prop := t = cstr "busy s..." ∨ t = cstr "busy p..."

instance (t : List UInt8) : Decidable (Busy t) :=
  inferInstanceAs (Decidable (t = cstr "busy s..." ∨ t = cstr "busy p..."))

/-- A busy line has text, and no blanks in front of it. Source: `esp-run.c` `match_busy`. Kind: L -/
theorem Busy.head {t : List UInt8} (ht : Busy t) :
    (∃ t', t = 98 :: t') ∧ t.dropWhile isSpaceCh = t := by
  rcases ht with rfl | rfl
  · exact ⟨⟨_, rfl⟩, by decide⟩
  · exact ⟨⟨_, rfl⟩, by decide⟩

section

variable {tgt : Target} {stale : Nat → Ptr} {v : View} {t : List UInt8} {e : UInt8} {r : List UInt8}

/-- `match_busy` at a busy line. Source: `esp-run.c` `match_busy`. Kind: P -/
theorem matchBusy_true (ht : Busy t) (he : isEolCh e = true)
    (hr : v.rest.dropWhile isBlankCh = t ++ e :: r) :
    Ends Reads (matchBusy tgt stale) v (.ok true) (EolRun v r) := by
  rcases ht with rfl | rfl
  · have hline : NoEol (cstr "busy s...") := by
      unfold NoEol
      decide
    have hmatch : Ends Reads (matchLine tgt (cstr "busy s...") stale) v (.ok true) (EolRun v r) :=
      matchLine_true (l := []) (by decide) hline (by decide) he hr (by decide) (by simp)
    exact hmatch.bind fun _ h => .ret h
  · have hline : NoEol (cstr "busy p...") := by
      unfold NoEol
      decide
    have hs : Ends Reads (matchLine tgt (cstr "busy s...") stale) v (.ok false) (· = v) :=
      matchLine_false (by decide) hline (by decide) he hr (by decide)
    have hp : Ends Reads (matchLine tgt (cstr "busy p...") stale) v (.ok true) (EolRun v r) :=
      matchLine_true (l := []) (by decide) hline (by decide) he hr (by decide) (by simp)
    exact hs.seq hp

/-- `match_busy` at another line. Source: `esp-run.c` `match_busy`. Kind: P -/
theorem matchBusy_false (hline : NoEol t) (hne : t ≠ []) (he : isEolCh e = true)
    (hr : v.rest.dropWhile isBlankCh = t ++ e :: r) (hs : ¬ cstr "busys..." <+: inked t)
    (hp : ¬ cstr "busyp..." <+: inked t) :
    Ends Reads (matchBusy tgt stale) v (.ok false) (· = v) := by
  have h₁ : Ends Reads (matchLine tgt (cstr "busy s...") stale) v (.ok false) (· = v) :=
    matchLine_false (by decide) hline hne he hr (litScan_none hs)
  have h₂ : Ends Reads (matchLine tgt (cstr "busy p...") stale) v (.ok false) (· = v) :=
    matchLine_false (by decide) hline hne he hr (litScan_none hp)
  exact h₁.seq h₂

end

end Cs140e.Esp
