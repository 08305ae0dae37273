import Cs140e.Esp.Echo

/-!
# Which lines a format without conversions matches

Blanks aside, the next line that is not blank is the format, or starts with it, or does not.

* `LineFormat` — the formats; `NextLine` — the line.
* `litScan_some` — the loop of `matchv` accepts every text that starts with the format, and reads it
  through the format's last character. With `litScan_inked` this is exactly what it accepts.
* `ReadsBefore late` — a lexer that is sent more behind the stream of the view; `ends_before` — what
  has returned does not see it.
* `match_line_grammar` — what `match_line` and `match` do on every line.
-/

namespace Cs140e.Esp

open Cs140e.Lib Cs140e.Lib.Prog

/-- A format of ASCII characters without conversions, tabs and ends of lines that does not end in a
space. Source: `esp-parse.c` `match_line`. Kind: D -/
structure LineFormat (fmt : List UInt8) : Prop where
  ne_nil : fmt ≠ []
  ascii : ∀ c ∈ fmt, c ≠ 0 ∧ c < 128
  noEol : NoEol fmt
  plain : ∀ c ∈ fmt, c ≠ 37 ∧ c ≠ 9
  last : fmt.getLast? ≠ some 32

/-- The next line of `s` that has text: `line`, then the end-of-line character `e`, then `r`. The
blank lines in front of it are skipped. Source: `esp-parse.c` `skip_blank_lines`. Kind: D -/
structure NextLine (s line : List UInt8) (e : UInt8) (r : List UInt8) : Prop where
  noEol : NoEol line
  text : ¬ Blank line
  eol : isEolCh e = true
  split : ∃ pre, (∀ c ∈ pre, isBlankCh c = true) ∧ s = pre ++ (line ++ e :: r)

/-! ## The format and the text -/

/-- Blanks in front of a text do not count. Source: none: infrastructure. Kind: L -/
theorem inked_append (s t : List UInt8) : inked (s ++ t) = inked s ++ inked t :=
  List.filter_append s t

/-- Source: none: infrastructure. Kind: L -/
theorem inked_eq_nil_iff {s : List UInt8} : inked s = [] ↔ Blank s := by
  rw [inked, List.filter_eq_nil_iff]
  constructor
  · intro h c hc
    simpa using h c hc
  · intro h c hc
    simp [h c hc]

/-- Source: none: infrastructure. Kind: L -/
theorem inked_cons {c : UInt8} (hc : isSpaceCh c = false) (s : List UInt8) :
    inked (c :: s) = c :: inked s := by
  rw [inked, List.filter_cons_of_pos (by simp [hc])]
  rfl

/-- A text that starts with a character, blanks aside. Source: none: infrastructure. Kind: L -/
theorem dropWhile_of_inked {c : UInt8} {line s : List UInt8} (h : c :: s <+: inked line) :
    ∃ l, line.dropWhile isSpaceCh = c :: l ∧ s <+: inked l := by
  rw [← inked_dropWhile] at h
  rcases hl : line.dropWhile isSpaceCh with _ | ⟨d, l⟩
  · rw [hl] at h
    exact absurd (List.prefix_nil.mp h) (by simp)
  · have hd : isSpaceCh d = false := by
      have := List.head?_dropWhile_not isSpaceCh line
      rw [hl] at this
      simpa using this
    rw [hl, inked_cons hd, List.cons_prefix_cons] at h
    exact ⟨l, by rw [h.1], h.2⟩

/-- **A format accepts a text that starts with it**, blanks aside, through its last character.
(Induction on the format; a space of it is passed over because a character still follows.)
Source: `esp-parse.c` `matchv`
Kind: P -/
theorem litScan_some {fmt line : List UInt8} (hfmt : Literal fmt) (hlast : fmt.getLast? ≠ some 32)
    (hpre : inked fmt <+: inked line) :
    ∃ m l, litScan fmt line = some l ∧ line = m ++ l ∧ m.getLast? = fmt.getLast? := by
  induction fmt generalizing line with
  | nil => exact ⟨[], line, rfl, rfl, rfl⟩
  | cons c fmt ih =>
      have hfmt' : Literal fmt := fun x hx => hfmt x (List.mem_cons_of_mem _ hx)
      have hlast' : fmt.getLast? ≠ some 32 := by
        cases fmt with
        | nil => simp
        | cons d fmt => rwa [List.getLast?_cons_cons] at hlast
      rw [litScan]
      rcases hfmt c List.mem_cons_self with rfl | hc
      · -- a space
        obtain ⟨m, l, hscan, hline, hend⟩ := ih hfmt' hlast' hpre
        have hne : line ≠ [] := by
          rintro rfl
          rw [(List.append_eq_nil_iff.mp hline.symm).1] at hend
          have hnil := List.getLast?_eq_none_iff.mp hend.symm
          rw [hnil] at hlast
          exact hlast rfl
        refine ⟨m, l, by rw [if_neg hne, if_pos rfl, hscan], hline, ?_⟩
        rw [hend]
        cases fmt with
        | nil => exact absurd rfl hlast
        | cons d fmt => rw [List.getLast?_cons_cons]
      · -- a character of the text, behind blanks
        have hb := isBlankCh_of_isPlain hc
        simp only [isBlankCh, Bool.or_eq_false_iff] at hb
        have h32 : c ≠ 32 := by
          rintro rfl
          exact absurd hb.1 (by decide)
        rw [inked_cons hb.1] at hpre
        obtain ⟨l, hdrop, hrest⟩ := dropWhile_of_inked hpre
        obtain ⟨m, l', hscan, rfl, hend⟩ := ih hfmt' hlast' hrest
        have hsplit := List.takeWhile_append_dropWhile (p := isSpaceCh) (l := line)
        rw [hdrop] at hsplit
        have hne : line ≠ [] := by
          rintro rfl
          simp at hdrop
        refine ⟨line.takeWhile isSpaceCh ++ c :: m, l', ?_, ?_, ?_⟩
        · rw [if_neg hne, if_neg h32, hdrop]
          simp [hscan]
        · rw [List.append_assoc]
          exact hsplit.symm
        · rw [List.getLast?_append, List.getLast?_cons, List.getLast?_cons, hend]
          rfl

/-! ## What arrives later -/

/-- The lexer reads the stream of the view, and more arrives behind it. Source: `libesp.h`
`esp_read`. Kind: D -/
def ReadsBefore (late : List (List UInt8)) (v : View) (w : World) : Prop :=
  ∃ w₀, Reads v w₀ ∧ w = w₀.more late

variable {tgt : Target} {va : Nat → Ptr} {v v₁ : View}

/-- What returns on the stream does not see what arrives behind it. Source: `libesp.h` `esp_read`.
Kind: L -/
theorem ends_before {α : Type} {p : Prog World Stop α} {a : α} {Q : View → Prop}
    (h : Ends Reads p v (.ok a) Q) (hp : ∀ {R : World → World → Prop}, Stable R → Tracks R p)
    (late : List (List UInt8)) : Ends (ReadsBefore late) p v (.ok a) Q := by
  rintro _ ⟨w, hw, rfl⟩
  obtain ⟨t, hrun, v', hv', hQ⟩ := h w hw
  obtain ⟨_, hrun', rfl⟩ := hp (stable_more late) w _ a t rfl hrun
  exact ⟨t.more late, hrun', v', ⟨t, hv', rfl⟩, hQ⟩

/-- The position, and what is not consumed. Source: `esp-lex-simple.h` `lex_t`. Kind: L -/
theorem ReadsBefore.unread {late : List (List UInt8)} {w : World} (h : ReadsBefore late v w) :
    w.lex.pos = v.pos ∧ w.unread = v.rest ++ late.flatten := by
  obtain ⟨w₀, hw₀, rfl⟩ := h
  exact ⟨hw₀.pos_eq, by rw [World.unread_more hw₀.pos_le, hw₀.unread]⟩

/-! ## Whole calls -/

/-- A line that goes on: its next character is no blank. Source: `esp-parse.c` `match_eol`.
Kind: L -/
theorem dropWhile_goesOn {l r : List UInt8} {e : UInt8} (hline : NoEol l) (hl : ¬ Blank l) :
    ∃ x l', (l ++ e :: r).dropWhile isSpaceCh = x :: l' ∧ isEolCh x = false := by
  obtain ⟨x, l', htext, hx⟩ := exists_text hline hl
  simp only [isBlankCh, Bool.or_eq_false_iff] at hx
  exact ⟨x, _, by rw [dropWhile_text hl, htext, List.cons_append], hx.2⟩

/-- `lex_panic` in `match_linev`. Source: `esp-parse.c` `match_linev`. Kind: D -/
def noEolPanic : Stop := .panic "did not match end of line\n" []

/-- `match_line` when the format has matched and the line goes on. Source: `esp-parse.c`
`match_linev`. Kind: L -/
theorem matchLine_goesOn {R : View → World → Prop} {fmt : List UInt8}
    (hscan : Ends R (matchv tgt va fmt 0) v (.ok (true, 0)) (· = v₁))
    (heol : Ends R matchEol v₁ (.ok false) (· = v₁)) :
    Ends R (matchLine tgt fmt va) v (.error noEolPanic) (· = v₁) := by
  have hline : Ends R (matchLinev tgt va fmt 0) v (.error noEolPanic) (· = v₁) :=
    hscan.seq (heol.seq (.raise rfl))
  exact hline.bind_error

/-- `match_line` when the format has matched and nothing but blanks is left of the line.
Source: `esp-parse.c` `match_linev`
Kind: L -/
theorem matchLine_over {fmt l r : List UInt8} {e : UInt8}
    (hscan : Ends Reads (matchv tgt va fmt 0) v (.ok (true, 0)) (· = v.seek (l ++ e :: r)))
    (hl : Blank l) (he : isEolCh e = true) :
    Ends Reads (matchLine tgt fmt va) v (.ok true) (EolRun v r) := by
  have heol := matchEol_ends (v := v.seek (l ++ e :: r)) (dropWhile_blank_eol hl he) he
  refine Ends.bind (a := (true, 0)) (Q := EolRun v r) ?_ fun _ h => .ret h
  exact hscan.seq (heol.bind fun _ h => .ret h)

/-- `match` is `matchv` on its first arguments. Source: `esp-parse.c` `match`. Kind: L -/
theorem matchPartial_of_matchv {R : View → World → Prop} {fmt : List UInt8} {b : Bool}
    (hscan : Ends R (matchv tgt va fmt 0) v (.ok (b, 0)) (· = v₁)) :
    Ends R (matchPartial tgt fmt va) v (.ok b) (· = v₁) :=
  hscan.seq (.ret rfl)

section

variable {fmt line r : List UInt8} {e : UInt8} (hfmt : LineFormat fmt)
  (h : NextLine v.rest line e r)

/-- Source: `esp-parse.c` `matchv`. Kind: L -/
theorem LineFormat.literal (hfmt : LineFormat fmt) : Literal fmt :=
  literal_of_ascii hfmt.ascii hfmt.noEol hfmt.plain

include h in
/-- The line as `matchv` sees it. Source: `esp-parse.c` `matchv`. Kind: L -/
theorem NextLine.seen : NoEol (line.dropWhile isSpaceCh) ∧ line.dropWhile isSpaceCh ≠ [] ∧
    v.rest.dropWhile isBlankCh = line.dropWhile isSpaceCh ++ e :: r := by
  obtain ⟨pre, hpre, hsplit⟩ := h.split
  refine ⟨fun c hc => h.noEol c ((List.dropWhile_suffix isSpaceCh).subset hc), fun hnil => ?_, ?_⟩
  · exact h.text (List.dropWhile_eq_nil_iff.mp hnil)
  · rw [hsplit]
    exact dropWhile_blank_text hpre h.noEol h.text

include hfmt h in
variable (tgt va) in
/-- A line that starts with the format, blanks aside: `matchv` stops behind the format's last
character. Source: `esp-parse.c` `matchv`. Kind: P -/
theorem matchv_prefix (hpre : inked fmt <+: inked line) :
    ∃ m l, line = m ++ l ∧ inked m = inked fmt ∧ m.getLast? = fmt.getLast? ∧
      Ends Reads (matchv tgt va fmt 0) v (.ok (true, 0)) (· = v.seek (l ++ e :: r)) := by
  obtain ⟨hline, hne, hr⟩ := h.seen
  obtain ⟨m, l, hscan, hsplit, hend⟩ := litScan_some hfmt.literal hfmt.last
    (hpre.trans (by rw [inked_dropWhile]))
  have hwhole := List.takeWhile_append_dropWhile (p := isSpaceCh) (l := line)
  have hink : inked m = inked fmt := by
    have hparts := litScan_inked hscan
    rw [hsplit, inked_append] at hparts
    exact List.append_cancel_right hparts
  have hnil : m ≠ [] := by
    rintro rfl
    exact hfmt.ne_nil (List.getLast?_eq_none_iff.mp hend.symm)
  refine ⟨line.takeWhile isSpaceCh ++ m, l, ?_, ?_, ?_,
    matchv_true hfmt.literal hline hne h.eol hr hscan⟩
  · rw [List.append_assoc, ← hsplit, hwhole]
  · have hblank : Blank (line.takeWhile isSpaceCh) := fun c hc => List.mem_takeWhile_imp hc
    rw [inked_append, inked_eq_nil_iff.mpr hblank, hink, List.nil_append]
  · rw [List.getLast?_append_of_ne_nil _ hnil, hend]

include hfmt h in
variable (tgt va) in
/-- Another line: nothing is consumed. Source: `esp-parse.c` `matchv`. Kind: L -/
theorem matchv_other (hpre : ¬ inked fmt <+: inked line) :
    Ends Reads (matchv tgt va fmt 0) v (.ok (false, 0)) (· = v) := by
  obtain ⟨hline, hne, hr⟩ := h.seen
  rw [← inked_dropWhile line] at hpre
  exact matchv_false hfmt.literal hline hne h.eol hr (litScan_none hpre)

end

/-! ## The grammar -/

/-- What `match_line` ends with, for the texts of the format and of the line without their blanks.
Source: `esp-parse.h` `match_line`
Kind: D -/
structure LineMatch (fmt line : List UInt8) (o : Except Stop Bool) : Prop where
  one : o = .ok true ↔ line = fmt
  panic : o = .error noEolPanic ↔ fmt <+: line ∧ line ≠ fmt
  zero : o = .ok false ↔ ¬ fmt <+: line

/-- A call that is not consumed: the position is the one before it.
Source: `esp-lex-simple.h` `lex_restore_ckpt`
Kind: D -/
structure Restored (w t : World) : Prop where
  pos : t.lex.pos = w.lex.pos
  unread : t.unread = w.unread

/-- Source: `esp-lex-simple.h` `lex_restore_ckpt`. Kind: L -/
theorem ReadsBefore.restored {late : List (List UInt8)} {w t : World}
    (hw : ReadsBefore late v w) (ht : ReadsBefore late v t) : Restored w t where
  pos := by rw [ht.unread.1, hw.unread.1]
  unread := by rw [ht.unread.2, hw.unread.2]

section

variable {fmt line r : List UInt8} {e : UInt8} {w : World}

/-- `match_line` on every line. Source: `esp-parse.c` `match_line`. Kind: L -/
theorem matchLine_grammar (hfmt : LineFormat fmt) (hw : Reads v w) (h : NextLine v.rest line e r)
    (late : List (List UInt8)) :
    ∃ o t, Runs (matchLine tgt fmt va) (w.more late) o t ∧ LineMatch (inked fmt) (inked line) o ∧
      (o = .ok true → ∃ eols r', r = eols ++ r' ∧ (∀ c ∈ eols, isEolCh c = true) ∧
        t.unread = r' ++ late.flatten) ∧
      (o = .ok false → Restored (w.more late) t) := by
  have hstart : ReadsBefore late v (w.more late) := ⟨w, hw, rfl⟩
  have htracks {R : World → World → Prop} (hR : Stable R) : Tracks R (matchv tgt va fmt 0) :=
    matchv_tracks hR va fmt 0
  by_cases hpre : inked fmt <+: inked line
  · obtain ⟨m, l, rfl, hink, -, hscan⟩ := matchv_prefix tgt va hfmt h hpre
    rw [inked_append, hink]
    by_cases hl : Blank l
    · -- the rest of the line is blank
      obtain ⟨t, hrun, v', hv', eols, r', hr, heols, rfl⟩ := ends_before
        (matchLine_over hscan hl h.eol) (fun hR => matchLine_tracks hR va fmt) late _ hstart
      rw [inked_eq_nil_iff.mpr hl, List.append_nil]
      refine ⟨.ok true, t, hrun, ⟨by simp, by simp, by simp⟩, fun _ => ?_, fun h => by simp at h⟩
      exact ⟨eols, r', hr, heols, hv'.unread.2⟩
    · -- the line goes on
      have hnil : inked l ≠ [] := fun hnil => hl (inked_eq_nil_iff.mp hnil)
      obtain ⟨x, l', hdrop, hx⟩ := dropWhile_goesOn (e := e) (r := r)
        (fun c hc => h.noEol c (List.mem_append_right m hc)) hl
      have hgoesOn := matchLine_goesOn (ends_before hscan htracks late)
        (ends_before (matchEol_false (v := v.seek (l ++ e :: r)) hdrop hx) matchEol_tracks late)
      obtain ⟨t, hrun, -⟩ := hgoesOn _ hstart
      refine ⟨_, t, hrun, ⟨?_, ?_, ?_⟩, fun h => by simp at h, fun h => by simp at h⟩
      · simp [hnil]
      · simp [hnil]
      · simp
  · have hends := ends_before (matchv_other tgt va hfmt h hpre) htracks late
    have hline : Ends (ReadsBefore late) (matchLine tgt fmt va) v (.ok false) (· = v) :=
      Ends.seq (hends.seq (.ret rfl)) (.ret rfl)
    obtain ⟨t, hrun, _, hv', rfl⟩ := hline _ hstart
    refine ⟨.ok false, t, hrun, ⟨?_, ?_, by simpa using hpre⟩, fun h => by simp at h,
      fun _ => hstart.restored hv'⟩
    · refine iff_of_false (by simp) fun heq => hpre ?_
      rw [heq]
    · exact iff_of_false (by simp [noEolPanic]) fun heq => hpre heq.1

/-- `match` on every line. Source: `esp-parse.c` `match`. Kind: L -/
theorem matchPartial_grammar (hfmt : LineFormat fmt) (hw : Reads v w)
    (h : NextLine v.rest line e r) (late : List (List UInt8)) :
    ∃ b t, Runs (matchPartial tgt fmt va) (w.more late) (.ok b) t ∧
      (b = true ↔ inked fmt <+: inked line) ∧
      (b = true → ∃ m l, line = m ++ l ∧ inked m = inked fmt ∧ m.getLast? = fmt.getLast? ∧
        t.unread = l ++ e :: r ++ late.flatten) ∧
      (b = false → Restored (w.more late) t) := by
  have hstart : ReadsBefore late v (w.more late) := ⟨w, hw, rfl⟩
  have htracks {R : World → World → Prop} (hR : Stable R) : Tracks R (matchv tgt va fmt 0) :=
    matchv_tracks hR va fmt 0
  by_cases hpre : inked fmt <+: inked line
  · obtain ⟨m, l, hsplit, hink, hend, hscan⟩ := matchv_prefix tgt va hfmt h hpre
    obtain ⟨t, hrun, _, hv', rfl⟩ := matchPartial_of_matchv (ends_before hscan htracks late) _ hstart
    refine ⟨true, t, hrun, by simpa using hpre, fun _ => ?_, fun h => by simp at h⟩
    exact ⟨m, l, hsplit, hink, hend, hv'.unread.2⟩
  · have hscan := matchv_other tgt va hfmt h hpre
    obtain ⟨t, hrun, _, hv', rfl⟩ := matchPartial_of_matchv (ends_before hscan htracks late) _ hstart
    exact ⟨false, t, hrun, by simpa using hpre, fun h => by simp at h,
      fun _ => hstart.restored hv'⟩

/-- **The grammar of literal lines**: `match_line` returns 1 exactly when the texts are the same, and
has then read through the first end-of-line character (and others behind it that are buffered); it
panics exactly when the line goes on behind the format; else it returns 0 and consumes nothing.
`match` returns 1 exactly when the line starts with the format, and has then read through the last
character of the match; else it returns 0 and consumes nothing.
Source: `esp-parse.c` `match_line`, `match`
Kind: P -/
theorem match_line_grammar (tgt : Target) (va : Nat → Ptr) (hfmt : LineFormat fmt) (hw : Reads v w)
    (h : NextLine v.rest line e r) (late : List (List UInt8)) :
    (∃ o t, Runs (matchLine tgt fmt va) (w.more late) o t ∧ LineMatch (inked fmt) (inked line) o ∧
      (o = .ok true → ∃ eols r', r = eols ++ r' ∧ (∀ c ∈ eols, isEolCh c = true) ∧
        t.unread = r' ++ late.flatten) ∧
      (o = .ok false → Restored (w.more late) t)) ∧
    ∃ b t, Runs (matchPartial tgt fmt va) (w.more late) (.ok b) t ∧
      (b = true ↔ inked fmt <+: inked line) ∧
      (b = true → ∃ m l, line = m ++ l ∧ inked m = inked fmt ∧ m.getLast? = fmt.getLast? ∧
        t.unread = l ++ e :: r ++ late.flatten) ∧
      (b = false → Restored (w.more late) t) :=
  ⟨matchLine_grammar hfmt hw h late, matchPartial_grammar hfmt hw h late⟩

/-- The theorem at a line with other blanks than the format. Source: `esp-parse.c` `match_line`.
Kind: P -/
theorem match_line_grammar_busy :
    ∃ o t, Runs (matchLine .unix (cstr "busy p") fun _ => .nbytes)
        ((start [cstr "\r\n bu", cstr "sy\tp \r"] espMk).more [cstr "\nOK"]) o t ∧
      LineMatch (inked (cstr "busy p")) (inked (cstr " busy\tp ")) o := by
  have hne : ∀ c ∈ [cstr "\r\n bu", cstr "sy\tp \r"], c ≠ [] := by decide
  have hstart := start_reads hne (by decide) espMk
  have hline : NextLine (cstr "\r\n busy\tp \r") (cstr " busy\tp ") 13 [] :=
    ⟨by unfold NoEol; decide, by unfold Blank; decide, by decide, cstr "\r\n", by decide, by decide⟩
  have hfmt : LineFormat (cstr "busy p") :=
    ⟨by decide, by decide, by unfold NoEol; decide, by decide, by decide⟩
  obtain ⟨⟨o, t, hrun, hmatch, -⟩, -⟩ := match_line_grammar .unix (fun _ => .nbytes) hfmt hstart hline
    [cstr "\nOK"]
  exact ⟨o, t, hrun, hmatch⟩

end

end Cs140e.Esp
