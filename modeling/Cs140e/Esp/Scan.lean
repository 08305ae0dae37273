import Cs140e.Esp.ParseView

/-!
# What `matchv` and `match_line` accept

Rules for the loop of `matchv` on a view, one per kind of format character, and their consequences
for a format without conversions.

* `scan_lit`, `scan_blank`, `scan_uint`, `scan_end` — the turns that go on; `scan_eol`,
  `scan_mismatch`, `scan_noUint`, `scan_noLiteral` — the ways to fail; `scan_illegal` — a panic.
* `litScan fmt line` — a format without conversions against the text of a line: blanks of the line
  may stand in front of any character, blanks of the format only ask for the line not to be over.
  `litScan_echo` and `litScan_inked` say what it accepts; `litScan_ends` that the loop computes it.
* `matchLine_true`, `matchLine_false` — `match_line` on the line of the format and on other lines.
-/

namespace Cs140e.Esp

open Cs140e.Lib Cs140e.Lib.Prog

variable {tgt : Target} {va : Nat → Ptr} {fmtString fmt : List UInt8} {mustMatch : Bool} {k : Nat}
  {v : View} {c d e : UInt8} {r : List UInt8}

/-! ## Characters -/

/-- On ASCII the comparison of an `int` with a `char` is equality on every target.
Source: `esp-parse.c` `lex_getc(l) != *fmt`
Kind: L -/
theorem charEq_of_ascii (hc : c < 128) : charEq tgt d c = (d == c) := by
  have hneg : ¬ (128 : UInt8) ≤ c := by
    rw [UInt8.not_le]
    exact hc
  simp only [charEq, charVal, hneg, decide_false, Bool.and_false]
  rw [Bool.eq_iff_iff, beq_iff_eq, beq_iff_eq]
  constructor
  · intro h
    have hval : (d.toNat : Int) = c.toNat := h
    exact UInt8.toNat_inj.mp (by omega)
  · intro h
    simp [h]

/-- A character that formats take literally: ASCII, no blank, no end of line, no `%`.
Source: `esp-parse.c` `matchv`
Kind: D -/
def isPlain (c : UInt8) : Bool := c < 128 && !isBlankCh c && c != 37

/-! ## One turn -/

/-- The end of the format. Source: `esp-parse.c` `matchv`. Kind: L -/
theorem scan_end : Ends Reads (loop (scanTurn tgt va fmtString) ⟨[], mustMatch, k⟩ ret) v
    (.ok (true, ⟨[], mustMatch, k⟩)) (· = v) :=
  Ends.loop_exit (Q := (· = v)) (.ret rfl) fun _ h => .ret h

/-- A literal character behind some blanks. Source: `esp-parse.c` `matchv`. Kind: L -/
theorem scan_lit {o : Except Stop (Bool × ScanState)} {Q : View → Prop} {d : UInt8} {s : List UInt8}
    (hc : isPlain c = true) (hd : v.rest = d :: s) (hdc : isEolCh d = false)
    (hr : v.rest.dropWhile isSpaceCh = c :: r)
    (hk : Ends Reads (loop (scanTurn tgt va fmtString) ⟨fmt, mustMatch, k⟩ ret) (v.seek r) o Q) :
    Ends Reads (loop (scanTurn tgt va fmtString) ⟨c :: fmt, mustMatch, k⟩ ret) v o Q := by
  simp only [isPlain, isBlankCh, Bool.and_eq_true, decide_eq_true_eq, Bool.not_eq_true',
    Bool.or_eq_false_iff, bne_iff_ne, ne_eq] at hc
  obtain ⟨⟨hascii, hsp, heol⟩, hpct⟩ := hc
  have h32 : c ≠ 32 := by
    rintro rfl
    simp [isSpaceCh] at hsp
  refine Ends.loop_again (Q := (· = v.seek r)) ?_ (by rintro _ rfl; exact hk)
  unfold scanTurn
  simp only [bind_eq_seq, pure_eq_ret]
  refine cAssert_ends (by simp [heol]) ?_
  refine (lexPeek_ends hd).seq ?_
  rw [if_neg (by simp [hdc]), if_pos (by simpa using hpct), if_pos (by simpa using h32)]
  refine (skipBlankSpace_ends hr).seq ((lexGetc_ends rfl).seq ?_)
  rw [charEq_of_ascii hascii, if_neg (by simp)]
  exact .ret rfl

/-- A plain character is neither a blank nor an end of line. Source: `esp-parse.c` `matchv`.
Kind: L -/
theorem isBlankCh_of_isPlain (hc : isPlain c = true) : isBlankCh c = false := by
  simp only [isPlain, Bool.and_eq_true, Bool.not_eq_true'] at hc
  exact hc.1.2

/-- Plain characters match themselves. Source: `esp-parse.c` `matchv`. Kind: L -/
theorem scan_lits {o : Except Stop (Bool × ScanState)} {Q : View → Prop} {lit : List UInt8}
    (hlit : ∀ c ∈ lit, isPlain c = true) (hr : v.rest = lit ++ r)
    (hk : Ends Reads (loop (scanTurn tgt va fmtString) ⟨fmt, mustMatch, k⟩ ret) (v.seek r) o Q) :
    Ends Reads (loop (scanTurn tgt va fmtString) ⟨lit ++ fmt, mustMatch, k⟩ ret) v o Q := by
  induction lit generalizing v with
  | nil =>
      rw [List.nil_append] at hr
      rw [← hr, View.seek_self] at hk
      exact hk
  | cons c lit ih =>
      have hc := hlit c List.mem_cons_self
      have hb := isBlankCh_of_isPlain hc
      simp only [isBlankCh, Bool.or_eq_false_iff] at hb
      have hrest : v.rest = c :: (lit ++ r) := hr
      refine scan_lit hc hrest hb.2 ?_ (ih (v := v.seek (lit ++ r)) (fun x hx => ?_) rfl hk)
      · rw [hrest, List.dropWhile_cons_of_neg (by simp [hb.1])]
      · exact hlit x (List.mem_cons_of_mem _ hx)

/-- A space of the format, before the end of the line. Source: `esp-parse.c` `matchv`. Kind: L -/
theorem scan_blank {o : Except Stop (Bool × ScanState)} {Q : View → Prop}
    (hd : v.rest = d :: r) (hdc : isEolCh d = false)
    (hk : Ends Reads (loop (scanTurn tgt va fmtString) ⟨fmt, mustMatch, k⟩ ret) v o Q) :
    Ends Reads (loop (scanTurn tgt va fmtString) ⟨32 :: fmt, mustMatch, k⟩ ret) v o Q := by
  refine Ends.loop_again (Q := (· = v)) ?_ (by rintro v' h; rw [h]; exact hk)
  unfold scanTurn
  simp only [bind_eq_seq, pure_eq_ret]
  refine cAssert_ends (by decide) ((lexPeek_ends hd).seq ?_)
  rw [if_neg (by simp [hdc]), if_pos (by decide), if_neg (by decide)]
  exact .ret rfl

/-- The line is over before the format. Source: `esp-parse.c` `matchv`. Kind: L -/
theorem scan_eol (hc : isEolCh c = false) (hd : v.rest = d :: r) (hdc : isEolCh d = true) :
    Ends Reads (loop (scanTurn tgt va fmtString) ⟨c :: fmt, mustMatch, k⟩ ret) v
      (.ok (false, ⟨c :: fmt, mustMatch, k⟩)) (· = v) := by
  refine Ends.loop_exit (Q := (· = v)) ?_ fun _ h => .ret h
  unfold scanTurn
  simp only [bind_eq_seq, pure_eq_ret]
  refine cAssert_ends (by simp [hc]) ((lexPeek_ends hd).seq ?_)
  rw [if_pos hdc]
  exact .ret rfl

/-- Another character than the format's. Source: `esp-parse.c` `matchv`. Kind: L -/
theorem scan_mismatch {d' : UInt8} {s : List UInt8} (hc : isEolCh c = false) (hpct : c ≠ 37)
    (h32 : c ≠ 32) (hd : v.rest = d' :: s) (hdc : isEolCh d' = false)
    (hr : v.rest.dropWhile isSpaceCh = d :: r) (hne : charEq tgt d c = false) :
    Ends Reads (loop (scanTurn tgt va fmtString) ⟨c :: fmt, mustMatch, k⟩ ret) v
      (.ok (false, ⟨c :: fmt, mustMatch, k⟩)) (· = v.seek r) := by
  refine Ends.loop_exit (Q := (· = v.seek r)) ?_ fun _ h => .ret h
  unfold scanTurn
  simp only [bind_eq_seq, pure_eq_ret]
  refine cAssert_ends (by simp [hc]) ((lexPeek_ends hd).seq ?_)
  rw [if_neg (by simp [hdc]), if_pos (by simpa using hpct), if_pos (by simpa using h32)]
  refine (skipBlankSpace_ends hr).seq ((lexGetc_ends rfl).seq ?_)
  rw [if_pos (by simp [hne])]
  exact .ret rfl

/-- The state of the loop after a conversion. Source: `esp-parse.c` `matchv`. Kind: D -/
def afterArg (fmtString fmt : List UInt8) (mustMatch : Bool) (k : Nat) : ScanState :=
  ⟨fmt, mustMatch || fmt.length + 2 != fmtString.length, k + 1⟩

variable (tgt va fmtString fmt mustMatch k) in
/-- `%u` takes an argument and stores to it, at a numeral or not.
Source: `esp-parse.c` `matchv`
Kind: L -/
theorem uintTurn_ends {ds : List UInt8} {s : List UInt8} (hds : ∀ x ∈ ds, isDigit x = true)
    (hc : isDigit c = false) (hr : v.rest.dropWhile isSpaceCh = ds ++ c :: r)
    (hd : v.rest = d :: s) (hdc : isEolCh d = false) :
    Ends Reads (scanTurn tgt va fmtString ⟨37 :: 117 :: fmt, mustMatch, k⟩) v
      (.ok (if ds = [] then .inr (false, afterArg fmtString fmt mustMatch k)
        else .inl (afterArg fmtString fmt mustMatch k)))
      (· = ((v.on (Host.readArg k)).seek (c :: r)).on (Host.setUint (va k) (uintValue 0 ds))) := by
  unfold scanTurn
  simp only [bind_eq_seq, pure_eq_ret]
  refine cAssert_ends (by decide) ((lexPeek_ends hd).seq ?_)
  rw [if_neg (by simp [hdc]), if_neg (by decide), if_neg (by decide), if_pos (by decide), vaArg,
    bind_eq_seq, seq_seq]
  refine onHost_ends ((matchUint_ends (v := v.on (Host.readArg k)) hds hc hr).seq ?_)
  cases ds with
  | nil => exact .ret rfl
  | cons x ds => exact .ret rfl

/-- `%u` at a numeral. Source: `esp-parse.c` `matchv`. Kind: L -/
theorem scan_uint {o : Except Stop (Bool × ScanState)} {Q : View → Prop} {ds : List UInt8}
    (hds : Digits ds) (hc : isDigit c = false) (hr : v.rest = ds ++ c :: r)
    (hk : Ends Reads (loop (scanTurn tgt va fmtString) (afterArg fmtString fmt mustMatch k) ret)
      (((v.on (Host.readArg k)).seek (c :: r)).on (Host.setUint (va k) (uintValue 0 ds))) o Q) :
    Ends Reads (loop (scanTurn tgt va fmtString) ⟨37 :: 117 :: fmt, mustMatch, k⟩ ret) v o Q := by
  obtain ⟨d, ds', hd, hb⟩ := hds.exists_cons
  simp only [isBlankCh, Bool.or_eq_false_iff] at hb
  have hrest : v.rest = d :: (ds' ++ c :: r) := by rw [hr, hd, List.cons_append]
  have hdrop : v.rest.dropWhile isSpaceCh = ds ++ c :: r := by
    rw [← hr, hrest, List.dropWhile_cons_of_neg (by simp [hb.1])]
  have hturn := uintTurn_ends tgt va fmtString fmt mustMatch k hds.digit hc hdrop hrest hb.2
  rw [if_neg hds.ne_nil] at hturn
  refine hturn.loop_again ?_
  rintro _ rfl
  exact hk

/-- `%u` elsewhere. Source: `esp-parse.c` `matchv`. Kind: L -/
theorem scan_noUint {s : List UInt8} (hc : isDigit c = false)
    (hr : v.rest.dropWhile isSpaceCh = c :: r) (hd : v.rest = d :: s) (hdc : isEolCh d = false) :
    Ends Reads (loop (scanTurn tgt va fmtString) ⟨37 :: 117 :: fmt, mustMatch, k⟩ ret) v
      (.ok (false, afterArg fmtString fmt mustMatch k))
      (· = ((v.on (Host.readArg k)).seek (c :: r)).on (Host.setUint (va k) 0)) := by
  have hnone : ∀ x ∈ ([] : List UInt8), isDigit x = true := by simp
  have hturn := uintTurn_ends tgt va fmtString fmt mustMatch k hnone hc hr hd hdc
  exact hturn.loop_exit fun _ h => .ret h

/-- `%s` at a character that is no quote. Source: `esp-parse.c` `matchv`. Kind: L -/
theorem scan_noLiteral {s : List UInt8} (hc : c ≠ 34) (hr : v.rest.dropWhile isSpaceCh = c :: r)
    (hd : v.rest = d :: s) (hdc : isEolCh d = false) :
    Ends Reads (loop (scanTurn tgt va fmtString) ⟨37 :: 115 :: fmt, mustMatch, k⟩ ret) v
      (.ok (false, afterArg fmtString fmt mustMatch k))
      (· = (v.on (Host.readArg k)).seek (c :: r)) := by
  refine Ends.loop_exit (Q := (· = (v.on (Host.readArg k)).seek (c :: r))) ?_ fun _ h => .ret h
  unfold scanTurn
  simp only [bind_eq_seq, pure_eq_ret]
  refine cAssert_ends (by decide) ((lexPeek_ends hd).seq ?_)
  rw [if_neg (by simp [hdc]), if_neg (by decide), if_pos (by decide), vaArg, bind_eq_seq, seq_seq]
  refine onHost_ends (Ends.bind (a := false) (Q := (· = (v.on (Host.readArg k)).seek (c :: r))) ?_
    fun _ h => .ret h)
  refine (skipBlankSpace_ends (v := v.on (Host.readArg k)) hr).seq ((lexPeek_ends rfl).seq ?_)
  rw [if_pos (by simpa using hc)]
  exact .ret rfl

/-- `%` before anything but `s` and `u`. Source: `esp-parse.c` `matchv`. Kind: L -/
theorem scan_illegal (hs : fmt.head? ≠ some 115) (hu : fmt.head? ≠ some 117) (hd : v.rest = d :: r)
    (hdc : isEolCh d = false) :
    Ends Reads (loop (scanTurn tgt va fmtString) ⟨37 :: fmt, mustMatch, k⟩ ret) v
      (.error (.panic "illegal format string: <%s>\n" [.str fmtString])) (· = v) := by
  refine Ends.loop_error ?_
  unfold scanTurn
  simp only [bind_eq_seq, pure_eq_ret]
  refine cAssert_ends (by decide) ((lexPeek_ends hd).seq ?_)
  rw [if_neg (by simp [hdc]), if_neg (by decide)]
  cases fmt with
  | nil => exact .raise rfl
  | cons c fmt =>
      have h115 : c ≠ 115 := by simpa using hs
      have h117 : c ≠ 117 := by simpa using hu
      simp only [beq_iff_eq, h115, h117, if_false]
      exact .raise rfl

/-! ## Formats without conversions -/

/-- What a format without conversions does on the text of a line: what is left of the text behind
the match, or `none` for a failure.
Source: `esp-parse.c` `matchv`
Kind: D -/
def litScan : List UInt8 → List UInt8 → Option (List UInt8)
  | [], line => some line
  | c :: fmt, line =>
    if line = [] then none
    else if c = 32 then litScan fmt line
    else match line.dropWhile isSpaceCh with
      | d :: l => if d = c then litScan fmt l else none
      | [] => none

/-- A format without conversions: every character is plain or a space.
Source: `esp-parse.c` `matchv`
Kind: D -/
def Literal (fmt : List UInt8) : Prop := ∀ c ∈ fmt, c = 32 ∨ isPlain c = true

instance (fmt : List UInt8) : Decidable (Literal fmt) :=
  inferInstanceAs (Decidable (∀ c ∈ fmt, c = 32 ∨ isPlain c = true))

/-- No format character of a literal format is an end of line. Source: `esp-parse.c` `matchv`.
Kind: L -/
theorem isEolCh_of_plain (h : c = 32 ∨ isPlain c = true) : isEolCh c = false := by
  rcases h with rfl | h
  · rfl
  · simp only [isPlain, isBlankCh, Bool.and_eq_true, Bool.not_eq_true', Bool.or_eq_false_iff] at h
    exact h.1.2.2

/-- Characters of a line. Source: none: infrastructure. Kind: D -/
def NoEol (line : List UInt8) : Prop := ∀ c ∈ line, isEolCh c = false

/-- A plain character of the format that the text does not go on with: the loop ends with a failure,
further on. Source: `esp-parse.c` `matchv`. Kind: L -/
theorem scan_other {x : UInt8} {s rest : List UInt8} (hplain : isPlain c = true)
    (hr : v.rest = x :: rest) (hx : isEolCh x = false) (hdrop : v.rest.dropWhile isSpaceCh = d :: s)
    (hne : d ≠ c) :
    ∃ fmt', Ends Reads (loop (scanTurn tgt va fmtString) ⟨c :: fmt, mustMatch, k⟩ ret) v
      (.ok (false, ⟨fmt', mustMatch, k⟩)) fun v' => ∃ r', v' = v.seek r' ∧
        r'.length ≤ v.rest.length := by
  have hcEol := isEolCh_of_plain (.inr hplain)
  obtain ⟨⟨hascii, hblank⟩, hpct⟩ : (c < 128 ∧ isBlankCh c = false) ∧ c ≠ 37 := by
    simpa [isPlain] using hplain
  have h32 : c ≠ 32 := by
    rintro rfl
    exact absurd hblank (by decide)
  have hchar : charEq tgt d c = false := by
    rw [charEq_of_ascii hascii, beq_eq_false_iff_ne]
    exact hne
  refine ⟨_, (scan_mismatch hcEol hpct h32 hr hx hdrop hchar).mono fun v' hv' => ?_⟩
  exact ⟨s, hv', Nat.le_of_lt (length_le_of_dropWhile hdrop)⟩

/-- A line of blanks, as the loop of `matchv` sees it. Source: `esp-parse.c` `skip_blank_space`.
Kind: L -/
theorem dropWhile_line_nil {line : List UInt8} (he : isEolCh e = true) (hr : v.rest = line ++ e :: r)
    (hl : line.dropWhile isSpaceCh = []) : v.rest.dropWhile isSpaceCh = e :: r := by
  rw [hr]
  exact dropWhile_blank_eol (List.dropWhile_eq_nil_iff.mp hl) he

/-- A line with text, as the loop of `matchv` sees it. Source: `esp-parse.c` `skip_blank_space`.
Kind: L -/
theorem dropWhile_line_cons {line l : List UInt8} (hr : v.rest = line ++ e :: r)
    (hl : line.dropWhile isSpaceCh = d :: l) :
    v.rest.dropWhile isSpaceCh = d :: (l ++ e :: r) := by
  rw [hr, List.dropWhile_append, hl]
  rfl

variable (tgt va fmtString mustMatch k) in
/-- **The loop of `matchv` computes `litScan`** on the text up to the next end of line, and goes on
with the rest of the format behind it.
Source: `esp-parse.c` `matchv`
Kind: P -/
theorem litScan_ends {line : List UInt8} (more : List UInt8) (hfmt : Literal fmt)
    (hline : NoEol line) (he : isEolCh e = true) (hr : v.rest = line ++ e :: r) :
    (∀ l, litScan fmt line = some l → ∀ o (Q : View → Prop),
      Ends Reads (loop (scanTurn tgt va fmtString) ⟨more, mustMatch, k⟩ ret) (v.seek (l ++ e :: r)) o Q →
      Ends Reads (loop (scanTurn tgt va fmtString) ⟨fmt ++ more, mustMatch, k⟩ ret) v o Q) ∧
    (litScan fmt line = none →
      ∃ fmt', Ends Reads (loop (scanTurn tgt va fmtString) ⟨fmt ++ more, mustMatch, k⟩ ret) v
        (.ok (false, ⟨fmt', mustMatch, k⟩)) fun v' => ∃ r', v' = v.seek r' ∧
          r'.length ≤ v.rest.length) := by
  induction fmt generalizing line v with
  | nil =>
      refine ⟨fun l hl o Q hmore => ?_, fun hl => by simp [litScan] at hl⟩
      obtain rfl : line = l := by simpa [litScan] using hl
      rwa [← hr, View.seek_self] at hmore
  | cons c fmt ih =>
      have hcEol := isEolCh_of_plain (hfmt c List.mem_cons_self)
      have hfmt' : Literal fmt := by
        intro x hx
        apply hfmt
        exact List.mem_cons_of_mem _ hx
      cases line with
      | nil =>
          refine ⟨fun l hl => by simp [litScan] at hl, fun _ => ⟨_, (scan_eol hcEol hr he).mono ?_⟩⟩
          intro v' hv'
          exact ⟨v.rest, hv', Nat.le_refl _⟩
      | cons x line =>
          have hx : isEolCh x = false := hline x List.mem_cons_self
          by_cases h32 : c = 32
          · -- a space of the format
            subst h32
            obtain ⟨hsome, hnone⟩ := ih hfmt' hline hr
            rw [litScan, if_neg (by simp), if_pos rfl]
            refine ⟨fun l hl o Q hmore => scan_blank hr hx (hsome l hl o Q hmore), fun hl => ?_⟩
            obtain ⟨fmt', h⟩ := hnone hl
            exact ⟨fmt', scan_blank hr hx h⟩
          · have hplain : isPlain c = true := (hfmt c List.mem_cons_self).resolve_left h32
            rw [litScan, if_neg (by simp), if_neg h32]
            rcases hl : (x :: line).dropWhile isSpaceCh with _ | ⟨d, l⟩
            · -- nothing but blanks up to the end of the line
              have hdrop := dropWhile_line_nil he hr hl
              refine ⟨fun l hl => by simp at hl, fun _ => scan_other hplain hr hx hdrop ?_⟩
              rintro rfl
              simp [hcEol] at he
            · have hdrop := dropWhile_line_cons hr hl
              by_cases hdc : d = c
              · subst hdc
                have hl' : NoEol l := by
                  intro y hy
                  apply hline
                  exact (List.dropWhile_suffix isSpaceCh).subset (hl ▸ List.mem_cons_of_mem d hy)
                obtain ⟨hsome, hnone⟩ := ih (v := v.seek (l ++ e :: r)) hfmt' hl' rfl
                simp only [if_true]
                refine ⟨fun l' h o Q hmore => scan_lit hplain hr hx hdrop (hsome l' h o Q hmore),
                  fun h => ?_⟩
                obtain ⟨fmt', hends⟩ := hnone h
                refine ⟨fmt', scan_lit hplain hr hx hdrop (hends.mono ?_)⟩
                rintro _ ⟨r', rfl, hlen⟩
                exact ⟨r', rfl, Nat.le_trans hlen (Nat.le_of_lt (length_le_of_dropWhile hdrop))⟩
              · simp only [if_neg hdc]
                exact ⟨fun l' h => by simp at h, fun _ => scan_other hplain hr hx hdrop hdc⟩

/-- A format accepts its own text. Source: `esp-parse.c` `matchv`. Kind: P -/
theorem litScan_self (hfmt : Literal fmt) (sp s : List UInt8) (hsp : ∀ c ∈ sp, isSpaceCh c = true) :
    ∃ l, litScan fmt (sp ++ fmt ++ s) = some (l ++ s) ∧ ∀ c ∈ l, isSpaceCh c = true := by
  induction fmt generalizing sp with
  | nil => exact ⟨sp, by simp [litScan], hsp⟩
  | cons c fmt ih =>
      have hfmt' : Literal fmt := by
        intro x hx
        apply hfmt
        exact List.mem_cons_of_mem _ hx
      rw [litScan, if_neg (by simp)]
      rcases hfmt c List.mem_cons_self with rfl | hc
      · have happ : sp ++ 32 :: fmt ++ s = (sp ++ [32]) ++ fmt ++ s := by simp
        rw [if_pos rfl, happ]
        apply ih hfmt' _
        intro c hc
        rcases List.mem_append.mp hc with h | h
        · exact hsp c h
        · rw [List.mem_singleton.mp h]
          rfl
      · have hsc : isSpaceCh c = false := by
          simp only [isPlain, isBlankCh, Bool.and_eq_true, Bool.not_eq_true',
            Bool.or_eq_false_iff] at hc
          exact hc.1.2.1
        have h32 : c ≠ 32 := by
          rintro rfl
          simp [isSpaceCh] at hsc
        rw [if_neg h32, List.append_assoc, List.cons_append, dropWhile_append_cons hsp hsc]
        simpa using ih hfmt' [] (by simp)

/-- A format accepts its own text when the blanks in front of it have been skipped.
Source: `esp-parse.c` `matchv`
Kind: P -/
theorem litScan_echo (hfmt : Literal fmt) {s : List UInt8} (hs : s.dropWhile isSpaceCh = s)
    (hne : (fmt ++ s).dropWhile isSpaceCh ≠ []) :
    ∃ l, litScan fmt ((fmt ++ s).dropWhile isSpaceCh) = some (l ++ s) ∧
      ∀ c ∈ l, isSpaceCh c = true := by
  induction fmt with
  | nil => exact ⟨[], by simp [litScan, hs], by simp⟩
  | cons c fmt ih =>
      by_cases hc : isSpaceCh c
      · rw [List.cons_append, List.dropWhile_cons_of_pos hc] at hne ⊢
        have h32 : c = 32 := by
          rcases hfmt c List.mem_cons_self with h | h
          · exact h
          · simp [isPlain, isBlankCh, hc] at h
        rw [litScan, if_neg hne, if_pos h32]
        exact ih (fun x hx => hfmt x (List.mem_cons_of_mem _ hx)) hne
      · rw [List.cons_append, List.dropWhile_cons_of_neg hc]
        simpa using litScan_self hfmt [] s (by simp)

/-- The characters of a text that are not blanks. Source: `esp-parse.c` `is_space_ch`. Kind: D -/
def inked (s : List UInt8) : List UInt8 := s.filter fun c => !isSpaceCh c

/-- Source: none: infrastructure. Kind: L -/
theorem inked_dropWhile (s : List UInt8) : inked (s.dropWhile isSpaceCh) = inked s := by
  induction s with
  | nil => rfl
  | cons c s ih =>
      by_cases hc : isSpaceCh c
      · rw [List.dropWhile_cons_of_pos hc, ih]
        simp [inked, hc]
      · rw [List.dropWhile_cons_of_neg hc]

/-- What a format accepts starts, blanks aside, with the format. Source: `esp-parse.c` `matchv`.
Kind: P -/
theorem litScan_inked {line l : List UInt8} (h : litScan fmt line = some l) :
    inked line = inked fmt ++ inked l := by
  induction fmt generalizing line with
  | nil =>
      obtain rfl : line = l := by simpa [litScan] using h
      rfl
  | cons c fmt ih =>
      rw [litScan] at h
      split at h
      · simp at h
      split at h
      · next h32 =>
        subst h32
        exact ih h
      · rcases hl : line.dropWhile isSpaceCh with _ | ⟨d, l'⟩
        · simp [hl] at h
        · rw [hl] at h
          by_cases hdc : d = c
          · subst hdc
            have hd := List.head?_dropWhile_not isSpaceCh line
            rw [hl] at hd
            have hd' : isSpaceCh d = false := by simpa using hd
            have := ih (by simpa using h)
            rw [← inked_dropWhile line, hl]
            simp only [inked, List.filter_cons, hd', Bool.not_false, if_true, List.cons_append,
              List.cons.injEq, true_and]
            exact this
          · simp [hdc] at h

/-- A text that does not start, blanks aside, with the format. Source: `esp-parse.c` `matchv`.
Kind: L -/
theorem litScan_none {line : List UInt8} (h : ¬ inked fmt <+: inked line) :
    litScan fmt line = none := by
  rcases hl : litScan fmt line with _ | l
  · rfl
  · exact absurd ⟨inked l, (litScan_inked hl).symm⟩ h

/-! ## Whole calls -/

/-- `matchv` at a line that the format accepts. Source: `esp-parse.c` `matchv`. Kind: P -/
theorem matchv_true {line l : List UInt8} (hfmt : Literal fmt) (hline : NoEol line)
    (hne : line ≠ []) (he : isEolCh e = true) (hr : v.rest.dropWhile isBlankCh = line ++ e :: r)
    (hl : litScan fmt line = some l) :
    Ends Reads (matchv tgt va fmt k) v (.ok (true, k)) (· = v.seek (l ++ e :: r)) := by
  obtain ⟨x, line, rfl⟩ := List.exists_cons_of_ne_nil hne
  refine lexGetCkpt_ends fun _ => skipToText_ends hr ?_
  have hscan := (litScan_ends tgt va fmt false k (v := v.seek (x :: (line ++ e :: r))) [] hfmt hline
    he rfl).1 l hl _ _ scan_end
  rw [List.append_nil] at hscan
  exact hscan.seq (.ret rfl)

/-- `matchv` at a line that the format does not accept. Source: `esp-parse.c` `matchv`. Kind: P -/
theorem matchv_false {line : List UInt8} (hfmt : Literal fmt) (hline : NoEol line)
    (hne : line ≠ []) (he : isEolCh e = true) (hr : v.rest.dropWhile isBlankCh = line ++ e :: r)
    (hl : litScan fmt line = none) :
    Ends Reads (matchv tgt va fmt k) v (.ok (false, k)) (· = v) := by
  obtain ⟨x, line, rfl⟩ := List.exists_cons_of_ne_nil hne
  refine lexGetCkpt_ends fun hsuf => skipToText_ends hr ?_
  obtain ⟨fmt', h⟩ := (litScan_ends tgt va fmt false k (v := v.seek (x :: (line ++ e :: r))) [] hfmt
    hline he rfl).2 hl
  rw [List.append_nil] at h
  refine h.bind ?_
  rintro _ ⟨r', rfl, hlen⟩
  have hlt := length_le_of_dropWhile hr
  exact lexRestoreCkpt_ends hsuf ⟨rfl, Nat.le_trans hlen hlt⟩ (.ret rfl)

section

variable {line l : List UInt8} (hfmt : Literal fmt) (hline : NoEol line) (hne : line ≠ [])
  (he : isEolCh e = true) (hr : v.rest.dropWhile isBlankCh = line ++ e :: r)

include hfmt hline hne he hr

/-- `match_line` at a line that is the format up to blanks. Source: `esp-parse.c` `match_line`.
Kind: P -/
theorem matchLine_true (hl : litScan fmt line = some l) (hblank : ∀ c ∈ l, isSpaceCh c = true) :
    Ends Reads (matchLine tgt fmt va) v (.ok true) (EolRun v r) := by
  have hdrop : (l ++ e :: r).dropWhile isSpaceCh = e :: r := dropWhile_blank_eol hblank he
  refine Ends.bind (a := (true, 0)) (Q := EolRun v r) ?_ fun _ h => .ret h
  refine (matchv_true hfmt hline hne he hr hl).seq ?_
  apply (matchEol_ends (v := v.seek (l ++ e :: r)) hdrop he).bind
  intro v' hv'
  exact .ret hv'

/-- `match_line` at another line. Source: `esp-parse.c` `match_line`. Kind: P -/
theorem matchLine_false (hl : litScan fmt line = none) :
    Ends Reads (matchLine tgt fmt va) v (.ok false) (· = v) := by
  refine Ends.seq (a := (false, 0)) ?_ (.ret rfl)
  exact (matchv_false (k := 0) hfmt hline hne he hr hl).seq (.ret rfl)

end

end Cs140e.Esp
