import Cs140e.Esp.Lines

/-!
# The AT-command dialog

`do_at_cmd` sends a command, waits for its echo and then for the response. The input is a stream of
lines; each turn of either wait loop tries its matchers in a fixed order on the next line, and
consumes a line or ends the loop.

* `AtCommand` — the commands considered; `Extra` — a line that `at_cmd_extra` skips.
* `cmdAck_ends` — the first loop, over blank and busy lines, up to the echo. `cmdResponse_ends` —
  the second one, over blank, busy and extra lines, up to `OK`. Both by induction on the lines.
* `doAtCmd_dialog` — the dialog, for every sequence of lines and every cutting of the input.
-/

namespace Cs140e.Esp

open Cs140e.Lib Cs140e.Lib.Prog

variable {tgt : Target} {stale : Nat → Ptr} {v : View}

/-- A command: printable ASCII without `%`, starting with `AT`, of a length `cmd_puts` accepts.
Source: `esp-run.c` `cmd_puts`
Kind: D -/
structure AtCommand (cmd : List UInt8) : Prop where
  head : cstr "AT" <+: cmd
  printable : ∀ c ∈ cmd, 32 ≤ c ∧ c ≤ 126 ∧ c ≠ 37
  size : cmd.length < 1022

/-- An extra line: it fits the buffer, and does not start like anything the loop looks for.
Source: `esp-run.c` `cmd_response`
Kind: D -/
structure Extra (t : List UInt8) : Prop where
  size : t.length ≤ 1023
  ok : ¬ cstr "OK" <+: inked t
  error : ¬ cstr "ERROR" <+: inked t
  busyS : ¬ cstr "busys..." <+: inked t
  busyP : ¬ cstr "busyp..." <+: inked t

/-- A printable character is plain or a space. Source: `esp-run.c` `cmd_puts`. Kind: L -/
theorem AtCommand.literal {cmd : List UInt8} (h : AtCommand cmd) : Literal cmd := by
  intro c hc
  obtain ⟨h32, h126, h37⟩ := h.printable c hc
  by_cases hsp : c = 32
  · exact .inl hsp
  · right
    have h9 : c ≠ 9 := by rintro rfl; exact absurd h32 (by decide)
    have h13 : c ≠ 13 := by rintro rfl; exact absurd h32 (by decide)
    have h10 : c ≠ 10 := by rintro rfl; exact absurd h32 (by decide)
    have h128 : c < 128 := UInt8.lt_of_le_of_lt h126 (by decide)
    simp [isPlain, isBlankCh, isSpaceCh, isEolCh, hsp, h9, h13, h10, h128, h37]

/-- A command is its own first text. Source: `esp-run.c` `cmd_ack`. Kind: L -/
theorem AtCommand.head_text {cmd : List UInt8} (h : AtCommand cmd) :
    ∃ cmd', cmd = 65 :: cmd' := by
  obtain ⟨cmd', hcmd⟩ := h.head
  exact ⟨84 :: cmd', hcmd.symm⟩

/-- A command contains no end of line. Source: `esp-run.c` `cmd_puts`. Kind: L -/
theorem AtCommand.noEol {cmd : List UInt8} (h : AtCommand cmd) : NoEol cmd :=
  fun c hc => isEolCh_of_plain (h.literal c hc)

/-! ## The echo -/

/-- **Waiting for the echo**: `cmd_ack` skips blank and busy lines and consumes the echo's line.
Source: `esp-run.c` `cmd_ack`
Kind: P -/
theorem cmdAck_ends {cmd s r : List UInt8} {e : UInt8} (hcmd : AtCommand cmd) (hs : Lines Busy s)
    (he : isEolCh e = true) (hr : v.rest = s ++ (cmd ++ e :: r)) :
    Ends Reads (cmdAck tgt stale cmd) v (.ok true) (EolRun v r) := by
  obtain ⟨cmd', hcmd'⟩ := hcmd.head_text
  have htarget : (cmd ++ e :: r).dropWhile isBlankCh = cmd ++ e :: r := by
    rw [hcmd']
    exact List.dropWhile_cons_of_neg (by decide)
  have hhead : ∀ c ∈ (cmd ++ e :: r).head?, isEolCh c = false := by
    rw [hcmd']
    simp [isEolCh]
  obtain ⟨l, hl, hblank⟩ := litScan_self hcmd.literal [] [] (by simp)
  simp only [List.nil_append, List.append_nil] at hl
  induction hn : s.length using Nat.strong_induction_on generalizing s v with
  | _ n ih =>
      rcases hs.next with hnone | ⟨t, e', r', htext, hlen, hdrop⟩
      · -- the echo comes next
        have hline : v.rest.dropWhile isBlankCh = cmd ++ e :: r := by
          rw [hr, List.dropWhile_append_of_pos hnone, htarget]
        have hecho : Ends Reads (matchLine tgt cmd stale) v (.ok true) (EolRun v r) :=
          matchLine_true hcmd.literal hcmd.noEol (by simp [hcmd']) he hline hl hblank
        exact Ends.loop_exit (hecho.bind fun _ h => .ret h) fun _ h => .ret h
      · -- another line comes first
        have hline := (congrArg (List.dropWhile isBlankCh) hr).trans (hdrop _)
        obtain ⟨hnoEol, hne⟩ := htext.trimmed
        have hmiss : litScan cmd (t.dropWhile isSpaceCh) = none := by
          apply litScan_none
          rw [inked_dropWhile, hcmd']
          rcases htext.text with rfl | rfl <;> simp [inked, isSpaceCh, cstr]
        have hfalse : Ends Reads (matchLine tgt cmd stale) v (.ok false) (· = v) :=
          matchLine_false hcmd.literal hnoEol hne htext.eol hline hmiss
        have hgo : ∀ r₁, Lines Busy r₁ → r₁.length < s.length →
            ∀ v', EolRun v (r₁ ++ (cmd ++ e :: r)) v' →
              Ends Reads (cmdAck tgt stale cmd) v' (.ok true) (EolRun v r) := by
          intro r₁ hr₁ hlt v' hv'
          obtain ⟨s', rfl, hs', hle⟩ := hr₁.eolRun hhead hv'
          exact ih s'.length (by omega) hs' rfl rfl
        rcases hs.first with rfl | ⟨e₁, r₁, he₁, hr₁, hlt, hdrop₁⟩ | ⟨t₂, e₂, r₂, htext₂, rfl⟩
        · simp at hlen
        · -- a blank line
          have hblankLine := matchBlankLine_ends ((congrArg (List.dropWhile isSpaceCh) hr).trans
            (hdrop₁ _)) he₁
          exact Ends.loop_again (hfalse.seq (hblankLine.bind fun _ h => .ret h)) (hgo r₁ hr₁ hlt)
        · -- a busy line
          obtain ⟨x, t', hnotBlank, hx⟩ := htext₂.not_eol (cmd ++ e :: r)
          rw [← hr] at hnotBlank
          rw [htext.text.head.2] at hline
          have hbusy : Ends Reads (matchBusy tgt stale) v (.ok true)
              (EolRun v (r' ++ (cmd ++ e :: r))) := matchBusy_true htext.text htext.eol hline
          exact Ends.loop_again (hfalse.seq ((matchBlankLine_false hnotBlank hx).seq
            (hbusy.bind fun _ h => .ret h))) (hgo r' htext.lines hlen)

/-! ## The response -/

/-- The lines that the response loop skips. Source: `esp-run.c` `cmd_response`. Kind: D -/
def Skipped (extraP : Bool) (t : List UInt8) : Prop := Busy t ∨ extraP = true ∧ Extra t

/-- No skipped line starts with `OK` or `ERROR`, and each fits the buffer.
Source: `esp-run.c` `cmd_response`
Kind: L -/
theorem Skipped.misses {extraP : Bool} {t : List UInt8} (h : Skipped extraP t) :
    t.length ≤ 1023 ∧ ¬ cstr "OK" <+: inked t ∧ ¬ cstr "ERROR" <+: inked t := by
  rcases h with (rfl | rfl) | ⟨-, h⟩
  · decide
  · decide
  · exact ⟨h.size, h.ok, h.error⟩

variable (tgt stale) in
/-- `cmd_response` at a line that it skips: an iteration consumes the first line, or the busy line.
Source: `esp-run.c` `cmd_response`
Kind: P -/
theorem endTurn_skips {extraP : Bool} {s t r' target : List UInt8} {e' : UInt8}
    (hs : Lines (Skipped extraP) s) (htext : TextLine (Skipped extraP) t e' r')
    (hlen : r'.length < s.length)
    (hline : v.rest.dropWhile isBlankCh = t.dropWhile isSpaceCh ++ e' :: (r' ++ target))
    (hr : v.rest = s ++ target) :
    ∃ r₁, Lines (Skipped extraP) r₁ ∧ r₁.length < s.length ∧
      Ends Reads (endTurn tgt stale (cstr "OK") false extraP) v (.ok (.inl ()))
        (EolRun v (r₁ ++ target)) := by
  obtain ⟨hnoEol, hne⟩ := htext.trimmed
  obtain ⟨-, hok, herror⟩ := htext.text.misses
  have hmiss : litScan (cstr "OK") (t.dropWhile isSpaceCh) = none := by
    apply litScan_none
    rw [inked_dropWhile]
    exact hok
  have hend : Ends Reads (matchLine tgt (cstr "OK") stale) v (.ok false) (· = v) :=
    matchLine_false (by decide) hnoEol hne htext.eol hline hmiss
  have herr : ¬ cstr "ERROR" <+: t.dropWhile isSpaceCh := by
    rintro ⟨l, hl⟩
    apply herror
    rw [← inked_dropWhile, ← hl]
    exact ⟨inked l, by simp [inked, isSpaceCh, cstr]⟩
  have htok : Ends Reads (matchTok tgt (cstr "ERROR")) v (.ok false) (· = v) :=
    matchTok_false (by decide) hne htext.eol hline herr
  rcases htext.text with hbusy | ⟨hp, hextra⟩
  · -- a busy line
    rw [hbusy.head.2] at hline
    have hb : Ends Reads (matchBusy tgt stale) v (.ok true) (EolRun v (r' ++ target)) :=
      matchBusy_true hbusy htext.eol hline
    exact ⟨r', htext.lines, hlen, hend.seq (htok.seq (hb.bind fun _ h => .ret h))⟩
  · -- an extra line, perhaps behind blank ones
    subst hp
    have hb : Ends Reads (matchBusy tgt stale) v (.ok false) (· = v) :=
      matchBusy_false hnoEol hne htext.eol hline (by rw [inked_dropWhile]; exact hextra.busyS)
        (by rw [inked_dropWhile]; exact hextra.busyP)
    rcases hs.first with rfl | ⟨e₁, r₁, he₁, hr₁, hlt, hdrop₁⟩ | ⟨t₂, e₂, r₂, htext₂, rfl⟩
    · simp at hlen
    · have hecho := cmdEchoLine_blank he₁ ((congrArg (List.dropWhile isSpaceCh) hr).trans (hdrop₁ _))
      exact ⟨r₁, hr₁, hlt, hend.seq (htok.seq (hb.seq (hecho.bind fun _ h => .ret h)))⟩
    · have hrest : v.rest = t₂ ++ e₂ :: (r₂ ++ target) := by rw [hr]; simp
      have hecho := cmdEchoLine_text htext₂.line htext₂.text.misses.1 htext₂.eol
        hrest
      refine ⟨r₂, htext₂.lines, ?_, hend.seq (htok.seq (hb.seq (hecho.bind fun _ h => .ret h)))⟩
      simp only [List.length_append, List.length_cons]
      omega

/-- **Waiting for the response**: `cmd_response` skips blank, busy and (if it may) extra lines and
consumes the line `OK`.
Source: `esp-run.c` `cmd_response`
Kind: P -/
theorem cmdResponse_ends {extraP : Bool} {s r : List UInt8} {e : UInt8}
    (hs : Lines (Skipped extraP) s) (he : isEolCh e = true)
    (hr : v.rest = s ++ (cstr "OK" ++ e :: r)) :
    Ends Reads (cmdResponse tgt stale (cstr "OK") false extraP) v (.ok true) (EolRun v r) := by
  have hhead : ∀ c ∈ (cstr "OK" ++ e :: r).head?, isEolCh c = false := by
    simp [cstr, isEolCh]
  induction hn : s.length using Nat.strong_induction_on generalizing s v with
  | _ n ih =>
      rcases hs.next with hnone | ⟨t, e', r', htext, hlen, hdrop⟩
      · -- the response comes next
        have hline : v.rest.dropWhile isBlankCh = cstr "OK" ++ e :: r := by
          rw [hr]
          exact dropWhile_append_cons hnone (by decide)
        have hnoEol : NoEol (cstr "OK") := by
          unfold NoEol
          decide
        have hok : Ends Reads (matchLine tgt (cstr "OK") stale) v (.ok true) (EolRun v r) :=
          matchLine_true (l := []) (by decide) hnoEol (by decide) he hline (by decide) (by simp)
        exact Ends.loop_exit (hok.bind fun _ h => .ret h) fun _ h => .ret h
      · have hline := (congrArg (List.dropWhile isBlankCh) hr).trans (hdrop _)
        obtain ⟨r₁, hr₁, hlt, hturn⟩ := endTurn_skips tgt stale hs htext hlen hline hr
        apply Ends.loop_again hturn
        intro v' hv'
        obtain ⟨s', rfl, hs', hle⟩ := hr₁.eolRun hhead hv'
        exact ih s'.length (by omega) hs' rfl rfl

/-! ## The dialog -/

/-- Sending a command that fits. Source: `esp-run.c` `cmd_puts`. Kind: L -/
theorem cmdPuts_ends {cmd : List UInt8} (hcmd : AtCommand cmd) (hw : v.host.writeOk = true) :
    Ends Reads (cmdPuts cmd) v (.ok ())
      (· = v.on fun h => { h with sent := h.sent ++ (cmd ++ cstr "\r\n") }) := by
  obtain ⟨cmd', hcmd'⟩ := hcmd.head_text
  have hsize := hcmd.size
  have hlen : cmd.length ≠ 0 := by simp [hcmd']
  unfold cmdPuts
  simp only [bind_eq_seq, pure_eq_ret]
  refine cAssert_ends (by simpa using hlen) (cAssert_ends (by simpa using hsize) ?_)
  refine Ends.bind (a := (cmd ++ cstr "\r\n").length)
    (Q := (· = v.on fun h => { h with sent := h.sent ++ (cmd ++ cstr "\r\n") })) ?_ ?_
  · unfold espWriteExact
    simp only [bind_eq_seq, pure_eq_ret]
    refine host_ends (f := Host.writeOk) ?_
    rw [if_pos hw]
    exact onHost_ends (.ret rfl)
  · rintro _ rfl
    rw [if_neg (by simp [hcmd'])]
    exact .ret rfl

/-- **The AT-command dialog**: whatever blank and busy lines come before the echo, whatever blank,
busy and (for `at_cmd_extra`) extra lines come before `OK`, and however the input is cut, the
command succeeds, calls no handler, and leaves the lexer in the end of the line `OK`.
Source: `esp-run.c` `do_at_cmd`
Kind: P -/
theorem doAtCmd_dialog (tgt : Target) (stale : Nat → Ptr) {cmd : List UInt8} (hcmd : AtCommand cmd)
    (extraP : Bool) {pre post eol tail : List UInt8} (hpre : Lines Busy pre)
    (hpost : Lines (Skipped extraP) post) (heol : Eol eol) {host : Host}
    (hwrite : host.writeOk = true) {input : List (List UInt8)} (hne : ∀ c ∈ input, c ≠ [])
    (hin : input.flatten =
      pre ++ (cmd ++ cstr "\r\n") ++ post ++ (cstr "OK" ++ eol) ++ tail)
    (hsmall : input.flatten.length < lexMaxbuf) :
    ∃ w, Runs (doAtCmd tgt stale cmd (cstr "OK") extraP) (start input host) (.ok true) w ∧
      w.host = { host with sent := host.sent ++ (cmd ++ cstr "\r\n") } ∧
      ∃ e r, Eol e ∧ eol ++ tail = e ++ r ∧ w.unread = r := by
  obtain ⟨c, eol, rfl⟩ := List.exists_cons_of_ne_nil heol.ne_nil
  have hc := heol.eol c List.mem_cons_self
  obtain ⟨w, hrun, v, hv, hhost, e, r, htail, he, hrest⟩ : ∃ w,
      Runs (doAtCmd tgt stale cmd (cstr "OK") extraP) (start input host) (.ok true) w ∧
      ∃ v, Reads v w ∧ v.host = { host with sent := host.sent ++ (cmd ++ cstr "\r\n") } ∧
        ∃ e r, eol ++ tail = e ++ r ∧ (∀ x ∈ e, isEolCh x = true) ∧ v.rest = r := by
    refine Ends.bind (a := ()) (cmdPuts_ends hcmd hwrite) ?_ _ (start_reads hne hsmall host)
    rintro _ rfl
    -- the echo
    have hecho : input.flatten =
        pre ++ (cmd ++ 13 :: (cstr "\n" ++ post ++ (cstr "OK" ++ c :: (eol ++ tail)))) := by
      rw [hin]
      simp [cstr]
    apply (cmdAck_ends hcmd hpre (by decide) hecho).bind
    intro v₁ hv₁
    obtain ⟨-, -, hhost₁, -⟩ := hv₁.dropWhile (p := isEolCh) fun _ h => h
    -- what is left of its end of line makes one more blank line
    have hlines : Lines (Skipped extraP) (cstr "\n" ++ post) := hpost.append_eols (by decide)
    obtain ⟨post', rfl, hpost', -⟩ := hlines.eolRun (by simp [cstr, isEolCh]) hv₁
    refine (cmdResponse_ends hpost' hc rfl).mono ?_
    rintro _ ⟨e, r, htail, he, rfl⟩
    exact ⟨rfl, e, r, htail, he, rfl⟩
  refine ⟨w, hrun, hv.host.trans hhost, c :: e, r, ⟨by simp, ?_⟩, by simp [htail], ?_⟩
  · simpa [hc] using he
  · rw [hv.unread, hrest]

/-- `AT+CIFSR` with a blank and a busy line before its echo and an extra line behind it, cut in the
echo and in the last end of line.
Source: `esp-run.c` `at_cmd_extra`
Kind: L -/
theorem doAtCmd_dialog_cifsr :
    ∃ w, Runs (doAtCmd .unix (fun _ => .user 9) (cstr "AT+CIFSR") (cstr "OK") true)
      (start [cstr "\r\nbusy p...\r\nAT+CI", cstr "FSR\r\n+CIFSR:STAIP\r\n\r\nOK\r",
        cstr "\nbusy p...\r\n"] espMk) (.ok true) w ∧
      w.host = { espMk with sent := espMk.sent ++ (cstr "AT+CIFSR" ++ cstr "\r\n") } ∧
      ∃ e r, Eol e ∧ cstr "\r\n" ++ cstr "busy p...\r\n" = e ++ r ∧ w.unread = r := by
  have hcmd : AtCommand (cstr "AT+CIFSR") := ⟨by decide, by decide, by decide⟩
  have heol : Eol (cstr "\r\n") := ⟨by decide, by decide⟩
  have hpre : Lines Busy (cstr "\r\nbusy p...\r\n") := by
    refine .cons (t := []) (e := cstr "\r\n") (by simp [NoEol]) (.inl (by simp [Blank])) heol ?_
    refine .cons (t := cstr "busy p...") (r := []) ?_ (.inr (by decide)) heol .nil
    unfold NoEol
    decide
  have hextra : Extra (cstr "+CIFSR:STAIP") :=
    ⟨by decide, by decide, by decide, by decide, by decide⟩
  have hpost : Lines (Skipped true) (cstr "+CIFSR:STAIP\r\n\r\n") := by
    refine .cons (t := cstr "+CIFSR:STAIP") (e := cstr "\r\n") ?_ (.inr (.inr ⟨rfl, hextra⟩)) heol ?_
    · unfold NoEol
      decide
    · exact .cons (t := []) (r := []) (by simp [NoEol]) (.inl (by simp [Blank])) heol .nil
  exact doAtCmd_dialog .unix _ hcmd true hpre hpost heol rfl (by decide) (by decide) (by decide)

end Cs140e.Esp
