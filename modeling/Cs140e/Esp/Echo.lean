import Cs140e.Esp.Keep
import Cs140e.Esp.Lines
import Mathlib.Data.List.Infix

/-!
# Which commands `cmd_ack` recognises

`cmd_ack` hands the command itself to `match_line` as the format, so a character that formats give
a meaning to is not matched against its own echo.

* `Sendable` — the commands that `cmd_puts` accepts; `Recognised` — those that formats take
  literally and that are not blank.
* `cmdAck_echo` — a recognised command is acknowledged at its echo. `cmdAck_blank`, `cmdAck_percent`,
  `matchLine_tab` — no other one is.
* `cmdAck_recognises_iff` — both together.
-/

namespace Cs140e.Esp

open Cs140e.Lib Cs140e.Lib.Prog

variable {tgt : Target} {stale : Nat → Ptr} {v : View} {cmd : List UInt8}

/-- What `cmd_puts` accepts, of ASCII. Source: `esp-run.c` `cmd_puts`. Kind: D -/
structure Sendable (cmd : List UInt8) : Prop where
  ne_nil : cmd ≠ []
  ascii : ∀ c ∈ cmd, c ≠ 0 ∧ c < 128
  noEol : NoEol cmd
  size : cmd.length < 1022

/-- No conversion, no tab, and not only spaces. Source: `esp-parse.c` `matchv`. Kind: D -/
def Recognised (cmd : List UInt8) : Prop := (∀ c ∈ cmd, c ≠ 37 ∧ c ≠ 9) ∧ ¬ Blank cmd

instance (cmd : List UInt8) : Decidable (Recognised cmd) :=
  inferInstanceAs (Decidable ((∀ c ∈ cmd, c ≠ 37 ∧ c ≠ 9) ∧ ¬ ∀ c ∈ cmd, isSpaceCh c = true))

/-- Without conversions and tabs, a command is a literal format. Source: `esp-parse.c` `matchv`.
Kind: L -/
theorem literal_of_ascii {p : List UInt8} (hascii : ∀ c ∈ p, c ≠ 0 ∧ c < 128) (heol : NoEol p)
    (h : ∀ c ∈ p, c ≠ 37 ∧ c ≠ 9) : Literal p := by
  intro c hc
  obtain ⟨h37, h9⟩ := h c hc
  by_cases h32 : c = 32
  · exact .inl h32
  · right
    simp [isPlain, isBlankCh, isSpaceCh, (hascii c hc).2, heol c hc, h37, h9, h32]

variable (tgt stale) in
/-- **The echo of a recognised command.** Source: `esp-run.c` `cmd_ack`. Kind: P -/
theorem cmdAck_echo {e : UInt8} {pre r : List UInt8} (hcmd : Sendable cmd) (h : Recognised cmd)
    (hpre : ∀ c ∈ pre, isBlankCh c = true) (he : isEolCh e = true)
    (hr : v.rest = pre ++ (cmd ++ e :: r)) :
    Ends Reads (cmdAck tgt stale cmd) v (.ok true) (EolRun v r) := by
  have hlit := literal_of_ascii hcmd.ascii hcmd.noEol h.1
  obtain ⟨x, t, htext, -⟩ := exists_text hcmd.noEol h.2
  have hline : v.rest.dropWhile isBlankCh = cmd.dropWhile isSpaceCh ++ e :: r := by
    rw [hr]
    exact dropWhile_blank_text hpre hcmd.noEol h.2
  obtain ⟨l, hl, hblank⟩ := litScan_echo hlit (s := []) rfl (by simp [htext])
  simp only [List.append_nil] at hl
  have hnoEol : NoEol (cmd.dropWhile isSpaceCh) := by
    intro c hc
    apply hcmd.noEol
    exact (List.dropWhile_suffix isSpaceCh).subset hc
  have hecho : Ends Reads (matchLine tgt cmd stale) v (.ok true) (EolRun v r) :=
    matchLine_true hlit hnoEol (by simp [htext]) he hline hl hblank
  exact Ends.loop_exit (hecho.bind fun _ h => .ret h) fun _ h => .ret h

/-! ## The other commands -/

variable (tgt stale) in
/-- A command of spaces finds its echo blank, and then fails at the next line.
Source: `esp-parse.c` `match_linev`
Kind: P -/
theorem cmdAck_blank {x e : UInt8} {line r : List UInt8} (hlit : Literal cmd) (hcmd : Blank cmd)
    (hline : NoEol (x :: line)) (he : isEolCh e = true)
    (hr : v.rest.dropWhile isBlankCh = x :: line ++ e :: r) :
    ∃ stop v', Ends Reads (cmdAck tgt stale cmd) v (.error stop) (· = v') := by
  have hx : isSpaceCh x = false := by
    have := List.head?_dropWhile_not isBlankCh v.rest
    rw [hr] at this
    simp only [List.cons_append, List.head?_cons, isBlankCh, Bool.or_eq_false_iff] at this
    exact this.1
  have hdrop : (x :: line).dropWhile isSpaceCh = x :: line :=
    List.dropWhile_cons_of_neg (by simp [hx])
  obtain ⟨l, hl, hblank⟩ := litScan_echo hlit hdrop
    (by rw [List.dropWhile_append_of_pos hcmd, hdrop]; simp)
  rw [List.dropWhile_append_of_pos hcmd, hdrop] at hl
  have hmatch : Ends Reads (matchv tgt stale cmd 0) v (.ok (true, 0))
      (· = v.seek (l ++ x :: line ++ e :: r)) := matchv_true hlit hline (by simp) he hr hl
  have hnoEol : (l ++ x :: line ++ e :: r).dropWhile isSpaceCh = x :: (line ++ e :: r) := by
    rw [List.append_assoc]
    exact dropWhile_append_cons hblank hx
  have hstop : Ends Reads (matchLine tgt cmd stale) v
      (.error (.panic "did not match end of line\n" []))
      (· = v.seek (l ++ x :: line ++ e :: r)) := by
    refine Ends.bind_error (hmatch.seq ?_)
    refine (matchEol_false (v := v.seek _) hnoEol (hline x List.mem_cons_self)).seq ?_
    exact .raise rfl
  exact ⟨_, _, Ends.loop_error hstop.bind_error⟩

/-- `match_line` when the scan of its format fails behind a `va_arg`: it panics, or goes back.
Source: `esp-parse.c` `matchv`
Kind: L -/
theorem matchLine_scanned {fmt r : List UInt8} {c : UInt8} {st : ScanState} {v' : View}
    (hr : v.rest.dropWhile isBlankCh = c :: r) (hv : Forward v v')
    (hscan : Ends Reads (loop (scanTurn tgt stale fmt) ⟨fmt, false, 0⟩ ret) (v.seek (c :: r))
      (.ok (false, st)) (· = v')) :
    (∃ stop, Ends Reads (matchLine tgt fmt stale) v (.error stop) (· = v')) ∨
      Ends Reads (matchLine tgt fmt stale) v (.ok false) (· = v'.seek v.rest) := by
  by_cases hmust : st.mustMatch = true
  · left
    refine ⟨.panic "must match failed: malformed value for <%s>!\n" [.str fmt], ?_⟩
    refine Ends.bind_error (Ends.bind_error ?_)
    refine lexGetCkpt_ends fun _ => skipToText_ends hr (hscan.seq ?_)
    simp only [hmust, if_true, Bool.false_eq_true, if_false]
    exact .raise rfl
  · right
    refine Ends.seq (a := (false, st.k)) ?_ (.ret rfl)
    refine Ends.seq (a := (false, st.k)) ?_ (.ret rfl)
    refine lexGetCkpt_ends fun hsuf => skipToText_ends hr (hscan.seq ?_)
    simp only [hmust, Bool.false_eq_true, if_false]
    exact lexRestoreCkpt_ends hsuf hv (.ret rfl)

/-- Blanks and a `%`: the loop of `matchv` does not take them for the end of the line.
Source: `esp-parse.c` `matchv`
Kind: L -/
theorem blank_then_percent {l : List UInt8} (hl : ∀ c ∈ l, isSpaceCh c = true) (s : List UInt8) :
    (l ++ 37 :: s).dropWhile isSpaceCh = 37 :: s ∧
      ∃ d t, l ++ 37 :: s = d :: t ∧ isEolCh d = false := by
  refine ⟨dropWhile_append_cons hl (by decide), ?_⟩
  cases l with
  | nil => exact ⟨37, s, rfl, by decide⟩
  | cons d l =>
      have hsp := hl d List.mem_cons_self
      refine ⟨d, l ++ 37 :: s, rfl, ?_⟩
      rw [Bool.eq_false_iff]
      intro heol
      rw [isSpaceCh_of_isEolCh heol] at hsp
      simp at hsp

variable (tgt stale) in
/-- **The echo of a command with a `%`**: `match_line` panics, or takes an argument.
Source: `esp-parse.c` `matchv`
Kind: P -/
theorem matchLine_percent {p q pre r : List UInt8} {e : UInt8} (hp : Literal p)
    (hnoEol : NoEol (p ++ 37 :: q)) (hpre : ∀ c ∈ pre, isBlankCh c = true) (he : isEolCh e = true)
    (hr : v.rest = pre ++ (p ++ 37 :: q ++ e :: r)) :
    ∃ o v', Ends Reads (matchLine tgt (p ++ 37 :: q) stale) v o (· = v') ∧
      ((∃ stop, o = .error stop) ∨
        o = .ok false ∧ v.host.vaReads.length < v'.host.vaReads.length) := by
  have hpct : ((37 : UInt8) :: q).dropWhile isSpaceCh = 37 :: q :=
    List.dropWhile_cons_of_neg (by decide)
  have hnb : ¬ Blank (p ++ 37 :: q) := fun h => absurd (h 37 (by simp)) (by decide)
  obtain ⟨x, t, htext, -⟩ := exists_text hnoEol hnb
  have hline : v.rest.dropWhile isBlankCh = x :: (t ++ e :: r) := by
    rw [hr, dropWhile_blank_text hpre hnoEol hnb, htext, List.cons_append]
  have hxt : NoEol (x :: t) := by
    intro c hc
    apply hnoEol
    exact (List.dropWhile_suffix isSpaceCh).subset (htext ▸ hc)
  -- the scan arrives at the `%` of the format and of the line
  obtain ⟨l, hl, hblank⟩ := litScan_echo hp hpct (by rw [htext]; simp)
  rw [htext] at hl
  have harrive := (litScan_ends tgt stale (p ++ 37 :: q) false 0 (v := v.seek (x :: (t ++ e :: r)))
    (37 :: q) hp hxt he rfl).1 _ hl
  simp only [View.seek_seek] at harrive
  obtain ⟨hdrop, d, s, hd, hdc⟩ := blank_then_percent hblank (q ++ e :: r)
  rw [← List.cons_append, ← List.append_assoc] at hdrop hd
  have hle : (37 :: (q ++ e :: r)).length ≤ v.rest.length := by
    have := (List.dropWhile_suffix isSpaceCh (l := l ++ 37 :: q ++ e :: r)).length_le
    rw [hdrop] at this
    have hlen := congrArg List.length hr
    simp only [List.length_append, List.length_cons] at this hlen ⊢
    omega
  have hfail : ∀ st v', Forward v v' → v.host.vaReads.length < v'.host.vaReads.length →
      Ends Reads (loop (scanTurn tgt stale (p ++ 37 :: q)) ⟨37 :: q, false, 0⟩ ret)
        (v.seek (l ++ 37 :: q ++ e :: r)) (.ok (false, st)) (· = v') →
      ∃ o v', Ends Reads (matchLine tgt (p ++ 37 :: q) stale) v o (· = v') ∧
        ((∃ stop, o = .error stop) ∨
          o = .ok false ∧ v.host.vaReads.length < v'.host.vaReads.length) := by
    intro st v' hv hlt hscan
    rcases matchLine_scanned hline hv (harrive _ _ hscan) with ⟨stop, h⟩ | h
    · exact ⟨_, _, h, .inl ⟨stop, rfl⟩⟩
    · exact ⟨_, _, h, .inr ⟨rfl, hlt⟩⟩
  have hforward : ∀ f,
      Forward v (((v.seek (l ++ 37 :: q ++ e :: r)).on f).seek (37 :: (q ++ e :: r))) := by
    intro f
    exact ⟨rfl, hle⟩
  by_cases hs : q.head? = some 115
  · obtain ⟨q, rfl⟩ := List.head?_eq_some_iff.mp hs
    exact hfail _ _ (hforward _) (by simp [Host.readArg])
      (scan_noLiteral (by decide) hdrop hd hdc)
  by_cases hu : q.head? = some 117
  · obtain ⟨q, rfl⟩ := List.head?_eq_some_iff.mp hu
    exact hfail _ _ (hforward (Host.setUint (stale 0) 0 ∘ Host.readArg 0))
      (by simp [Host.readArg, Host.setUint]) (scan_noUint (by decide) hdrop hd hdc)
  · have hscan := harrive _ _ (scan_illegal (v := v.seek _) hs hu hd hdc)
    have hpanic : Ends Reads (matchv tgt stale (p ++ 37 :: q) 0) v _ _ :=
      lexGetCkpt_ends fun _ => skipToText_ends hline hscan.bind_error
    exact ⟨_, _, Ends.bind_error (Ends.bind_error hpanic), .inl ⟨_, rfl⟩⟩

variable (tgt stale) in
/-- A command with a `%` reads an argument before `cmd_ack` returns, if it returns at all.
Source: `esp-run.c` `cmd_ack`
Kind: P -/
theorem cmdAck_percent {p q pre r : List UInt8} {e : UInt8} (hp : Literal p)
    (hnoEol : NoEol (p ++ 37 :: q)) (hpre : ∀ c ∈ pre, isBlankCh c = true) (he : isEolCh e = true)
    (hr : v.rest = pre ++ (p ++ 37 :: q ++ e :: r)) :
    Triple (Reads v) (cmdAck tgt stale (p ++ 37 :: q)) fun _ w =>
      v.host.vaReads.length < w.host.vaReads.length := by
  set I : Host → Prop := fun h => v.host.vaReads.length < h.vaReads.length with hI
  have hstable : Stable (Kept fun w : World => I w.host) := by
    refine stable_onHost fun f hf h hlt => ?_
    cases hf with
    | setUint => exact hlt
    | setByte => exact hlt
    | readArg k =>
        simp only [hI, Host.readArg, List.length_append]
        exact Nat.lt_add_right _ hlt
    | oooCall => exact hlt
  obtain ⟨o, v', hends, hv'⟩ := matchLine_percent tgt stale hp hnoEol hpre he hr
  have hfirst : Triple (Reads v) (matchLine tgt (p ++ 37 :: q) stale)
      fun b w => if b then I w.host else I w.host := by
    refine hends.triple.conseq (fun _ h => h) ?_
    rintro b w ⟨rfl, _, hw, rfl⟩
    rcases hv' with ⟨stop, h⟩ | ⟨-, hlt⟩
    · simp at h
    · rw [ite_self, hw.host]
      exact hlt
  refine Triple.unroll (Triple.bind (ackTurn_triple hstable (M := fun w => I w.host) hfirst) ?_)
  rintro (_ | b)
  · exact cmdAck_keeps hstable
  · exact .ret fun _ h => h

/-- A format with a tab, and no conversion before it, matches nothing.
Source: `esp-parse.c` `matchv`
Kind: P -/
theorem scan_tab {va : Nat → Ptr} {fmtString p q : List UInt8} {mustMatch : Bool} {k : Nat}
    (hp : ∀ c ∈ p, c ≠ 37) :
    Triple (fun _ => True) (loop (scanTurn tgt va fmtString) ⟨p ++ 9 :: q, mustMatch, k⟩ ret)
      fun r _ => r.1 = false := by
  refine Triple.conseq (Triple.loop (Q := fun r _ => r.1 = false)
    (fun st _ => ∃ p, (∀ c ∈ p, c ≠ 37) ∧ st.fmt = p ++ 9 :: q)
    (M := fun r _ => r.1 = false) (fun st => ?_) (fun _ => .ret fun _ h => h) _)
    (fun _ _ => ⟨p, hp, rfl⟩) fun _ _ h => h
  rintro w r t ⟨p, hp, hfmt⟩
  obtain ⟨fmt, mustMatch, k⟩ := st
  obtain rfl : fmt = p ++ 9 :: q := hfmt
  suffices h : Triple (fun _ => True) (scanTurn tgt va fmtString ⟨p ++ 9 :: q, mustMatch, k⟩)
      (Sum.elim (fun st _ => ∃ p, (∀ c ∈ p, c ≠ 37) ∧ st.fmt = p ++ 9 :: q)
        fun r _ => r.1 = false) from h w r t trivial
  cases p with
  | nil =>
      refine Triple.check fun _ => Triple.any.bind fun _ => .ite (.ret fun _ _ => rfl) ?_
      -- the blanks in front are skipped, so what is read is no tab
      refine Triple.bind skipBlankSpace_triple fun _ => ?_
      refine Triple.bind (M := fun d _ => isSpaceCh d = false) ?_ fun d => ?_
      · rintro w d t ⟨c, hc, hsp⟩ hr
        rwa [lexGetc_triple w d t hc hr]
      · by_cases hd : d = 9
        · subst hd
          exact fun _ _ _ h => by simp [isSpaceCh] at h
        · rw [charEq_of_ascii (by decide), beq_eq_false_iff_ne.mpr hd]
          exact .ret fun _ _ => rfl
  | cons c p =>
      have hc := hp c List.mem_cons_self
      have hp' : ∀ x ∈ p, x ≠ 37 := by
        intro x hx
        apply hp
        exact List.mem_cons_of_mem _ hx
      refine Triple.check fun _ => Triple.any.bind fun _ => .ite (.ret fun _ _ => rfl) ?_
      rw [if_pos (by simpa using hc)]
      refine .ite (Triple.any.bind fun _ => Triple.any.bind fun _ => .ite (.ret fun _ _ => rfl) ?_) ?_
      · exact .ret fun _ _ => ⟨p, hp', rfl⟩
      · exact .ret fun _ _ => ⟨p, hp', rfl⟩

/-- A command with a tab is never acknowledged. Source: `esp-parse.c` `match_line`. Kind: P -/
theorem matchLine_tab {p q : List UInt8} {va : Nat → Ptr} (hp : ∀ c ∈ p, c ≠ 37) :
    Triple (fun _ => True) (matchLine tgt (p ++ 9 :: q) va) fun b _ => b = false := by
  have hmatchv : Triple (fun _ => True) (matchv tgt va (p ++ 9 :: q) 0) fun x _ => x.1 = false := by
    refine Triple.any.bind fun _ => Triple.any.bind fun _ => Triple.any.bind fun _ =>
      (scan_tab hp).bind fun x => ?_
    obtain ⟨matched, st⟩ := x
    cases matched with
    | true => exact fun _ _ _ h => by simp at h
    | false =>
        simp only [Bool.false_eq_true, if_false]
        exact .ite .raise (Triple.bind .any fun _ => .ret fun _ _ => rfl)
  refine Triple.bind (M := fun x _ => x.1 = false) (hmatchv.bind fun x => ?_) fun _ =>
    .ret fun _ h => h
  obtain ⟨res, k⟩ := x
  cases res with
  | true => exact fun _ _ _ h => by simp at h
  | false => exact .ret fun _ _ => rfl

/-! ## Where the echo's line ends -/

/-- A read of the device ends behind the first bytes `s` of the input.
Source: `esp-lex.c` `lex_readin`
Kind: D -/
def CutAfter (input : List (List UInt8)) (s : List UInt8) : Prop :=
  ∃ read ∈ input.inits, read.flatten = s

instance (input : List (List UInt8)) (s : List UInt8) : Decidable (CutAfter input s) :=
  inferInstanceAs (Decidable (∃ read ∈ input.inits, read.flatten = s))

/-- `cmd_ack` returns 1, takes no argument and stops behind the end of the echo's line, in front of
`line`. Source: `esp-run.c` `cmd_ack`. Kind: D -/
def Acknowledges (tgt : Target) (stale : Nat → Ptr) (cmd line : List UInt8) (w : World) : Prop :=
  ∃ w', Runs (cmdAck tgt stale cmd) w (.ok true) w' ∧ w'.host.vaReads = w.host.vaReads ∧
    w'.unread = line

/-- A byte that is buffered next is the next one that is not consumed.
Source: `esp-lex-simple.h` `l->stream`
Kind: L -/
theorem World.unread_of_next {w : World} {c : UInt8} (h : w.next = some c) :
    ∃ r, w.unread = c :: r := by
  obtain ⟨hlt, hc⟩ := List.getElem?_eq_some_iff.mp h
  refine ⟨w.lex.stream.drop (w.lex.pos + 1) ++ w.lex.input.flatten, ?_⟩
  rw [World.unread, List.drop_append_of_le_length (Nat.le_of_lt hlt), List.drop_eq_getElem_cons hlt,
    hc, List.cons_append]

/-- With nothing buffered, the input goes on at a cut. Source: `esp-lex.c` `lex_readin`. Kind: L -/
theorem AtCut.of_next {input : List (List UInt8)} {w : World} (h : AtCut input w)
    (hpos : w.lex.pos ≤ w.lex.stream.length) (hnext : w.next = none) :
    ∃ read ∈ input.inits, read.flatten ++ w.unread = input.flatten := by
  obtain ⟨read, hinput, hstream⟩ := h
  refine ⟨read, (List.mem_inits _ _).mpr ⟨_, hinput⟩, ?_⟩
  rw [World.next, List.getElem?_eq_none_iff] at hnext
  have hend : w.lex.pos = w.lex.stream.length := Nat.le_antisymm hpos hnext
  rw [World.unread, hend, List.drop_left, ← hinput, List.flatten_append]

/-- What arrives later is not consumed. Source: `libesp.h` `esp_read`. Kind: L -/
theorem World.unread_more {w : World} (hpos : w.lex.pos ≤ w.lex.stream.length)
    (late : List (List UInt8)) : (w.more late).unread = w.unread ++ late.flatten := by
  simp only [World.unread, World.more, List.flatten_append, ← List.append_assoc]
  rw [List.drop_append_of_le_length]
  rw [List.length_append]
  omega

/-! ## Both ways -/

section

variable {input : List (List UInt8)} {pre line : List UInt8} {host : Host}

/-- A recognised command is acknowledged, if the end of its echo is not cut.
Source: `esp-run.c` `cmd_ack`
Kind: P -/
theorem acknowledges_of_recognised (hcmd : Sendable cmd) (h : Recognised cmd)
    (hpre : ∀ c ∈ pre, isBlankCh c = true) (hline : ∀ c ∈ line.head?, isEolCh c = false)
    (hne : ∀ c ∈ input, c ≠ []) (hin : input.flatten = pre ++ (cmd ++ 13 :: 10 :: line))
    (hsmall : input.flatten.length < lexMaxbuf) (hcut : ¬ CutAfter input (pre ++ cmd ++ [13])) :
    Acknowledges tgt stale cmd line (start input host) := by
  have hstart := start_reads hne hsmall host
  obtain ⟨w', hrun, v', hv', e, r, hsplit, he, rfl⟩ := cmdAck_echo tgt stale hcmd h hpre
    (by decide) hin _ hstart
  refine ⟨w', hrun, by rw [hv'.host]; rfl, ?_⟩
  rw [hv'.unread]
  rcases e with _ | ⟨c, e⟩
  · -- the second character is not consumed: it was not there
    have hatText : w'.AtText :=
      cmdAck_triple stable_true matchLine_atText _ true w' trivial hrun
    have hatCut : AtCut input w' :=
      cmdAck_keeps (stable_atCut input) _ true w' ⟨[], rfl, rfl⟩ hrun
    have hunread : w'.unread = 10 :: line := by rw [hv'.unread, View.seek_rest]; exact hsplit.symm
    rcases hnext : w'.next with _ | c
    · obtain ⟨read, hread, hflat⟩ := hatCut.of_next hv'.pos_le hnext
      rw [hunread, hin] at hflat
      have hread' : read.flatten ++ 10 :: line = pre ++ cmd ++ [13] ++ 10 :: line := by
        rw [hflat]
        simp
      exact absurd ⟨read, hread, List.append_cancel_right hread'⟩ hcut
    · obtain ⟨r', hr'⟩ := World.unread_of_next hnext
      have hc := hatText c hnext
      rw [hunread] at hr'
      rw [← (List.cons.inj hr').1] at hc
      exact absurd hc (by decide)
  · simp only [List.cons_append, List.cons.injEq] at hsplit
    rcases e with _ | ⟨d, e⟩
    · exact hsplit.2.symm
    · have hd := hline d (by rw [hsplit.2]; rfl)
      rw [he d (by simp)] at hd
      simp at hd

/-- With the end of its echo cut, the second character stays where it is.
Source: `esp-parse.c` `match_eol`
Kind: P -/
theorem not_acknowledges_of_cut (hcmd : Sendable cmd) (h : Recognised cmd)
    (hpre : ∀ c ∈ pre, isBlankCh c = true) (hne : ∀ c ∈ input, c ≠ [])
    (hin : input.flatten = pre ++ (cmd ++ 13 :: 10 :: line))
    (hsmall : input.flatten.length < lexMaxbuf) (hcut : CutAfter input (pre ++ cmd ++ [13])) :
    ¬ Acknowledges tgt stale cmd line (start input host) := by
  obtain ⟨read, hread, hflat⟩ := hcut
  obtain ⟨late, rfl⟩ := (List.mem_inits _ _).mp hread
  have hlate : late.flatten = 10 :: line := by
    rw [List.flatten_append, hflat] at hin
    simpa using hin
  -- the echo alone is acknowledged, and what arrives later makes no difference
  have hne' : ∀ c ∈ read, c ≠ [] := by
    intro c hc
    exact hne c (List.mem_append_left _ hc)
  have hsmall' : read.flatten.length < lexMaxbuf := by
    rw [List.flatten_append, List.length_append] at hsmall
    omega
  have hstart := start_reads hne' hsmall' host
  have hecho : read.flatten = pre ++ (cmd ++ [13]) := by rw [hflat, List.append_assoc]
  obtain ⟨w₁, hrun₁, v', hv', e, r, hsplit, -, rfl⟩ := cmdAck_echo tgt stale hcmd h hpre
    (by decide) hecho _ hstart
  have hunread₁ : w₁.unread = [] := by
    rw [hv'.unread, View.seek_rest]
    exact (List.append_eq_nil_iff.mp hsplit.symm).2
  rintro ⟨w', hrun, -, hunread⟩
  obtain ⟨-, rfl⟩ := hrun.det (cmdAck_more hrun₁ late)
  rw [World.unread_more hv'.pos_le, hunread₁, hlate] at hunread
  exact absurd (congrArg List.length hunread) (by simp)

end

/-- The first character that formats give a meaning to. Source: `esp-parse.c` `matchv`. Kind: L -/
theorem exists_special (h : ¬ ∀ c ∈ cmd, c ≠ 37 ∧ c ≠ 9) :
    ∃ p c q, cmd = p ++ c :: q ∧ (∀ x ∈ p, x ≠ 37 ∧ x ≠ 9) ∧ (c = 37 ∨ c = 9) := by
  induction cmd with
  | nil => simp at h
  | cons c cmd ih =>
      by_cases hc : c = 37 ∨ c = 9
      · exact ⟨[], c, cmd, rfl, by simp, hc⟩
      · rw [not_or] at hc
        obtain ⟨p, d, q, rfl, hp, hd⟩ := ih fun hcmd => h (by simpa [hc] using hcmd)
        exact ⟨c :: p, d, q, rfl, by simpa [hc] using hp, hd⟩

/-- No other command is acknowledged. Source: `esp-run.c` `cmd_ack`. Kind: P -/
theorem recognised_of_acknowledges {pre line tail rest : List UInt8} {e : UInt8} {w : World}
    (hcmd : Sendable cmd) (hpre : ∀ c ∈ pre, isBlankCh c = true) (hline : NoEol line)
    (hblank : ¬ Blank line) (he : isEolCh e = true)
    (hr : v.rest = pre ++ (cmd ++ 13 :: 10 :: (line ++ e :: tail))) (hw : Reads v w)
    (h : Acknowledges tgt stale cmd rest w) : Recognised cmd := by
  obtain ⟨w', hrun, hva, -⟩ := h
  by_cases hplain : ∀ c ∈ cmd, c ≠ 37 ∧ c ≠ 9
  · refine ⟨hplain, fun hsp => ?_⟩
    obtain ⟨x, t, htext, -⟩ := exists_text hline hblank
    have hnext : v.rest.dropWhile isBlankCh = x :: t ++ e :: tail := by
      have hall : ∀ c ∈ pre ++ cmd ++ [13, 10], isBlankCh c = true := by
        intro c hc
        simp only [List.mem_append, List.mem_cons, List.not_mem_nil, or_false] at hc
        rcases hc with (hc | hc) | rfl | rfl
        · exact hpre c hc
        · simp [isBlankCh, hsp c hc]
        · decide
        · decide
      have happ : v.rest = pre ++ cmd ++ [13, 10] ++ (line ++ e :: tail) := by simp [hr]
      rw [happ, dropWhile_blank_text hall hline hblank, htext]
    obtain ⟨stop, v', hstop⟩ := cmdAck_blank tgt stale
      (literal_of_ascii hcmd.ascii hcmd.noEol hplain) hsp
      (fun c hc => hline c ((List.dropWhile_suffix isSpaceCh).subset (htext ▸ hc))) he hnext
    have := (hstop.outcome hw hrun).1
    simp at this
  · obtain ⟨p, c, q, rfl, hp, hc⟩ := exists_special hplain
    have hmem : ∀ x ∈ p, x ∈ p ++ c :: q := by
      intro x hx
      exact List.mem_append_left _ hx
    rcases hc with rfl | rfl
    · have hlit := literal_of_ascii (fun x hx => hcmd.ascii x (hmem x hx))
        (fun x hx => hcmd.noEol x (hmem x hx)) hp
      have hlt := cmdAck_percent tgt stale hlit hcmd.noEol hpre (by decide : isEolCh 13 = true) hr w
        true w' hw hrun
      simp only [hva, hw.host] at hlt
      exact absurd hlt (Nat.lt_irrefl _)
    · have hfirst : Triple (fun _ => True) (matchLine tgt (p ++ 9 :: q) stale)
          fun b _ => b = true → False :=
        (matchLine_tab fun x hx => (hp x hx).1).conseq (fun _ h => h) fun b _ hb => by simp [hb]
      exact (cmdAck_triple stable_true hfirst w true w' trivial hrun).elim

end Cs140e.Esp
