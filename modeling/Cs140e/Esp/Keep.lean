import Cs140e.Lib.Track
import Cs140e.Esp.LexView
import Cs140e.Esp.Run

/-!
# What the library never undoes

Partial correctness of the parser and of `cmd_ack`, for every state of the lexer and every input.

* `Stable R` — the library cannot tell related worlds apart, and no step of it separates them.
  `matchLine_tracks`, `cmdAck_tracks` and their kin: what returns from one of two related worlds
  returns the same from the other.
* `stable_onHost`, `stable_atCut`, `stable_more` — a property of the host; that what is buffered
  ends at a cut of the input; that one of two devices has more to send. `cmdAck_more` — which a
  `cmd_ack` that returned did not see.
* `cmdAck_triple` — what holds when `cmd_ack` returns is what holds when its `match_line` succeeds.
* `lexPeek_triple`, `lexGetc_triple`, `skipBlankSpace_triple` — which byte is read.
* `matchEol_triple`, `matchLine_atText` — an end of line is consumed as far as it is buffered.
-/

namespace Cs140e.Esp

open Cs140e.Lib Cs140e.Lib.Prog

/-- What the parser and `cmd_ack` do to the rest of the machine: stores, `va_arg`, the count of
handler calls.
Source: `esp-parse.c` `matchv`; `esp-run.c` `cmd_ack`
Kind: D -/
inductive HostStep : (Host → Host) → Prop
  | setUint (x : Ptr) (n : UInt32) : HostStep (Host.setUint x n)
  | setByte (out : Ptr) (i : Nat) (c : UInt8) : HostStep (Host.setByte out i c)
  | readArg (k : Nat) : HostStep (Host.readArg k)
  | oooCall : HostStep fun h => { h with oooCalls := h.oooCalls + 1 }

/-- Related worlds differ at most in their input, and no step of the library separates them.
Source: none: infrastructure
Kind: D -/
structure Stable (R : World → World → Prop) : Prop where
  lex : ∀ w w', R w w' → w'.lex.pos = w.lex.pos ∧ w'.lex.stream = w.lex.stream
  host : ∀ w w', R w w' → w'.host = w.host
  seek : ∀ pos w w', R w w' →
    R { w with lex := { w.lex with pos } } { w' with lex := { w'.lex with pos } }
  onHost : ∀ f, HostStep f → ∀ w w', R w w' →
    R { w with host := f w.host } { w' with host := f w'.host }
  readin : Tracks R lexReadin

variable {R : World → World → Prop}

/-! ## The lexer -/

/-- Source: `esp-lex-simple.h` `lex_empty`. Kind: L -/
theorem lexEmpty_tracks (hR : Stable R) : Tracks R lexEmpty := by
  refine .load_bind (fun w w' h => ?_) fun _ => .bind .check fun _ => .ret
  obtain ⟨hpos, hstream⟩ := hR.lex w w' h
  simp only [hpos, hstream]

/-- Source: `esp-lex-simple.h` `lex_nstream`. Kind: L -/
theorem lexNstream_tracks (hR : Stable R) : Tracks R lexNstream := by
  refine .load_bind (fun w w' h => ?_) fun _ => .bind .check fun _ => .ret
  obtain ⟨hpos, hstream⟩ := hR.lex w w' h
  simp only [hpos, hstream]

/-- Source: `esp-lex-simple.h` `lex_get_ckpt`. Kind: L -/
theorem lexGetCkpt_tracks (hR : Stable R) : Tracks R lexGetCkpt :=
  .load fun w w' h => (hR.lex w w' h).1

/-- Source: `esp-lex-simple.h` `lex_restore_ckpt`. Kind: L -/
theorem lexRestoreCkpt_tracks (hR : Stable R) (ck : Nat) : Tracks R (lexRestoreCkpt ck) :=
  .store (hR.seek ck)

/-- Source: `esp-lex-simple.c` `lex_getc_simple`. Kind: L -/
theorem lexFill_tracks (hR : Stable R) : Tracks R lexFill := by
  have hempty := lexEmpty_tracks hR
  exact .bind hempty fun _ => .ite (.bind hR.readin fun _ => .bind hempty fun _ => .check)
    (.bind hempty fun _ => .check)

/-- Source: `esp-lex-simple.c` `lex_getc_simple`. Kind: L -/
theorem lexGetc_tracks (hR : Stable R) : Tracks R lexGetc := by
  refine .bind (lexFill_tracks hR) fun _ => .access fun w w' h => ?_
  obtain ⟨hpos, hstream⟩ := hR.lex w w' h
  refine ⟨by simp only [hpos, hstream], ?_⟩
  have hseek := hR.seek (w.lex.pos + 1) w w' h
  rw [← hpos] at hseek ⊢
  exact hseek

/-- Source: `esp-lex-simple.c` `lex_peek_simple`. Kind: L -/
theorem lexPeek_tracks (hR : Stable R) : Tracks R lexPeek := by
  refine .bind (lexFill_tracks hR) fun _ => .load fun w w' h => ?_
  obtain ⟨hpos, hstream⟩ := hR.lex w w' h
  simp only [hpos, hstream]

/-- Source: none: infrastructure. Kind: L -/
theorem onHost_tracks (hR : Stable R) {f : Host → Host} (hf : HostStep f) : Tracks R (onHost f) :=
  .store (hR.onHost f hf)

/-- Source: none: infrastructure. Kind: L -/
theorem host_tracks (hR : Stable R) {ρ : Type} (f : Host → ρ) :
    Tracks R (load fun w => f w.host : Prog World Stop ρ) :=
  .load fun w w' h => congrArg f (hR.host w w' h)

/-! ## The parser -/

/-- Source: `esp-parse.c` `is_eol`. Kind: L -/
theorem isEol_tracks (hR : Stable R) : Tracks R isEol := .bind (lexPeek_tracks hR) fun _ => .ret

/-- Source: `esp-parse.c` `skip_blank_space`. Kind: L -/
theorem skipBlankSpace_tracks (hR : Stable R) : Tracks R skipBlankSpace :=
  .whileDo (.bind (lexPeek_tracks hR) fun _ => .ret) (.bind (lexGetc_tracks hR) fun _ => .ret)

/-- Source: `esp-parse.c` `match_eol`. Kind: L -/
theorem matchEol_tracks (hR : Stable R) : Tracks R matchEol := by
  have hbuffered : Tracks R bufferedEol :=
    .bind (lexNstream_tracks hR) fun _ => .ite .ret (isEol_tracks hR)
  have hgetc : Tracks R (lexGetc.bind fun _ => ret ()) := .bind (lexGetc_tracks hR) fun _ => .ret
  refine .bind (lexGetCkpt_tracks hR) fun ck => .bind (skipBlankSpace_tracks hR) fun _ =>
    .bind (isEol_tracks hR) fun _ => .ite ?_ ?_
  · exact .bind (lexRestoreCkpt_tracks hR ck) fun _ => .ret
  · exact .bind (lexGetc_tracks hR) fun _ => .bind (.whileDo hbuffered hgetc) fun _ => .ret

/-- Source: `esp-parse.c` `match_blank_line`. Kind: L -/
theorem matchBlankLine_tracks (hR : Stable R) : Tracks R matchBlankLine :=
  .bind (lexGetCkpt_tracks hR) fun ck => .bind (skipBlankSpace_tracks hR) fun _ =>
    .bind (matchEol_tracks hR) fun _ => .ite .ret
      (.bind (lexRestoreCkpt_tracks hR ck) fun _ => .ret)

/-- Source: `esp-parse.c` `skip_blank_lines`. Kind: L -/
theorem skipBlankLines_tracks (hR : Stable R) : Tracks R skipBlankLines :=
  .whileDo (matchBlankLine_tracks hR) .ret

/-- Source: `esp-parse.c` `get_nonblank_line`. Kind: L -/
theorem lineLoop_tracks (hR : Stable R) (left : Nat) : Tracks R (lineLoop left) := by
  induction left with
  | zero => exact .ret
  | succ left ih =>
      exact .bind (matchEol_tracks hR) fun _ =>
        .ite .ret (.bind (lexGetc_tracks hR) fun _ => .bind ih fun _ => .ret)

/-- Source: `esp-run.c` `cmd_echo_line`. Kind: L -/
theorem cmdEchoLine_tracks (hR : Stable R) : Tracks R cmdEchoLine := by
  refine .bind (.bind (matchBlankLine_tracks hR) fun _ => .ite .ret
    (.bind (skipBlankSpace_tracks hR) fun _ => .bind (lineLoop_tracks hR _) fun line => ?_))
    fun _ => .ret
  cases line with
  | none => exact .raise
  | some line => exact .ret

/-- Source: `esp-parse.c` `match_uint`. Kind: L -/
theorem matchUint_tracks (hR : Stable R) (x : Ptr) : Tracks R (matchUint x) := by
  refine .bind (skipBlankSpace_tracks hR) fun _ => .bind (onHost_tracks hR (.setUint x 0)) fun _ =>
    .loop (fun _ => .bind (lexPeek_tracks hR) fun _ => .ite ?_ .ret) fun _ => .ret
  exact .bind (host_tracks hR fun h => h.uints x) fun _ => .bind (lexGetc_tracks hR) fun _ =>
    .bind (onHost_tracks hR (.setUint x _)) fun _ => .ret

/-- Source: `esp-parse.c` `match_literal_string`. Kind: L -/
theorem literalLoop_tracks (hR : Stable R) (out : Ptr) (i left : Nat) :
    Tracks R (literalLoop out i left) := by
  induction left generalizing i with
  | zero => exact .raise
  | succ left ih =>
      have hbyte : ∀ c, Tracks R (onHost (Host.setByte out i c)) :=
        fun c => onHost_tracks hR (.setByte out i c)
      exact .bind (lexGetc_tracks hR) fun c => .bind (hbyte c) fun _ =>
        .ite (.bind (hbyte 0) fun _ => .ret) (ih _)

/-- Source: `esp-parse.c` `match_literal_string`. Kind: L -/
theorem matchLiteralString_tracks (hR : Stable R) (out : Ptr) (nbytes : Nat) :
    Tracks R (matchLiteralString out nbytes) :=
  .bind (skipBlankSpace_tracks hR) fun _ => .bind (lexPeek_tracks hR) fun _ =>
    .ite .ret (.bind (lexGetc_tracks hR) fun _ => literalLoop_tracks hR out 0 nbytes)

variable {tgt : Target}

/-- Source: `esp-parse.c` `matchv`. Kind: L -/
theorem scanTurn_tracks (hR : Stable R) (va : Nat → Ptr) (fmtString : List UInt8)
    (st : ScanState) : Tracks R (scanTurn tgt va fmtString st) := by
  have hva : ∀ k, Tracks R (vaArg va k) := by
    intro k
    exact .bind (onHost_tracks hR (.readArg k)) fun _ => .ret
  obtain ⟨fmt, mustMatch, k⟩ := st
  cases fmt with
  | nil => exact .ret
  | cons c fmt =>
      refine .bind .check fun _ => .bind (lexPeek_tracks hR) fun _ => .ite .ret (.ite (.ite
        (.bind (skipBlankSpace_tracks hR) fun _ => .bind (lexGetc_tracks hR) fun _ =>
          .ite .ret .ret) .ret) ?_)
      cases fmt with
      | nil => exact .raise
      | cons d fmt =>
          refine .ite ?_ (.ite ?_ .raise)
          · exact .bind (hva k) fun s => .bind (matchLiteralString_tracks hR s 32) fun _ => .ret
          · exact .bind (hva k) fun u => .bind (matchUint_tracks hR u) fun _ => .ret

/-- Source: `esp-parse.c` `matchv`. Kind: L -/
theorem matchv_tracks (hR : Stable R) (va : Nat → Ptr) (fmt : List UInt8) (k : Nat) :
    Tracks R (matchv tgt va fmt k) := by
  refine .bind (lexGetCkpt_tracks hR) fun ck => .bind (skipBlankLines_tracks hR) fun _ =>
    .bind (skipBlankSpace_tracks hR) fun _ => .bind ?_ fun _ => .ite .ret (.ite .raise ?_)
  · exact .loop (fun st => scanTurn_tracks hR va fmt st) fun _ => .ret
  · exact .bind (lexRestoreCkpt_tracks hR ck) fun _ => .ret

/-- Source: `esp-parse.c` `match_line`. Kind: L -/
theorem matchLine_tracks (hR : Stable R) (va : Nat → Ptr) (fmt : List UInt8) :
    Tracks R (matchLine tgt fmt va) :=
  .bind (.bind (matchv_tracks hR va fmt 0) fun _ => .ite .ret
    (.bind (matchEol_tracks hR) fun _ => .ite .raise .ret)) fun _ => .ret

/-! ## `cmd_ack` -/

/-- Source: `esp-run.c` `match_busy`. Kind: L -/
theorem matchBusy_tracks (hR : Stable R) (stale : Nat → Ptr) : Tracks R (matchBusy tgt stale) :=
  .bind (matchLine_tracks hR _ _) fun _ => .ite .ret (matchLine_tracks hR _ _)

/-- Source: `esp-commands.c` `default_handle_out_of_order_msg`. Kind: L -/
theorem handleOooMsg_tracks (hR : Stable R) : Tracks R handleOooMsg := by
  refine .bind (onHost_tracks hR .oooCall) fun _ =>
    .bind (host_tracks hR Host.handleOooMsg) fun handler => ?_
  cases handler with
  | default =>
      exact .bind (host_tracks hR Host.activeP) fun _ => .ite (cmdEchoLine_tracks hR) .raise
  | server => exact .raise
  | client => exact .raise

/-- Source: `esp-run.c` `cmd_ack`. Kind: L -/
theorem cmdAck_tracks (hR : Stable R) (stale : Nat → Ptr) (cmd : List UInt8) :
    Tracks R (cmdAck tgt stale cmd) :=
  .loop (fun _ => .bind (matchLine_tracks hR stale cmd) fun _ => .ite .ret
    (.bind (matchBlankLine_tracks hR) fun _ => .ite .ret
      (.bind (matchBusy_tracks hR stale) fun _ => .ite .ret
        (.bind (handleOooMsg_tracks hR) fun _ => .ret)))) fun _ => .ret

/-! ## Invariants of `cmd_ack` -/

variable {I : World → Prop} {stale : Nat → Ptr} {cmd : List UInt8}

/-- Source: `esp-parse.c` `match_line`. Kind: L -/
theorem matchLine_keeps (hI : Stable (Kept I)) : Keeps I (matchLine tgt cmd stale) :=
  tracks_kept_iff.mp (matchLine_tracks hI stale cmd)

/-- A turn of `cmd_ack` ends the loop only with its `match_line`.
Source: `esp-run.c` `cmd_ack`
Kind: L -/
theorem ackTurn_triple (hI : Stable (Kept I)) {P M : World → Prop}
    (h : Triple P (matchLine tgt cmd stale) fun b w => if b then M w else I w) :
    Triple P (ackTurn tgt stale cmd) (Sum.elim (fun _ => I) fun _ => M) := by
  refine h.bind ?_
  intro b
  cases b with
  | true => exact .ret fun _ h => h
  | false =>
      have hblank : Keeps I matchBlankLine := tracks_kept_iff.mp (matchBlankLine_tracks hI)
      have hbusy : Keeps I (matchBusy tgt stale) := tracks_kept_iff.mp (matchBusy_tracks hI stale)
      have hooo : Keeps I handleOooMsg := tracks_kept_iff.mp (handleOooMsg_tracks hI)
      refine Triple.bind hblank fun _ => .ite (.ret fun _ h => h) ?_
      refine Triple.bind hbusy fun _ => .ite (.ret fun _ h => h) ?_
      exact Triple.bind hooo fun _ => .ret fun _ h => h

/-- **What `cmd_ack` returns with** is what its last `match_line` succeeded with: if that makes `M`
true, in every state in which `I` holds, so does `cmd_ack`.
Source: `esp-run.c` `cmd_ack`
Kind: P -/
theorem cmdAck_triple (hI : Stable (Kept I)) {M : World → Prop}
    (h : Triple I (matchLine tgt cmd stale) fun b w => b = true → M w) :
    Triple I (cmdAck tgt stale cmd) fun _ => M := by
  refine Triple.loop (Q := fun _ => M) (fun _ => I) (M := fun _ => M) (fun _ => ?_)
    (fun _ => .ret fun _ h => h) ()
  apply ackTurn_triple hI
  intro w b t hw hr
  cases b with
  | true => exact h w true t hw hr rfl
  | false => exact matchLine_keeps hI w false t hw hr

/-- Source: `esp-run.c` `cmd_ack`. Kind: L -/
theorem cmdAck_keeps (hI : Stable (Kept I)) : Keeps I (cmdAck tgt stale cmd) :=
  tracks_kept_iff.mp (cmdAck_tracks hI stale cmd)

/-- What a property must survive to be stable: moving the position, a change of the host and the
arrival of a chunk.
Source: none: infrastructure
Kind: L -/
theorem stable_kept (hseek : ∀ pos w, I w → I { w with lex := { w.lex with pos } })
    (hhost : ∀ f, HostStep f → ∀ w, I w → I { w with host := f w.host })
    (hread : ∀ w c cs, I w → w.lex.input = c :: cs →
      I { w with lex := ⟨w.lex.pos, w.lex.stream ++ c, cs⟩ }) : Stable (Kept I) where
  lex := by
    rintro w _ ⟨rfl, -⟩
    exact ⟨rfl, rfl⟩
  host := by
    rintro w _ ⟨rfl, -⟩
    rfl
  seek := by
    rintro pos w _ ⟨rfl, hw⟩
    exact ⟨rfl, hseek pos _ hw⟩
  onHost := by
    rintro f hf w _ ⟨rfl, hw⟩
    exact ⟨rfl, hhost f hf _ hw⟩
  readin := by
    refine tracks_kept_iff.mpr ?_
    intro w n w' hw hr
    obtain ⟨-, c, cs, hin, -, -, -, rfl⟩ := lexReadin_ok hr
    exact hread w c cs hw hin

/-- A property of the host. Source: none: infrastructure. Kind: L -/
theorem stable_onHost {J : Host → Prop} (hJ : ∀ f, HostStep f → ∀ h, J h → J (f h)) :
    Stable (Kept fun w : World => J w.host) :=
  stable_kept (fun _ _ h => h) (fun f hf w => hJ f hf w.host) fun _ _ _ h _ => h

/-- Source: none: infrastructure. Kind: L -/
theorem stable_true : Stable (Kept fun _ => True) :=
  stable_onHost (J := fun _ => True) fun _ _ _ h => h

/-- What is buffered ends at a cut of the input. Source: `esp-lex.c` `lex_readin`. Kind: D -/
def AtCut (input : List (List UInt8)) (w : World) : Prop :=
  ∃ read, read ++ w.lex.input = input ∧ read.flatten = w.lex.stream

/-- Source: `esp-lex.c` `lex_readin`. Kind: L -/
theorem stable_atCut (input : List (List UInt8)) : Stable (Kept (AtCut input)) := by
  refine stable_kept (fun _ _ h => h) (fun _ _ _ h => h) ?_
  rintro w c cs ⟨read, hinput, hstream⟩ hin
  refine ⟨read ++ [c], ?_, ?_⟩
  · rw [← hinput, hin, List.append_assoc, List.singleton_append]
  · simp [← hstream]

/-! ## What arrives later -/

/-- The device sends `late` behind everything else. Source: `libesp.h` `esp_read`. Kind: D -/
def World.more (late : List (List UInt8)) (w : World) : World :=
  { w with lex := { w.lex with input := w.lex.input ++ late } }

/-- Source: `esp-lex.c` `lex_readin`. Kind: L -/
theorem stable_more (late : List (List UInt8)) : Stable fun w w' => w' = w.more late where
  lex := by
    rintro w _ rfl
    exact ⟨rfl, rfl⟩
  host := by
    rintro w _ rfl
    rfl
  seek := by
    rintro pos w _ rfl
    rfl
  onHost := by
    rintro f - w _ rfl
    rfl
  readin := by
    rintro w _ n w' rfl hr
    obtain ⟨hpos, c, cs, hin, hc, hsmall, rfl, rfl⟩ := lexReadin_ok hr
    have hmore : (w.more late).lex.input = c :: (cs ++ late) := by
      rw [World.more, hin, List.cons_append]
    exact ⟨_, lexReadin_runs hpos hmore hc hsmall, rfl⟩

/-- **What arrives later makes no difference** to a `cmd_ack` that has returned.
Source: `esp-run.c` `cmd_ack`
Kind: P -/
theorem cmdAck_more {w w' : World} {b : Bool} (h : Runs (cmdAck tgt stale cmd) w (.ok b) w')
    (late : List (List UInt8)) :
    Runs (cmdAck tgt stale cmd) (w.more late) (.ok b) (w'.more late) := by
  obtain ⟨_, hrun, rfl⟩ := cmdAck_tracks (stable_more late) stale cmd w _ b w' rfl h
  exact hrun

/-! ## Which byte is read -/

/-- The byte at the position, when one is buffered. Source: `esp-lex-simple.h` `l->stream`.
Kind: D -/
def World.next (w : World) : Option UInt8 := w.lex.stream[w.lex.pos]?

/-- Source: `esp-lex-simple.h` `lex_empty`. Kind: L -/
theorem lexEmpty_triple {P : World → Prop} :
    Triple P lexEmpty fun b w => P w ∧ b = w.next.isNone := by
  refine Triple.load fun l => Triple.check fun hle => .ret ?_
  rintro w ⟨hw, rfl⟩
  refine ⟨hw, ?_⟩
  rw [decide_eq_true_eq] at hle
  rw [Bool.eq_iff_iff, beq_iff_eq, Option.isNone_iff_eq_none, World.next, List.getElem?_eq_none_iff]
  omega

/-- Filling the buffer leaves a byte at the position. Source: `esp-lex-simple.c` `lex_getc_simple`.
Kind: L -/
theorem lexFill_triple : Triple (fun _ => True) lexFill fun _ w => w.next.isSome = true := by
  have hlast : Triple (fun _ => True) (lexEmpty.bind fun empty => cAssert (!empty) "!lex_empty(l)")
      fun _ w => w.next.isSome = true := by
    refine Triple.bind lexEmpty_triple ?_
    intro empty
    cases empty with
    | true => exact .raise
    | false => exact .ret fun w h => by simpa using h.2.symm
  refine Triple.bind .any fun _ => .ite (Triple.bind .any fun _ => hlast) ?_
  exact hlast.conseq (fun _ _ => trivial) fun _ _ h => h

/-- A byte that is buffered stays. Source: `esp-lex-simple.c` `lex_getc_simple`. Kind: L -/
theorem lexFill_next {c : UInt8} :
    Triple (fun w => w.next = some c) lexFill fun _ w => w.next = some c := by
  refine Triple.bind lexEmpty_triple ?_
  intro empty
  cases empty with
  | true =>
      rintro w a t ⟨hw, he⟩
      simp [hw] at he
  | false =>
      refine Triple.bind (lexEmpty_triple.conseq (fun _ h => h.1) fun _ _ h => h) ?_
      intro empty
      cases empty with
      | true => exact .raise
      | false => exact .ret fun _ h => h.1

/-- The byte at the position. Source: `esp-lex-simple.c` `lex_getc_simple`. Kind: L -/
theorem World.getD_of_next {w : World} {c : UInt8} (h : w.next = some c) :
    w.lex.stream.getD w.lex.pos 0 = c := by
  rw [List.getD_eq_getElem?_getD, show w.lex.stream[w.lex.pos]? = some c from h]
  rfl

/-- Peeking leaves the byte in the buffer. Source: `esp-lex-simple.c` `lex_peek_simple`. Kind: L -/
theorem lexPeek_triple : Triple (fun _ => True) lexPeek fun c w => w.next = some c := by
  refine Triple.bind lexFill_triple fun _ => ?_
  refine Triple.act (M := fun c w => w.next = some c) (fun w h => ?_) fun _ => .ret fun _ h => h
  obtain ⟨c, hc⟩ := Option.isSome_iff_exists.mp h
  exact hc.trans (congrArg some (World.getD_of_next hc).symm)

/-- Reading takes the byte that is buffered. Source: `esp-lex-simple.c` `lex_getc_simple`.
Kind: L -/
theorem lexGetc_triple {c : UInt8} : Triple (fun w => w.next = some c) lexGetc fun d _ => d = c := by
  refine Triple.bind lexFill_next fun _ => ?_
  exact Triple.act (M := fun d _ => d = c) (fun _ h => World.getD_of_next h) fun _ =>
    .ret fun _ h => h

/-- Skipping blanks stops at another character. Source: `esp-parse.c` `skip_blank_space`.
Kind: L -/
theorem skipBlankSpace_triple :
    Triple (fun _ => True) skipBlankSpace fun _ w => ∃ c, w.next = some c ∧ isSpaceCh c = false := by
  refine Triple.conseq (Triple.whileDo (P := fun _ => True)
    (M := fun b w => b = false → ∃ c, w.next = some c ∧ isSpaceCh c = false) ?_
    .any) (fun _ h => h) fun _ _ h => h rfl
  exact Triple.bind lexPeek_triple fun c => .ret fun w hc hb => ⟨c, hc, hb⟩

/-! ## How far an end of line is consumed -/

/-- No end-of-line character is buffered next. Source: `esp-parse.c` `match_eol`. Kind: D -/
def World.AtText (w : World) : Prop := ∀ c, w.next = some c → isEolCh c = false

/-- Source: `esp-parse.c` `match_eol`. Kind: L -/
theorem bufferedEol_triple :
    Triple (fun _ => True) bufferedEol fun b w => b = false → w.AtText := by
  refine Triple.bind (M := fun n w => n = 0 → w.next = none) ?_ fun n => ?_
  · refine Triple.load fun l => Triple.check fun hle => .ret ?_
    rintro w ⟨-, rfl⟩ hn
    rw [decide_eq_true_eq] at hle
    unfold World.next
    rw [List.getElem?_eq_none_iff]
    omega
  · cases n with
    | zero => exact .ret fun w h _ c hc => by simp [h rfl] at hc
    | succ n =>
        refine Triple.bind (lexPeek_triple.conseq (fun _ _ => trivial) fun _ _ h => h) ?_
        intro d
        refine .ret ?_
        intro w hd hfalse c hc
        rw [hd, Option.some.injEq] at hc
        rw [← hc]
        exact hfalse

/-- **An end of line is consumed as far as it is buffered.** Source: `esp-parse.c` `match_eol`.
Kind: P -/
theorem matchEol_triple : Triple (fun _ => True) matchEol fun b w => b = true → w.AtText := by
  refine Triple.bind .any fun ck => Triple.bind .any fun _ => Triple.bind .any fun _ => ?_
  refine .ite (Triple.bind .any fun _ => .ret fun _ _ h => by simp at h) ?_
  refine Triple.bind .any fun _ => ?_
  refine Triple.bind (Triple.whileDo (P := fun _ => True) bufferedEol_triple .any) fun _ => ?_
  exact .ret fun _ h _ => h rfl

/-- Source: `esp-parse.c` `match_line`. Kind: L -/
theorem matchLine_atText {tgt : Target} {va : Nat → Ptr} {fmt : List UInt8} :
    Triple (fun _ => True) (matchLine tgt fmt va) fun b w => b = true → w.AtText := by
  refine Triple.bind (M := fun x w => x.1 = true → w.AtText) ?_ fun _ => .ret fun _ h => h
  refine Triple.bind .any ?_
  intro x
  refine .ite (.ret fun _ _ h => by simp at h) (Triple.bind matchEol_triple fun b => ?_)
  cases b with
  | true => exact .ret fun _ h _ => h rfl
  | false => exact .raise

end Cs140e.Esp
