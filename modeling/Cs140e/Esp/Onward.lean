import Cs140e.Lib.Completes
import Cs140e.Esp.LexView
import Cs140e.Esp.Run

/-!
# What every call does to the lexer

Total correctness of the parser, for every state of the lexer and every input: each call returns,
panics, or waits for a byte behind the last one (`Stopped`). What it does to the lexer is one of three
relations of the worlds before and after it.

* `Onward` — chunks have been read into the buffer, and the position is no earlier.
* `Advances` — the position is behind what it was; `Stays` — it is what it was.
* `*_completes` — one lemma a function. A call that can fail `Tries`: where it returns 0 it `Stays`.
-/

namespace Cs140e.Esp

open Cs140e.Lib Cs140e.Lib.Prog

/-- How a call ends that does not return: it panics, or waits for a byte behind the last one.
Source: `esp-lex.c` `lex_readin`
Kind: D -/
def Stopped : Stop → World → Prop
  | .assert _, _ => True
  | .panic _ _, _ => True
  | .block, w => w.unread = []
  | .outOfBounds, _ => False

/-- Everything the device ever sends. Source: `esp-lex-simple.h` `lex_t`. Kind: D -/
def World.bytes (w : World) : List UInt8 := w.lex.stream ++ w.lex.input.flatten

/-- Chunks have been read, and the position is no earlier. Source: `esp-lex-simple.h` `lex_t`.
Kind: D -/
structure Onward (w w' : World) : Prop where
  pos_le : w.lex.pos ≤ w'.lex.pos
  valid : w.lex.pos ≤ w.lex.stream.length → w'.lex.pos ≤ w'.lex.stream.length
  read : ∃ cs, w.lex.input = cs ++ w'.lex.input ∧ w'.lex.stream = w.lex.stream ++ cs.flatten

/-- The position is what it was. Source: `esp-lex-simple.h` `lex_restore_ckpt`. Kind: D -/
structure Stays (w w' : World) : Prop extends Onward w w' where
  pos_eq : w'.lex.pos = w.lex.pos

/-- The position is behind what it was. Source: `esp-lex-simple.c` `lex_getc_simple`. Kind: D -/
structure Advances (w w' : World) : Prop extends Onward w w' where
  lt : w.lex.pos < w'.lex.pos
  buffered : w'.lex.pos ≤ w'.lex.stream.length

variable {w w' w'' : World}

/-- Source: none: infrastructure. Kind: L -/
theorem Onward.refl (w : World) : Onward w w := ⟨Nat.le_refl _, id, [], rfl, by simp⟩

/-- Source: none: infrastructure. Kind: L -/
theorem Onward.trans (h : Onward w w') (h' : Onward w' w'') : Onward w w'' := by
  obtain ⟨cs, hin, hstream⟩ := h.read
  obtain ⟨cs', hin', hstream'⟩ := h'.read
  refine ⟨Nat.le_trans h.pos_le h'.pos_le, fun hw => h'.valid (h.valid hw), cs ++ cs', ?_, ?_⟩
  · rw [hin, hin', List.append_assoc]
  · rw [hstream', hstream, List.flatten_append, List.append_assoc]

/-- The bytes are the same. Source: `esp-lex-simple.h` `lex_push_n`. Kind: L -/
theorem Onward.bytes (h : Onward w w') : w'.bytes = w.bytes := by
  obtain ⟨cs, hin, hstream⟩ := h.read
  rw [World.bytes, World.bytes, hstream, hin, List.flatten_append, List.append_assoc]

/-- The host does not count. Source: none: infrastructure. Kind: L -/
theorem Onward.onHost (w : World) (f : Host → Host) : Onward w { w with host := f w.host } :=
  ⟨Nat.le_refl _, id, [], rfl, by simp⟩

/-- Source: none: infrastructure. Kind: L -/
theorem Stays.refl (w : World) : Stays w w := ⟨.refl w, rfl⟩

/-- Source: none: infrastructure. Kind: L -/
theorem Stays.trans (h : Stays w w') (h' : Stays w' w'') : Stays w w'' :=
  ⟨h.toOnward.trans h'.toOnward, h'.pos_eq.trans h.pos_eq⟩

/-- Going back to where it was. Source: `esp-lex-simple.h` `lex_restore_ckpt`. Kind: L -/
theorem Onward.restore (h : Onward w w') :
    Stays w { w' with lex := { w'.lex with pos := w.lex.pos } } := by
  obtain ⟨cs, hin, hstream⟩ := h.read
  refine ⟨⟨Nat.le_refl _, fun hw => Nat.le_trans hw ?_, cs, hin, hstream⟩, rfl⟩
  show _ ≤ w'.lex.stream.length
  rw [hstream, List.length_append]
  exact Nat.le_add_right _ _

/-- What is not consumed is what it was. Source: `esp-lex-simple.h` `lex_restore_ckpt`. Kind: L -/
theorem Stays.unread (h : Stays w w') : w'.unread = w.unread := by
  show w'.bytes.drop _ = w.bytes.drop _
  rw [h.bytes, h.pos_eq]

/-- Source: none: infrastructure. Kind: L -/
theorem Advances.trans (h : Advances w w') (h' : Onward w' w'') : Advances w w'' :=
  ⟨h.toOnward.trans h', Nat.lt_of_lt_of_le h.lt h'.pos_le, h'.valid h.buffered⟩

/-- Source: none: infrastructure. Kind: L -/
theorem Onward.advances (h : Onward w w') (h' : Advances w' w'') : Advances w w'' :=
  ⟨h.trans h'.toOnward, Nat.lt_of_le_of_lt h.pos_le h'.lt, h'.buffered⟩

/-- Less is left. Source: `esp-lex-simple.h` `lex_t`. Kind: L -/
theorem Advances.unread_lt (h : Advances w w') : w'.unread.length < w.unread.length := by
  have hbytes := congrArg List.length h.bytes
  have hlen := h.buffered
  have hlt := h.lt
  simp only [World.unread, World.bytes, List.length_drop, List.length_append] at hbytes ⊢
  omega

/-- What a call that can fail does: `hit` where it returns 1, nothing where it returns 0.
Source: `esp-parse.c` `match_tok`, `matchv`
Kind: D -/
def Tries (hit : World → World → Prop) (w : World) : Bool → World → Prop
  | true, w' => hit w w'
  | false, w' => Stays w w'

/-! ## The lexer -/

section

variable {α : Type} {P : α → World → Prop}

/-- Source: `libunix/demand.h` `assert`. Kind: L -/
theorem cAssert_completes {b : Bool} {e : String} {k : Unit → Prog World Stop α}
    (hk : b = true → Completes Stopped (k ()) w P) : Completes Stopped ((cAssert b e).bind k) w P :=
  .check hk trivial

/-- Source: `libunix/demand.h` `assert`. Kind: L -/
theorem cAssert_ret {b : Bool} {e : String} {P : Unit → World → Prop} (hP : b = true → P () w) :
    Completes Stopped (cAssert b e) w P := by
  cases b with
  | true => exact .ret (hP rfl)
  | false => exact .raise trivial

/-- Source: `libunix/demand.h` `panic`. Kind: L -/
theorem panic_completes {msg : String} {args : List PanicArg} :
    Completes Stopped (raise (.panic msg args) : Prog World Stop α) w P := .raise trivial

/-- Source: `esp-lex-simple.h` `lex_empty`. Kind: L -/
theorem lexEmpty_completes {k : Bool → Prog World Stop α}
    (hk : w.lex.pos ≤ w.lex.stream.length →
      Completes Stopped (k (w.lex.pos == w.lex.stream.length)) w P) :
    Completes Stopped (lexEmpty.bind k) w P := by
  rw [lexEmpty, bind_eq_seq, seq_seq]
  refine .load ?_
  rw [bind_eq_seq, seq_seq]
  exact cAssert_completes fun hle => hk (by simpa using hle)

/-- Source: `esp-lex-simple.h` `lex_nstream`. Kind: L -/
theorem lexNstream_completes {k : Nat → Prog World Stop α}
    (hk : w.lex.pos ≤ w.lex.stream.length →
      Completes Stopped (k (w.lex.stream.length - w.lex.pos)) w P) :
    Completes Stopped (lexNstream.bind k) w P := by
  rw [lexNstream, bind_eq_seq, seq_seq]
  refine .load ?_
  rw [bind_eq_seq, seq_seq]
  exact cAssert_completes fun hle => hk (by simpa using hle)

end

/-- Source: `esp-lex-simple.h` `lex_push_n`. Kind: L -/
theorem lexPushN_completes {buf : List UInt8} : Completes Stopped (lexPushN buf) w fun _ w' =>
    0 < buf.length ∧ w' = { w with lex := { w.lex with stream := w.lex.stream ++ buf } } := by
  refine cAssert_completes fun hlen => .load (cAssert_completes fun _ => .act (.ret ⟨?_, rfl⟩))
  simpa using hlen

/-- An exhausted buffer gets the next chunk, if there is one. Source: `esp-lex.c` `lex_readin`.
Kind: L -/
theorem lexReadin_completes :
    Completes Stopped lexReadin w fun _ w' => Stays w w' ∧ w'.lex.pos < w'.lex.stream.length := by
  refine lexEmpty_completes fun hle => cAssert_completes fun hempty => lexNstream_completes fun _ =>
    cAssert_completes fun _ => .load ?_
  rw [beq_iff_eq] at hempty
  rcases hin : w.lex.input with _ | ⟨c, cs⟩
  · -- nothing comes
    refine .raise ?_
    rw [Stopped, World.unread, hempty, List.drop_left, hin, List.flatten_nil]
  · refine .act ?_
    simp only [hin, List.headD_cons, List.tail_cons, ret_bind]
    refine .ite (fun _ => panic_completes) fun hc => ?_
    refine .bind lexPushN_completes ?_
    rintro _ _ ⟨hlen, rfl⟩
    refine .ret ⟨⟨⟨Nat.le_refl _, fun _ => ?_, [c], hin, by simp⟩, rfl⟩, ?_⟩
    all_goals
      simp only [List.length_append]
      omega

/-- A byte is at the position. Source: `esp-lex-simple.c` `lex_getc_simple`. Kind: L -/
theorem lexFill_completes :
    Completes Stopped lexFill w fun _ w' => Stays w w' ∧ w'.lex.pos < w'.lex.stream.length := by
  refine lexEmpty_completes fun hle => .ite (fun _ => ?_) fun hne => ?_
  · refine .bind lexReadin_completes fun _ t ht => lexEmpty_completes fun _ => ?_
    exact cAssert_ret fun _ => ht
  · refine lexEmpty_completes fun _ => cAssert_ret fun _ => ⟨.refl w, ?_⟩
    rw [beq_iff_eq] at hne
    omega

/-- Source: `esp-lex-simple.c` `lex_getc_simple`. Kind: L -/
theorem lexGetc_completes : Completes Stopped lexGetc w fun _ => Advances w := by
  refine .bind lexFill_completes fun _ t ht => .act (.ret ?_)
  obtain ⟨⟨hon, hpos⟩, hlt⟩ := ht
  exact ⟨⟨Nat.le_succ_of_le hon.pos_le, fun _ => hlt, hon.read⟩, Nat.lt_succ_of_le hon.pos_le, hlt⟩

/-- Source: `esp-lex-simple.c` `lex_peek_simple`. Kind: L -/
theorem lexPeek_completes : Completes Stopped lexPeek w fun _ => Stays w :=
  .bind lexFill_completes fun _ _ ht => .act (.ret ht.1)

/-! ## Blanks and lines -/

/-- Source: `esp-parse.c` `is_eol`. Kind: L -/
theorem isEol_completes : Completes Stopped isEol w fun _ => Stays w :=
  .bind lexPeek_completes fun _ _ ht => .ret ht

/-- A loop that reads a byte in each turn, and looks ahead before it. Source: `esp-parse.c`
`skip_blank_space`. Kind: L -/
theorem getcs_completes {cond : Prog World Stop Bool}
    (hcond : ∀ w, Completes Stopped cond w fun _ => Stays w) :
    Completes Stopped (whileDo cond (do let _ ← lexGetc)) w fun _ => Onward w := by
  refine Completes.whileDo (fun w => w.unread.length) (Onward w) (fun t ht => ?_) (.refl w)
  refine (hcond t).mono fun b u hu => ?_
  cases b with
  | true =>
      refine .bind lexGetc_completes fun _ u' hu' => .ret ⟨?_, ?_⟩
      · exact ht.trans (hu.toOnward.trans hu'.toOnward)
      · exact (hu.toOnward.advances hu').unread_lt
  | false => exact ht.trans hu.toOnward

/-- Source: `esp-parse.c` `skip_blank_space`. Kind: L -/
theorem skipBlankSpace_completes : Completes Stopped skipBlankSpace w fun _ => Onward w :=
  getcs_completes fun _ => .bind lexPeek_completes fun _ _ ht => .ret ht

/-- Source: `esp-parse.c` `match_eol`. Kind: L -/
theorem bufferedEol_completes : Completes Stopped bufferedEol w fun _ => Stays w :=
  lexNstream_completes fun _ => .ite (fun _ => .ret (.refl w)) fun _ => isEol_completes

/-- Going back to a checkpoint ends a call that fails. Source: `esp-lex-simple.h`
`lex_restore_ckpt`. Kind: L -/
theorem Onward.fails {hit : World → World → Prop} (h : Onward w w') :
    Completes Stopped ((lexRestoreCkpt w.lex.pos).bind fun _ => ret false) w' (Tries hit w) :=
  .act (.ret h.restore)

/-- Source: `esp-parse.c` `match_eol`. Kind: P -/
theorem matchEol_completes : Completes Stopped matchEol w (Tries Advances w) := by
  refine .load (.bind skipBlankSpace_completes fun _ t ht => .bind isEol_completes fun eol u hu => ?_)
  have hon := ht.trans hu.toOnward
  refine .ite (fun _ => hon.fails) fun _ => ?_
  refine .bind lexGetc_completes fun _ u' hu' => ?_
  exact (getcs_completes fun _ => bufferedEol_completes).bind fun _ _ hend =>
    .ret ((hon.advances hu').trans hend)

/-- Source: `esp-parse.c` `match_blank_line`. Kind: P -/
theorem matchBlankLine_completes : Completes Stopped matchBlankLine w (Tries Advances w) := by
  refine .load (.bind skipBlankSpace_completes fun _ t ht => .bind matchEol_completes fun eol u hu => ?_)
  cases eol with
  | true => exact .ret (ht.advances hu)
  | false => exact (ht.trans hu.toOnward).fails

/-- Source: `esp-parse.c` `skip_blank_lines`. Kind: L -/
theorem skipBlankLines_completes : Completes Stopped skipBlankLines w fun _ => Onward w := by
  refine Completes.whileDo (fun w => w.unread.length) (Onward w) (fun t ht => ?_) (.refl w)
  refine .mono matchBlankLine_completes fun b u hu => ?_
  cases b with
  | true => exact .ret ⟨ht.trans hu.toOnward, hu.unread_lt⟩
  | false => exact ht.trans hu.toOnward

/-- What every matcher starts with. Source: `esp-parse.c` `match_tok`, `matchv`. Kind: L -/
theorem skipToText_completes {α : Type} {k : Unit → Prog World Stop α} {P : α → World → Prop}
    (hk : ∀ t, Onward w t → Completes Stopped (k ()) t P) :
    Completes Stopped (skipBlankLines.bind fun _ => skipBlankSpace.bind k) w P :=
  .bind skipBlankLines_completes fun _ _ ht => .bind skipBlankSpace_completes fun _ u hu =>
    hk u (ht.trans hu)

/-- Source: `esp-parse.c` `get_nonblank_line`. Kind: L -/
theorem lineLoop_completes (left : Nat) :
    Completes Stopped (lineLoop left) w fun _ w' => Onward w w' ∧ (0 < left → Advances w w') := by
  induction left generalizing w with
  | zero => exact .ret ⟨.refl w, fun h => absurd h (Nat.lt_irrefl 0)⟩
  | succ left ih =>
      refine .bind matchEol_completes fun eol t ht => ?_
      cases eol with
      | true => exact .ret ⟨ht.toOnward, fun _ => ht⟩
      | false =>
          refine .bind lexGetc_completes fun c u hu => ih.bind fun line x hx => .ret ?_
          have hadv := (ht.toOnward.advances hu).trans hx.1
          exact ⟨hadv.toOnward, fun _ => hadv⟩

/-- **A line that is read is consumed**, blank or not. Source: `esp-parse.c` `get_nonblank_line`.
Kind: P -/
theorem getNonblankLine_completes {nbytes : Nat} (hpos : 0 < nbytes) :
    Completes Stopped (getNonblankLine nbytes) w fun _ => Advances w := by
  refine .bind matchBlankLine_completes fun blank t ht => ?_
  cases blank with
  | true => exact .ret ht
  | false =>
      refine .bind skipBlankSpace_completes fun _ u hu =>
        (lineLoop_completes nbytes).bind fun line x hx => ?_
      cases line with
      | none => exact panic_completes
      | some line => exact .ret ((ht.toOnward.trans hu).advances (hx.2 hpos))

/-! ## Values -/

/-- Source: none: infrastructure. Kind: L -/
theorem onHost_completes {f : Host → Host} :
    Completes Stopped (onHost f) w fun _ => Stays w :=
  .act (.ret ⟨.onHost w f, rfl⟩)

/-- Source: `esp-parse.c` `match_uint`. Kind: L -/
theorem matchUint_completes (x : Ptr) : Completes Stopped (matchUint x) w fun _ => Onward w := by
  refine .bind skipBlankSpace_completes fun _ t ht => .bind onHost_completes fun _ u hu => ?_
  refine Completes.loop (Q := fun _ => Onward w) (fun _ w => w.unread.length) (fun _ => Onward w)
    (fun i s hs => ?_) (fun _ _ h => .ret h) (ht.trans hu.toOnward)
  refine .bind lexPeek_completes fun c s₁ h₁ => .ite (fun _ => .load ?_) fun _ => ?_
  · refine .bind lexGetc_completes fun d s₂ h₂ => .bind onHost_completes fun _ s₃ h₃ => .ret ?_
    have hadv := (h₁.toOnward.advances h₂).trans h₃.toOnward
    exact ⟨hs.trans hadv.toOnward, hadv.unread_lt⟩
  · exact .ret (hs.trans h₁.toOnward)

/-- Source: `esp-parse.c` `match_literal_string`. Kind: L -/
theorem literalLoop_completes (out : Ptr) (i left : Nat) :
    Completes Stopped (literalLoop out i left) w fun _ => Onward w := by
  induction left generalizing i w with
  | zero => exact panic_completes
  | succ left ih =>
      refine .bind lexGetc_completes fun c t ht => .bind onHost_completes fun _ u hu => ?_
      have hon := ht.toOnward.trans hu.toOnward
      refine .ite (fun _ => ?_) fun _ => ?_
      · exact .bind onHost_completes fun _ _ hx => .ret (hon.trans hx.toOnward)
      · exact (ih (i + 1)).mono fun _ _ hx => hon.trans hx

/-- Source: `esp-parse.c` `match_literal_string`. Kind: L -/
theorem matchLiteralString_completes (out : Ptr) (nbytes : Nat) :
    Completes Stopped (matchLiteralString out nbytes) w fun _ => Onward w := by
  refine .bind skipBlankSpace_completes fun _ t ht => .bind lexPeek_completes fun c u hu => ?_
  have hon := ht.trans hu.toOnward
  refine .ite (fun _ => .ret hon) fun _ => .bind lexGetc_completes fun _ x hx => ?_
  exact (literalLoop_completes out 0 nbytes).mono fun _ _ hy => (hon.trans hx.toOnward).trans hy

/-! ## Tokens and formats -/

variable (tgt : Target)

/-- Source: `esp-parse.c` `match_tok`. Kind: L -/
theorem tokScan_completes (tok : List UInt8) (last : UInt8) :
    Completes Stopped (tokScan tgt tok last) w fun _ w' =>
      Onward w w' ∧ (tok ≠ [] → Advances w w') := by
  induction tok generalizing last w with
  | nil =>
      refine .ite (fun _ => ?_) fun _ => .ret ⟨.refl w, fun h => absurd rfl h⟩
      exact .bind lexPeek_completes fun _ _ ht => .ret ⟨ht.toOnward, fun h => absurd rfl h⟩
  | cons c p ih =>
      refine .bind lexGetc_completes fun d t ht => .ite (fun _ => ?_) fun _ => ?_
      · exact .ret ⟨ht.toOnward, fun _ => ht⟩
      · refine (ih c).mono fun _ u hu => ?_
        have hadv := ht.trans hu.1
        exact ⟨hadv.toOnward, fun _ => hadv⟩

/-- Source: `esp-parse.c` `match_tok`. Kind: P -/
theorem matchTok_completes (tok : List UInt8) :
    Completes Stopped (matchTok tgt tok) w (Tries Advances w) := by
  refine .load (skipToText_completes fun t ht => cAssert_completes fun hne => ?_)
  refine (tokScan_completes tgt tok 0).bind fun ok u hu => ?_
  rw [bne_iff_ne] at hne
  exact .ite (fun _ => .ret (ht.advances (hu.2 hne))) fun _ => (ht.trans hu.1).fails

/-- A turn of the loop of `matchv` that goes on has a shorter format left.
Source: `esp-parse.c` `matchv`
Kind: L -/
theorem scanTurn_completes (va : Nat → Ptr) (fmtString : List UInt8) (st : ScanState) :
    Completes Stopped (scanTurn tgt va fmtString st) w
      (Sum.elim (fun st' w' => Onward w w' ∧ st'.fmt.length < st.fmt.length)
        fun _ => Onward w) := by
  obtain ⟨fmt, mustMatch, k⟩ := st
  cases fmt with
  | nil => exact .ret (.refl w)
  | cons c fmt =>
      refine cAssert_completes fun _ => .bind lexPeek_completes fun ch t ht => ?_
      have hshort : fmt.length < (c :: fmt).length := Nat.lt_succ_self _
      refine .ite (fun _ => .ret ht.toOnward) fun _ => .ite (fun _ => ?_) fun _ => ?_
      · -- a literal character
        refine .ite (fun _ => ?_) fun _ => .ret ⟨ht.toOnward, hshort⟩
        refine .bind skipBlankSpace_completes fun _ u hu => .bind lexGetc_completes fun d x hx => ?_
        have hon := (ht.toOnward.trans hu).trans hx.toOnward
        exact .ite (fun _ => .ret hon) fun _ => .ret ⟨hon, hshort⟩
      · -- a conversion
        cases fmt with
        | nil => exact panic_completes
        | cons d fmt =>
            have hshort' : fmt.length < (c :: d :: fmt).length := by
              simp only [List.length_cons]
              omega
            refine .ite (fun _ => ?_) fun _ => .ite (fun _ => ?_) fun _ => panic_completes
            all_goals
              rw [vaArg, bind_eq_seq, bind_eq_seq, seq_seq]
              refine .bind onHost_completes fun _ u hu => ?_
              have hon := ht.toOnward.trans hu.toOnward
            · refine (matchLiteralString_completes _ 32).bind fun ok x hx => ?_
              cases ok with
              | true => exact .ret ⟨hon.trans hx, hshort'⟩
              | false => exact .ret (hon.trans hx)
            · refine (matchUint_completes _).bind fun ok x hx => ?_
              cases ok with
              | true => exact .ret ⟨hon.trans hx, hshort'⟩
              | false => exact .ret (hon.trans hx)

/-- Source: `esp-parse.c` `matchv`. Kind: P -/
theorem matchv_completes (va : Nat → Ptr) (fmt : List UInt8) (k : Nat) :
    Completes Stopped (matchv tgt va fmt k) w fun r => Tries Onward w r.1 := by
  refine .load (skipToText_completes fun t ht => ?_)
  refine Completes.bind (P := fun _ => Onward w) ?_ fun r u hu => ?_
  · refine Completes.loop (Q := fun _ => Onward w) (fun st _ => st.fmt.length) (fun _ => Onward w)
      (fun st s hs => (scanTurn_completes tgt va fmt st).mono ?_) (fun _ _ h => .ret h) ht
    rintro (st' | b) s' h
    · exact ⟨hs.trans h.1, h.2⟩
    · exact hs.trans h
  · obtain ⟨matched, st⟩ := r
    refine .ite (fun hm => .ret ?_) fun _ => .ite (fun _ => panic_completes) fun _ => ?_
    · exact hu
    · exact .act (.ret hu.restore)

/-- Source: `esp-parse.c` `match_linev`. Kind: P -/
theorem matchLinev_completes (va : Nat → Ptr) (fmt : List UInt8) (k : Nat) :
    Completes Stopped (matchLinev tgt va fmt k) w fun r => Tries Advances w r.1 := by
  refine (matchv_completes tgt va fmt k).bind fun r t ht => ?_
  obtain ⟨matched, k'⟩ := r
  cases matched with
  | false => exact .ret ht
  | true =>
      refine .bind matchEol_completes fun eol u hu => ?_
      cases eol with
      | false => exact panic_completes
      | true => exact .ret (ht.advances hu)

/-- Source: `esp-parse.c` `match_line`. Kind: L -/
theorem matchLine_completes (va : Nat → Ptr) (fmt : List UInt8) :
    Completes Stopped (matchLine tgt fmt va) w (Tries Advances w) :=
  (matchLinev_completes tgt va fmt 0).bind fun _ _ ht => .ret ht

/-- Source: `esp-parse.c` `match`. Kind: L -/
theorem matchPartial_completes (va : Nat → Ptr) (fmt : List UInt8) :
    Completes Stopped (matchPartial tgt fmt va) w (Tries Onward w) :=
  (matchv_completes tgt va fmt 0).bind fun _ _ ht => .ret ht

end Cs140e.Esp
