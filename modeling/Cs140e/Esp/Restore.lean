import Cs140e.Esp.Onward
import Cs140e.Esp.Grammar

/-!
# Matches that fail, and tokens that match

A matcher that returns 0 has at most read ahead. A token matches where the next text starts with it,
and is then consumed exactly; but it is compared as plain `char`s, and no byte of the input is equal
to a negative one.

* `Unconsumed` — what is left of a call that fails; `FailsClean` — every matcher; `failsClean`.
* `World.unread` through the functions of a token: `lexGetc_unread`, `skipToText_unread`,
  `tokScan_unread`.
* `TokNext` — the text starts with the token; `TokResult` — what a call should return.
* `match_restores_iff` — both parts, and exactly where the second one fails.
-/

namespace Cs140e.Esp

open Cs140e.Lib Cs140e.Lib.Prog

variable {tgt : Target} {va : Nat → Ptr} {v : View} {w t : World} {s : List UInt8}

/-! ## Later reads -/

/-- The next `n` bytes. Source: `esp-lex-simple.c` `lex_getc_simple`. Kind: D -/
def lexGetcs : Nat → Prog World Stop (List UInt8)
  | 0 => return []
  | n + 1 => do
    let c ← lexGetc
    let cs ← lexGetcs n
    return c :: cs

/-- They are the next bytes of the stream, and are waited for. Source: `esp-lex-simple.c`
`lex_getc_simple`. Kind: L -/
theorem lexGetcs_ends (n : Nat) : Ends Reads (lexGetcs n) v
    (if n ≤ v.rest.length then .ok (v.rest.take n) else .error .block) fun _ => True := by
  induction n generalizing v with
  | zero => exact .ret trivial
  | succ n ih =>
      rcases hr : v.rest with _ | ⟨c, r⟩
      · exact ((lexGetc_block hr).mono fun _ _ => trivial).bind_error
      · have hrest := ih (v := v.seek r)
        rw [View.seek_rest] at hrest
        simp only [List.length_cons, Nat.add_le_add_iff_right, List.take_succ_cons]
        refine (lexGetc_ends hr).seq ?_
        by_cases hn : n ≤ r.length
        · rw [if_pos hn] at hrest ⊢
          exact hrest.bind fun _ h => .ret h
        · rw [if_neg hn] at hrest ⊢
          exact hrest.bind_error

/-- What a call that fails leaves behind: the same position, the same bytes behind it, and in every
description of what the lexer reads nothing but the host has changed.
Source: `esp-lex-simple.h` `lex_restore_ckpt`
Kind: D -/
structure Unconsumed (w t : World) : Prop where
  restored : Restored w t
  reads : ∀ v, Reads v w → Reads { v with host := t.host } t
  later : ∀ v, Reads v w → ∀ n o, (∃ u, Runs (lexGetcs n) w o u) ↔ ∃ u, Runs (lexGetcs n) t o u

/-- Source: `esp-lex-simple.h` `lex_t`. Kind: L -/
theorem Stays.reads (h : Stays w t) (hw : Reads v w) : Reads { v with host := t.host } t where
  all := h.bytes.trans hw.all
  pos_le := h.valid hw.pos_le
  rest := by rw [h.pos_eq]; exact hw.rest
  chunks := by
    obtain ⟨cs, hin, -⟩ := h.read
    exact fun c hc => hw.chunks c (hin ▸ List.mem_append_right cs hc)
  small := hw.small
  host := rfl

/-- A call that stays where it is consumes nothing. Source: `esp-lex-simple.h` `lex_restore_ckpt`.
Kind: L -/
theorem Stays.unconsumed (h : Stays w t) : Unconsumed w t where
  restored := ⟨h.pos_eq, h.unread⟩
  reads := fun v hw => h.reads hw
  later := by
    intro v hw n o
    obtain ⟨u, hu, -⟩ := lexGetcs_ends n w hw
    obtain ⟨u', hu', -⟩ := lexGetcs_ends n t (h.reads hw)
    constructor
    · rintro ⟨x, hx⟩
      exact ⟨u', (hx.det hu).1 ▸ hu'⟩
    · rintro ⟨x, hx⟩
      exact ⟨u, (hx.det hu').1 ▸ hu⟩

/-- Every matcher that returns 0 consumes nothing. Source: `esp-parse.c` `match_tok`, `match`,
`matchv`, `match_line`, `match_blank_line`. Kind: D -/
structure FailsClean (tgt : Target) (tok fmt : List UInt8) (va : Nat → Ptr) (w : World) : Prop where
  tok : ∀ t, Runs (matchTok tgt tok) w (.ok false) t → Unconsumed w t
  format : ∀ t, Runs (matchPartial tgt fmt va) w (.ok false) t → Unconsumed w t
  formatv : ∀ k k' t, Runs (matchv tgt va fmt k) w (.ok (false, k')) t → Unconsumed w t
  line : ∀ t, Runs (matchLine tgt fmt va) w (.ok false) t → Unconsumed w t
  blank : ∀ t, Runs matchBlankLine w (.ok false) t → Unconsumed w t

/-- **Failed matches do not consume input.** Source: `esp-parse.c` `lex_restore_ckpt(&ckpt)`.
Kind: P -/
theorem failsClean (tgt : Target) (tok fmt : List UInt8) (va : Nat → Ptr) (w : World) :
    FailsClean tgt tok fmt va w where
  tok _ h := ((matchTok_completes tgt tok).returns h).unconsumed
  format _ h := ((matchPartial_completes tgt va fmt).returns h).unconsumed
  formatv k _ _ h := ((matchv_completes tgt va fmt k).returns h).unconsumed
  line _ h := ((matchLine_completes tgt va fmt).returns h).unconsumed
  blank _ h := (matchBlankLine_completes.returns h).unconsumed

/-! ## What is not consumed -/

/-- The next byte, when it is buffered. Source: `esp-lex-simple.h` `l->stream`. Kind: L -/
theorem World.unread_cons (h : w.lex.pos < w.lex.stream.length) :
    w.unread = w.lex.stream.getD w.lex.pos 0 :: w.bytes.drop (w.lex.pos + 1) := by
  have hcell : w.lex.stream.getD w.lex.pos 0 = w.lex.stream[w.lex.pos] := by
    rw [List.getD_eq_getElem?_getD, List.getElem?_eq_getElem h, Option.getD_some]
  have hlt : w.lex.pos < w.bytes.length := by
    rw [World.bytes, List.length_append]
    omega
  rw [World.unread, ← World.bytes, List.drop_eq_getElem_cons hlt, hcell]
  simp only [World.bytes, List.getElem_append_left h]

/-- Source: `esp-lex-simple.c` `lex_getc_simple`. Kind: L -/
theorem lexFill_unread : Triple (fun w => w.unread = s) lexFill fun _ w =>
    w.unread = s ∧ w.lex.pos < w.lex.stream.length := by
  rintro w _ t rfl hrun
  obtain ⟨hstays, hlt⟩ := lexFill_completes.returns hrun
  exact ⟨hstays.unread, hlt⟩

/-- Reading takes the next byte. Source: `esp-lex-simple.c` `lex_getc_simple`. Kind: L -/
theorem lexGetc_unread :
    Triple (fun w => w.unread = s) lexGetc fun c w => s = c :: w.unread := by
  refine Triple.bind lexFill_unread fun _ => Triple.act (M := fun c w => s = c :: w.unread)
    (fun w h => ?_) fun _ => .ret fun _ h => h
  rw [← h.1]
  exact World.unread_cons h.2

/-- Peeking shows it. Source: `esp-lex-simple.c` `lex_peek_simple`. Kind: L -/
theorem lexPeek_unread :
    Triple (fun w => w.unread = s) lexPeek fun c w => w.unread = s ∧ ∃ r, s = c :: r := by
  refine Triple.bind lexFill_unread fun _ =>
    Triple.act (M := fun c w => w.unread = s ∧ ∃ r, s = c :: r) (fun w h => ⟨h.1, w.bytes.drop (w.lex.pos + 1), ?_⟩)
    fun _ => .ret fun _ h => h
  rw [← h.1]
  exact World.unread_cons h.2

/-- Source: `esp-parse.c` `is_eol`. Kind: L -/
theorem isEol_unread : Triple (fun w => w.unread = s) isEol fun b w =>
    w.unread = s ∧ ∃ c r, s = c :: r ∧ isEolCh c = b :=
  Triple.bind lexPeek_unread fun c => .ret fun _ h => ⟨h.1, c, h.2.imp fun _ hr => ⟨hr, rfl⟩⟩

/-- A loop that consumes characters of `p` changes nothing behind them. `F` is what its test says of
the bytes that are next. Source: `esp-parse.c` `skip_blank_space`, `match_eol`. Kind: P -/
theorem getcs_unread {cond : Prog World Stop Bool} {p : UInt8 → Bool} {F : List UInt8 → Bool → Prop}
    (hcond : ∀ s, Triple (fun w => w.unread = s) cond fun b w => w.unread = s ∧ F s b)
    (hF : ∀ s, F s true → ∃ c r, s = c :: r ∧ p c = true) :
    Triple (fun w => w.unread.dropWhile p = s) (whileDo cond (do let _ ← lexGetc))
      fun _ w => w.unread.dropWhile p = s ∧ F w.unread false := by
  refine Triple.whileDo (M := fun b (w : World) => w.unread.dropWhile p = s ∧ F w.unread b) ?_
    (Triple.bind (M := fun _ (w : World) => w.unread.dropWhile p = s) ?_ fun _ => .ret fun _ h => h)
  · intro w b t hs hrun
    obtain ⟨ht, hb⟩ := hcond _ w b t rfl hrun
    rw [ht]
    exact ⟨hs, hb⟩
  · rintro w d t ⟨hs, hb⟩ hrun
    obtain ⟨c, r, hr, hc⟩ := hF _ hb
    have hcons := lexGetc_unread w d t rfl hrun
    rw [hcons, List.cons.injEq] at hr
    rw [hcons, hr.1, List.dropWhile_cons_of_pos hc] at hs
    exact hs

/-- Skipping blanks stops at the first character that is none. Source: `esp-parse.c`
`skip_blank_space`. Kind: L -/
theorem skipBlankSpace_unread : Triple (fun w => w.unread.dropWhile isSpaceCh = s) skipBlankSpace
    fun _ w => w.unread = s ∧ ∃ c r, s = c :: r ∧ isSpaceCh c = false := by
  have hspace (s : List UInt8) : Triple (fun w => w.unread = s) isSpace fun b w =>
      w.unread = s ∧ ∃ c r, s = c :: r ∧ isSpaceCh c = b :=
    Triple.bind lexPeek_unread fun c => .ret fun _ h => ⟨h.1, c, h.2.imp fun _ hr => ⟨hr, rfl⟩⟩
  refine (getcs_unread hspace fun _ h => h).conseq (fun _ h => h) ?_
  rintro _ w ⟨hs, c, r, hr, hc⟩
  rw [hr, List.dropWhile_cons_of_neg (by simp [hc])] at hs
  exact ⟨hr.trans hs, c, r, hs.symm, hc⟩

/-- Source: `esp-parse.c` `match_eol` `lex_nstream(l) && is_eol(l)`. Kind: L -/
theorem bufferedEol_unread : Triple (fun w => w.unread = s) bufferedEol fun b w =>
    w.unread = s ∧ (b = true → ∃ c r, s = c :: r ∧ isEolCh c = true) := by
  refine Triple.bind (M := fun _ w => w.unread = s) ?_ fun n => .ite ?_ ?_
  · exact Triple.load fun l => Triple.check fun _ => .ret fun _ h => h.1
  · exact .ret fun _ h => ⟨h, fun hb => by simp at hb⟩
  · exact isEol_unread.conseq (fun _ h => h) fun b _ h => ⟨h.1, fun hb => hb ▸ h.2⟩

/-- What looking for the end of a line does to the bytes that are next: it is passed over, or a
character comes first. Source: `esp-parse.c` `match_eol`, `match_blank_line`. Kind: D -/
def EolTried (s : List UInt8) : Bool → List UInt8 → Prop
  | true, s' => s'.dropWhile isBlankCh = s.dropWhile isBlankCh
  | false, s' => s' = s ∧ ∃ c r, s.dropWhile isSpaceCh = c :: r ∧ isEolCh c = false

/-- Source: `esp-parse.c` `match_eol`. Kind: L -/
theorem matchEol_unread :
    Triple (fun w => w.unread = s) matchEol fun b w => EolTried s b w.unread := by
  suffices h : Triple (fun w => w.unread = s) matchEol fun b w =>
      if b then w.unread.dropWhile isBlankCh = s.dropWhile isBlankCh
      else ∃ c r, s.dropWhile isSpaceCh = c :: r ∧ isEolCh c = false by
    intro w b t hs hrun
    have hpost := h w b t hs hrun
    cases b with
    | true => exact hpost
    | false => exact ⟨((matchEol_completes.returns hrun).unread).trans hs, hpost⟩
  refine Triple.load fun ck => Triple.bind (skipBlankSpace_unread.conseq (fun w h => by rw [h.1])
    fun _ _ h => h) fun _ => ?_
  refine Triple.bind (isEol_unread.conseq (fun _ h => h.1) fun _ _ h => h) fun eol => ?_
  cases eol with
  | false =>
      refine Triple.bind (M := fun _ _ => ∃ c r, s.dropWhile isSpaceCh = c :: r ∧ isEolCh c = false)
        ?_ fun _ => .ret fun _ h => h
      exact Triple.act (M := fun _ _ => ∃ c r, s.dropWhile isSpaceCh = c :: r ∧ isEolCh c = false)
        (fun _ h => h.2) fun _ => .ret fun _ h => h
  | true =>
      refine Triple.bind (M := fun _ w => w.unread.dropWhile isBlankCh = s.dropWhile isBlankCh)
        ?_ fun _ => ?_
      · rintro w d t ⟨hw, c, r, hr, hc⟩ hrun
        have hcons := lexGetc_unread w d t rfl hrun
        rw [← dropWhile_isSpaceCh_isBlankCh s, hr,
          List.dropWhile_cons_of_pos (isBlankCh_of_isEolCh c hc)]
        rw [hw, hr, List.cons.injEq] at hcons
        rw [hcons.2]
      · refine Triple.bind (getcs_unread (fun _ => bufferedEol_unread) fun s h => ?_) fun _ =>
          .ret fun _ h => h.1
        obtain ⟨c, r, hr, hc⟩ := h rfl
        exact ⟨c, r, hr, isBlankCh_of_isEolCh c hc⟩

/-- Source: `esp-parse.c` `match_blank_line`. Kind: L -/
theorem matchBlankLine_unread :
    Triple (fun w => w.unread = s) matchBlankLine fun b w => EolTried s b w.unread := by
  suffices h : Triple (fun w => w.unread = s) matchBlankLine fun b w =>
      if b then w.unread.dropWhile isBlankCh = s.dropWhile isBlankCh
      else ∃ c r, s.dropWhile isSpaceCh = c :: r ∧ isEolCh c = false by
    intro w b t hs hrun
    have hpost := h w b t hs hrun
    cases b with
    | true => exact hpost
    | false => exact ⟨((matchBlankLine_completes.returns hrun).unread).trans hs, hpost⟩
  refine Triple.load fun ck => Triple.bind (skipBlankSpace_unread.conseq (fun w h => by rw [h.1])
    fun _ _ h => h) fun _ => ?_
  refine Triple.bind (matchEol_unread.conseq (fun _ h => h.1) fun _ _ h => h) fun eol => ?_
  cases eol with
  | true => exact .ret fun _ h => h.trans (dropWhile_isSpaceCh_isBlankCh s)
  | false =>
      refine Triple.act (M := fun _ _ => ∃ c r, s.dropWhile isSpaceCh = c :: r ∧ isEolCh c = false)
        (fun w h => ?_) fun _ => .ret fun _ h => h
      obtain ⟨-, c, r, hr, hc⟩ := h
      rw [List.dropWhile_idempotent] at hr
      exact ⟨c, r, hr, hc⟩

/-- Source: `esp-parse.c` `skip_blank_lines`. Kind: L -/
theorem skipBlankLines_unread : Triple (fun w => w.unread.dropWhile isBlankCh = s) skipBlankLines
    fun _ w => w.unread.dropWhile isBlankCh = s ∧
      ∃ c r, w.unread.dropWhile isSpaceCh = c :: r ∧ isEolCh c = false := by
  have hblank : Triple (fun w => w.unread.dropWhile isBlankCh = s) matchBlankLine fun b w =>
      w.unread.dropWhile isBlankCh = s ∧
        (b = false → ∃ c r, w.unread.dropWhile isSpaceCh = c :: r ∧ isEolCh c = false) := by
    intro w b t hs hrun
    have hpost := matchBlankLine_unread w b t rfl hrun
    cases b with
    | true => exact ⟨Eq.trans hpost hs, fun h => by simp at h⟩
    | false =>
        obtain ⟨hsame, htext⟩ := hpost
        rw [hsame]
        exact ⟨hs, fun _ => htext⟩
  exact (Triple.whileDo hblank (.ret fun _ h => h.1)).conseq (fun _ h => h)
    fun _ _ h => ⟨h.1, h.2 rfl⟩

/-- **What every matcher starts with** is the text behind the blank lines and blanks.
Source: `esp-parse.c` `match_tok`, `matchv`
Kind: P -/
theorem skipToText_unread {α : Type} {k : Unit → Prog World Stop α} {Q : α → World → Prop}
    (hk : Triple (fun w => w.unread = s.dropWhile isBlankCh) (k ()) Q) :
    Triple (fun w => w.unread = s) (skipBlankLines.bind fun _ => skipBlankSpace.bind k) Q := by
  refine Triple.bind (skipBlankLines_unread.conseq (fun w h => by rw [h]) fun _ _ h => h) fun _ => ?_
  refine Triple.bind (M := fun _ w => w.unread = s.dropWhile isBlankCh) ?_ fun _ => hk
  rintro w _ t ⟨hs, c, r, hr, hc⟩ hrun
  obtain ⟨ht, d, r', hcons, hd⟩ := skipBlankSpace_unread w _ t hr hrun
  rw [List.cons.injEq] at hcons
  rw [← hcons.1] at hd
  rw [ht, ← hs, ← dropWhile_isSpaceCh_isBlankCh, hr,
    List.dropWhile_cons_of_neg (by simp [isBlankCh, hd, hc])]

/-! ## Tokens -/

/-- The characters of the token, as plain `char`s, are the bytes they are in the input.
Source: `esp-parse.c` `match_tok` `*p++ != lex_getc(l)`
Kind: D -/
def Compares (tgt : Target) (tok : List UInt8) : Prop :=
  tgt.charSigned = true → ∀ c ∈ tok, c < 128

/-- `r` does not go on with the word that ends in front of it; `last` is the character in front of
the token. Source: `esp-parse.c` `match_tok` `isalpha(p[-1]) && isalpha(lex_peek(l))`. Kind: D -/
def Whole (last : UInt8) (tok r : List UInt8) : Prop :=
  ∀ d ∈ r.head?, ¬ (isAlpha (tok.getLast?.getD last) = true ∧ isAlpha d = true)

/-- A byte is equal to a `char` if it is that byte and the `char` is not negative.
Source: `esp-parse.c` `match_tok` `*p++ != lex_getc(l)`
Kind: L -/
theorem charEq_iff {c d : UInt8} :
    charEq tgt d c = true ↔ d = c ∧ (tgt.charSigned = true → c < 128) := by
  by_cases hsigned : tgt.charSigned = true
  · by_cases hascii : c < 128
    · rw [charEq_of_ascii hascii, beq_iff_eq]
      exact (and_iff_left fun _ => hascii).symm
    · have hneg : (128 : UInt8) ≤ c := UInt8.not_lt.mp hascii
      have hd := d.toNat_lt
      have hc := c.toNat_lt
      rw [charEq, charVal, hsigned, decide_eq_true hneg, Bool.and_self, if_pos rfl, beq_iff_eq]
      refine iff_of_false (by omega) fun h => hascii (h.2 rfl)
  · rw [Bool.not_eq_true] at hsigned
    rw [charEq, charVal, hsigned, Bool.false_and, if_neg (by simp), beq_iff_eq]
    constructor
    · intro h
      exact ⟨UInt8.toNat_inj.mp (by omega), fun h => by simp at h⟩
    · rintro ⟨rfl, -⟩
      rfl

/-- What the loop of `match_tok` returns, and what it leaves, on the text `s`.
Source: `esp-parse.c` `match_tok`
Kind: D -/
def TokScanned (tgt : Target) (last : UInt8) (tok s : List UInt8) : Bool → List UInt8 → Prop
  | true, r => s = tok ++ r ∧ Compares tgt tok ∧ Whole last tok r
  | false, _ => ∀ r, s = tok ++ r → Compares tgt tok → ¬ Whole last tok r

/-- **The loop of `match_tok`** on every text. Source: `esp-parse.c` `match_tok`. Kind: P -/
theorem tokScan_unread (tok : List UInt8) (last : UInt8) :
    Triple (fun w => w.unread = s) (tokScan tgt tok last) fun b w =>
      TokScanned tgt last tok s b w.unread := by
  induction tok generalizing last s with
  | nil =>
      have hcompares : Compares tgt [] := fun _ _ h => by simp at h
      unfold tokScan
      split
      · next hlast =>
        -- the word ends with the token if no letter follows
        refine Triple.bind lexPeek_unread fun ch => .ret ?_
        rintro w ⟨rfl, r, hr⟩
        rcases hch : isAlpha ch with _ | _
        · refine ⟨rfl, hcompares, fun d hd h => ?_⟩
          rw [hr, List.head?_cons, Option.mem_some_iff] at hd
          rw [hd, h.2] at hch
          exact absurd hch (by decide)
        · intro r' hr' _ hwhole
          refine hwhole ch ?_ ⟨hlast, hch⟩
          rw [← show w.unread = r' from hr', hr]
          rfl
      · next hlast =>
        refine .ret ?_
        rintro w rfl
        exact ⟨rfl, hcompares, fun d _ h => hlast h.1⟩
  | cons c p ih =>
      have hlast : ((c :: p).getLast?.getD last) = p.getLast?.getD c := by
        rw [List.getLast?_cons, Option.getD_some]
      have hcompares : Compares tgt (c :: p) ↔ (tgt.charSigned = true → c < 128) ∧ Compares tgt p := by
        simp only [Compares, List.forall_mem_cons]
        exact forall_and
      refine Triple.bind lexGetc_unread fun ch => ?_
      by_cases hch : charEq tgt ch c = true
      · rw [hch]
        obtain ⟨rfl, hascii⟩ := charEq_iff.mp hch
        rintro w b t rfl hrun
        have hpost := ih ch w b t rfl hrun
        cases b with
        | true =>
            obtain ⟨hw, hp, hwhole⟩ := hpost
            refine ⟨by rw [hw]; rfl, hcompares.mpr ⟨hascii, hp⟩, ?_⟩
            rwa [Whole, hlast]
        | false =>
            intro r hr hp hwhole
            rw [Whole, hlast] at hwhole
            exact hpost r (List.cons.inj hr).2 (hcompares.mp hp).2 hwhole
      · rw [Bool.not_eq_true] at hch
        rw [hch]
        refine .ret ?_
        rintro w rfl r hr hp -
        rw [List.cons_append, List.cons.injEq] at hr
        rw [← Bool.not_eq_true] at hch
        exact hch (charEq_iff.mpr ⟨hr.1, (hcompares.mp hp).1⟩)

/-- Behind the leading blank lines and blanks the stream `s` starts with `tok`, and goes on with `r`,
which does not continue a word that `tok` ends with. Source: `esp-parse.c` `match_tok`. Kind: D -/
structure TokNext (tok s r : List UInt8) : Prop where
  split : s.dropWhile isBlankCh = tok ++ r
  whole : ∀ c ∈ tok.getLast?, ∀ d ∈ r.head?, ¬ (isAlpha c = true ∧ isAlpha d = true)

/-- What `match_tok` should return, and where it should stop. Source: `esp-parse.c` `match_tok`.
Kind: D -/
structure TokResult (tok : List UInt8) (w : World) (b : Bool) (t : World) : Prop where
  one : b = true ↔ ∃ r, TokNext tok w.unread r
  through : b = true → TokNext tok w.unread t.unread

/-- Source: `esp-parse.c` `match_tok`. Kind: L -/
theorem tokNext_iff {tok r : List UInt8} :
    TokNext tok s r ↔ s.dropWhile isBlankCh = tok ++ r ∧ Whole 0 tok r := by
  have hwhole : (∀ c ∈ tok.getLast?, ∀ d ∈ r.head?, ¬ (isAlpha c = true ∧ isAlpha d = true)) ↔
      Whole 0 tok r := by
    rw [Whole]
    rcases tok.getLast? with _ | c
    · simp [show isAlpha 0 = false from rfl]
    · simp
  exact ⟨fun h => ⟨h.split, hwhole.mp h.whole⟩, fun h => ⟨h.1, hwhole.mpr h.2⟩⟩

/-- `match_tok` on every stream. Source: `esp-parse.c` `match_tok`. Kind: P -/
theorem matchTok_unread {tok : List UInt8} {b : Bool} (h : Runs (matchTok tgt tok) w (.ok b) t) :
    if b then TokNext tok w.unread t.unread ∧ Compares tgt tok
    else Compares tgt tok → ∀ r, ¬ TokNext tok w.unread r := by
  have htriple : Triple (fun u => u.unread = w.unread) (matchTok tgt tok) fun b u =>
      if b then TokNext tok w.unread u.unread ∧ Compares tgt tok
      else Compares tgt tok → ∀ r, ¬ TokNext tok w.unread r := by
    refine Triple.load fun ckpt => Triple.conseq (skipToText_unread (s := w.unread) ?_)
      (fun _ h => h.1) fun _ _ h => h
    refine Triple.check fun _ => Triple.bind (tokScan_unread tok 0) fun ok => ?_
    cases ok with
    | true => exact .ret fun u hu => ⟨tokNext_iff.mpr ⟨hu.1, hu.2.2⟩, hu.2.1⟩
    | false =>
        have hno : ∀ u : World,
            TokScanned tgt 0 tok (w.unread.dropWhile isBlankCh) false u.unread →
              Compares tgt tok → ∀ r, ¬ TokNext tok w.unread r := by
          intro u hu hc r hr
          obtain ⟨hsplit, hwhole⟩ := tokNext_iff.mp hr
          exact hu r hsplit hc hwhole
        refine Triple.act (M := fun _ _ => Compares tgt tok → ∀ r, ¬ TokNext tok w.unread r)
          (fun u hu => hno u hu) fun _ => .ret fun _ h => h
  exact htriple w b t rfl h

/-- **A token is matched right** unless it is there and has a character that is negative as a plain
`char`. Source: `esp-parse.c` `match_tok`. Kind: P -/
theorem tokResult_iff {tok : List UInt8} {b : Bool} (h : Runs (matchTok tgt tok) w (.ok b) t) :
    TokResult tok w b t ↔ (Compares tgt tok ∨ ¬ ∃ r, TokNext tok w.unread r) := by
  have hpost := matchTok_unread h
  cases b with
  | true =>
      obtain ⟨hnext, hcompares⟩ := hpost
      exact iff_of_true ⟨iff_of_true rfl ⟨_, hnext⟩, fun _ => hnext⟩ (.inl hcompares)
  | false =>
      constructor
      · intro hres
        right
        intro hnext
        have hone := hres.one.mpr hnext
        simp at hone
      · intro hcond
        have hno : ¬ ∃ r, TokNext tok w.unread r := by
          rcases hcond with hcompares | hno
          · rintro ⟨r, hr⟩
            exact hpost hcompares r hr
          · exact hno
        exact ⟨iff_of_false (by simp) hno, fun h => by simp at h⟩

/-- The loop of `match_tok` reads the token, and looks at the next byte behind a letter.
Source: `esp-parse.c` `match_tok`
Kind: L -/
theorem tokScan_ends {tok r : List UInt8} (last : UInt8) (hr : v.rest = tok ++ r)
    (hcompares : Compares tgt tok) (hwhole : Whole last tok r)
    (hmore : r = [] → isAlpha (tok.getLast?.getD last) = false) :
    Ends Reads (tokScan tgt tok last) v (.ok true) (· = v.seek r) := by
  induction tok generalizing v last with
  | nil =>
      have hstay : v.seek r = v := by rw [← show v.rest = r from hr, View.seek_self]
      rw [hstay]
      unfold tokScan
      split
      · next hlast =>
        rcases r with _ | ⟨d, r⟩
        · have hno : isAlpha last = false := hmore rfl
          rw [hlast] at hno
          simp at hno
        · have hd : isAlpha d = false := by
            rw [← Bool.not_eq_true]
            exact fun hd => hwhole d rfl ⟨hlast, hd⟩
          refine (lexPeek_ends (show v.rest = d :: r from hr)).seq ?_
          rw [hd]
          exact .ret rfl
      · exact .ret rfl
  | cons c p ih =>
      have hlast : (c :: p).getLast?.getD last = p.getLast?.getD c := by
        rw [List.getLast?_cons, Option.getD_some]
      rw [hlast] at hmore
      rw [Whole, hlast] at hwhole
      have hc : charEq tgt c c = true :=
        charEq_iff.mpr ⟨rfl, fun h => hcompares h c List.mem_cons_self⟩
      refine (lexGetc_ends (show v.rest = c :: (p ++ r) from hr)).seq ?_
      rw [hc]
      refine ih (v := v.seek (p ++ r)) c rfl (fun h x hx => ?_) hwhole hmore
      exact hcompares h x (List.mem_cons_of_mem c hx)

/-- `match_tok` returns 1 at its token, once the byte behind a letter is there.
Source: `esp-parse.c` `match_tok`
Kind: P -/
theorem matchTok_ends {tok r : List UInt8} (hne : tok ≠ []) (hnext : TokNext tok v.rest r)
    (hcompares : Compares tgt tok) (hmore : r = [] → ∀ c ∈ tok.getLast?, isAlpha c = false) :
    Ends Reads (matchTok tgt tok) v (.ok true) (· = v.seek r) := by
  obtain ⟨hsplit, hwhole⟩ := tokNext_iff.mp hnext
  obtain ⟨c, p, rfl⟩ := List.exists_cons_of_ne_nil hne
  refine lexGetCkpt_ends fun _ => skipToText_ends hsplit (cAssert_ends (by simp) ?_)
  refine (tokScan_ends (v := v.seek (c :: p ++ r)) 0 rfl hcompares hwhole fun h => ?_).seq (.ret rfl)
  have hlast := hmore h
  rw [List.getLast?_cons] at hlast ⊢
  exact hlast _ rfl

/-! ## The matchers -/

/-- **Failed matches do not consume input, and a token matches where it is.** From every state of
the lexer: every matcher that returns 0 consumes nothing. `match_tok` returns 1 exactly where the
stream has the token next, as a whole word, and then consumes exactly through it, unless the token
is there and one of its characters is negative as a plain `char`. Where the bytes are there that it
looks at, it returns.
Source: `esp-parse.c` `match_tok`, `matchv`, `match_blank_line`
Kind: P -/
theorem match_restores_iff (tgt : Target) (tok fmt : List UInt8) (va : Nat → Ptr) (w : World) :
    FailsClean tgt tok fmt va w ∧
    (∀ b t, Runs (matchTok tgt tok) w (.ok b) t →
      (TokResult tok w b t ↔ (Compares tgt tok ∨ ¬ ∃ r, TokNext tok w.unread r))) ∧
    ∀ v r, Reads v w → tok ≠ [] → TokNext tok v.rest r → Compares tgt tok →
      (r = [] → ∀ c ∈ tok.getLast?, isAlpha c = false) →
      ∃ t, Runs (matchTok tgt tok) w (.ok true) t := by
  refine ⟨failsClean tgt tok fmt va w, fun b t h => tokResult_iff h, ?_⟩
  intro v r hw hne hnext hcompares hmore
  obtain ⟨t, hrun, -⟩ := matchTok_ends hne hnext hcompares hmore w hw
  exact ⟨t, hrun⟩

/-- A prompt behind a blank line, cut in front of its space. Source: `esp-commands.c`
`match_tok(e->l, ">")`. Kind: L -/
theorem match_restores_prompt : ∃ t,
    Runs (matchTok .unix (cstr "> ")) (start [cstr "\r\n >", cstr " OK\r\n"] espMk) (.ok true) t :=
  (match_restores_iff .unix (cstr "> ") [] (fun _ => .user 9)
    (start [cstr "\r\n >", cstr " OK\r\n"] espMk)).2.2 _ (cstr "OK\r\n")
    (start_reads (by decide) (by decide) espMk) (by decide)
    (tokNext_iff.mpr ⟨by decide, fun _ _ h => absurd h.1 (by decide)⟩) (fun _ => by decide)
    (fun h => absurd h (by decide))

/-- **A token that is there and does not match**: as a plain `char` of x86-64, the first byte of an
`é` is -61, and the byte that is read is 195. Source: `esp-parse.c` `match_tok`. Kind: P -/
theorem match_restores_accent : TokNext [195, 169] (start [[195, 169, 13, 10]] espMk).unread [13, 10] ∧
    ∃ t, Runs (matchTok .unix [195, 169]) (start [[195, 169, 13, 10]] espMk) (.ok false) t ∧
      ¬ TokResult [195, 169] (start [[195, 169, 13, 10]] espMk) false t := by
  have hnext : TokNext [195, 169] (start [[195, 169, 13, 10]] espMk).unread [13, 10] :=
    tokNext_iff.mpr ⟨by decide, fun _ _ h => absurd h.1 (by decide)⟩
  have hstart : Reads ⟨[[195, 169, 13, 10]].flatten, [[195, 169, 13, 10]].flatten, espMk⟩
      (start [[195, 169, 13, 10]] espMk) := start_reads (by decide) (by decide) espMk
  have hends : Ends Reads (matchTok .unix [195, 169])
      ⟨[[195, 169, 13, 10]].flatten, [[195, 169, 13, 10]].flatten, espMk⟩ (.ok false)
      fun _ => True := by
    refine lexGetCkpt_ends fun hsuf => skipToText_ends (c := 195) (r := [169, 13, 10]) rfl
      (cAssert_ends rfl ?_)
    refine Ends.seq (a := false) ((lexGetc_ends rfl).seq (.ret rfl)) ?_
    exact lexRestoreCkpt_ends hsuf ⟨rfl, by decide⟩ (.ret trivial)
  obtain ⟨t, hrun, -⟩ := hends _ hstart
  refine ⟨hnext, t, hrun, fun hres => ?_⟩
  have hone := hres.one.mpr ⟨_, hnext⟩
  simp at hone

end Cs140e.Esp
