import Cs140e.Esp.LexView

/-!
# Runs of the lexer's own operations

A `Session` is a lexer in use: its world, and as history the chunks received so far and the
checkpoints taken. A run calls `lex_getc`, `lex_peek`, `lex_readin`, `lex_push_n`, `lex_get_ckpt`
and `lex_restore_ckpt` in any order; what is restored is any checkpoint taken before.

* `SessionStep.fresh` — what one call receives, and what it does to buffer and position.
* `SessionRun.ok` — the invariant: the buffer is what was received, and holds the position and
  every checkpoint.
* `SessionRun.gets` — without going back, `lex_getc` returns the buffer from the position on.
* `session_replays` — all of it for any run, and what a rollback replays.
-/

namespace Cs140e.Esp

open Cs140e.Lib Cs140e.Lib.Prog

/-! ## Sessions -/

/-- A call of the lexer. Source: `esp-lex-simple.h`, `esp-lex.c`. Kind: D -/
inductive LexCall where
  | getc
  | peek
  | readin
  | pushN (buf : List UInt8)
  | getCkpt
  | restoreCkpt (ck : Nat)

/-- What a call returns. Source: `esp-lex-simple.h`, `esp-lex.c`. Kind: D -/
inductive LexRet where
  | byte (c : UInt8)
  | count (n : Nat)
  | ckpt (ck : Nat)
  | unit

/-- The call itself. Source: `esp-lex-simple.h`, `esp-lex.c`. Kind: D -/
def LexCall.run : LexCall → Prog World Stop LexRet
  | getc => do return .byte (← lexGetc)
  | peek => do return .byte (← lexPeek)
  | readin => do return .count (← lexReadin)
  | pushN buf => do
    lexPushN buf
    return .unit
  | getCkpt => do return .ckpt (← lexGetCkpt)
  | restoreCkpt ck => do
    lexRestoreCkpt ck
    return .unit

/-- What the caller hands in. Source: `esp-lex-simple.h` `lex_push_n`. Kind: D -/
def LexCall.pushed : LexCall → List (List UInt8)
  | pushN buf => [buf]
  | _ => []

/-- What a call adds to the checkpoints. Source: `esp-lex-simple.h` `lex_get_ckpt`. Kind: D -/
def LexRet.ckpts : LexRet → List Nat
  | ckpt ck => [ck]
  | _ => []

/-- A lexer in use. Source: `esp-lex-simple.h` `lex_t`. Kind: D -/
structure Session where
  world : World
  /-- History: the chunks received, oldest first. -/
  received : List (List UInt8)
  /-- History: the checkpoints taken, oldest first. -/
  ckpts : List Nat

/-- A fresh lexer. Source: `esp-lex-simple.c` `lex_init_simple`. Kind: D -/
def Session.start (input : List (List UInt8)) (host : Host) : Session :=
  ⟨Esp.start input host, [], []⟩

/-- The chunks that were read off the device between two worlds. Source: `libesp.h` `esp_read`.
Kind: D -/
def taken (w w' : World) : List (List UInt8) :=
  w.lex.input.take (w.lex.input.length - w'.lex.input.length)

/-- A call that returns. Source: `esp-lex-simple.h`, `esp-lex.c`. Kind: D -/
structure SessionStep (s : Session) (call : LexCall) (r : LexRet) (s' : Session) : Prop where
  /-- Only what was taken before is restored. -/
  earlier : ∀ ck, call = .restoreCkpt ck → ck ∈ s.ckpts
  runs : Runs call.run s.world (.ok r) s'.world
  received : s'.received = s.received ++ taken s.world s'.world ++ call.pushed
  ckpts : s'.ckpts = s.ckpts ++ r.ckpts

/-- A run, with what was called and what it returned. Source: none: infrastructure. Kind: D -/
inductive SessionRun : Session → List (LexCall × LexRet) → Session → Prop
  | nil (s : Session) : SessionRun s [] s
  | cons {s s₁ s₂ : Session} {call : LexCall} {r : LexRet} {t : List (LexCall × LexRet)}
      (step : SessionStep s call r s₁) (run : SessionRun s₁ t s₂) : SessionRun s ((call, r) :: t) s₂

/-- The bytes that `lex_getc` returned. Source: `esp-lex-simple.c` `lex_getc_simple`. Kind: D -/
def gets (t : List (LexCall × LexRet)) : List UInt8 :=
  t.filterMap fun
    | (.getc, .byte c) => some c
    | _ => none

/-- No checkpoint is restored. Source: `esp-lex-simple.h` `lex_restore_ckpt`. Kind: D -/
def Forwards (t : List (LexCall × LexRet)) : Prop := ∀ e ∈ t, ∀ ck, e.1 ≠ .restoreCkpt ck

variable {s s' s₁ s₂ : Session} {w w' : World} {call : LexCall} {r : LexRet} {c : UInt8}
  {t : List (LexCall × LexRet)}

/-! ## What one call does -/

/-- There is a byte at the position: buffered before, or in the one chunk that was read.
Source: `esp-lex-simple.c` `lex_getc_simple`, `lex_peek_simple`
Kind: D -/
inductive Filled (w : World) : List (List UInt8) → World → Prop
  | buffered (h : w.lex.pos < w.lex.stream.length) : Filled w [] w
  | chunk {b : List UInt8} {bs : List (List UInt8)} (hpos : w.lex.pos = w.lex.stream.length)
      (hin : w.lex.input = b :: bs) (hb : b ≠ []) :
      Filled w [b] { w with lex := ⟨w.lex.pos, w.lex.stream ++ b, bs⟩ }

/-- An overrun position stops every read. Source: `esp-lex-simple.h` `lex_empty`. Kind: L -/
theorem runs_lexEmpty_over {α : Type} {k : Bool → Prog World Stop α} {a : α}
    (h : ¬ w.lex.pos ≤ w.lex.stream.length) : ¬ Runs (lexEmpty.bind k) w (.ok a) w' := by
  simp [lexEmpty, cAssert, check, seq_seq, h]

/-- Source: `esp-lex-simple.c` `lex_getc_simple`. Kind: L -/
theorem lexFill_filled (h : Runs lexFill w (.ok ()) w') : ∃ fresh, Filled w fresh w' := by
  by_cases hle : w.lex.pos ≤ w.lex.stream.length
  · by_cases hpos : w.lex.pos = w.lex.stream.length
    · simp only [lexFill, bind_eq_seq, runs_lexEmpty_iff hle, hpos, beq_self_eq_true, if_true] at h
      rcases runs_bind_iff.mp h with ⟨n, u, hread, hrest⟩ | ⟨e, he, -⟩
      · obtain ⟨-, b, bs, hin, hb, -, -, rfl⟩ := lexReadin_ok hread
        have hle' : w.lex.pos ≤ (w.lex.stream ++ b).length := by
          rw [List.length_append]
          omega
        rw [runs_lexEmpty_iff hle'] at hrest
        simp only [cAssert, check] at hrest
        split at hrest
        · obtain ⟨-, rfl⟩ := runs_ret_iff.mp hrest
          exact ⟨[b], .chunk hpos hin hb⟩
        · cases (runs_raise_iff.mp hrest).1
      · cases he
    · have hlt : w.lex.pos < w.lex.stream.length := Nat.lt_of_le_of_ne hle hpos
      obtain ⟨-, rfl⟩ := h.det (lexFill_buffered hlt)
      exact ⟨[], .buffered hlt⟩
  · exact absurd h (runs_lexEmpty_over hle)

namespace Filled

variable {fresh : List (List UInt8)}

/-- Source: `esp-lex.c` `lex_readin`. Kind: L -/
theorem stream_eq (h : Filled w fresh w') : w'.lex.stream = w.lex.stream ++ fresh.flatten := by
  cases h with
  | buffered h => rw [List.flatten_nil, List.append_nil]
  | chunk hpos hin hb => rw [List.flatten_singleton]

/-- Source: `esp-lex.c` `lex_readin`. Kind: L -/
theorem pos_eq (h : Filled w fresh w') : w'.lex.pos = w.lex.pos := by
  cases h <;> rfl

/-- Source: `esp-lex-simple.c` `lex_getc_simple`. Kind: L -/
theorem lt (h : Filled w fresh w') : w'.lex.pos < w'.lex.stream.length := by
  cases h with
  | buffered h => exact h
  | chunk hpos hin hb =>
      show w.lex.pos < (w.lex.stream ++ _).length
      rw [List.length_append, hpos]
      exact Nat.lt_add_of_pos_right (List.length_pos_iff.mpr hb)

/-- Source: `libesp.h` `esp_read`. Kind: L -/
theorem input_eq (h : Filled w fresh w') : w.lex.input = fresh ++ w'.lex.input := by
  cases h with
  | buffered h => rfl
  | chunk hpos hin hb => exact hin

end Filled

/-- The chunks read are those in front of what is left. Source: `libesp.h` `esp_read`. Kind: L -/
theorem taken_eq {fresh : List (List UInt8)} (h : w.lex.input = fresh ++ w'.lex.input) :
    taken w w' = fresh := by
  unfold taken
  rw [h, List.length_append, Nat.add_sub_cancel, List.take_left]

/-- Source: `esp-lex-simple.c` `lex_getc_simple`. Kind: L -/
theorem lexGetc_filled (h : Runs lexGetc w (.ok c) w') : ∃ fresh u, Filled w fresh u ∧
    u.lex.stream[u.lex.pos]? = some c ∧
      w' = { u with lex := { u.lex with pos := u.lex.pos + 1 } } := by
  rcases runs_bind_iff.mp h with ⟨_, u, hfill, hread⟩ | ⟨e, he, -⟩
  · obtain ⟨fresh, hfilled⟩ := lexFill_filled hfill
    obtain ⟨hc, rfl⟩ := runs_ret_iff.mp (runs_act_iff.mp hread)
    refine ⟨fresh, u, hfilled, ?_, rfl⟩
    rw [Except.ok.inj hc, List.getD_eq_getElem?_getD, List.getElem?_eq_getElem hfilled.lt,
      Option.getD_some]
  · cases he

/-- Source: `esp-lex-simple.c` `lex_peek_simple`. Kind: L -/
theorem lexPeek_filled (h : Runs lexPeek w (.ok c) w') : ∃ fresh, Filled w fresh w' ∧
    w'.lex.stream[w'.lex.pos]? = some c := by
  rcases runs_bind_iff.mp h with ⟨_, u, hfill, hread⟩ | ⟨e, he, -⟩
  · obtain ⟨fresh, hfilled⟩ := lexFill_filled hfill
    obtain ⟨hc, rfl⟩ := runs_ret_iff.mp (runs_act_iff.mp hread)
    refine ⟨fresh, hfilled, ?_⟩
    show _ = some c
    rw [Except.ok.inj hc]
    show _ = some (w'.lex.stream.getD w'.lex.pos 0)
    rw [List.getD_eq_getElem?_getD, List.getElem?_eq_getElem hfilled.lt, Option.getD_some]
  · cases he

/-- Source: `esp-lex-simple.h` `lex_push_n`. Kind: L -/
theorem lexPushN_ok {buf : List UInt8} (h : Runs (lexPushN buf) w (.ok ()) w') :
    w' = { w with lex := { w.lex with stream := w.lex.stream ++ buf } } := by
  simp only [lexPushN, bind_eq_seq, cAssert, check] at h
  split at h
  · rw [ret_bind, runs_load_bind_iff] at h
    split at h
    · exact (runs_ret_iff.mp (runs_act_iff.mp h)).2
    · cases (runs_raise_iff.mp h).1
  · cases (runs_raise_iff.mp h).1

/-- Where a call leaves the position. Source: `esp-lex-simple.h`, `esp-lex-simple.c`. Kind: D -/
def LexCall.goes : LexCall → Nat → Nat
  | getc, pos => pos + 1
  | restoreCkpt ck, _ => ck
  | _, pos => pos

/-- `lex_getc` and `lex_peek` read a chunk only from an exhausted buffer, and then one.
Source: `esp-lex-simple.c` `lex_getc_simple`, `lex_peek_simple`
Kind: D -/
inductive Lazy (w w' : World) : List (List UInt8) → Prop
  | buffered (h : w.lex.pos < w.lex.stream.length) (hin : w'.lex.input = w.lex.input) : Lazy w w' []
  | chunk {b : List UInt8} (hpos : w.lex.pos = w.lex.stream.length)
      (hin : w.lex.input = b :: w'.lex.input) (hb : b ≠ []) : Lazy w w' [b]

/-- Source: `esp-lex-simple.c` `lex_getc_simple`, `lex_peek_simple`. Kind: L -/
theorem Filled.lazy {fresh : List (List UInt8)} {u : World} (h : Filled w fresh u)
    (hin : w'.lex.input = u.lex.input) : Lazy w w' fresh := by
  cases h with
  | buffered hlt => exact .buffered hlt hin
  | chunk hpos hcs hb => exact .chunk hpos (hin ▸ hcs) hb

/-- What a call that returns has done, with the chunks it received.
Source: `esp-lex-simple.h`, `esp-lex-simple.c`, `esp-lex.c`
Kind: D -/
structure Effect (s : Session) (call : LexCall) (r : LexRet) (s' : Session)
    (fresh : List (List UInt8)) : Prop where
  received : s'.received = s.received ++ fresh
  stream : s'.world.lex.stream = s.world.lex.stream ++ fresh.flatten
  pos : s'.world.lex.pos = call.goes s.world.lex.pos
  byte : ∀ c, r = .byte c → s'.world.lex.stream[s.world.lex.pos]? = some c
  isByte : call = .getc → ∃ c, r = .byte c
  lazily : call = .getc ∨ call = .peek → Lazy s.world s'.world fresh
  isCkpt : ∀ ck ∈ r.ckpts, ck = s.world.lex.pos

/-- A call that serves no byte. Source: `esp-lex-simple.h`. Kind: L -/
theorem Effect.quiet {fresh : List (List UInt8)} (hreceived : s'.received = s.received ++ fresh)
    (hstream : s'.world.lex.stream = s.world.lex.stream ++ fresh.flatten)
    (hpos : s'.world.lex.pos = call.goes s.world.lex.pos) (hget : call ≠ .getc)
    (hpeek : call ≠ .peek) (hr : ∀ c, r ≠ .byte c) (hck : ∀ ck ∈ r.ckpts, ck = s.world.lex.pos) :
    Effect s call r s' fresh :=
  ⟨hreceived, hstream, hpos, fun c h => absurd h (hr c), fun h => absurd h hget,
    fun h => h.elim (absurd · hget) (absurd · hpeek), hck⟩

/-- A call that serves a byte. Source: `esp-lex-simple.c`. Kind: L -/
theorem Effect.serves {fresh : List (List UInt8)} {u : World} (h : Filled s.world fresh u)
    (hlex : s'.world.lex = { u.lex with pos := s'.world.lex.pos })
    (hbyte : u.lex.stream[u.lex.pos]? = some c)
    (hreceived : s'.received = s.received ++ taken s.world s'.world)
    (hpos : s'.world.lex.pos = call.goes s.world.lex.pos) :
    Effect s call (.byte c) s' fresh := by
  have hin : s'.world.lex.input = u.lex.input := by rw [hlex]
  have hstream : s'.world.lex.stream = u.lex.stream := by rw [hlex]
  rw [taken_eq (hin ▸ h.input_eq)] at hreceived
  refine ⟨hreceived, hstream.trans h.stream_eq, hpos, ?_, fun _ => ⟨c, rfl⟩,
    fun _ => h.lazy hin, fun _ hck => by cases hck⟩
  rintro _ ⟨⟩
  rw [hstream, ← h.pos_eq]
  exact hbyte

/-- A call that returns nothing but what `f` makes of a result. Source: none: infrastructure.
Kind: L -/
theorem runs_return {α : Type} {p : Prog World Stop α} {f : α → LexRet}
    (h : Runs (p.bind fun a => ret (f a)) w (.ok r) w') : ∃ a, r = f a ∧ Runs p w (.ok a) w' := by
  rcases runs_bind_iff.mp h with ⟨a, u, hp, hret⟩ | ⟨e, he, -⟩
  · obtain ⟨hr, rfl⟩ := runs_ret_iff.mp hret
    exact ⟨a, Except.ok.inj hr, hp⟩
  · cases he

/-- **What one call does.** Source: `esp-lex-simple.h`, `esp-lex-simple.c`, `esp-lex.c`. Kind: P -/
theorem SessionStep.effect (h : SessionStep s call r s') : ∃ fresh, Effect s call r s' fresh := by
  have hreceived := h.received
  cases call with
  | getc =>
      obtain ⟨c, rfl, hget⟩ := runs_return h.runs
      obtain ⟨fresh, u, hfilled, hbyte, hw⟩ := lexGetc_filled hget
      rw [show LexCall.getc.pushed = [] from rfl, List.append_nil] at hreceived
      refine ⟨fresh, .serves hfilled (by rw [hw]) hbyte hreceived ?_⟩
      rw [hw]
      exact congrArg (· + 1) hfilled.pos_eq
  | peek =>
      obtain ⟨c, rfl, hpeek⟩ := runs_return h.runs
      obtain ⟨fresh, hfilled, hbyte⟩ := lexPeek_filled hpeek
      rw [show LexCall.peek.pushed = [] from rfl, List.append_nil] at hreceived
      exact ⟨fresh, .serves hfilled rfl hbyte hreceived hfilled.pos_eq⟩
  | readin =>
      obtain ⟨n, rfl, hread⟩ := runs_return h.runs
      obtain ⟨-, b, bs, hin, -, -, -, hw⟩ := lexReadin_ok hread
      have hin' : s.world.lex.input = [b] ++ s'.world.lex.input := by
        rw [hin, hw]
        rfl
      rw [show LexCall.readin.pushed = [] from rfl, List.append_nil, taken_eq hin'] at hreceived
      refine ⟨[b], .quiet hreceived ?_ ?_ nofun nofun nofun nofun⟩
      · rw [hw, List.flatten_singleton]
      · rw [hw]
        rfl
  | pushN buf =>
      obtain ⟨_, rfl, hpush⟩ := runs_return h.runs
      have hw := lexPushN_ok hpush
      have hin : s.world.lex.input = [] ++ s'.world.lex.input := by
        rw [hw]
        rfl
      rw [taken_eq hin, List.append_nil] at hreceived
      refine ⟨[buf], .quiet hreceived ?_ ?_ nofun nofun nofun nofun⟩
      · rw [hw, List.flatten_singleton]
      · rw [hw]
        rfl
  | getCkpt =>
      obtain ⟨ck, rfl, hload⟩ := runs_return h.runs
      obtain ⟨hck, hw⟩ := runs_ret_iff.mp (runs_act_iff.mp hload)
      have hw : s'.world = s.world := hw
      rw [show LexCall.getCkpt.pushed = [] from rfl, List.append_nil,
        taken_eq (show s.world.lex.input = [] ++ s'.world.lex.input by rw [hw]; rfl)] at hreceived
      refine ⟨[], .quiet hreceived ?_ ?_ nofun nofun nofun fun ck' hck' => ?_⟩
      · rw [hw, List.flatten_nil, List.append_nil]
      · rw [hw]
        rfl
      · rw [List.mem_singleton.mp hck']
        exact Except.ok.inj hck
  | restoreCkpt ck =>
      obtain ⟨_, rfl, hstore⟩ := runs_return h.runs
      have hw := (runs_ret_iff.mp (runs_act_iff.mp hstore)).2
      rw [show (LexCall.restoreCkpt ck).pushed = [] from rfl, List.append_nil,
        taken_eq (show s.world.lex.input = [] ++ s'.world.lex.input by rw [hw]; rfl)] at hreceived
      refine ⟨[], .quiet hreceived ?_ ?_ nofun nofun nofun nofun⟩
      · rw [hw, List.flatten_nil, List.append_nil]
      · rw [hw]
        rfl

/-! ## Whole runs -/

/-- **The invariant**: the buffer is what was received, and holds the position and the checkpoints.
Source: `esp-lex-simple.h` `lex_t`, `lex_empty`
Kind: D -/
structure Session.Ok (s : Session) : Prop where
  pos_le : s.world.lex.pos ≤ s.world.lex.stream.length
  stream : s.world.lex.stream = s.received.flatten
  ckpts : ∀ ck ∈ s.ckpts, ck ≤ s.world.lex.stream.length

/-- Source: `esp-lex-simple.c` `lex_init_simple`. Kind: L -/
theorem Session.start_ok (input : List (List UInt8)) (host : Host) : (Session.start input host).Ok :=
  ⟨Nat.le_refl 0, rfl, nofun⟩

/-- **Every call keeps it.** Source: `esp-lex-simple.h`, `esp-lex-simple.c`, `esp-lex.c`.
Kind: P -/
theorem SessionStep.ok (h : SessionStep s call r s') (hs : s.Ok) : s'.Ok := by
  obtain ⟨fresh, heff⟩ := h.effect
  have hgrow : s.world.lex.stream.length ≤ s'.world.lex.stream.length := by
    rw [heff.stream, List.length_append]
    exact Nat.le_add_right _ _
  refine ⟨?_, ?_, fun ck hck => ?_⟩
  · rw [heff.pos]
    cases call with
    | getc =>
        obtain ⟨c, rfl⟩ := heff.isByte rfl
        exact (List.getElem?_eq_some_iff.mp (heff.byte c rfl)).1
    | restoreCkpt ck => exact Nat.le_trans (hs.ckpts ck (h.earlier ck rfl)) hgrow
    | peek | readin | pushN _ | getCkpt => exact Nat.le_trans hs.pos_le hgrow
  · rw [heff.stream, heff.received, hs.stream, List.flatten_append]
  · rw [h.ckpts] at hck
    rcases List.mem_append.mp hck with hold | hnew
    · exact Nat.le_trans (hs.ckpts ck hold) hgrow
    · rw [heff.isCkpt ck hnew]
      exact Nat.le_trans hs.pos_le hgrow

/-- Source: `esp-lex-simple.h` `lex_t`. Kind: P -/
theorem SessionRun.ok (h : SessionRun s t s') (hs : s.Ok) : s'.Ok := by
  induction h with
  | nil s => exact hs
  | cons step _ ih => exact ih (step.ok hs)

/-- The buffer only grows. Source: `esp-lex-simple.h` `lex_push_n`. Kind: L -/
theorem SessionRun.stream_prefix (h : SessionRun s t s') :
    s.world.lex.stream <+: s'.world.lex.stream := by
  induction h with
  | nil s => exact List.prefix_refl _
  | cons step _ ih =>
      obtain ⟨fresh, heff⟩ := step.effect
      apply List.IsPrefix.trans _ ih
      rw [heff.stream]
      exact List.prefix_append _ _

/-- What comes next in a list that has `c` there. Source: none: infrastructure. Kind: L -/
theorem drop_eq_cons {l : List UInt8} {n : Nat} (h : l[n]? = some c) :
    l.drop n = c :: l.drop (n + 1) := by
  obtain ⟨hlt, rfl⟩ := List.getElem?_eq_some_iff.mp h
  exact List.drop_eq_getElem_cons hlt

/-- Source: none: infrastructure. Kind: L -/
theorem drop_prefix_drop {l l' : List UInt8} {n : Nat} (h : l <+: l') : l.drop n <+: l'.drop n := by
  obtain ⟨more, rfl⟩ := h
  rw [List.drop_append]
  exact List.prefix_append _ _

/-- **Without going back**, `lex_getc` returns the buffer from the position on, byte for byte.
Source: `esp-lex-simple.c` `lex_getc_simple`
Kind: P -/
theorem SessionRun.gets (h : SessionRun s t s') (hs : s.Ok) (ht : Forwards t) :
    gets t <+: s'.world.lex.stream.drop s.world.lex.pos ∧
      s'.world.lex.pos = s.world.lex.pos + (Esp.gets t).length := by
  induction h with
  | nil s => exact ⟨List.nil_prefix, rfl⟩
  | @cons s s₁ s₂ call r t step run ih =>
      obtain ⟨fresh, heff⟩ := step.effect
      obtain ⟨hpre, hpos⟩ := ih (step.ok hs) fun e he => ht e (List.mem_cons_of_mem _ he)
      have hgoes := heff.pos
      cases call with
      | getc =>
          obtain ⟨c, rfl⟩ := heff.isByte rfl
          have hbyte : s₂.world.lex.stream[s.world.lex.pos]? = some c := by
            obtain ⟨more, hmore⟩ := run.stream_prefix
            have hc := heff.byte c rfl
            rw [← hmore, List.getElem?_append_left (List.getElem?_eq_some_iff.mp hc).1]
            exact hc
          have hgets : Esp.gets ((.getc, .byte c) :: t) = c :: Esp.gets t := rfl
          rw [hgets, drop_eq_cons hbyte, List.length_cons]
          rw [show s₁.world.lex.pos = s.world.lex.pos + 1 from hgoes] at hpre hpos
          refine ⟨(List.prefix_cons_inj c).mpr hpre, ?_⟩
          omega
      | restoreCkpt ck => exact absurd rfl (ht _ List.mem_cons_self ck)
      | peek | readin | pushN _ | getCkpt =>
          rw [show s₁.world.lex.pos = s.world.lex.pos from hgoes] at hpre hpos
          exact ⟨hpre, hpos⟩

/-- Bytes that are buffered are read without receiving anything.
Source: `esp-lex-simple.c` `lex_getc_simple`
Kind: L -/
theorem gets_again (bs : List UInt8) (s : Session)
    (h : bs <+: s.world.lex.stream.drop s.world.lex.pos) :
    ∃ s', SessionRun s (bs.map fun c => (.getc, .byte c)) s' ∧ s'.received = s.received := by
  induction bs generalizing s with
  | nil => exact ⟨s, .nil s, rfl⟩
  | cons c bs ih =>
      obtain ⟨more, hmore⟩ := h
      have hlt : s.world.lex.pos < s.world.lex.stream.length := by
        by_contra hge
        rw [List.drop_eq_nil_of_le (Nat.le_of_not_lt hge)] at hmore
        cases hmore
      rw [List.drop_eq_getElem_cons hlt, List.cons_append, List.cons.injEq] at hmore
      obtain ⟨hc, hmore⟩ := hmore
      have hget : s.world.lex.stream.getD s.world.lex.pos 0 = c := by
        rw [List.getD_eq_getElem?_getD, List.getElem?_eq_getElem hlt, Option.getD_some, hc]
      let u : World := { s.world with lex := { s.world.lex with pos := s.world.lex.pos + 1 } }
      have hrun : Runs lexGetc s.world (.ok c) u := by
        apply (lexFill_buffered hlt).bind
        exact runs_act_iff.mpr (runs_ret_iff.mpr ⟨congrArg Except.ok hget.symm, rfl⟩)
      have hreceived : s.received = s.received ++ taken s.world u ++ LexCall.getc.pushed := by
        rw [taken_eq (show s.world.lex.input = [] ++ u.lex.input from rfl), List.append_nil]
        exact (List.append_nil _).symm
      have hstep : SessionStep s .getc (.byte c) ⟨u, s.received, s.ckpts⟩ :=
        ⟨nofun, hrun.bind .ret, hreceived, (List.append_nil _).symm⟩
      obtain ⟨s', hrun', hsame⟩ := ih ⟨u, s.received, s.ckpts⟩ ⟨more, hmore⟩
      exact ⟨s', .cons hstep hrun', hsame⟩

/-- A byte that is there is served, and a call for one that is not waits.
Source: `esp-lex-simple.c` `lex_getc_simple`, `lex_peek_simple`
Kind: L -/
theorem Session.Ok.progress (hs : s.Ok) (hcall : call = .getc ∨ call = .peek)
    (hne : ∀ b ∈ s.world.lex.input, b ≠ [])
    (hsmall : s.received.flatten.length + s.world.lex.input.flatten.length < lexMaxbuf) :
    if s.world.unread = [] then ∃ w', Runs call.run s.world (.error .block) w'
    else ∃ c s', SessionStep s call (.byte c) s' := by
  have hreads : Reads ⟨s.world.lex.stream ++ s.world.lex.input.flatten, s.world.unread, s.world.host⟩
      s.world := by
    refine ⟨rfl, hs.pos_le, rfl, hne, ?_, rfl⟩
    rw [List.length_append, hs.stream]
    exact hsmall
  split
  case isTrue h =>
    rcases hcall with rfl | rfl
    · obtain ⟨w', hrun, -⟩ := (lexGetc_block h).bind_error s.world hreads
      exact ⟨w', hrun⟩
    · obtain ⟨w', hrun, -⟩ := (lexPeek_block h).bind_error s.world hreads
      exact ⟨w', hrun⟩
  case isFalse h =>
    obtain ⟨c, r, hr⟩ := List.exists_cons_of_ne_nil h
    have hserved : ∃ w', Runs call.run s.world (.ok (.byte c)) w' := by
      rcases hcall with rfl | rfl
      · obtain ⟨w', hrun, -⟩ := lexGetc_ends hr s.world hreads
        exact ⟨w', hrun.bind .ret⟩
      · obtain ⟨w', hrun, -⟩ := lexPeek_ends hr s.world hreads
        exact ⟨w', hrun.bind .ret⟩
    obtain ⟨w', hrun⟩ := hserved
    refine ⟨c, ⟨w', s.received ++ taken s.world w' ++ call.pushed, s.ckpts ++ []⟩, ?_, hrun, rfl, rfl⟩
    rcases hcall with rfl | rfl <;> exact nofun

/-- **No byte is lost or repeated**, in any run of the lexer's operations. The buffer is what was
received and holds the position; a byte is number `pos` of what was received, and a chunk is read only
when nothing is buffered; after going back to a checkpoint the bytes that followed it are there to
be read again, without receiving any, and nothing else is read.
Source: `esp-lex-simple.h`, `esp-lex-simple.c`, `esp-lex.c`
Kind: P -/
theorem session_replays (input : List (List UInt8)) (host : Host) (s : Session)
    (t : List (LexCall × LexRet)) (h : SessionRun (.start input host) t s) :
    s.world.lex.pos ≤ s.world.lex.stream.length ∧ s.world.lex.stream = s.received.flatten ∧
    (∀ call, call = .getc ∨ call = .peek →
      (∀ c s', SessionStep s call (.byte c) s' →
        s'.received.flatten[s.world.lex.pos]? = some c ∧
        s'.world.lex.pos = call.goes s.world.lex.pos ∧
        ∃ fresh, s'.received = s.received ++ fresh ∧ Lazy s.world s'.world fresh) ∧
      ((∀ b ∈ s.world.lex.input, b ≠ []) →
        s.received.flatten.length + s.world.lex.input.flatten.length < lexMaxbuf →
        if s.world.unread = [] then ∃ w', Runs call.run s.world (.error .block) w'
        else ∃ c s', SessionStep s call (.byte c) s')) ∧
    ∀ ck s₁ t₁ s₂ t₂ s₃ s₄, SessionStep s .getCkpt (.ckpt ck) s₁ → SessionRun s₁ t₁ s₂ →
      Forwards t₁ → SessionRun s₂ t₂ s₃ → SessionStep s₃ (.restoreCkpt ck) .unit s₄ →
      (∃ s₅, SessionRun s₄ ((gets t₁).map fun c => (.getc, .byte c)) s₅ ∧
        s₅.received = s₄.received) ∧
      ∀ t₃ s₅, SessionRun s₄ t₃ s₅ → Forwards t₃ → gets t₃ <+: s₅.received.flatten.drop ck ∧
        (gets t₁ <+: gets t₃ ∨ gets t₃ <+: gets t₁) := by
  have hs := h.ok (Session.start_ok input host)
  refine ⟨hs.pos_le, hs.stream, fun call hcall => ⟨fun c s' hstep => ?_, hs.progress hcall⟩, ?_⟩
  · obtain ⟨fresh, heff⟩ := hstep.effect
    exact ⟨(hstep.ok hs).stream ▸ heff.byte c rfl, heff.pos, fresh, heff.received,
      heff.lazily hcall⟩
  · intro ck s₁ t₁ s₂ t₂ s₃ s₄ hckpt hrun₁ hforwards hrun₂ hrestore
    obtain ⟨_, heff₁⟩ := hckpt.effect
    obtain ⟨_, heff₄⟩ := hrestore.effect
    have hck : ck = s.world.lex.pos := heff₁.isCkpt ck (List.mem_singleton.mpr rfl)
    have hpos₁ : s₁.world.lex.pos = ck := heff₁.pos.trans hck.symm
    have hpos₄ : s₄.world.lex.pos = ck := heff₄.pos
    have hs₁ := hckpt.ok hs
    have hs₄ := hrestore.ok (hrun₂.ok (hrun₁.ok hs₁))
    -- the first reading, seen in the buffer of the second
    have hfirst : gets t₁ <+: s₄.world.lex.stream.drop ck := by
      have hgets := (hrun₁.gets hs₁ hforwards).1
      rw [hpos₁] at hgets
      apply hgets.trans
      apply drop_prefix_drop
      apply hrun₂.stream_prefix.trans
      rw [heff₄.stream]
      exact List.prefix_append _ _
    refine ⟨gets_again _ s₄ (by rwa [hpos₄]), fun t₃ s₅ hrun₃ hforwards₃ => ?_⟩
    have hagain := (hrun₃.gets hs₄ hforwards₃).1
    rw [hpos₄] at hagain
    refine ⟨(hrun₃.ok hs₄).stream ▸ hagain, ?_⟩
    exact List.prefix_or_prefix_of_prefix (hfirst.trans (drop_prefix_drop hrun₃.stream_prefix)) hagain

/-- A lexer whose first checkpoint is the start of the stream. Source: `esp-lex-simple.h`
`lex_t`. Kind: D -/
def Session.reading (pos : Nat) (stream : List UInt8) (input received : List (List UInt8)) : Session :=
  ⟨⟨⟨pos, stream, input⟩, espMk⟩, received, [0]⟩

/-- Two chunks, read twice from one checkpoint. Source: `esp-lex-simple.h` `lex_restore_ckpt`.
Kind: L -/
theorem session_replays_twice :
    ∃ s, SessionRun (.reading 0 [1, 2, 3] [] [[1, 2], [3]])
      [(.getc, .byte 1), (.getc, .byte 2), (.getc, .byte 3)] s ∧ s.received = [[1, 2], [3]] := by
  have hckpt : SessionStep (.start [[1, 2], [3]] espMk) .getCkpt (.ckpt 0)
      (.reading 0 [] [[1, 2], [3]] []) := ⟨nofun, ⟨9, rfl⟩, rfl, rfl⟩
  have hone : SessionStep (.reading 0 [] [[1, 2], [3]] []) .getc (.byte 1)
      (.reading 1 [1, 2] [[3]] [[1, 2]]) := ⟨nofun, ⟨12, rfl⟩, rfl, rfl⟩
  have htwo : SessionStep (.reading 1 [1, 2] [[3]] [[1, 2]]) .getc (.byte 2)
      (.reading 2 [1, 2] [[3]] [[1, 2]]) := ⟨nofun, ⟨12, rfl⟩, rfl, rfl⟩
  have hthree : SessionStep (.reading 2 [1, 2] [[3]] [[1, 2]]) .getc (.byte 3)
      (.reading 3 [1, 2, 3] [] [[1, 2], [3]]) := ⟨nofun, ⟨12, rfl⟩, rfl, rfl⟩
  have hback : SessionStep (.reading 3 [1, 2, 3] [] [[1, 2], [3]]) (.restoreCkpt 0) .unit
      (.reading 0 [1, 2, 3] [] [[1, 2], [3]]) :=
    ⟨fun _ h => by cases h; exact List.mem_singleton.mpr rfl, ⟨9, rfl⟩, rfl, rfl⟩
  have hrun := SessionRun.cons hone (.cons htwo (.cons hthree (.nil _)))
  have hforwards : Forwards [(.getc, .byte 1), (.getc, .byte 2), (.getc, .byte 3)] := by
    simp [Forwards]
  exact ((session_replays [[1, 2], [3]] espMk _ _ (.nil _)).2.2.2 0 _ _ _ [] _ _ hckpt hrun
    hforwards (.nil _) hback).1

end Cs140e.Esp
