import Cs140e.Lib.Prog
import Mathlib.Data.Nat.Init

/-!
# Total correctness

`Completes W p s P` — `p` started in `s` ends. If it returns, `P` holds of the value and the state;
if it stops, `W` holds of the reason and the state.

* One rule per constructor and for the derived forms; `Completes.returns` — what this says of a run.
* `Turns body n i s j t` — `n` turns of a loop, each of which goes on. `Completes.turns` — a loop
  with a measure of its local variables and the state is no more turns than the measure says, and
  one that ends it. `Completes.loop` and `Completes.whileDo` are the rules for loops that follow.
-/

namespace Cs140e.Lib.Prog

variable {S E α β σ : Type} {W : E → S → Prop}

/-- What holds of an outcome: `P` of a value, `W` of a stop. Source: none: infrastructure. Kind: D -/
def After (W : E → S → Prop) (P : α → S → Prop) : Except E α → S → Prop
  | .ok a, t => P a t
  | .error e, t => W e t

/-- From `s`, `p` returns with `P` or stops with `W`. Source: none: infrastructure. Kind: D -/
def Completes (W : E → S → Prop) (p : Prog S E α) (s : S) (P : α → S → Prop) : Prop :=
  ∃ o t, Runs p s o t ∧ After W P o t

variable {p : Prog S E α} {s : S} {P P' : α → S → Prop} {Q : β → S → Prop}

/-- What `Completes` says of a run that returns. Source: none: infrastructure. Kind: L -/
theorem Completes.returns {a : α} {t : S} (h : Completes W p s P) (hr : Runs p s (.ok a) t) : P a t := by
  obtain ⟨o, t', hrun, hafter⟩ := h
  obtain ⟨rfl, rfl⟩ := hr.det hrun
  exact hafter

/-- Source: none: infrastructure. Kind: L -/
theorem Completes.mono (h : Completes W p s P) (hP : ∀ a t, P a t → P' a t) : Completes W p s P' := by
  obtain ⟨o, t, hrun, hafter⟩ := h
  refine ⟨o, t, hrun, ?_⟩
  cases o with
  | ok a => exact hP a t hafter
  | error e => exact hafter

/-- Source: none: infrastructure. Kind: L -/
theorem Completes.ret {a : α} (h : P a s) : Completes W (Prog.ret a) s P := ⟨.ok a, s, .ret, h⟩

/-- Source: none: infrastructure. Kind: L -/
theorem Completes.raise {e : E} (h : W e s) : Completes W (Prog.raise e) s P :=
  ⟨.error e, s, runs_raise_iff.mpr ⟨rfl, rfl⟩, h⟩

/-- The rule of sequencing. Source: none: infrastructure. Kind: L -/
theorem Completes.bind {f : α → Prog S E β} (hp : Completes W p s P)
    (hf : ∀ a t, P a t → Completes W (f a) t Q) : Completes W (p.bind f) s Q := by
  obtain ⟨o, t, hrun, hafter⟩ := hp
  cases o with
  | ok a =>
      obtain ⟨o, u, hrun', hafter'⟩ := hf a t hafter
      exact ⟨o, u, hrun.bind hrun', hafter'⟩
  | error e => exact ⟨.error e, t, hrun.bind_error, hafter⟩

/-- Source: none: infrastructure. Kind: L -/
theorem Completes.act {ρ : Type} {f : S → ρ × S} {k : ρ → Prog S E α}
    (hk : Completes W (k (f s).1) (f s).2 P) : Completes W (Prog.act f k) s P := by
  obtain ⟨o, t, hrun, hafter⟩ := hk
  exact ⟨o, t, runs_act_iff.mpr hrun, hafter⟩

/-- A load goes on with what was read. Source: none: infrastructure. Kind: L -/
theorem Completes.load {ρ : Type} {f : S → ρ} {k : ρ → Prog S E α} (hk : Completes W (k (f s)) s P) :
    Completes W ((Prog.load f).bind k) s P :=
  .act hk

/-- Source: none: infrastructure. Kind: L -/
theorem Completes.check {b : Bool} {e : E} {k : Unit → Prog S E α} (hk : b = true → Completes W (k ()) s P)
    (he : W e s) : Completes W ((Prog.check b e).bind k) s P := by
  cases b with
  | true => exact hk rfl
  | false => exact .raise he

/-- Both branches. Source: none: infrastructure. Kind: L -/
theorem Completes.ite {b : Prop} [Decidable b] {p q : Prog S E α} (hp : b → Completes W p s P)
    (hq : ¬ b → Completes W q s P) : Completes W (if b then p else q) s P := by
  split
  · next h => exact hp h
  · next h => exact hq h

/-! ## Loops -/

/-- `n` turns that go on, from the local variables `i` and the state `s` to `j` and `t`.
Source: none: infrastructure
Kind: D -/
inductive Turns (body : σ → Prog S E (σ ⊕ β)) : Nat → σ → S → σ → S → Prop
  | nil {i : σ} {s : S} : Turns body 0 i s i s
  | cons {n : Nat} {i j k : σ} {s t u : S} (first : Runs (body i) s (.ok (.inl j)) t)
      (rest : Turns body n j t k u) : Turns body (n + 1) i s k u

variable {body : σ → Prog S E (σ ⊕ β)} {k : β → Prog S E α} {n : Nat} {i j : σ} {t u : S}

/-- What the loop does behind some turns it does from the start. Source: none: infrastructure.
Kind: L -/
theorem Turns.runs_loop {o : Except E α} (h : Turns body n i s j t)
    (hrest : Runs (loop body j k) t o u) : Runs (loop body i k) s o u := by
  induction h with
  | nil => exact hrest
  | cons first rest ih => exact runs_loop_iff.mpr (first.bind (ih hrest))

/-- The turn that ends a loop. Source: none: infrastructure. Kind: L -/
theorem Runs.loop_last {o : Except E β} (h : Runs (body i) s (o.map .inr) t) :
    Runs (loop body i Prog.ret) s o t := by
  refine runs_loop_iff.mpr ?_
  cases o with
  | ok b => exact h.bind .ret
  | error e => exact h.bind_error

/-- **A loop with a measure** ends, behind no more turns than the measure of its start. `I` holds at
the start of every turn, and a turn that goes on makes the measure `m` smaller.
Source: none: infrastructure
Kind: P -/
theorem Completes.turns (m : σ → S → Nat) (I : σ → S → Prop)
    (hb : ∀ i s, I i s → Completes W (body i) s (Sum.elim (fun j t => I j t ∧ m j t < m i s) Q))
    (hi : I i s) :
    ∃ n j t o u, Turns body n i s j t ∧ n + m j t ≤ m i s ∧ Runs (body j) t (o.map .inr) u ∧
      After W Q o u := by
  induction hn : m i s using Nat.strong_induction_on generalizing i s with
  | _ a ih =>
      obtain ⟨o, t, hrun, hafter⟩ := hb i s hi
      rcases o with e | j | b
      · exact ⟨0, i, s, .error e, t, .nil, by omega, hrun, hafter⟩
      · obtain ⟨hj, hlt⟩ := hafter
        obtain ⟨n, j', t', o, u, hturns, hle, hlast, hafter⟩ := ih _ (hn ▸ hlt) hj rfl
        exact ⟨n + 1, j', t', o, u, .cons hrun hturns, by omega, hlast, hafter⟩
      · exact ⟨0, i, s, .ok b, t, .nil, by omega, hrun, hafter⟩

/-- The rule of loops. Source: none: infrastructure. Kind: L -/
theorem Completes.loop (m : σ → S → Nat) (I : σ → S → Prop)
    (hb : ∀ i s, I i s → Completes W (body i) s (Sum.elim (fun j t => I j t ∧ m j t < m i s) Q))
    (hk : ∀ b t, Q b t → Completes W (k b) t P) (hi : I i s) : Completes W (loop body i k) s P := by
  obtain ⟨n, j, t, o, u, hturns, -, hlast, hafter⟩ := Completes.turns m I hb hi
  cases o with
  | error e =>
      exact ⟨.error e, u, hturns.runs_loop (runs_loop_iff.mpr hlast.bind_error), hafter⟩
  | ok b =>
      obtain ⟨o, u', hrun, hafter'⟩ := hk b u hafter
      exact ⟨o, u', hturns.runs_loop (runs_loop_iff.mpr (hlast.bind hrun)), hafter'⟩

/-- `while`, with a measure of the state. Source: none: infrastructure. Kind: L -/
theorem Completes.whileDo {cond : Prog S E Bool} {body : Prog S E Unit} {M : S → Prop} (m : S → Nat)
    (I : S → Prop)
    (hc : ∀ s, I s → Completes W cond s fun b t =>
      if b then Completes W body t fun _ u => I u ∧ m u < m s else M t)
    (hs : I s) : Completes W (whileDo cond body) s fun _ => M := by
  refine Completes.loop (Q := fun _ => M) (fun _ => m) (fun _ => I) (fun _ s hs => (hc s hs).bind ?_)
    (fun _ _ h => .ret h) hs
  intro b t hb
  cases b with
  | true => exact Completes.bind hb fun _ _ h => .ret h
  | false => exact .ret hb

end Cs140e.Lib.Prog
