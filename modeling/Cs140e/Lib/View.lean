import Cs140e.Lib.Hoare
import Mathlib.Data.Nat.Init

/-!
# Programs seen through a view of their state

A relation `R : V → S → Prop` says which states a view describes. Several states may have one view,
and nothing here asks a state to have only one.

* `Ends R p v o Q` — from *every* state that `v` describes, `p` ends with outcome `o` in a state
  that some view satisfying `Q` describes. The outcome is the same for all of them, so a proof of
  `Ends` is a proof that `p` does not see what the view leaves out.
* `Settles R p v P` — some outcome and some view are the result from every state `v` describes, and
  `P` holds of a value that is returned and the view. `Settles.loop` is the rule for a loop with a
  measure.
* One rule per constructor, for `load`, `store` and `whileDo`, and `Ends.bind` for sequences.
* `Ends.outcome` — what a given run from such a state must have done; `Ends.triple` — the same for
  all runs that return.
-/

namespace Cs140e.Lib.Prog

variable {S V E α β σ : Type} {R : V → S → Prop}

/-- From every state described by `v`, `p` ends with `o` in a state described by a view in `Q`.
Source: none: infrastructure. Kind: D -/
def Ends (R : V → S → Prop) (p : Prog S E α) (v : V) (o : Except E α) (Q : V → Prop) : Prop :=
  ∀ s, R v s → ∃ t, Runs p s o t ∧ ∃ v', R v' t ∧ Q v'

/-- The view determines the outcome and the view reached; `P` holds of them if `p` returns.
Source: none: infrastructure. Kind: D -/
def Settles (R : V → S → Prop) (p : Prog S E α) (v : V) (P : α → V → Prop) : Prop :=
  ∃ o v', Ends R p v o (· = v') ∧ ∀ a, o = .ok a → P a v'

variable {p : Prog S E α} {v : V} {Q Q' : V → Prop}

/-- Weakening what is known of the view reached. Source: none: infrastructure. Kind: L -/
theorem Ends.mono {o : Except E α} (h : Ends R p v o Q) (hQ : ∀ v', Q v' → Q' v') :
    Ends R p v o Q' := by
  intro s hs
  obtain ⟨t, ht, v', hv', hq⟩ := h s hs
  exact ⟨t, ht, v', hv', hQ v' hq⟩

/-- A run from a described state is the one that `Ends` speaks of.
Source: none: infrastructure
Kind: P -/
theorem Ends.outcome {s t : S} {o o' : Except E α} (h : Ends R p v o Q) (hs : R v s)
    (hr : Runs p s o' t) : o' = o ∧ ∃ v', R v' t ∧ Q v' := by
  obtain ⟨t', ht', v', hv', hq⟩ := h s hs
  obtain ⟨ho, rfl⟩ := hr.det ht'
  exact ⟨ho, v', hv', hq⟩

/-- What `Ends` says of the runs that return. Source: none: infrastructure. Kind: L -/
theorem Ends.triple {o : Except E α} (h : Ends R p v o Q) :
    Triple (R v) p fun a t => o = .ok a ∧ ∃ v', R v' t ∧ Q v' := by
  intro s a t hs hr
  obtain ⟨ho, hv'⟩ := h.outcome hs hr
  exact ⟨ho.symm, hv'⟩

/-! ## Rules for `Ends` -/

/-- Source: none: infrastructure. Kind: L -/
theorem Ends.ret {a : α} (h : Q v) : Ends R (Prog.ret a : Prog S E α) v (.ok a) Q := by
  intro s hs
  exact ⟨s, by simp, v, hs, h⟩

/-- Source: none: infrastructure. Kind: L -/
theorem Ends.raise {e : E} (h : Q v) : Ends R (Prog.raise e : Prog S E α) v (.error e) Q := by
  intro s hs
  exact ⟨s, by simp, v, hs, h⟩

/-- **The rule of sequencing.** Source: none: infrastructure. Kind: P -/
theorem Ends.bind {a : α} {f : α → Prog S E β} {o : Except E β} (hp : Ends R p v (.ok a) Q)
    (hf : ∀ v', Q v' → Ends R (f a) v' o Q') : Ends R (p.bind f) v o Q' := by
  intro s hs
  obtain ⟨u, hu, v', hv', hq⟩ := hp s hs
  obtain ⟨t, ht, hQ'⟩ := hf v' hq u hv'
  exact ⟨t, hu.bind ht, hQ'⟩

/-- Sequencing after a part with a known result. Source: none: infrastructure. Kind: L -/
theorem Ends.seq {a : α} {f : α → Prog S E β} {o : Except E β} {v₁ : V}
    (hp : Ends R p v (.ok a) (· = v₁)) (hf : Ends R (f a) v₁ o Q) : Ends R (p.bind f) v o Q :=
  hp.bind (by rintro _ rfl; exact hf)

/-- A stop in the first part. Source: none: infrastructure. Kind: L -/
theorem Ends.bind_error {e : E} {f : α → Prog S E β} (hp : Ends R p v (.error e) Q) :
    Ends R (p.bind f) v (.error e) Q := by
  intro s hs
  obtain ⟨u, hu, hq⟩ := hp s hs
  exact ⟨u, hu.bind_error, hq⟩

/-- A load of something the view determines. Source: none: infrastructure. Kind: L -/
theorem Ends.load {ρ : Type} {f : S → ρ} {a : ρ} {k : ρ → Prog S E β} {o : Except E β}
    (hf : ∀ s, R v s → f s = a) (hk : Ends R (k a) v o Q) :
    Ends R ((Prog.load f).bind k) v o Q := by
  intro s hs
  obtain ⟨t, ht, hq⟩ := hk s hs
  exact ⟨t, by rwa [runs_load_bind_iff, hf s hs], hq⟩

/-- A store whose effect a view describes. Source: none: infrastructure. Kind: L -/
theorem Ends.store {f : S → S} {v₁ : V} {k : Unit → Prog S E β} {o : Except E β}
    (hf : ∀ s, R v s → R v₁ (f s)) (hk : Ends R (k ()) v₁ o Q) :
    Ends R ((Prog.store f).bind k) v o Q := by
  intro s hs
  obtain ⟨t, ht, hq⟩ := hk (f s) (hf s hs)
  exact ⟨t, by rwa [runs_store_bind_iff], hq⟩

/-- A loop is its first turn and the rest. Source: none: infrastructure. Kind: L -/
theorem ends_loop_iff {body : σ → Prog S E (σ ⊕ β)} {i : σ} {k : β → Prog S E α} {o : Except E α} :
    Ends R (loop body i k) v o Q ↔ Ends R (again body i k) v o Q := by
  unfold Ends
  simp only [runs_loop_iff]

/-- A turn after which the loop goes on. Source: none: infrastructure. Kind: L -/
theorem Ends.loop_again {body : σ → Prog S E (σ ⊕ β)} {i : σ} {k : β → Prog S E α} {o : Except E α}
    {j : σ}
    (hb : Ends R (body i) v (.ok (.inl j)) Q) (hl : ∀ v', Q v' → Ends R (loop body j k) v' o Q') :
    Ends R (loop body i k) v o Q' :=
  ends_loop_iff.mpr (hb.bind hl)

/-- A turn with which the loop ends. Source: none: infrastructure. Kind: L -/
theorem Ends.loop_exit {body : σ → Prog S E (σ ⊕ β)} {i : σ} {k : β → Prog S E α} {b : β}
    {o : Except E α}
    (hb : Ends R (body i) v (.ok (.inr b)) Q) (hk : ∀ v', Q v' → Ends R (k b) v' o Q') :
    Ends R (loop body i k) v o Q' :=
  ends_loop_iff.mpr (hb.bind hk)

/-- A turn in which the program stops. Source: none: infrastructure. Kind: L -/
theorem Ends.loop_error {body : σ → Prog S E (σ ⊕ β)} {i : σ} {k : β → Prog S E α} {e : E}
    (hb : Ends R (body i) v (.error e) Q) : Ends R (loop body i k) v (.error e) Q :=
  ends_loop_iff.mpr hb.bind_error

/-- `while`, when the condition fails. Source: none: infrastructure. Kind: L -/
theorem Ends.while_false {cond : Prog S E Bool} {body : Prog S E Unit}
    (hc : Ends R cond v (.ok false) Q) : Ends R (whileDo cond body) v (.ok ()) Q :=
  Ends.loop_exit (hc.bind fun _ hq => .ret hq) fun _ hq => .ret hq

/-- `while`, when the condition holds. Source: none: infrastructure. Kind: L -/
theorem Ends.while_true {cond : Prog S E Bool} {body : Prog S E Unit} {v₁ : V}
    {o : Except E Unit} (hc : Ends R cond v (.ok true) (· = v₁)) (hb : Ends R body v₁ (.ok ()) Q)
    (hl : ∀ v', Q v' → Ends R (whileDo cond body) v' o Q') : Ends R (whileDo cond body) v o Q' :=
  Ends.loop_again (hc.seq (hb.bind fun _ hq => .ret hq)) hl

/-- `while`, when the condition stops. Source: none: infrastructure. Kind: L -/
theorem Ends.while_error {cond : Prog S E Bool} {body : Prog S E Unit} {e : E}
    (hc : Ends R cond v (.error e) Q) : Ends R (whileDo cond body) v (.error e) Q :=
  Ends.loop_error hc.bind_error

/-! ## Rules for `Settles` -/

variable {P : α → V → Prop} {P' : β → V → Prop}

/-- Source: none: infrastructure. Kind: L -/
theorem Ends.settles {a : α} {v₁ : V} (h : Ends R p v (.ok a) (· = v₁)) (ha : P a v₁) :
    Settles R p v P := by
  refine ⟨.ok a, v₁, h, ?_⟩
  rintro _ ⟨⟩
  exact ha

/-- Source: none: infrastructure. Kind: L -/
theorem Ends.settles_error {e : E} {v₁ : V} (h : Ends R p v (.error e) (· = v₁)) :
    Settles R p v P :=
  ⟨.error e, v₁, h, by simp⟩

/-- Source: none: infrastructure. Kind: L -/
theorem Settles.ret {a : α} (ha : P a v) : Settles R (Prog.ret a : Prog S E α) v P :=
  Ends.settles (.ret rfl) ha

/-- Source: none: infrastructure. Kind: L -/
theorem Settles.raise {e : E} : Settles R (Prog.raise e : Prog S E α) v P :=
  Ends.settles_error (.raise rfl)

/-- Sequencing: what follows settles from whatever the first part can reach.
Source: none: infrastructure. Kind: P -/
theorem Settles.bind {f : α → Prog S E β} (hp : Settles R p v P)
    (hf : ∀ a v', P a v' → Settles R (f a) v' P') : Settles R (p.bind f) v P' := by
  obtain ⟨o, v₁, h, hP⟩ := hp
  rcases o with e | a
  · exact h.bind_error.settles_error
  · obtain ⟨o', v₂, h', hP'⟩ := hf a v₁ (hP a rfl)
    exact ⟨o', v₂, h.seq h', hP'⟩

/-- A loop settles if its body does, every turn that goes on makes `m` smaller, and no turn leaves
the views `T`-reachable from the first one.
Source: none: infrastructure
Kind: P -/
theorem Settles.loop {body : σ → Prog S E (σ ⊕ β)} {k : β → Prog S E α} (m : σ → Nat)
    (T : V → V → Prop) (htrans : ∀ {x y z}, T x y → T y z → T x z)
    (hb : ∀ i v, Settles R (body i) v fun r v' => T v v' ∧ ∀ j, r = .inl j → m j < m i)
    (i : σ) (v : V) (hk : ∀ b v', T v v' → Settles R (k b) v' P) :
    Settles R (loop body i k) v P := by
  induction hn : m i using Nat.strong_induction_on generalizing i v with
  | _ n ih =>
      obtain ⟨o, v₁, h, hT⟩ := hb i v
      rcases o with e | j | b
      · exact h.loop_error.settles_error
      · obtain ⟨hT, hlt⟩ := hT _ rfl
        obtain ⟨o', v₂, h', hP⟩ := ih (m j) (hn ▸ hlt j rfl) j v₁
          (fun b v' hv' => hk b v' (htrans hT hv')) rfl
        exact ⟨o', v₂, h.loop_again (by rintro _ rfl; exact h'), hP⟩
      · obtain ⟨o', v₂, h', hP⟩ := hk b v₁ (hT _ rfl).1
        exact ⟨o', v₂, h.loop_exit (by rintro _ rfl; exact h'), hP⟩

end Cs140e.Lib.Prog
