import Cs140e.Lib.Prog

/-!
# Partial correctness

`Triple P p Q` — a run of `p` from a state in `P` that returns `a` ends in a state in `Q a`. Nothing
is said of runs that stop or do not end, so a proof goes through the text of a program and not
through a run of it: one rule per constructor (`Triple.loop` is the invariant rule), and rules for
the derived forms. `Keeps I p` is the triple with one assertion throughout.
-/

namespace Cs140e.Lib.Prog

variable {S E α β σ : Type}

/-- If `p` returns from a state in `P`, then `Q` holds of the value and the state.
Source: none: infrastructure
Kind: D -/
def Triple (P : S → Prop) (p : Prog S E α) (Q : α → S → Prop) : Prop :=
  ∀ s a t, P s → Runs p s (.ok a) t → Q a t

variable {P P' : S → Prop} {Q : α → S → Prop}

/-- The rule of consequence. Source: none: infrastructure. Kind: L -/
theorem Triple.conseq {p : Prog S E α} {Q' : α → S → Prop} (h : Triple P p Q)
    (hP : ∀ s, P' s → P s) (hQ : ∀ a s, Q a s → Q' a s) : Triple P' p Q' :=
  fun s a t hs hr => hQ a t (h s a t (hP s hs) hr)

/-- Nothing is asked. Source: none: infrastructure. Kind: L -/
theorem Triple.any {p : Prog S E α} : Triple P p fun _ _ => True := fun _ _ _ _ _ => trivial

/-- A fact that does not speak of the state. Source: none: infrastructure. Kind: L -/
theorem Triple.fact {φ : Prop} {p : Prog S E α} (h : φ → Triple P p Q) :
    Triple (fun s => φ ∧ P s) p Q :=
  fun s a t hs => h hs.1 s a t hs.2

/-- A known run. Source: none: infrastructure. Kind: L -/
theorem Runs.triple {p : Prog S E α} {s u : S} {a : α} (h : Runs p s (.ok a) u) :
    Triple (fun s' => s' = s) p fun b t => b = a ∧ t = u := by
  rintro _ b t rfl hr
  obtain ⟨hok, rfl⟩ := hr.det h
  exact ⟨Except.ok.inj hok, rfl⟩

/-- Source: none: infrastructure. Kind: L -/
theorem Triple.ret {a : α} (h : ∀ s, P s → Q a s) : Triple P (Prog.ret a : Prog S E α) Q := by
  intro s b t hs hr
  obtain ⟨hb, rfl⟩ := runs_ret_iff.mp hr
  obtain rfl : b = a := by simpa using hb
  exact h _ hs

/-- Source: none: infrastructure. Kind: L -/
theorem Triple.raise {e : E} : Triple P (Prog.raise e : Prog S E α) Q := by
  intro s b t hs hr
  simp at hr

/-- The rule of sequencing. Source: none: infrastructure. Kind: L -/
theorem Triple.bind {p : Prog S E β} {f : β → Prog S E α} {M : β → S → Prop} (hp : Triple P p M)
    (hf : ∀ b, Triple (M b) (f b) Q) : Triple P (p.bind f) Q := by
  intro s a t hs hr
  rcases runs_bind_iff.mp hr with ⟨b, u, hb, ha⟩ | ⟨e, he, -⟩
  · exact hf b u a t (hp s b u hs hb) ha
  · simp at he

/-- An access. Source: none: infrastructure. Kind: L -/
theorem Triple.act {ρ : Type} {f : S → ρ × S} {k : ρ → Prog S E α} {M : ρ → S → Prop}
    (hf : ∀ s, P s → M (f s).1 (f s).2) (hk : ∀ r, Triple (M r) (k r) Q) :
    Triple P (Prog.act f k) Q :=
  fun s a t hs hr => hk _ _ a t (hf s hs) (runs_act_iff.mp hr)

/-- A load goes on with what was read. Source: none: infrastructure. Kind: L -/
theorem Triple.load {ρ : Type} {f : S → ρ} {k : ρ → Prog S E α}
    (hk : ∀ r, Triple (fun s => P s ∧ f s = r) (k r) Q) : Triple P ((Prog.load f).bind k) Q :=
  Triple.act (fun _ hs => ⟨hs, rfl⟩) hk

/-- A check that is passed. Source: none: infrastructure. Kind: L -/
theorem Triple.check {b : Bool} {e : E} {k : Unit → Prog S E α}
    (hk : b = true → Triple P (k ()) Q) : Triple P ((Prog.check b e).bind k) Q := by
  cases b with
  | true => exact hk rfl
  | false => exact Triple.raise

/-- Both branches. Source: none: infrastructure. Kind: L -/
theorem Triple.ite {b : Prop} [Decidable b] {p q : Prog S E α} (hp : Triple P p Q)
    (hq : Triple P q Q) : Triple P (if b then p else q) Q := by
  split
  · exact hp
  · exact hq

/-- **The rule of loops**: `I` holds of the local variables and the state at the start of every
turn, and `M` of the value that ends the loop.
Source: none: infrastructure
Kind: P -/
theorem Triple.loop {body : σ → Prog S E (σ ⊕ β)} {k : β → Prog S E α} (I : σ → S → Prop)
    {M : β → S → Prop} (hb : ∀ j, Triple (I j) (body j) (Sum.elim I M))
    (hk : ∀ b, Triple (M b) (k b) Q) (i : σ) : Triple (I i) (Prog.loop body i k) Q := by
  rintro s a t hs ⟨n, hn⟩
  induction n generalizing i s with
  | zero => simp at hn
  | succ n ih =>
      rcases exec_bind (show exec n (again body i k) s = some (.ok a, t) from hn) with
        ⟨j | b, u, hp, hf⟩ | ⟨e, he, -⟩
      · exact ih j u (hb i s _ u hs hp) hf
      · exact hk b u a t (hb i s _ u hs hp) ⟨n, hf⟩
      · simp at he

/-- A loop is its first turn and the rest. Source: none: infrastructure. Kind: L -/
theorem Triple.unroll {body : σ → Prog S E (σ ⊕ β)} {k : β → Prog S E α} {i : σ}
    (h : Triple P (again body i k) Q) : Triple P (Prog.loop body i k) Q :=
  fun s a t hs hr => h s a t hs (runs_loop_iff.mp hr)

/-- `while`: the invariant is kept by the test and the body, and the test has failed at the end.
Source: none: infrastructure
Kind: P -/
theorem Triple.whileDo {cond : Prog S E Bool} {body : Prog S E Unit} {M : Bool → S → Prop}
    (hc : Triple P cond M) (hb : Triple (M true) body fun _ => P) :
    Triple P (Prog.whileDo cond body) fun _ => M false := by
  refine Triple.loop (Q := fun _ : Unit => M false) (fun _ => P) (M := fun _ => M false)
    (fun _ => hc.bind fun b => ?_) (fun _ => .ret fun _ h => h) ()
  cases b with
  | true => exact hb.bind fun _ => .ret fun _ h => h
  | false => exact .ret fun _ h => h

/-! ## Invariants -/

/-- `I` still holds when `p` returns. Source: none: infrastructure. Kind: D -/
def Keeps (I : S → Prop) (p : Prog S E α) : Prop := Triple I p fun _ => I

variable {I : S → Prop}

/-- Source: none: infrastructure. Kind: L -/
theorem Keeps.ret {a : α} : Keeps I (Prog.ret a : Prog S E α) := Triple.ret fun _ h => h

/-- Source: none: infrastructure. Kind: L -/
theorem Keeps.raise {e : E} : Keeps I (Prog.raise e : Prog S E α) := Triple.raise

/-- Source: none: infrastructure. Kind: L -/
theorem Keeps.bind {p : Prog S E β} {f : β → Prog S E α} (hp : Keeps I p)
    (hf : ∀ b, Keeps I (f b)) : Keeps I (p.bind f) :=
  Triple.bind hp hf

/-- Source: none: infrastructure. Kind: L -/
theorem Keeps.access {ρ : Type} {f : S → ρ × S} (hf : ∀ s, I s → I (f s).2) :
    Keeps I (Prog.access f : Prog S E ρ) :=
  Triple.act (M := fun _ => I) hf fun _ => .ret fun _ h => h

/-- Source: none: infrastructure. Kind: L -/
theorem Keeps.store {f : S → S} (hf : ∀ s, I s → I (f s)) :
    Keeps I (Prog.store f : Prog S E Unit) :=
  Keeps.access hf

/-- Source: none: infrastructure. Kind: L -/
theorem Keeps.check {b : Bool} {e : E} : Keeps I (Prog.check b e) := by
  cases b with
  | true => exact .ret
  | false => exact .raise

/-- Source: none: infrastructure. Kind: L -/
theorem Keeps.ite {b : Prop} [Decidable b] {p q : Prog S E α} (hp : Keeps I p) (hq : Keeps I q) :
    Keeps I (if b then p else q) :=
  Triple.ite hp hq

/-- Source: none: infrastructure. Kind: L -/
theorem Keeps.loop {body : σ → Prog S E (σ ⊕ α)} {i : σ} (hb : ∀ j, Keeps I (body j)) :
    Keeps I (Prog.loop body i Prog.ret) := by
  refine Triple.loop (Q := fun _ => I) (fun _ => I) (M := fun _ => I) (fun j => ?_)
    (fun _ => .ret fun _ h => h) i
  refine (hb j).conseq (fun _ h => h) ?_
  rintro (_ | _) s h
  · exact h
  · exact h

/-- What is kept for each `i` is kept for some. Source: none: infrastructure. Kind: L -/
theorem Keeps.exists {ι : Type} {I : ι → S → Prop} {p : Prog S E α} (h : ∀ i, Keeps (I i) p) :
    Keeps (fun s => ∃ i, I i s) p := by
  rintro s a t ⟨i, hi⟩ hr
  exact ⟨i, h i s a t hi hr⟩

end Cs140e.Lib.Prog
