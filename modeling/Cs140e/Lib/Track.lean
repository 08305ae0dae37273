import Cs140e.Lib.Hoare

/-!
# Runs from related states

`Tracks R p` — what `p` returns from a state it also returns from every related one, and ends in
related states: partial correctness of two runs of one program. `Kept I`, the equal states in which
`I` holds, makes it the unary invariant. One rule per constructor, and rules for the derived forms.
-/

namespace Cs140e.Lib.Prog

variable {S E α β σ : Type}

/-- A run of `p` that returns has a run from every related state beside it.
Source: none: infrastructure
Kind: D -/
def Tracks (R : S → S → Prop) (p : Prog S E α) : Prop :=
  ∀ s s' a t, R s s' → Runs p s (.ok a) t → ∃ t', Runs p s' (.ok a) t' ∧ R t t'

variable {R : S → S → Prop}

/-- Source: none: infrastructure. Kind: L -/
theorem Tracks.ret {a : α} : Tracks R (Prog.ret a : Prog S E α) := by
  intro s s' b t hs hr
  obtain ⟨hb, rfl⟩ := runs_ret_iff.mp hr
  exact ⟨s', runs_ret_iff.mpr ⟨hb, rfl⟩, hs⟩

/-- Source: none: infrastructure. Kind: L -/
theorem Tracks.raise {e : E} : Tracks R (Prog.raise e : Prog S E α) := by
  intro s s' b t hs hr
  simp at hr

/-- The rule of sequencing. Source: none: infrastructure. Kind: L -/
theorem Tracks.bind {p : Prog S E β} {f : β → Prog S E α} (hp : Tracks R p)
    (hf : ∀ b, Tracks R (f b)) : Tracks R (p.bind f) := by
  intro s s' a t hs hr
  rcases runs_bind_iff.mp hr with ⟨b, u, hb, ha⟩ | ⟨e, he, -⟩
  · obtain ⟨u', hb', hu⟩ := hp s s' b u hs hb
    obtain ⟨t', ha', ht⟩ := hf b u u' a t hu ha
    exact ⟨t', hb'.bind ha', ht⟩
  · simp at he

/-- An access that reads the same from related states and leaves them related.
Source: none: infrastructure
Kind: L -/
theorem Tracks.access {ρ : Type} {f : S → ρ × S}
    (hf : ∀ s s', R s s' → (f s').1 = (f s).1 ∧ R (f s).2 (f s').2) :
    Tracks R (Prog.access f : Prog S E ρ) := by
  intro s s' a t hs hr
  obtain ⟨ha, rfl⟩ := runs_ret_iff.mp (runs_act_iff.mp hr)
  obtain ⟨hread, hs'⟩ := hf s s' hs
  exact ⟨(f s').2, runs_act_iff.mpr (runs_ret_iff.mpr ⟨by rw [hread, ha], rfl⟩), hs'⟩

/-- Source: none: infrastructure. Kind: L -/
theorem Tracks.load {ρ : Type} {f : S → ρ} (hf : ∀ s s', R s s' → f s' = f s) :
    Tracks R (Prog.load f : Prog S E ρ) :=
  Tracks.access fun s s' hs => ⟨hf s s' hs, hs⟩

/-- A load of which only a part is used. Source: none: infrastructure. Kind: L -/
theorem Tracks.load_bind {ρ : Type} {f : S → ρ} {k : ρ → Prog S E α}
    (hf : ∀ s s', R s s' → k (f s') = k (f s)) (hk : ∀ r, Tracks R (k r)) :
    Tracks R ((Prog.load f).bind k) := by
  intro s s' a t hs hr
  obtain ⟨t', hr', ht⟩ := hk (f s) s s' a t hs (runs_load_bind_iff.mp hr)
  exact ⟨t', runs_load_bind_iff.mpr (by rwa [hf s s' hs]), ht⟩

/-- Source: none: infrastructure. Kind: L -/
theorem Tracks.store {f : S → S} (hf : ∀ s s', R s s' → R (f s) (f s')) :
    Tracks R (Prog.store f : Prog S E Unit) :=
  Tracks.access fun s s' hs => ⟨rfl, hf s s' hs⟩

/-- Source: none: infrastructure. Kind: L -/
theorem Tracks.check {b : Bool} {e : E} : Tracks R (Prog.check b e) := by
  cases b with
  | true => exact .ret
  | false => exact .raise

/-- Source: none: infrastructure. Kind: L -/
theorem Tracks.ite {b : Prop} [Decidable b] {p q : Prog S E α} (hp : Tracks R p)
    (hq : Tracks R q) : Tracks R (if b then p else q) := by
  split
  · exact hp
  · exact hq

/-- **The rule of loops.** Source: none: infrastructure. Kind: P -/
theorem Tracks.loop {body : σ → Prog S E (σ ⊕ β)} {k : β → Prog S E α} {i : σ}
    (hb : ∀ j, Tracks R (body j)) (hk : ∀ b, Tracks R (k b)) :
    Tracks R (Prog.loop body i k) := by
  rintro s s' a t hs ⟨n, hn⟩
  induction n generalizing i s s' with
  | zero => simp at hn
  | succ n ih =>
      rcases exec_bind (show exec n (again body i k) s = some (.ok a, t) from hn) with
        ⟨j | b, u, hp, hf⟩ | ⟨e, he, -⟩
      · obtain ⟨u', hp', hu⟩ := hb i s s' _ u hs hp
        obtain ⟨t', hf', ht⟩ := ih u u' hu hf
        exact ⟨t', runs_loop_iff.mpr (hp'.bind hf'), ht⟩
      · obtain ⟨u', hp', hu⟩ := hb i s s' _ u hs hp
        obtain ⟨t', hf', ht⟩ := hk b u u' a t hu ⟨n, hf⟩
        exact ⟨t', runs_loop_iff.mpr (hp'.bind hf'), ht⟩
      · simp at he

/-- Source: none: infrastructure. Kind: L -/
theorem Tracks.whileDo {cond : Prog S E Bool} {body : Prog S E Unit} (hc : Tracks R cond)
    (hb : Tracks R body) : Tracks R (Prog.whileDo cond body) := by
  refine .loop (fun _ => hc.bind fun b => ?_) fun _ => .ret
  cases b with
  | true => exact hb.bind fun _ => .ret
  | false => exact .ret

/-! ## Invariants -/

/-- Equal states in which `I` holds. Source: none: infrastructure. Kind: D -/
def Kept (I : S → Prop) (s s' : S) : Prop := s' = s ∧ I s

variable {I : S → Prop}

/-- Source: none: infrastructure. Kind: L -/
theorem tracks_kept_iff {p : Prog S E α} : Tracks (Kept I) p ↔ Keeps I p := by
  constructor
  · intro h s a t hs hr
    obtain ⟨_, -, -, ht⟩ := h s s a t ⟨rfl, hs⟩ hr
    exact ht
  · intro h s s' a t hs hr
    obtain ⟨rfl, hs⟩ := hs
    exact ⟨t, hr, rfl, h _ a t hs hr⟩

end Cs140e.Lib.Prog
