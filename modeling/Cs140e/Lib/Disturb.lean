import Cs140e.Lib.Prog

/-!
# Programs beside an environment

Partial correctness of `under env p`, and programs that use a part of the state only.

* `zoom l p` — the program `p` of a part of the state, on the whole; `zoom_runs`.
* `Meets env P p Q Er` — every outcome of `p` from a state in `P`: a value and a state in `Q`, or a
  stop in `Er`. One rule per constructor and for the derived forms; what is asserted before an
  access has to be `Stable`. `Meets.zoom` takes over a known run of a zoomed program.
* `Passes p s t` — a run of `p` from `s` comes through `t`, whether or not it ends. `Within R p` —
  every access of `p` is a step in `R`, and then so is every way from `s` to `t`.
-/

namespace Cs140e.Lib.Prog

variable {S T E α β ρ σ : Type}

/-! ## A part of the state -/

/-- A part of the state. Source: none: infrastructure. Kind: D -/
structure Lens (S T : Type) where
  get : S → T
  set : T → S → S
  get_set : ∀ u s, get (set u s) = u
  set_get : ∀ s, set (get s) s = s
  set_set : ∀ u v s, set u (set v s) = set u s

/-- A program of a part of the state. Source: none: infrastructure. Kind: D -/
def zoom (l : Lens S T) : {α : Type} → Prog T E α → Prog S E α
  | _, ret a => ret a
  | _, raise e => raise e
  | _, act f k => act (fun s => ((f (l.get s)).1, l.set (f (l.get s)).2 s)) fun r => zoom l (k r)
  | _, loop body i k => loop (fun j => zoom l (body j)) i fun b => zoom l (k b)

variable {l : Lens S T} {env : Nat → S → S}

/-- Zooming into a sequence zooms into its parts. Source: none: infrastructure. Kind: L -/
theorem zoom_bind (p : Prog T E α) (f : α → Prog T E β) :
    zoom l (p.bind f) = (zoom l p).bind fun a => zoom l (f a) := by
  induction p with
  | ret a => rfl
  | act g k ih => simp only [act_bind, zoom, ih]
  | loop body i k _ ih => simp only [loop_bind, zoom, ih]
  | raise e => rfl

/-- A disturbed turn of a loop. Source: none: infrastructure. Kind: L -/
theorem under_again (body : σ → Prog S E (σ ⊕ β)) (i : σ) (k : β → Prog S E α) :
    under env (again body i k) =
      again (fun j => under env (body j)) i fun b => under env (k b) := by
  unfold again
  rw [under_bind]
  congr 1
  funext x
  cases x <;> rfl

/-- A zoomed turn of a loop. Source: none: infrastructure. Kind: L -/
theorem zoom_again (body : σ → Prog T E (σ ⊕ β)) (i : σ) (k : β → Prog T E α) :
    zoom l (again body i k) =
      again (fun j => zoom l (body j)) i fun b => zoom l (k b) := by
  unfold again
  rw [zoom_bind]
  congr 1
  funext x
  cases x <;> rfl

/-- A property the environment does not end. Source: none: infrastructure. Kind: D -/
def Stable (env : Nat → S → S) (P : S → Prop) : Prop := ∀ i s, P s → P (env i s)

/-- A run of a part, in an environment that leaves this part alone: it runs the same way, and what
is said of the rest stays.
Source: none: infrastructure
Kind: P -/
theorem zoom_runs {F : S → Prop} (hget : ∀ i s, l.get (env i s) = l.get s) (henv : Stable env F)
    (hset : ∀ u s, F s → F (l.set u s)) {p : Prog T E α} {s : S} {o : Except E α} {u : T}
    (h : Runs p (l.get s) o u) (hF : F s) (i : Nat) :
    ∃ t j, Runs (under env (zoom l p)) (s, i) o (t, j) ∧ l.get t = u ∧ F t := by
  obtain ⟨n, hn⟩ := h
  induction n generalizing p s i with
  | zero => simp at hn
  | succ n ih =>
      cases p with
      | ret a =>
          simp only [exec_ret, Option.some.injEq, Prod.mk.injEq] at hn
          obtain ⟨rfl, rfl⟩ := hn
          exact ⟨s, i, Runs.ret, rfl, hF⟩
      | raise e =>
          simp only [exec_raise, Option.some.injEq, Prod.mk.injEq] at hn
          obtain ⟨rfl, rfl⟩ := hn
          exact ⟨s, i, runs_raise_iff.mpr ⟨rfl, rfl⟩, rfl, hF⟩
      | act f k =>
          have hs : l.get (l.set (f (l.get (env i s))).2 (env i s)) = (f (l.get s)).2 := by
            rw [l.get_set, hget]
          obtain ⟨t, j, hrun, ht⟩ := ih (p := k (f (l.get s)).1)
            (s := l.set (f (l.get (env i s))).2 (env i s)) (hset _ _ (henv i s hF)) (i + 1)
            (by rw [hs]; exact hn)
          refine ⟨t, j, ?_, ht⟩
          simp only [zoom, under]
          rw [runs_act_iff]
          simpa only [hget] using hrun
      | loop body j k =>
          obtain ⟨t, j', hrun, ht⟩ := ih (p := again body j k) hF i hn
          rw [zoom_again, under_again] at hrun
          refine ⟨t, j', ?_, ht⟩
          simp only [zoom, under]
          exact runs_loop_iff.mpr hrun

/-- A run of a part. Source: none: infrastructure. Kind: L -/
theorem Runs.zoom {p : Prog T E α} {s : S} {o : Except E α} {u : T} (h : Runs p (l.get s) o u) :
    Runs (Prog.zoom l p) s o (l.set u s) := by
  obtain ⟨n, hn⟩ := h
  induction n generalizing p s with
  | zero => simp at hn
  | succ n ih =>
      cases p with
      | ret a =>
          simp only [exec_ret, Option.some.injEq, Prod.mk.injEq] at hn
          obtain ⟨rfl, rfl⟩ := hn
          exact runs_ret_iff.mpr ⟨rfl, l.set_get s⟩
      | raise e =>
          simp only [exec_raise, Option.some.injEq, Prod.mk.injEq] at hn
          obtain ⟨rfl, rfl⟩ := hn
          exact runs_raise_iff.mpr ⟨rfl, l.set_get s⟩
      | act f k =>
          have hrun := ih (p := k (f (l.get s)).1) (s := l.set (f (l.get s)).2 s)
            (by rw [l.get_set]; exact hn)
          rw [l.set_set] at hrun
          exact runs_act_iff.mpr hrun
      | loop body j k =>
          have hrun := ih (p := again body j k) hn
          rw [zoom_again] at hrun
          exact runs_loop_iff.mpr hrun

/-! ## Outcomes -/

/-- Every outcome of `p`, started in `P`. Source: none: infrastructure. Kind: D -/
def Meets (env : Nat → S → S) (P : S → Prop) (p : Prog S E α) (Q : α → S → Prop) (Er : E → Prop) :
    Prop :=
  ∀ s i, P s → (∀ a t, Runs (under env p) (s, i) (.ok a) t → Q a t.1) ∧
    ∀ e t, Runs (under env p) (s, i) (.error e) t → Er e

variable {P P' : S → Prop} {Q : α → S → Prop} {Er : E → Prop}

/-- The rule of consequence. Source: none: infrastructure. Kind: L -/
theorem Meets.conseq {p : Prog S E α} {Q' : α → S → Prop} (h : Meets env P p Q Er)
    (hP : ∀ s, P' s → P s) (hQ : ∀ a s, Q a s → Q' a s) : Meets env P' p Q' Er :=
  fun s i hs => ⟨fun a t hr => hQ a _ ((h s i (hP s hs)).1 a t hr), (h s i (hP s hs)).2⟩

/-- A fact that does not speak of the state. Source: none: infrastructure. Kind: L -/
theorem Meets.fact {φ : Prop} {p : Prog S E α} (h : φ → Meets env P p Q Er) :
    Meets env (fun s => φ ∧ P s) p Q Er :=
  fun s i hs => h hs.1 s i hs.2

/-- One of several preconditions. Source: none: infrastructure. Kind: L -/
theorem Meets.exists {ι : Type} {P : ι → S → Prop} {p : Prog S E α}
    (h : ∀ x, Meets env (P x) p Q Er) : Meets env (fun s => ∃ x, P x s) p Q Er := by
  rintro s i ⟨x, hs⟩
  exact h x s i hs

/-- Source: none: infrastructure. Kind: L -/
theorem Meets.ret {a : α} (h : ∀ s, P s → Q a s) : Meets env P (Prog.ret a : Prog S E α) Q Er := by
  intro s i hs
  constructor
  · intro b t hr
    obtain ⟨hb, rfl⟩ := runs_ret_iff.mp hr
    obtain rfl : b = a := by simpa using hb
    exact h s hs
  · intro e t hr
    exact absurd (runs_ret_iff.mp hr).1 (by simp)

/-- Source: none: infrastructure. Kind: L -/
theorem Meets.raise {e : E} (h : Er e) : Meets env P (Prog.raise e : Prog S E α) Q Er := by
  intro s i hs
  constructor
  · intro b t hr
    exact absurd (runs_raise_iff.mp hr).1 (by simp)
  · intro e' t hr
    obtain rfl : e' = e := by simpa using (runs_raise_iff.mp hr).1
    exact h

/-- The rule of sequencing. Source: none: infrastructure. Kind: L -/
theorem Meets.bind {p : Prog S E β} {f : β → Prog S E α} {M : β → S → Prop}
    (hp : Meets env P p M Er) (hf : ∀ b, Meets env (M b) (f b) Q Er) :
    Meets env P (p.bind f) Q Er := by
  intro s i hs
  rw [under_bind]
  constructor
  · intro a t hr
    rcases runs_bind_iff.mp hr with ⟨b, ⟨u, j⟩, hb, ha⟩ | ⟨e, he, -⟩
    · exact (hf b u j ((hp s i hs).1 b _ hb)).1 a t ha
    · simp at he
  · intro e t hr
    rcases runs_bind_iff.mp hr with ⟨b, ⟨u, j⟩, hb, ha⟩ | ⟨e', he, he'⟩
    · exact (hf b u j ((hp s i hs).1 b _ hb)).2 e t ha
    · obtain rfl : e = e' := by simpa using he
      exact (hp s i hs).2 e t he'

/-- An access. Source: none: infrastructure. Kind: L -/
theorem Meets.access {f : S → ρ × S} (hP : Stable env P) {M : ρ → S → Prop}
    (hf : ∀ s, P s → M (f s).1 (f s).2) : Meets env P (Prog.access f : Prog S E ρ) M Er := by
  intro s i hs
  have hinv : ∀ o t, Runs (under env (Prog.access f : Prog S E ρ)) (s, i) o t →
      o = .ok (f (env i s)).1 ∧ t = ((f (env i s)).2, i + 1) := by
    intro o t hr
    exact runs_ret_iff.mp (runs_act_iff.mp hr)
  constructor
  · intro a t hr
    obtain ⟨ha, rfl⟩ := hinv _ t hr
    obtain rfl : a = _ := Except.ok.inj ha
    exact hf _ (hP i s hs)
  · intro e t hr
    exact absurd (hinv _ t hr).1 (by simp)

/-- A store. Source: none: infrastructure. Kind: L -/
theorem Meets.store {f : S → S} (hP : Stable env P) (hf : ∀ s, P s → P' (f s)) :
    Meets env P (Prog.store f : Prog S E Unit) (fun _ => P') Er :=
  Meets.access hP hf

/-- A check that is passed. Source: none: infrastructure. Kind: L -/
theorem Meets.check {b : Bool} {e : E} (h : b = true) :
    Meets env P (Prog.check b e) (fun _ => P) Er := by
  rw [check_of_true h]
  exact Meets.ret fun _ hs => hs

/-- Both branches. Source: none: infrastructure. Kind: L -/
theorem Meets.ite {b : Prop} [Decidable b] {p q : Prog S E α} (hp : b → Meets env P p Q Er)
    (hq : ¬ b → Meets env P q Q Er) : Meets env P (if b then p else q) Q Er := by
  split
  · exact hp ‹_›
  · exact hq ‹_›

/-- A computation without accesses that has a result. Source: none: infrastructure. Kind: L -/
theorem Meets.ofResult {x : Except E α} (h : ∀ s, P s → ∃ a, x = .ok a ∧ Q a s) :
    Meets env P (Prog.ofResult x) Q Er := by
  intro s i hs
  obtain ⟨a, rfl, hQ⟩ := h s hs
  exact Meets.ret (P := fun t => t = s) (fun t ht => ht ▸ hQ) s i rfl

/-- **The rule of loops**: `I` holds of the local variables and the state at the start of every
turn, and `M` of the value that ends the loop.
Source: none: infrastructure
Kind: P -/
theorem Meets.loop {body : σ → Prog S E (σ ⊕ β)} {k : β → Prog S E α} (I : σ → S → Prop)
    {M : β → S → Prop} (hb : ∀ j, Meets env (I j) (body j) (Sum.elim I M) Er)
    (hk : ∀ b, Meets env (M b) (k b) Q Er) (j : σ) : Meets env (I j) (Prog.loop body j k) Q Er := by
  have key : ∀ n j s i o t, I j s →
      exec n (under env (Prog.loop body j k)) (s, i) = some (o, t) →
      (∀ a, o = .ok a → Q a t.1) ∧ ∀ e, o = .error e → Er e := by
    intro n
    induction n with
    | zero =>
        intro j s i o t _ hr
        simp at hr
    | succ n ih =>
        intro j s i o t hs hr
        rcases exec_bind (show exec n (again (fun j => under env (body j)) j
          fun b => under env (k b)) (s, i) = some (o, t) from hr) with
          ⟨j' | b, ⟨u, i'⟩, hp, hf⟩ | ⟨e, he, hp⟩
        · exact ih j' u i' o t ((hb j s i hs).1 _ _ hp) hf
        · have hM : M b u := (hb j s i hs).1 _ _ hp
          constructor
          · rintro a rfl
            exact (hk b u i' hM).1 a t ⟨n, hf⟩
          · rintro e rfl
            exact (hk b u i' hM).2 e t ⟨n, hf⟩
        · constructor
          · rintro a rfl
            simp at he
          · rintro e' rfl
            obtain rfl : e' = e := by simpa using he
            exact (hb j s i hs).2 _ _ hp
  intro s i hs
  constructor
  · rintro a t ⟨n, hr⟩
    exact (key n j s i _ t hs hr).1 a rfl
  · rintro e t ⟨n, hr⟩
    exact (key n j s i _ t hs hr).2 e rfl

/-- A known run of a part. Source: none: infrastructure. Kind: L -/
theorem Meets.zoom {F : S → Prop} (hget : ∀ i s, l.get (env i s) = l.get s) (henv : Stable env F)
    (hset : ∀ u s, F s → F (l.set u s)) {p : Prog T E α} {m u : T} {a : α}
    (h : Runs p m (.ok a) u) :
    Meets env (fun s => F s ∧ l.get s = m) (Prog.zoom l p)
      (fun b s => b = a ∧ F s ∧ l.get s = u) Er := by
  rintro s i ⟨hF, rfl⟩
  obtain ⟨t, j, hrun, hu, hF'⟩ := zoom_runs hget henv hset h hF i
  constructor
  · intro b t' hr
    obtain ⟨hb, rfl⟩ := hr.det hrun
    exact ⟨Except.ok.inj hb, hF', hu⟩
  · intro e t' hr
    exact absurd (hr.det hrun).1 (by simp)

/-! ## The way of a run -/

/-- A run of `p` from `s` comes through `t`. Source: none: infrastructure. Kind: D -/
inductive Passes : {α : Type} → Prog S E α → S → S → Prop
  | here {α : Type} (p : Prog S E α) (s : S) : Passes p s s
  | act {ρ α : Type} {f : S → ρ × S} {k : ρ → Prog S E α} {s t : S}
      (h : Passes (k (f s).1) (f s).2 t) : Passes (.act f k) s t
  | loop {σ β α : Type} {body : σ → Prog S E (σ ⊕ β)} {i : σ} {k : β → Prog S E α} {s t : S}
      (h : Passes (again body i k) s t) : Passes (.loop body i k) s t

/-- Every access of `p` is a step in `R`. Source: none: infrastructure. Kind: D -/
def Within (R : S → S → Prop) : {α : Type} → Prog S E α → Prop
  | _, ret _ => True
  | _, raise _ => True
  | _, act f k => (∀ s, R s (f s).2) ∧ ∀ r, Within R (k r)
  | _, loop body _ k => (∀ j, Within R (body j)) ∧ ∀ b, Within R (k b)

variable {R : S → S → Prop}

/-- Source: none: infrastructure. Kind: L -/
theorem Within.bind {p : Prog S E α} {f : α → Prog S E β} (hp : Within R p)
    (hf : ∀ a, Within R (f a)) : Within R (p.bind f) := by
  induction p with
  | ret a => exact hf a
  | act g k ih => exact ⟨hp.1, fun r => ih r (hp.2 r) hf⟩
  | loop body i k _ ih => exact ⟨hp.1, fun b => ih b (hp.2 b) hf⟩
  | raise e => trivial

/-- Source: none: infrastructure. Kind: L -/
theorem Within.ite {b : Prop} [Decidable b] {p q : Prog S E α} (hp : Within R p)
    (hq : Within R q) : Within R (if b then p else q) := by
  split
  · exact hp
  · exact hq

/-- Source: none: infrastructure. Kind: L -/
theorem Within.access {f : S → ρ × S} (hf : ∀ s, R s (f s).2) :
    Within R (Prog.access f : Prog S E ρ) :=
  ⟨hf, fun _ => trivial⟩

/-- Source: none: infrastructure. Kind: L -/
theorem Within.load {f : S → ρ} (hrefl : ∀ s, R s s) : Within R (Prog.load f : Prog S E ρ) :=
  Within.access hrefl

/-- Source: none: infrastructure. Kind: L -/
theorem Within.store {f : S → S} (hf : ∀ s, R s (f s)) : Within R (Prog.store f : Prog S E Unit) :=
  Within.access hf

/-- Source: none: infrastructure. Kind: L -/
theorem Within.ret {a : α} : Within R (Prog.ret a : Prog S E α) := trivial

/-- Source: none: infrastructure. Kind: L -/
theorem Within.check {b : Bool} {e : E} : Within R (Prog.check b e) := by
  cases b <;> trivial

/-- Source: none: infrastructure. Kind: L -/
theorem Within.ofResult {x : Except E α} : Within R (Prog.ofResult x) := by
  cases x <;> trivial

/-- A zoomed program makes steps in the part it is about. Source: none: infrastructure. Kind: L -/
theorem Within.zoom (hset : ∀ u s, R s (l.set u s)) (p : Prog T E α) :
    Within R (Prog.zoom l p) := by
  induction p with
  | ret a => trivial
  | act g k ih => exact ⟨fun s => hset _ s, ih⟩
  | loop body i k ihb ih => exact ⟨ihb, ih⟩
  | raise e => trivial

/-- The steps of a program and of its environment. Source: none: infrastructure. Kind: L -/
theorem Within.under (htrans : ∀ s t u, R s t → R t u → R s u) (henv : ∀ i s, R s (env i s))
    {p : Prog S E α} (h : Within R p) :
    Within (fun x y : S × Nat => R x.1 y.1) (Prog.under env p) := by
  induction p with
  | ret a => trivial
  | act g k ih => exact ⟨fun x => htrans _ _ _ (henv _ _) (h.1 _), fun r => ih r (h.2 r)⟩
  | loop body i k ihb ih => exact ⟨fun j => ihb j (h.1 j), fun b => ih b (h.2 b)⟩
  | raise e => trivial

/-- **What every access does, every way does.** Source: none: infrastructure. Kind: P -/
theorem Passes.within (hrefl : ∀ s, R s s) (htrans : ∀ s t u, R s t → R t u → R s u)
    {p : Prog S E α} {s t : S} (h : Passes p s t) (hp : Within R p) : R s t := by
  induction h with
  | here p s => exact hrefl s
  | act _ ih => exact htrans _ _ _ (hp.1 _) (ih (hp.2 _))
  | loop _ ih =>
      refine ih (Within.bind (hp.1 _) fun x => ?_)
      cases x with
      | inl j => exact hp
      | inr b => exact hp.2 b

/-- **An assertion that goes with the accesses**: the environment takes it on to the next access, and
the program keeps it. Source: none: infrastructure. Kind: P -/
theorem Runs.along {J : Nat → S → Prop} (henv : ∀ i s, J i s → J (i + 1) (env i s)) {p : Prog S E α}
    (hp : Within (fun s t => ∀ i, J i s → J i t) p) {s t : S} {o : Except E α} {i j : Nat}
    (h : Runs (Prog.under env p) (s, i) o (t, j)) (hs : J i s) : J j t := by
  obtain ⟨n, hn⟩ := h
  induction n generalizing p s i with
  | zero => simp at hn
  | succ n ih =>
      cases p with
      | ret a =>
          simp only [Prog.under, exec_ret, Option.some.injEq, Prod.mk.injEq] at hn
          obtain ⟨-, rfl, rfl⟩ := hn
          exact hs
      | raise e =>
          simp only [Prog.under, exec_raise, Option.some.injEq, Prod.mk.injEq] at hn
          obtain ⟨-, rfl, rfl⟩ := hn
          exact hs
      | act f k => exact ih (hp.2 _) (hp.1 _ _ (henv i s hs)) hn
      | loop body i' k =>
          have hagain : Within (fun s t => ∀ i, J i s → J i t) (again body i' k) := by
            refine Within.bind (hp.1 i') fun x => ?_
            cases x with
            | inl j => exact hp
            | inr b => exact hp.2 b
          refine ih hagain hs ?_
          rw [under_again]
          exact hn

/-- An environment that has come to rest leaves a run as it is. Source: none: infrastructure.
Kind: L -/
theorem Runs.undisturbed {I : S → Prop} {i : Nat} (henv : ∀ j ≥ i, ∀ s, I s → env j s = s)
    {p : Prog S E α} (hp : Within (fun s t => I s → I t) p) {s t : S} {o : Except E α}
    (h : Runs p s o t) (hs : I s) : ∃ j, Runs (Prog.under env p) (s, i) o (t, j) := by
  obtain ⟨n, hn⟩ := h
  induction n generalizing p s i with
  | zero => simp at hn
  | succ n ih =>
      cases p with
      | ret a =>
          simp only [exec_ret, Option.some.injEq, Prod.mk.injEq] at hn
          obtain ⟨rfl, rfl⟩ := hn
          exact ⟨i, Runs.ret⟩
      | raise e =>
          simp only [exec_raise, Option.some.injEq, Prod.mk.injEq] at hn
          obtain ⟨rfl, rfl⟩ := hn
          exact ⟨i, runs_raise_iff.mpr ⟨rfl, rfl⟩⟩
      | act f k =>
          obtain ⟨j, hrun⟩ := ih (i := i + 1) (fun j hj => henv j (by omega)) (hp.2 (f s).1)
            (hp.1 s hs) hn
          refine ⟨j, ?_⟩
          simp only [Prog.under]
          rw [runs_act_iff]
          simpa only [henv i (Nat.le_refl i) s hs] using hrun
      | loop body j k =>
          have hagain : Within (fun s t => I s → I t) (again body j k) := by
            refine Within.bind (hp.1 j) fun x => ?_
            cases x with
            | inl j => exact hp
            | inr b => exact hp.2 b
          obtain ⟨j', hrun⟩ := ih henv hagain hs hn
          rw [under_again] at hrun
          exact ⟨j', runs_loop_iff.mpr hrun⟩

/-- A run does not see what the environment does later. Source: none: infrastructure. Kind: L -/
theorem Runs.before (env' : Nat → S → S) {p : Prog S E α} {s t : S} {o : Except E α} {i j : Nat}
    (h : Runs (Prog.under env p) (s, i) o (t, j)) :
    i ≤ j ∧ ((∀ k, i ≤ k → k < j → env' k = env k) →
      Runs (Prog.under env' p) (s, i) o (t, j)) := by
  obtain ⟨n, hn⟩ := h
  induction n generalizing p s i with
  | zero => simp at hn
  | succ n ih =>
      cases p with
      | ret a =>
          simp only [Prog.under, exec_ret, Option.some.injEq, Prod.mk.injEq] at hn
          obtain ⟨rfl, rfl, rfl⟩ := hn
          exact ⟨Nat.le_refl i, fun _ => Runs.ret⟩
      | raise e =>
          simp only [Prog.under, exec_raise, Option.some.injEq, Prod.mk.injEq] at hn
          obtain ⟨rfl, rfl, rfl⟩ := hn
          exact ⟨Nat.le_refl i, fun _ => runs_raise_iff.mpr ⟨rfl, rfl⟩⟩
      | act f k =>
          obtain ⟨hle, hrun⟩ := ih (p := k (f (env i s)).1) (s := (f (env i s)).2) (i := i + 1) hn
          refine ⟨by omega, fun hagree => ?_⟩
          simp only [Prog.under]
          rw [runs_act_iff]
          simp only [hagree i (Nat.le_refl i) (by omega)]
          exact hrun fun k hk hkj => hagree k (by omega) hkj
      | loop body i' k =>
          have hagain : exec n (Prog.under env (again body i' k)) (s, i) = some (o, (t, j)) := by
            rw [under_again]
            exact hn
          obtain ⟨hle, hrun⟩ := ih hagain
          refine ⟨hle, fun hagree => ?_⟩
          have hrun' := hrun hagree
          rw [under_again] at hrun'
          exact runs_loop_iff.mpr hrun'

end Cs140e.Lib.Prog
