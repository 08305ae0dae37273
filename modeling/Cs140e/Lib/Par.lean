import Cs140e.Lib.Prog

/-!
# Two programs on one state: interleavings, rely and guarantee

* `step` runs one access (or one silent loop turn) of a program; `Par.Step` lets either of two
  programs take a step on the shared state, and `Par.Reach` is any number of such steps. Accesses
  are indivisible and everything between two accesses of one program may be interleaved with any
  number of accesses of the other.
* `Contract` — what a program may assume of the other one's accesses (`rely`), what it promises of
  its own (`guar`), the invariant both keep, and the stops it may make.
* `Safe C p Q s` — from `s`, whatever the other program does within `C.rely`, every access of `p`
  keeps the invariant and the guarantee, `p` stops only as `C.stop` allows, and if it returns then
  `Q` holds. It is defined by recursion on `p`; a loop carries an invariant of its own.
* `Par.safe_of_reach` — **the rule of parallel composition**: two safe programs whose guarantees
  imply each other's relies stay safe in every reachable configuration.
-/

namespace Cs140e.Lib

namespace Prog

variable {S E α β γ σ : Type}

/-- One step: an access, or the silent unrolling of a loop. A finished program has none.
Source: none: infrastructure. Kind: D -/
def step : Prog S E α → S → Option (Prog S E α × S)
  | ret _, _ => none
  | raise _, _ => none
  | act f k, s => some (k (f s).1, (f s).2)
  | loop body i k, s => some (again body i k, s)

/-- What a finished program has returned. Source: none: infrastructure. Kind: D -/
def value? : {α : Type} → Prog S E α → Option α
  | _, ret a => some a
  | _, _ => none

/-- Source: none: infrastructure. Kind: L -/
theorem eq_ret_of_value? {p : Prog S E α} {a : α} (h : p.value? = some a) : p = ret a := by
  cases p with
  | ret b => rw [Option.some.inj h]
  | raise e => cases h
  | act f k => cases h
  | loop body i k => cases h

/-- What a program assumes and promises when it shares its state with another one.
Source: none: infrastructure
Kind: D -/
structure Contract (S E : Type) where
  /-- Kept by every access of either program. -/
  inv : S → Prop
  /-- What the other program's accesses may do. -/
  rely : S → S → Prop
  /-- What this program's accesses may do. -/
  guar : S → S → Prop
  /-- The stops this program may make, and where. -/
  stop : E → S → Prop
  rely_refl : ∀ s, rely s s
  rely_trans : ∀ {s t u}, rely s t → rely t u → rely s u
  guar_refl : ∀ s, guar s s

/-- `p` keeps the contract from `s` on, and returns only where `Q` holds.
Source: none: infrastructure
Kind: D -/
def Safe (C : Contract S E) : {α : Type} → Prog S E α → (α → S → Prop) → S → Prop
  | _, ret a, Q, s => ∀ t, C.rely s t → C.inv t → Q a t
  | _, raise e, _, s => ∀ t, C.rely s t → C.inv t → C.stop e t
  | _, act f k, Q, s => ∀ t, C.rely s t → C.inv t →
      C.guar t (f t).2 ∧ C.inv (f t).2 ∧ Safe C (k (f t).1) Q (f t).2
  | _, loop (σ := σ) body i k, Q, s => ∃ J : σ → S → Prop, J i s ∧
      (∀ j t u, J j t → C.rely t u → C.inv u → J j u) ∧
      ∀ j t, J j t → C.inv t → Safe C (body j) (Sum.elim J fun b => Safe C (k b) Q) t

variable {C : Contract S E}

/-- The other program's accesses do not disturb safety. Source: none: infrastructure. Kind: L -/
theorem Safe.env {p : Prog S E α} {Q : α → S → Prop} {s t : S} (h : Safe C p Q s)
    (hr : C.rely s t) (hi : C.inv t) : Safe C p Q t := by
  cases p with
  | ret a => exact fun u hu hiu => h u (C.rely_trans hr hu) hiu
  | raise e => exact fun u hu hiu => h u (C.rely_trans hr hu) hiu
  | act f k => exact fun u hu hiu => h u (C.rely_trans hr hu) hiu
  | loop body i k =>
      obtain ⟨J, hJ, hst, hb⟩ := h
      exact ⟨J, hst i s t hJ hr hi, hst, hb⟩

/-- A weaker postcondition is safe too. Source: none: infrastructure. Kind: L -/
theorem Safe.mono {p : Prog S E α} {Q Q' : α → S → Prop} {s : S} (h : Safe C p Q s)
    (hQ : ∀ a t, C.inv t → Q a t → Q' a t) : Safe C p Q' s := by
  induction p generalizing s with
  | ret a => exact fun t ht hi => hQ a t hi (h t ht hi)
  | raise e => exact h
  | act f k ih =>
      intro t ht hi
      obtain ⟨hg, hi', hk⟩ := h t ht hi
      exact ⟨hg, hi', ih _ hk hQ⟩
  | loop body i k ihb ihk =>
      obtain ⟨J, hJ, hst, hb⟩ := h
      refine ⟨J, hJ, hst, fun j t ht hi => ihb j (hb j t ht hi) ?_⟩
      rintro (j' | b) u hiu hu
      · exact hu
      · exact ihk b hu hQ

/-- **Sequencing.** Source: none: infrastructure. Kind: P -/
theorem Safe.bind {p : Prog S E α} {f : α → Prog S E β} {Q : β → S → Prop} {s : S}
    (hi : C.inv s) (h : Safe C p (fun a t => Safe C (f a) Q t) s) : Safe C (p.bind f) Q s := by
  induction p generalizing s with
  | ret a => exact h s (C.rely_refl s) hi
  | raise e => exact h
  | act g k ih =>
      intro t ht hit
      obtain ⟨hg, hi', hk⟩ := h t ht hit
      exact ⟨hg, hi', ih _ hi' hk⟩
  | loop body i k ihb ihk =>
      obtain ⟨J, hJ, hst, hb⟩ := h
      refine ⟨J, hJ, hst, fun j t ht hit => (hb j t ht hit).mono ?_⟩
      rintro (j' | b) u hiu hu
      · exact hu
      · exact ihk b hiu hu

/-- A loop is safe under a loop invariant that the other program cannot break and that every turn
restores. Source: none: infrastructure. Kind: L -/
theorem Safe.loop {body : σ → Prog S E (σ ⊕ γ)} {i : σ} {k : γ → Prog S E α}
    {Q : α → S → Prop} {s : S} (J : σ → S → Prop) (hJ : J i s)
    (hst : ∀ j t u, J j t → C.rely t u → C.inv u → J j u)
    (hb : ∀ j t, J j t → C.inv t → Safe C (body j) (Sum.elim J fun b => Safe C (k b) Q) t) :
    Safe C (Prog.loop body i k) Q s := ⟨J, hJ, hst, hb⟩

/-- A load changes nothing, so only what it read matters. Source: none: infrastructure. Kind: L -/
theorem Safe.load {ρ : Type} {f : S → ρ} {k : ρ → Prog S E α} {Q : α → S → Prop} {s : S}
    (h : ∀ t, C.rely s t → C.inv t → Safe C (k (f t)) Q t) :
    Safe C (act (fun s => (f s, s)) k) Q s :=
  fun t ht hi => ⟨C.guar_refl t, hi, h t ht hi⟩

/-- Sequencing after a load. Source: none: infrastructure. Kind: L -/
theorem Safe.load_bind {ρ : Type} {f : S → ρ} {k : ρ → Prog S E α} {Q : α → S → Prop} {s : S}
    (h : ∀ t, C.rely s t → C.inv t → Safe C (k (f t)) Q t) :
    Safe C ((Prog.load f).bind k) Q s := Safe.load h

/-- **Preservation.** One step of a safe program keeps the invariant and the guarantee, and
leaves a safe program. Source: none: infrastructure. Kind: P -/
theorem Safe.step {p p' : Prog S E α} {Q : α → S → Prop} {s s' : S} (h : Safe C p Q s)
    (hi : C.inv s) (hs : p.step s = some (p', s')) :
    C.guar s s' ∧ C.inv s' ∧ Safe C p' Q s' := by
  cases p with
  | ret a => simp [Prog.step] at hs
  | raise e => simp [Prog.step] at hs
  | act f k =>
      simp only [Prog.step, Option.some.injEq, Prod.mk.injEq] at hs
      obtain ⟨rfl, rfl⟩ := hs
      exact h s (C.rely_refl s) hi
  | loop body i k =>
      simp only [Prog.step, Option.some.injEq, Prod.mk.injEq] at hs
      obtain ⟨rfl, rfl⟩ := hs
      obtain ⟨J, hJ, hst, hb⟩ := h
      refine ⟨C.guar_refl _, hi, Safe.bind hi ((hb i _ hJ hi).mono ?_)⟩
      rintro (j' | b) u hiu hu
      · exact ⟨J, hu, hst, hb⟩
      · exact hu

end Prog

/-! ## Parallel composition -/

namespace Par

open Prog

variable {S E α β : Type}

/-- Two programs and the state they share. Source: none: infrastructure. Kind: D -/
structure Config (S E α β : Type) where
  /-- The first program, or what is left of it. -/
  left : Prog S E α
  /-- The second program, or what is left of it. -/
  right : Prog S E β
  /-- The shared state. -/
  state : S

/-- Either program takes a step. Source: none: infrastructure. Kind: D -/
inductive Step : Config S E α β → Config S E α β → Prop where
  | left {p p' : Prog S E α} {q : Prog S E β} {s s' : S} :
      p.step s = some (p', s') → Step ⟨p, q, s⟩ ⟨p', q, s'⟩
  | right {p : Prog S E α} {q q' : Prog S E β} {s s' : S} :
      q.step s = some (q', s') → Step ⟨p, q, s⟩ ⟨p, q', s'⟩

/-- Any number of steps, in any order. Source: none: infrastructure. Kind: D -/
def Reach : Config S E α β → Config S E α β → Prop := Relation.ReflTransGen Step

/-- Let the first program step on `true`, the second on `false`; a step that is not there is
skipped. Source: none: infrastructure. Kind: D -/
def schedule : List Bool → Config S E α β → Config S E α β
  | [], c => c
  | true :: bs, c => match c.left.step c.state with
    | some (p, s) => schedule bs ⟨p, c.right, s⟩
    | none => schedule bs c
  | false :: bs, c => match c.right.step c.state with
    | some (q, s) => schedule bs ⟨c.left, q, s⟩
    | none => schedule bs c

/-- A schedule leads to a reachable configuration. Source: none: infrastructure. Kind: L -/
theorem reach_schedule (bs : List Bool) (c : Config S E α β) : Reach c (schedule bs c) := by
  induction bs generalizing c with
  | nil => exact Relation.ReflTransGen.refl
  | cons b bs ih =>
      cases b with
      | true =>
          rw [schedule]
          split
          · next p s hs => exact Relation.ReflTransGen.head (Step.left hs) (ih _)
          · exact ih c
      | false =>
          rw [schedule]
          split
          · next q s hs => exact Relation.ReflTransGen.head (Step.right hs) (ih _)
          · exact ih c

/-- Both programs are safe and the invariant holds. Source: none: infrastructure. Kind: D -/
structure Ok (C D : Contract S E) (Q : α → S → Prop) (R : β → S → Prop)
    (c : Config S E α β) : Prop where
  inv : C.inv c.state
  left : Safe C c.left Q c.state
  right : Safe D c.right R c.state

variable {C D : Contract S E} {Q : α → S → Prop} {R : β → S → Prop}

/-- One step keeps both programs safe. Source: none: infrastructure. Kind: L -/
theorem Ok.step (hinv : ∀ s, C.inv s ↔ D.inv s) (hCD : ∀ s t, C.guar s t → D.rely s t)
    (hDC : ∀ s t, D.guar s t → C.rely s t) {c c' : Config S E α β} (h : Ok C D Q R c)
    (hs : Step c c') : Ok C D Q R c' := by
  cases hs with
  | left hp =>
      obtain ⟨hg, hi, hsafe⟩ := h.left.step h.inv hp
      exact ⟨hi, hsafe, h.right.env (hCD _ _ hg) ((hinv _).mp hi)⟩
  | right hq =>
      obtain ⟨hg, hi, hsafe⟩ := h.right.step ((hinv _).mp h.inv) hq
      have hiC := (hinv _).mpr hi
      exact ⟨hiC, h.left.env (hDC _ _ hg) hiC, hsafe⟩

/-- **Parallel composition**: safety of both programs holds in every reachable configuration.
Source: none: infrastructure
Kind: P -/
theorem safe_of_reach (hinv : ∀ s, C.inv s ↔ D.inv s) (hCD : ∀ s t, C.guar s t → D.rely s t)
    (hDC : ∀ s t, D.guar s t → C.rely s t) {c c' : Config S E α β} (h : Ok C D Q R c)
    (hr : Reach c c') : Ok C D Q R c' := by
  induction hr with
  | refl => exact h
  | tail _ hs ih => exact ih.step hinv hCD hDC hs

end Par

end Cs140e.Lib
