import Mathlib.Data.List.Nodup
import Mathlib.Logic.Function.Basic

/-!
# Linked chains

What links from element to element spell. A pointer is an element or `none`.

* `Segment next p xs r` — from `p` the links lead through `xs` to `r`. `segment_append_iff` — cutting
  one in two.
* `Chain next p xs` — a segment that ends at `none`. `Chain.nodup` — it comes by no element twice.
* `Chain.push`, `Chain.snoc`, `Chain.splice` — a new element in front, behind, and in the middle.
-/

namespace Cs140e.Lib

variable {E : Type}

/-- From `p` the links lead through `xs` to `r`. Source: none: infrastructure. Kind: D -/
def Segment (next : E → Option E) : Option E → List E → Option E → Prop
  | p, [], r => p = r
  | p, x :: xs, r => p = some x ∧ Segment next (next x) xs r

/-- From `p` the links lead through `xs` to the end. Source: none: infrastructure. Kind: D -/
def Chain (next : E → Option E) (p : Option E) (xs : List E) : Prop := Segment next p xs none

variable {next next' : E → Option E} {p r : Option E} {xs ys : List E} {x y : E}

/-! ## Segments -/

/-- Equation lemma. Source: none: infrastructure. Kind: L -/
@[simp] theorem segment_nil_iff : Segment next p [] r ↔ p = r := Iff.rfl

/-- Equation lemma. Source: none: infrastructure. Kind: L -/
@[simp] theorem segment_cons_iff :
    Segment next p (x :: xs) r ↔ p = some x ∧ Segment next (next x) xs r := Iff.rfl

/-- A segment in two parts. Source: none: infrastructure. Kind: L -/
theorem segment_append_iff :
    Segment next p (xs ++ ys) r ↔ ∃ m, Segment next p xs m ∧ Segment next m ys r := by
  induction xs generalizing p with
  | nil => simp
  | cons x xs ih => simp [ih, and_assoc]

/-- Only the links of its elements count. Source: none: infrastructure. Kind: L -/
theorem Segment.congr (h : Segment next p xs r) (heq : ∀ x ∈ xs, next' x = next x) :
    Segment next' p xs r := by
  induction xs generalizing p with
  | nil => exact h
  | cons x xs ih =>
      refine ⟨h.1, ?_⟩
      rw [heq x List.mem_cons_self]
      exact ih h.2 fun y hy => heq y (List.mem_cons_of_mem x hy)

/-- A change of a link elsewhere. Source: none: infrastructure. Kind: L -/
theorem Segment.update [DecidableEq E] (h : Segment next p xs r) (hx : x ∉ xs) (v : Option E) :
    Segment (Function.update next x v) p xs r := by
  refine h.congr fun y hy => Function.update_of_ne ?_ _ _
  rintro rfl
  exact hx hy

/-! ## Chains -/

/-- Equation lemma. Source: none: infrastructure. Kind: L -/
@[simp] theorem chain_nil_iff : Chain next p [] ↔ p = none := Iff.rfl

/-- Equation lemma. Source: none: infrastructure. Kind: L -/
@[simp] theorem chain_cons_iff : Chain next p (x :: xs) ↔ p = some x ∧ Chain next (next x) xs :=
  Iff.rfl

/-- Where a chain starts. Source: none: infrastructure. Kind: L -/
theorem Chain.head (h : Chain next p xs) : p = xs.head? := by
  cases xs with
  | nil => exact h
  | cons x xs => exact h.1

/-- Only the links of its elements count. Source: none: infrastructure. Kind: L -/
theorem Chain.congr (h : Chain next p xs) (heq : ∀ x ∈ xs, next' x = next x) : Chain next' p xs :=
  Segment.congr h heq

/-- A pointer spells one chain. Source: none: infrastructure. Kind: L -/
theorem Chain.unique (h : Chain next p xs) (h' : Chain next p ys) : xs = ys := by
  induction xs generalizing p ys with
  | nil =>
      have hp : p = none := h
      cases ys with
      | nil => rfl
      | cons y ys => simp [hp] at h'
  | cons x xs ih =>
      have hp : p = some x := h.1
      cases ys with
      | nil => simp [hp] at h'
      | cons y ys =>
          obtain rfl : x = y := by simpa [hp] using h'.1
          rw [ih h.2 h'.2]

/-- A chain that ends comes by no element twice. Source: none: infrastructure. Kind: P -/
theorem Chain.nodup (h : Chain next p xs) : xs.Nodup := by
  induction xs generalizing p with
  | nil => exact List.nodup_nil
  | cons x xs ih =>
      refine List.nodup_cons.mpr ⟨fun hx => ?_, ih h.2⟩
      -- from a second `x` the links would lead on as they do from the first one
      obtain ⟨as, bs, rfl⟩ := List.append_of_mem hx
      obtain ⟨m, -, hm⟩ := segment_append_iff.mp h.2
      have hsame := Chain.unique h.2 (show Chain next (next x) bs from hm.2)
      have hlen := congrArg List.length hsame
      simp only [List.length_append, List.length_cons] at hlen
      omega

section

variable [DecidableEq E]

/-- A new element in front. Source: none: infrastructure. Kind: P -/
theorem Chain.push (h : Chain next p xs) (hx : x ∉ xs) :
    Chain (Function.update next x p) (some x) (x :: xs) :=
  ⟨rfl, by rw [Function.update_self]; exact Segment.update h hx p⟩

/-- A new element in the middle. Source: none: infrastructure. Kind: P -/
theorem Chain.splice (h : Chain next p (xs ++ y :: ys)) (hx : x ∉ xs ++ y :: ys) :
    Chain (Function.update (Function.update next x (next y)) y (some x)) p (xs ++ y :: x :: ys) := by
  have hxs : x ∉ xs := fun hmem => hx (List.mem_append_left _ hmem)
  have hxy : x ≠ y := fun heq => hx (heq ▸ List.mem_append_right _ List.mem_cons_self)
  have hxys : x ∉ ys := fun hmem =>
    hx (List.mem_append_right _ (List.mem_cons_of_mem y hmem))
  obtain ⟨-, hyys, hdisj⟩ := List.nodup_append.mp h.nodup
  have hy : y ∉ xs := fun hmem => hdisj y hmem y List.mem_cons_self rfl
  obtain ⟨m, hm, hmid, hrest⟩ := segment_append_iff.mp h
  refine segment_append_iff.mpr ⟨m, (hm.update hxs _).update hy _, hmid, ?_, ?_⟩
  · rw [Function.update_self]
  · rw [Function.update_of_ne hxy, Function.update_self]
    exact (hrest.update hxys _).update (List.nodup_cons.mp hyys).1 _

/-- A new element behind the last one. Source: none: infrastructure. Kind: P -/
theorem Chain.snoc (h : Chain next p (xs ++ [y])) (hx : x ∉ xs ++ [y]) :
    Chain (Function.update (Function.update next x none) y (some x)) p (xs ++ [y, x]) := by
  obtain ⟨m, -, -, hlast⟩ := segment_append_iff.mp h
  have hnew := h.splice hx
  rwa [segment_nil_iff.mp hlast] at hnew

end

end Cs140e.Lib
