import Mathlib.Algebra.Group.Nat.Even
import Mathlib.Data.List.Induction

/-!
# Incremental matching that does not look back

A matcher for a word `w` keeps how much of `w` it has just seen. On a wrong letter it starts again,
and it does not look at that letter again. For a word whose first letter occurs only once:

* `position_eq_length_iff` — it is behind `w` exactly when it was at its start before `w`.
* `Chain w n s` — `s` ends with `n` nonempty prefixes of `w` back to back, and no more.
  `Chain.position_eq_zero_iff` — the matcher is at its start exactly when `n` is even: a prefix
  that is seen from the start hides the one that follows it.
* `position_eq_length_iff_chain` — so it finds the occurrences behind an even number of them.
-/

namespace Cs140e.Lib.Matcher

variable {α : Type} [DecidableEq α]

/-- The position behind another letter. Source: none: infrastructure. Kind: D -/
def advance (w : List α) (pos : Nat) (c : α) : Nat := if w[pos]? = some c then pos + 1 else 0

/-- The position behind a string. Source: none: infrastructure. Kind: D -/
def position (w s : List α) : Nat := s.foldl (advance w) 0

variable {w s u : List α}

/-- Source: none: infrastructure. Kind: L -/
@[simp] theorem position_nil : position w [] = 0 := rfl

/-- Source: none: infrastructure. Kind: L -/
theorem position_append_singleton (s : List α) (c : α) :
    position w (s ++ [c]) = advance w (position w s) c := by
  simp [position, List.foldl_append]

/-- What has just been seen is a prefix of the word, and before it the matcher was at its start.
Source: none: infrastructure
Kind: L -/
theorem exists_of_position (s : List α) :
    position w s ≤ w.length ∧ ∃ u, s = u ++ w.take (position w s) ∧ position w u = 0 := by
  induction s using List.reverseRecOn with
  | nil => exact ⟨Nat.zero_le _, [], by simp⟩
  | append_singleton s c ih =>
      obtain ⟨hle, u, hs, hu⟩ := ih
      rw [position_append_singleton, advance]
      split
      · next hc =>
        obtain ⟨hlt, hget⟩ := List.getElem?_eq_some_iff.mp hc
        refine ⟨hlt, u, ?_, hu⟩
        rw [List.take_add_one, hc, Option.toList_some, ← List.append_assoc, ← hs]
      · next hc =>
        refine ⟨Nat.zero_le _, s ++ [c], by simp, ?_⟩
        rw [position_append_singleton, advance, if_neg hc]

/-- From its start the matcher follows a prefix of the word. Source: none: infrastructure. Kind: L -/
theorem position_append_take (hu : position w u = 0) {p : Nat} (hp : p ≤ w.length) :
    position w (u ++ w.take p) = p := by
  induction p with
  | zero => simpa using hu
  | succ p ih =>
      have hlt : p < w.length := hp
      rw [List.take_add_one, List.getElem?_eq_getElem hlt, Option.toList_some, ← List.append_assoc,
        position_append_singleton, ih (Nat.le_of_lt hlt), advance, List.getElem?_eq_getElem hlt,
        if_pos rfl]

/-- **The occurrences that are found** are those the matcher is at its start in front of.
Source: none: infrastructure
Kind: P -/
theorem position_eq_length_iff :
    position w s = w.length ↔ ∃ u, s = u ++ w ∧ position w u = 0 := by
  constructor
  · intro h
    obtain ⟨-, u, hs, hu⟩ := exists_of_position (w := w) s
    rw [h, List.take_length] at hs
    exact ⟨u, hs, hu⟩
  · rintro ⟨u, rfl, hu⟩
    simpa using position_append_take hu (Nat.le_refl w.length)

/-! ## Words whose first letter occurs once -/

variable {a : α} {t : List α}

/-- Letters that are not the first one leave the matcher at its start. Source: none: infrastructure.
Kind: L -/
theorem position_append_of_not_mem (hs : position (a :: t) s = 0) {l : List α} (hl : a ∉ l) :
    position (a :: t) (s ++ l) = 0 := by
  induction l using List.reverseRecOn with
  | nil => simpa using hs
  | append_singleton l c ih =>
      rw [List.mem_append, not_or] at hl
      have hc : ¬ a = c := fun h => hl.2 (by simp [h])
      rw [← List.append_assoc, position_append_singleton, ih hl.1, advance]
      simp [hc]

/-- **A prefix that is not seen from the start is missed**, and leaves the matcher at its start.
Source: none: infrastructure
Kind: P -/
theorem position_append_take_of_ne_zero (ha : a ∉ t) (hu : position (a :: t) u ≠ 0) {p : Nat}
    (hp : 0 < p) : position (a :: t) (u ++ (a :: t).take p) = 0 := by
  obtain ⟨p, rfl⟩ : ∃ q, p = q + 1 := ⟨p - 1, by omega⟩
  have hfirst : position (a :: t) (u ++ [a]) = 0 := by
    obtain ⟨q, hq⟩ : ∃ q, position (a :: t) u = q + 1 := ⟨position (a :: t) u - 1, by omega⟩
    rw [position_append_singleton, advance, hq, List.getElem?_cons_succ, if_neg]
    intro h
    exact ha (List.mem_of_getElem? h)
  rw [List.take_succ_cons, List.append_cons]
  exact position_append_of_not_mem hfirst fun h => ha (List.mem_of_mem_take h)

/-- The string ends with `n` nonempty prefixes of `w` back to back, and not with `n + 1`.
Source: none: infrastructure
Kind: D -/
inductive Chain (w : List α) : Nat → List α → Prop where
  | zero {u : List α} (none : ∀ p, 0 < p → p ≤ w.length → ¬ w.take p <:+ u) : Chain w 0 u
  | succ {n p : Nat} {u : List α} (pos : 0 < p) (le : p ≤ w.length) (rest : Chain w n u) :
      Chain w (n + 1) (u ++ w.take p)

omit [DecidableEq α] in
/-- Every string ends with some number of prefixes. Source: none: infrastructure. Kind: L -/
theorem exists_chain (w s : List α) : ∃ n, Chain w n s := by
  induction hn : s.length using Nat.strong_induction_on generalizing s with
  | _ n ih =>
      by_cases h : ∀ p, 0 < p → p ≤ w.length → ¬ w.take p <:+ s
      · exact ⟨0, .zero h⟩
      · push Not at h
        obtain ⟨p, hp, hle, u, rfl⟩ := h
        have hlen : (w.take p).length = p := List.length_take_of_le hle
        obtain ⟨m, hm⟩ := ih u.length (by rw [← hn, List.length_append, hlen]; omega) u rfl
        exact ⟨m + 1, .succ hp hle hm⟩

/-- **The matcher is at its start** exactly behind an even number of prefixes.
Source: none: infrastructure
Kind: P -/
theorem Chain.position_eq_zero_iff (ha : a ∉ t) {n : Nat} (h : Chain (a :: t) n s) :
    position (a :: t) s = 0 ↔ Even n := by
  induction h with
  | @zero u none =>
      obtain ⟨hle, v, hv, -⟩ := exists_of_position (w := a :: t) u
      have hzero : position (a :: t) u = 0 := by
        by_contra hne
        exact none _ (Nat.pos_of_ne_zero hne) hle ⟨v, hv.symm⟩
      simp [hzero]
  | @succ n p u pos le rest ih =>
      rw [Nat.even_add_one, ← ih]
      by_cases hu : position (a :: t) u = 0
      · rw [position_append_take hu le]
        simp only [hu, not_true_eq_false, iff_false]
        omega
      · simp [position_append_take_of_ne_zero ha hu pos, hu]

/-- **The occurrences that are found** are those behind an even number of prefixes.
Source: none: infrastructure
Kind: P -/
theorem position_eq_length_iff_chain (ha : a ∉ t) :
    position (a :: t) s = (a :: t).length ↔
      ∃ u n, s = u ++ a :: t ∧ Chain (a :: t) n u ∧ Even n := by
  rw [position_eq_length_iff]
  constructor
  · rintro ⟨u, rfl, hu⟩
    obtain ⟨n, hn⟩ := exists_chain (a :: t) u
    exact ⟨u, n, rfl, hn, (hn.position_eq_zero_iff ha).mp hu⟩
  · rintro ⟨u, n, rfl, hn, heven⟩
    exact ⟨u, rfl, (hn.position_eq_zero_iff ha).mpr heven⟩

end Cs140e.Lib.Matcher
