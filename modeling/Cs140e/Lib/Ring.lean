import Mathlib.Data.Nat.ModEq
import Mathlib.Data.List.Basic
import Mathlib.Logic.Function.Basic

/-!
# Ring buffers over an endless sequence

The ghost view of a circular buffer: all elements ever stored form one list `xs`, element `i`
lives in cell `i % N`, and the window from `lo` to `xs.length` is what the buffer still holds.

* `Holds N cells xs lo` — the window has fewer than `N` elements and every one of them is in its
  cell. `Holds.stage` and `Holds.publish` append an element in two steps, `Holds.pop` drops the
  oldest one, `Holds.contents` reads the window off the cells.
* `wrap_sub_mod` — counting with unsigned subtraction: the two indices `a % N` and `b % N`,
  subtracted modulo a word size that `N` divides, give `a - b` modulo `N`.
-/

namespace Cs140e.Lib.Ring

variable {α : Type}

/-! ## Index arithmetic -/

/-- Unsigned subtraction of two ring indices counts the window, when `N` divides the word size.
Source: none: infrastructure. Kind: L -/
theorem wrap_sub_mod {N W a b : Nat} (hN : 0 < N) (hW : N ∣ W) (hba : b ≤ a) (hab : a < b + N)
    (h0 : 0 < W) : (W - b % N + a % N) % W % N = a - b := by
  rw [Nat.mod_mod_of_dvd _ hW]
  have hb : b % N < N := Nat.mod_lt _ hN
  have hNW : N ≤ W := Nat.le_of_dvd h0 hW
  have key : W - b % N + a % N ≡ a - b [MOD N] := by
    apply Nat.ModEq.add_right_cancel' (b % N)
    calc W - b % N + a % N + b % N = W + a % N := by omega
      _ ≡ 0 + a [MOD N] := Nat.ModEq.add ((Nat.modEq_zero_iff_dvd).mpr hW) (Nat.mod_modEq a N)
      _ = a - b + b := by omega
      _ ≡ a - b + b % N [MOD N] := Nat.ModEq.add_left _ (Nat.mod_modEq b N).symm
  rw [key, Nat.mod_eq_of_lt (by omega)]

/-- Two positions of one window share a cell only if they are equal.
Source: none: infrastructure. Kind: L -/
theorem eq_of_mod_eq {N a b : Nat} (hba : b ≤ a) (hab : a < b + N) (h : a % N = b % N) :
    a = b := by
  have hd : N ∣ a - b := (Nat.modEq_iff_dvd' hba).mp h.symm
  have hlt : a - b < N := by omega
  have := Nat.eq_zero_of_dvd_of_lt hd hlt
  omega

/-- The next index, wrapped. Source: none: infrastructure. Kind: L -/
theorem succ_mod (a N : Nat) : (a % N + 1) % N = (a + 1) % N := Nat.mod_add_mod a N 1

/-! ## The window -/

/-- The window `[lo, xs.length)` of the sequence `xs` is stored in the ring `cells` of size `N`,
with at least one cell to spare. Source: none: infrastructure. Kind: D -/
structure Holds (N : Nat) (cells : Nat → α) (xs : List α) (lo : Nat) : Prop where
  lo_le : lo ≤ xs.length
  length_lt : xs.length < lo + N
  cell : ∀ i (h : i < xs.length), lo ≤ i → cells (i % N) = xs[i]

variable {N : Nat} {cells : Nat → α} {xs : List α} {lo : Nat}

/-- Storing behind the window leaves it alone. Source: none: infrastructure. Kind: L -/
theorem Holds.stage (h : Holds N cells xs lo) (x : α) (hroom : xs.length + 1 < lo + N) :
    Holds N (Function.update cells (xs.length % N) x) xs lo := by
  refine ⟨h.lo_le, h.length_lt, fun i hi hlo => ?_⟩
  have hne : i % N ≠ xs.length % N := by
    intro he
    have := eq_of_mod_eq (a := xs.length) (b := i) hi.le (by omega) he.symm
    omega
  rw [Function.update_of_ne hne, h.cell i hi hlo]

/-- What is stored behind the window can be appended to it. Source: none: infrastructure.
Kind: L -/
theorem Holds.publish (h : Holds N cells xs lo) {x : α} (hx : cells (xs.length % N) = x)
    (hroom : xs.length + 1 < lo + N) : Holds N cells (xs ++ [x]) lo := by
  refine ⟨by simp; have := h.lo_le; omega, by simpa using hroom, fun i hi hlo => ?_⟩
  by_cases hlast : i = xs.length
  · subst hlast
    simpa using hx
  · have hix : i < xs.length := by simp at hi; omega
    rw [h.cell i hix hlo, List.getElem_append_left hix]

/-- Dropping the oldest element shortens the window. Source: none: infrastructure. Kind: L -/
theorem Holds.pop (h : Holds N cells xs lo) (hne : lo < xs.length) :
    Holds N cells xs (lo + 1) :=
  ⟨hne, by have := h.length_lt; omega, fun i hi hlo => h.cell i hi (by omega)⟩

/-- The window read off the cells, oldest first. Source: none: infrastructure. Kind: D -/
def contents (N : Nat) (cells : Nat → α) (start count : Nat) : List α :=
  (List.range count).map fun i => cells ((start + i) % N)

/-- Reading the cells gives the window. Source: none: infrastructure. Kind: L -/
theorem Holds.contents (h : Holds N cells xs lo) :
    contents N cells (lo % N) (xs.length - lo) = xs.drop lo := by
  apply List.ext_getElem
  · simp [Ring.contents]
  · intro i h₁ h₂
    simp only [List.length_drop] at h₂
    simp only [Ring.contents, List.getElem_map, List.getElem_range, List.getElem_drop,
      Nat.mod_add_mod]
    exact h.cell (lo + i) (by omega) (by omega)

end Cs140e.Lib.Ring
