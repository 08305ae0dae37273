import Mathlib.Algebra.Ring.GeomSum
import Mathlib.Algebra.BigOperators.Intervals
import Mathlib.Data.Nat.ModEq
import Mathlib.Data.Nat.Prime.Basic
import Mathlib.Logic.Function.Iterate
import Mathlib.Tactic.Ring

/-!
# Linear congruential generators modulo a power of two

`x ↦ a * x + c`, with `a % 4 = 1` and `c` odd.

* `two_pow_dvd_geomSum` — the powers of two in `1 + a + ... + a ^ (n - 1)` are those in `n`.
* `linStep_period` — modulo `2 ^ m`, every start comes again after `2 ^ m` steps and not before.
-/

namespace Cs140e.Lib

open Function Finset

/-- Source: none: infrastructure. Kind: D -/
def linStep (a c x : Nat) : Nat := a * x + c

section

variable {a c : Nat}

/-- Source: none: infrastructure. Kind: L -/
theorem geomSum_double (a k : Nat) :
    ∑ i ∈ range (k + k), a ^ i = (∑ i ∈ range k, a ^ i) * (a ^ k + 1) := by
  rw [sum_range_add]
  simp only [pow_add]
  rw [← mul_sum]
  ring

/-- Source: none: infrastructure. Kind: L -/
theorem geomSum_odd (ha : a % 4 = 1) (n : Nat) : (∑ i ∈ range n, a ^ i) % 2 = n % 2 := by
  have hpow : ∀ i, a ^ i % 2 = 1 := fun i => by
    rw [Nat.pow_mod, show a % 2 = 1 by omega, one_pow]
    rfl
  induction n with
  | zero => rfl
  | succ n ih =>
      rw [sum_range_succ]
      have := hpow n
      omega

/-- **The powers of two** in the sum are those in the number of its terms.
Source: none: infrastructure
Kind: P -/
theorem two_pow_dvd_geomSum (ha : a % 4 = 1) (m n : Nat) :
    2 ^ m ∣ ∑ i ∈ range n, a ^ i ↔ 2 ^ m ∣ n := by
  induction m generalizing n with
  | zero => simp
  | succ m ih =>
      have hsum := geomSum_odd ha n
      rcases Nat.even_or_odd' n with ⟨k, hk | hk⟩
      · -- twice as many terms: one more factor 2, since `a ^ k + 1` is twice an odd number
        obtain ⟨q, hq⟩ : ∃ q, a ^ k + 1 = 2 * (2 * q + 1) := by
          have hmod : a ^ k % 4 = 1 := by rw [Nat.pow_mod, ha, one_pow]; rfl
          exact ⟨a ^ k / 4, by omega⟩
        have hodd : Nat.Coprime (2 ^ m) (2 * q + 1) := by
          apply Nat.Coprime.pow_left
          simp
        have htwice : ∑ i ∈ range n, a ^ i = 2 * ((∑ i ∈ range k, a ^ i) * (2 * q + 1)) := by
          rw [hk, Nat.two_mul, geomSum_double, hq]
          ring
        rw [htwice, hk, pow_succ', Nat.mul_dvd_mul_iff_left two_pos, Nat.mul_dvd_mul_iff_left two_pos,
          hodd.dvd_mul_right, ih k]
      · -- an odd number of terms: neither is even
        have hnot : ∀ x, x % 2 = 1 → ¬ 2 ^ (m + 1) ∣ x := fun x hx hdvd => by
          have := (Dvd.intro_left (2 ^ m) rfl : 2 ∣ 2 ^ (m + 1)).trans hdvd
          omega
        exact iff_of_false (hnot _ (by omega)) (hnot n (by omega))

/-- Source: none: infrastructure. Kind: L -/
theorem linStep_iterate (ha : 1 ≤ a) (c x n : Nat) :
    (linStep a c)^[n] x = x + (∑ i ∈ range n, a ^ i) * ((a - 1) * x + c) := by
  obtain ⟨b, rfl⟩ : ∃ b, a = b + 1 := ⟨a - 1, by omega⟩
  have hpow := geom_sum_mul_add b n
  induction n with
  | zero => simp
  | succ n ih =>
      rw [iterate_succ_apply', ih (geom_sum_mul_add b n), sum_range_succ, ← geom_sum_mul_add b n]
      unfold linStep
      rw [Nat.add_sub_cancel]
      ring

/-- **The period** is the modulus, from every start. Source: none: infrastructure. Kind: P -/
theorem linStep_period (ha : a % 4 = 1) (hc : c % 2 = 1) (m x i j : Nat) :
    (linStep a c)^[i] x % 2 ^ m = (linStep a c)^[j] x % 2 ^ m ↔ i % 2 ^ m = j % 2 ^ m := by
  have hfrom : ∀ y d, y ≡ (linStep a c)^[d] y [MOD 2 ^ m] ↔ 2 ^ m ∣ d := by
    intro y d
    have hodd : Nat.Coprime (2 ^ m) ((a - 1) * y + c) := by
      apply Nat.Coprime.pow_left
      rw [Nat.coprime_two_left, Nat.odd_iff, Nat.add_mod, Nat.mul_mod, show (a - 1) % 2 = 0 by omega, hc]
      simp
    rw [linStep_iterate (by omega), Nat.modEq_iff_dvd' (Nat.le_add_right _ _), Nat.add_sub_cancel_left,
      hodd.dvd_mul_right, two_pow_dvd_geomSum ha]
  have hle : ∀ i d, (linStep a c)^[i] x ≡ (linStep a c)^[i + d] x [MOD 2 ^ m] ↔
      i ≡ i + d [MOD 2 ^ m] := by
    intro i d
    rw [Nat.add_comm i d, iterate_add_apply, hfrom, Nat.modEq_iff_dvd' (Nat.le_add_left _ _),
      Nat.add_sub_cancel]
  rcases Nat.le_total i j with h | h
  · obtain ⟨d, rfl⟩ := Nat.exists_eq_add_of_le h
    exact hle i d
  · obtain ⟨d, rfl⟩ := Nat.exists_eq_add_of_le h
    exact eq_comm.trans ((hle j d).trans eq_comm)

end

end Cs140e.Lib
