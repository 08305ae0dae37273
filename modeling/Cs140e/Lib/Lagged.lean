import Cs140e.Lib.XorMap
import Mathlib.Logic.Function.Basic

/-!
# Sequences from a table that is gone round

A table of `deg` values with a front place, and a rear place that is `sep` behind it. A step puts the
combination of the two values at the front, and moves both places on.

* `Lags` — the recurrence of the values that are written; `lagged` is the sequence that starts with
  given values.
* `Window` — the table holds `deg` consecutive values of the sequence; `Window.step`.
* `lagList` — the sequence, as a computation on lists.
* `lagMap` — for bits that are combined by xor, the step from `deg` consecutive bits to the next, and
  `lagBits_eq_iff`: when two places of the sequence go on in the same way.
-/

namespace Cs140e.Lib

open Function

variable {α : Type} {op : α → α → α} {deg sep : Nat}

/-! ### The sequence -/

/-- Every value is made of the value `deg` before it and the value `sep` before it.
Source: none: infrastructure
Kind: D -/
def Lags (op : α → α → α) (deg sep : Nat) (y : Nat → α) : Prop :=
  ∀ n, y (n + deg) = op (y n) (y (n + (deg - sep)))

/-- The sequence that starts with given values. Source: none: infrastructure. Kind: D -/
def lagged (op : α → α → α) (deg sep : Nat) (init : Nat → α) (n : Nat) : α :=
  if deg ≤ n ∧ 0 < sep ∧ 0 < deg then
    op (lagged op deg sep init (n - deg)) (lagged op deg sep init (n - sep))
  else init n
termination_by n

/-- Source: none: infrastructure. Kind: L -/
theorem lagged_of_lt {init : Nat → α} {n : Nat} (h : n < deg) : lagged op deg sep init n = init n := by
  unfold lagged
  rw [if_neg]
  omega

/-- Source: none: infrastructure. Kind: L -/
theorem lagged_lags (hsep : 0 < sep) (hle : sep ≤ deg) (init : Nat → α) :
    Lags op deg sep (lagged op deg sep init) := by
  intro n
  have hdeg : 0 < deg := Nat.lt_of_lt_of_le hsep hle
  conv_lhs => unfold lagged
  rw [if_pos ⟨Nat.le_add_left deg n, hsep, hdeg⟩, Nat.add_sub_cancel, Nat.add_sub_assoc hle]

/-- Later on it is such a sequence, too. Source: none: infrastructure. Kind: L -/
theorem Lags.shift {y : Nat → α} (hy : Lags op deg sep y) (k : Nat) :
    Lags op deg sep fun n => y (k + n) := by
  intro n
  have h := hy (k + n)
  rwa [Nat.add_assoc, Nat.add_assoc] at h

/-- The first `deg` values say it all. Source: none: infrastructure. Kind: P -/
theorem Lags.ext (hsep : 0 < sep) (hle : sep ≤ deg) {y z : Nat → α} (hy : Lags op deg sep y)
    (hz : Lags op deg sep z) (h : ∀ n < deg, y n = z n) : y = z := by
  funext n
  induction n using Nat.strong_induction_on with
  | _ n ih =>
      rcases Nat.lt_or_ge n deg with hn | hn
      · exact h n hn
      · obtain ⟨m, rfl⟩ : ∃ m, n = m + deg := ⟨n - deg, by omega⟩
        rw [hy m, hz m, ih m (by omega), ih (m + (deg - sep)) (by omega)]

/-! ### The places -/

/-- The place after the last one is the first. Source: none: infrastructure. Kind: L -/
theorem next_place {f : Nat} (hf : f < deg) : (f + 1) % deg = if f + 1 = deg then 0 else f + 1 := by
  by_cases h : f + 1 = deg
  · rw [if_pos h, h, Nat.mod_self]
  · rw [if_neg h, Nat.mod_eq_of_lt (by omega)]

/-- The rear place, which is `sep` behind the front. Source: none: infrastructure. Kind: D -/
def rearPlace (deg sep front : Nat) : Nat := (front + (deg - sep)) % deg

/-- It moves on with the front. Source: none: infrastructure. Kind: L -/
theorem rearPlace_next (deg sep f : Nat) :
    rearPlace deg sep ((f + 1) % deg) = (rearPlace deg sep f + 1) % deg := by
  unfold rearPlace
  rw [Nat.mod_add_mod, Nat.mod_add_mod, Nat.add_right_comm]

/-- The two never go back to the first place in the same step. Source: none: infrastructure. Kind: L -/
theorem rearPlace_of_last {f : Nat} (hsep : 0 < sep) (hlt : sep < deg) (hf : f + 1 = deg) :
    rearPlace deg sep f + 1 < deg := by
  have hrear : f + (deg - sep) = deg - 1 - sep + deg := by omega
  unfold rearPlace
  rw [hrear, Nat.add_mod_right, Nat.mod_eq_of_lt (by omega)]
  omega

/-! ### The table -/

/-- From the front place on the table holds the values from the `k`-th on.
Source: none: infrastructure
Kind: D -/
def Window (deg : Nat) (y : Nat → α) (t : Nat → α) (front k : Nat) : Prop :=
  ∀ j < deg, t ((front + j) % deg) = y (k + j)

section window

variable {y t : Nat → α} {f k : Nat}

/-- A table holds the start of its own sequence. Source: none: infrastructure. Kind: L -/
theorem window_lagged (t : Nat → α) (f : Nat) :
    Window deg (lagged op deg sep fun j => t ((f + j) % deg)) t f 0 := by
  intro j hj
  rw [Nat.zero_add, lagged_of_lt hj]

/-- Source: none: infrastructure. Kind: L -/
theorem Window.front (h : Window deg y t f k) (hf : f < deg) : t f = y k := by
  have h0 := h 0 (by omega)
  rwa [Nat.add_zero, Nat.add_zero, Nat.mod_eq_of_lt hf] at h0

/-- **A step** writes the next value. Source: none: infrastructure. Kind: P -/
theorem Window.step (h : Window deg y t f k) (hy : Lags op deg sep y) (hf : f < deg) (hsep : 0 < sep) :
    Window deg y (update t f (op (t f) (t (rearPlace deg sep f)))) ((f + 1) % deg) (k + 1) := by
  intro j hj
  have hplace : ((f + 1) % deg + j) % deg = (f + (j + 1)) % deg := by
    rw [Nat.mod_add_mod, Nat.add_assoc, Nat.add_comm 1 j]
  rw [hplace]
  rcases Nat.lt_or_ge (j + 1) deg with hlt | hge
  · -- a place that the step leaves alone
    have hne : (f + (j + 1)) % deg ≠ f := by
      intro heq
      rcases Nat.lt_or_ge (f + (j + 1)) deg with h₁ | h₁
      · rw [Nat.mod_eq_of_lt h₁] at heq
        omega
      · rw [Nat.mod_eq_sub_mod h₁, Nat.mod_eq_of_lt (by omega)] at heq
        omega
    rw [update_of_ne hne, h (j + 1) hlt, Nat.add_assoc, Nat.add_comm 1 j]
  · -- the front place is the last one from the next place on
    have hj' : j + 1 = deg := by omega
    rw [hj', Nat.add_mod_right, Nat.mod_eq_of_lt hf, update_self, h.front hf, rearPlace,
      h (deg - sep) (by omega), ← hy k, Nat.add_assoc, Nat.add_comm 1 j, hj']

end window

/-! ### Computation -/

/-- From `deg` consecutive values to those `n` places on; `k` is `deg - sep`.
Source: none: infrastructure
Kind: D -/
def lagList (op : α → α → α) (k : Nat) : Nat → List α → List α
  | 0, ys => ys
  | _ + 1, [] => []
  | n + 1, y :: ys => lagList op k n (ys ++ [op y ((y :: ys).getD k y)])

/-- Source: none: infrastructure. Kind: P -/
theorem lagList_eq {y : Nat → α} (hy : Lags op deg sep y) (hsep : 0 < sep) (hle : sep ≤ deg) (n k : Nat) :
    lagList op (deg - sep) n ((List.range deg).map fun j => y (k + j)) =
      (List.range deg).map fun j => y (k + n + j) := by
  induction n generalizing k with
  | zero => rfl
  | succ n ih =>
      obtain ⟨d, rfl⟩ : ∃ d, deg = d + 1 := ⟨deg - 1, by omega⟩
      have hcons : ((List.range (d + 1)).map fun j => y (k + j)) =
          y k :: (List.range d).map fun j => y (k + 1 + j) := by
        rw [List.range_succ_eq_map, List.map_cons, List.map_map]
        congr 1
        apply List.map_congr_left
        intro j _
        show y (k + (j + 1)) = y (k + 1 + j)
        rw [Nat.add_assoc, Nat.add_comm 1 j]
      have hrear : ((List.range (d + 1)).map fun j => y (k + j)).getD (d + 1 - sep) (y k) =
          y (k + (d + 1 - sep)) := by
        rw [List.getD_eq_getElem _ _ (by simp; omega)]
        simp
      have hnext : (List.range d).map (fun j => y (k + 1 + j)) ++ [y (k + (d + 1))] =
          (List.range (d + 1)).map fun j => y (k + 1 + j) := by
        rw [List.range_succ, List.map_append, List.map_singleton, Nat.add_comm d 1, Nat.add_assoc]
      rw [hcons] at hrear ⊢
      rw [lagList, hrear, ← hy k, hnext, ih (k + 1), Nat.add_assoc k 1 n, Nat.add_comm 1 n]

/-- Source: none: infrastructure. Kind: L -/
theorem head_lagList {y : Nat → α} (hy : Lags op deg sep y) (hsep : 0 < sep) (hle : sep ≤ deg)
    (n : Nat) (z : α) :
    (lagList op (deg - sep) n ((List.range deg).map y)).headD z = y n := by
  have hlist := lagList_eq hy hsep hle n 0
  simp only [Nat.zero_add] at hlist
  obtain ⟨d, rfl⟩ : ∃ d, deg = d + 1 := ⟨deg - 1, by omega⟩
  rw [hlist, List.range_succ_eq_map, List.map_cons]
  rfl

/-! ### Bits -/

/-- Consecutive bits of a sequence. Source: none: infrastructure. Kind: D -/
def lagBits (deg : Nat) (b : Nat → Bool) (n : Nat) : BitVec deg :=
  (BitVec.ofBoolListLE ((List.range deg).map fun i => b (n + i))).setWidth deg

/-- Source: none: infrastructure. Kind: L -/
theorem getLsbD_lagBits {b : Nat → Bool} {n i : Nat} (hi : i < deg) :
    (lagBits deg b n).getLsbD i = b (n + i) := by
  unfold lagBits
  rw [BitVec.getLsbD_setWidth, BitVec.getLsbD_ofBoolListLE]
  simp [hi]

/-- From `deg` consecutive bits to the next. Source: none: infrastructure. Kind: D -/
def lagStep (deg sep : Nat) (x : BitVec deg) : BitVec deg :=
  x >>> 1 ^^^ if x.getLsbD 0 ^^ x.getLsbD (deg - sep) then BitVec.twoPow deg (deg - 1) else 0#(deg)

/-- Source: none: infrastructure. Kind: L -/
theorem getLsbD_lagStep (x : BitVec deg) {i : Nat} (hi : i < deg) :
    (lagStep deg sep x).getLsbD i =
      if i + 1 < deg then x.getLsbD (i + 1) else x.getLsbD 0 ^^ x.getLsbD (deg - sep) := by
  unfold lagStep
  rw [BitVec.getLsbD_xor, BitVec.getLsbD_ushiftRight, apply_ite (fun y => BitVec.getLsbD y i),
    BitVec.getLsbD_twoPow, BitVec.getLsbD_zero, Nat.add_comm 1 i]
  by_cases hlt : i + 1 < deg
  · have hne : ¬ deg - 1 = i := by omega
    simp [hlt, hne]
  · have heq : deg - 1 = i := by omega
    have hbeyond : x.getLsbD (i + 1) = false := BitVec.getLsbD_of_ge x (i + 1) (by omega)
    rw [if_neg hlt, hbeyond]
    cases x.getLsbD 0 ^^ x.getLsbD (deg - sep) <;> simp [heq, hi]

/-- It is linear. Source: none: infrastructure. Kind: D -/
def lagMap (deg sep : Nat) : XorMap deg where
  toFun := lagStep deg sep
  map_xor a b := by
    apply BitVec.eq_of_getLsbD_eq
    intro i hi
    rw [BitVec.getLsbD_xor, getLsbD_lagStep _ hi, getLsbD_lagStep _ hi, getLsbD_lagStep _ hi]
    by_cases hlt : i + 1 < deg
    · rw [if_pos hlt, if_pos hlt, if_pos hlt, BitVec.getLsbD_xor]
    · rw [if_neg hlt, if_neg hlt, if_neg hlt, BitVec.getLsbD_xor, BitVec.getLsbD_xor]
      cases a.getLsbD 0 <;> cases a.getLsbD (deg - sep) <;> simp

section lags

variable {b : Nat → Bool}

/-- Source: none: infrastructure. Kind: P -/
theorem lagMap_lagBits (hb : Lags Bool.xor deg sep b) (hsep : 0 < sep) (n : Nat) :
    lagMap deg sep (lagBits deg b n) = lagBits deg b (n + 1) := by
  apply BitVec.eq_of_getLsbD_eq
  intro i hi
  show (lagStep deg sep (lagBits deg b n)).getLsbD i = _
  rw [getLsbD_lagStep _ hi, getLsbD_lagBits hi]
  by_cases hlt : i + 1 < deg
  · rw [if_pos hlt, getLsbD_lagBits hlt, Nat.add_assoc, Nat.add_comm 1 i]
  · have hlast : n + 1 + i = n + deg := by omega
    rw [if_neg hlt, getLsbD_lagBits (by omega), getLsbD_lagBits (by omega), hlast, hb n]
    rfl

/-- Source: none: infrastructure. Kind: L -/
theorem iterate_lagMap_lagBits (hb : Lags Bool.xor deg sep b) (hsep : 0 < sep) (n : Nat) :
    (lagMap deg sep)^[n] (lagBits deg b 0) = lagBits deg b n := by
  induction n with
  | zero => rfl
  | succ n ih => rw [iterate_succ_apply', ih, lagMap_lagBits hb hsep]

/-- The sequence goes on in the same way when the next `deg` bits are the same.
Source: none: infrastructure
Kind: L -/
theorem lagBits_eq_iff (hb : Lags Bool.xor deg sep b) (hsep : 0 < sep) (hle : sep ≤ deg) (i j : Nat) :
    lagBits deg b i = lagBits deg b j ↔ ∀ n, b (i + n) = b (j + n) := by
  constructor
  · intro h
    apply congrFun
    refine Lags.ext hsep hle (hb.shift i) (hb.shift j) fun n hn => ?_
    calc b (i + n) = (lagBits deg b i).getLsbD n := (getLsbD_lagBits hn).symm
      _ = (lagBits deg b j).getLsbD n := by rw [h]
      _ = b (j + n) := getLsbD_lagBits hn
  · intro h
    apply BitVec.eq_of_getLsbD_eq
    intro n hn
    rw [getLsbD_lagBits hn, getLsbD_lagBits hn, h n]

/-- **The period of the bits**: when one word of `deg` bits has the full period, every sequence of bits
with a one in it comes again after `2 ^ deg - 1` places, and not before.
Source: none: infrastructure
Kind: P -/
theorem lags_period_iff (hb : Lags Bool.xor deg sep b) (hsep : 0 < sep) (hle : sep ≤ deg)
    {e : BitVec deg} (he : e ≠ 0#(deg)) (hfull : minimalPeriod (lagMap deg sep) e = 2 ^ deg - 1)
    (hone : ∃ n < deg, b n = true) (i j : Nat) :
    (∀ n, b (i + n) = b (j + n)) ↔ i % (2 ^ deg - 1) = j % (2 ^ deg - 1) := by
  obtain ⟨n, hn, hbn⟩ := hone
  have hne : lagBits deg b 0 ≠ 0#(deg) := by
    intro hzero
    have hbit := getLsbD_lagBits (b := b) (n := 0) hn
    rw [hzero, Nat.zero_add, hbn] at hbit
    simp at hbit
  have hdeg : deg ≠ 0 := by omega
  have hper := XorMap.minimalPeriod_of_full hdeg he hfull hne
  have hpos : 0 < 2 ^ deg - 1 := by
    have := Nat.one_lt_two_pow hdeg
    omega
  have hlt : ∀ m, m % (2 ^ deg - 1) < minimalPeriod (lagMap deg sep) (lagBits deg b 0) := fun m => by
    rw [hper]
    exact Nat.mod_lt m hpos
  have hmod : ∀ m, (lagMap deg sep)^[m % (2 ^ deg - 1)] (lagBits deg b 0) = lagBits deg b m := fun m => by
    rw [← hper, iterate_mod_minimalPeriod_eq, iterate_lagMap_lagBits hb hsep]
  rw [← lagBits_eq_iff hb hsep hle, ← hmod i, ← hmod j,
    iterate_eq_iterate_iff_of_lt_minimalPeriod (hlt i) (hlt j)]

end lags

end Cs140e.Lib
