import Mathlib.Data.Nat.Bitwise
import Mathlib.Algebra.Order.BigOperators.GroupWithZero.List
import Mathlib.Data.List.Prime
import Mathlib.Data.Nat.Prime.Basic
import Mathlib.Dynamics.PeriodicPts.Defs
import Mathlib.Order.Interval.Finset.Nat
import Mathlib.Tactic.Ring

/-!
# Linear maps on words

A map on bit vectors that commutes with xor: the step of a shift register, or of a checksum.

* `XorMap w` — such a map with its law.
* `cols`, `combine_cols` — the images of the single bits, and the map as the xor of those that the
  argument selects.
* `powers`, `powers_eq` — iterates by repeated squaring, in the numbers that the kernel computes
  with.
* `minimalPeriod_eq` — a period is minimal when no quotient by a prime factor is one.
* `minimalPeriod_eq_of_powers` — the same, as a computation.
* `exists_iterate`, `minimalPeriod_of_full` — a word of period `2 ^ w - 1` has every other word but
  zero in its orbit, and they all have this period.
-/

namespace Cs140e.Lib

open Function

/-- A map that commutes with xor. Source: none: infrastructure. Kind: D -/
structure XorMap (w : Nat) where
  toFun : BitVec w → BitVec w
  map_xor : ∀ a b, toFun (a ^^^ b) = toFun a ^^^ toFun b

namespace XorMap

variable {w : Nat} (f : XorMap w)

/-- Source: none: infrastructure. Kind: D -/
instance : CoeFun (XorMap w) fun _ => BitVec w → BitVec w := ⟨toFun⟩

/-- Source: none: infrastructure. Kind: L -/
@[simp] theorem map_zero : f 0#w = 0#w := by
  have h := f.map_xor 0#w 0#w
  rwa [BitVec.xor_self, BitVec.xor_self] at h

/-- `n` steps. Source: none: infrastructure. Kind: D -/
def iter (n : Nat) : XorMap w where
  toFun := f^[n]
  map_xor := by
    induction n with
    | zero => exact fun _ _ => rfl
    | succ n ih =>
        intro a b
        rw [iterate_succ_apply', iterate_succ_apply', iterate_succ_apply', ih, f.map_xor]

/-- Source: none: infrastructure. Kind: L -/
theorem iterate_xor (n : Nat) (a b : BitVec w) : f^[n] (a ^^^ b) = f^[n] a ^^^ f^[n] b :=
  (f.iter n).map_xor a b

/-- Source: none: infrastructure. Kind: L -/
@[simp] theorem iterate_zero_word (n : Nat) : f^[n] 0#w = 0#w := (f.iter n).map_zero

/-- Only zero goes to zero, so no two words go to the same one.
Source: none: infrastructure
Kind: L -/
theorem injective_of_ker (h : ∀ x, f x = 0#w → x = 0#w) : Injective f := by
  intro a b hab
  have hxor : f (a ^^^ b) = 0#w := by rw [f.map_xor, hab, BitVec.xor_self]
  exact BitVec.xor_eq_zero_iff.1 (h _ hxor)

/-! ### The map by its columns -/

/-- The xor of the columns that the bits of the number select. Source: none: infrastructure. Kind: D -/
def combine : List Nat → Nat → Nat
  | [], _ => 0
  | c :: cs, x => (if x % 2 = 1 then c else 0) ^^^ combine cs (x / 2)

/-- The images of the bits from `i` on. Source: none: infrastructure. Kind: D -/
def colsFrom (i : Nat) : List Nat :=
  (List.range' i (w - i)).map fun j => (f (BitVec.twoPow w j)).toNat

/-- The images of the single bits. Source: none: infrastructure. Kind: D -/
def cols : List Nat := f.colsFrom 0

/-- Source: none: infrastructure. Kind: L -/
theorem colsFrom_lt {i : Nat} (h : i < w) :
    f.colsFrom i = (f (BitVec.twoPow w i)).toNat :: f.colsFrom (i + 1) := by
  unfold colsFrom
  rw [show w - i = (w - (i + 1)) + 1 by omega, List.range'_succ, List.map_cons]

/-- The part of a word below bit `i` contributes nothing to the columns from `i` on.
Source: none: infrastructure
Kind: L -/
theorem combine_colsFrom (i : Nat) (hi : i ≤ w) (x : BitVec w) :
    combine (f.colsFrom i) (x.toNat >>> i) = (f ((x >>> i) <<< i)).toNat := by
  -- from the top down: bit `i` is split off the part above it
  induction hn : w - i generalizing i with
  | zero =>
      have hiw : i = w := by omega
      subst hiw
      have hzero : (x >>> i) <<< i = 0#i := by
        apply BitVec.eq_of_getLsbD_eq
        intro j hj
        simp [hj]
      rw [hzero, f.map_zero]
      simp [colsFrom, combine]
  | succ n ih =>
      have hlt : i < w := by omega
      have hsplit : (x >>> i) <<< i =
          (if x.getLsbD i then BitVec.twoPow w i else 0#w) ^^^ (x >>> (i + 1)) <<< (i + 1) := by
        apply BitVec.eq_of_getLsbD_eq
        intro j hj
        rw [BitVec.getLsbD_xor, BitVec.getLsbD_shiftLeft, BitVec.getLsbD_shiftLeft,
          BitVec.getLsbD_ushiftRight, BitVec.getLsbD_ushiftRight]
        rcases Nat.lt_trichotomy j i with h | h | h
        · rw [apply_ite (fun y => BitVec.getLsbD y j)]
          simp [h, Nat.lt_succ_of_lt h, Nat.ne_of_gt h]
        · subst h
          have hle : x.getLsbD j = x[j] := BitVec.getLsbD_eq_getElem hj
          rw [hle]
          cases hx : x[j] <;> simp [hj, hx]
        · have hji : i + (j - i) = j := by omega
          have hji' : i + 1 + (j - (i + 1)) = j := by omega
          rw [hji, hji', apply_ite (fun y => BitVec.getLsbD y j)]
          have hnot : ¬ j < i := by omega
          have hnot' : ¬ j < i + 1 := by omega
          have hne : j ≠ i := by omega
          simp [hnot, hnot', hj, hne]
      rw [hsplit, f.map_xor, BitVec.toNat_xor, f.colsFrom_lt hlt, combine,
        ← ih (i + 1) (by omega) (by omega)]
      congr 1
      · have hbit : (x.toNat >>> i) % 2 = 1 ↔ x.getLsbD i = true := by
          rw [← BitVec.testBit_toNat, Nat.testBit, Nat.one_and_eq_mod_two, bne_iff_ne]
          omega
        by_cases hx : x.getLsbD i = true
        · rw [if_pos (hbit.2 hx), if_pos hx]
        · rw [if_neg fun h => hx (hbit.1 h), if_neg hx, f.map_zero]
          rfl

/-- The map is the xor of its columns. Source: none: infrastructure. Kind: P -/
theorem combine_cols (x : BitVec w) : combine f.cols x.toNat = (f x).toNat := by
  have h := f.combine_colsFrom 0 (Nat.zero_le w) x
  rwa [Nat.shiftRight_zero, BitVec.ushiftRight_zero, BitVec.shiftLeft_zero] at h

/-! ### Powers -/

/-- The columns of two steps. Source: none: infrastructure. Kind: D -/
def square (cs : List Nat) : List Nat := cs.map (combine cs)

/-- For every pair, its number of steps from its word; the runs share the squares. All numbers of
steps are below `2 ^ k`. Source: none: infrastructure. Kind: D -/
def powers : Nat → List Nat → List (Nat × Nat) → List Nat
  | 0, _, runs => runs.map Prod.snd
  | k + 1, cs, runs =>
      powers k (square cs) (runs.map fun p => (p.1 / 2, if p.1 % 2 = 1 then combine cs p.2 else p.2))

/-- Source: none: infrastructure. Kind: L -/
theorem square_cols : square f.cols = (f.iter 2).cols := by
  unfold square cols colsFrom
  rw [List.map_map]
  apply List.map_congr_left
  intro j _
  exact f.combine_cols (f (BitVec.twoPow w j))

/-- One squaring takes half of the steps. Source: none: infrastructure. Kind: L -/
theorem iterate_half (n : Nat) (x : BitVec w) :
    (f.iter 2)^[n / 2] (if n % 2 = 1 then f x else x) = f^[n] x := by
  have htwice : ∀ y, (f.iter 2)^[n / 2] y = f^[2 * (n / 2)] y := fun y => by
    rw [iterate_mul]
    rfl
  rw [htwice]
  by_cases hodd : n % 2 = 1
  · rw [if_pos hodd, ← iterate_succ_apply]
    congr 2
    omega
  · rw [if_neg hodd]
    congr 2
    omega

/-- Repeated squaring. Source: none: infrastructure. Kind: P -/
theorem powers_eq (k : Nat) (runs : List (Nat × BitVec w)) (hn : ∀ p ∈ runs, p.1 < 2 ^ k) :
    powers k f.cols (runs.map fun p => (p.1, p.2.toNat)) =
      runs.map fun p => (f^[p.1] p.2).toNat := by
  induction k generalizing f runs with
  | zero =>
      rw [powers, List.map_map]
      apply List.map_congr_left
      intro p hp
      have hp0 : p.1 = 0 := by simpa using hn p hp
      rw [hp0]
      rfl
  | succ k ih =>
      have hstep : ∀ p : Nat × BitVec w, (if p.1 % 2 = 1 then combine f.cols p.2.toNat
          else p.2.toNat) = (if p.1 % 2 = 1 then f p.2 else p.2).toNat := fun p => by
        rw [combine_cols, apply_ite BitVec.toNat]
      have hruns := ih (f.iter 2)
        (runs.map fun p => (p.1 / 2, if p.1 % 2 = 1 then f p.2 else p.2)) (by
          intro q hq
          obtain ⟨p, hp, rfl⟩ := List.mem_map.1 hq
          have := hn p hp
          rw [Nat.pow_succ] at this
          show p.1 / 2 < 2 ^ k
          omega)
      rw [powers, square_cols, List.map_map]
      rw [List.map_map, List.map_map] at hruns
      calc _ = _ := by
            congr 2
            funext p
            exact congrArg (Prod.mk (p.1 / 2)) (hstep p)
        _ = _ := hruns
        _ = _ := by
            congr 1
            funext p
            exact congrArg BitVec.toNat (f.iterate_half p.1 p.2)

end XorMap

/-! ### Periods -/

section period

variable {α : Type} {g : α → α} {x : α} {n : Nat}

/-- A proper divisor of `n` divides a quotient of `n` by a prime.
Source: none: infrastructure
Kind: L -/
theorem dvd_div_prime_of_dvd {d : Nat} (hn : 0 < n) (hd : d ∣ n) (hne : d ≠ n) :
    ∃ p, p.Prime ∧ p ∣ n ∧ d ∣ n / p := by
  obtain ⟨m, rfl⟩ := hd
  have hm : m ≠ 1 := fun h => hne (by rw [h, Nat.mul_one])
  obtain ⟨p, hp, k, rfl⟩ := Nat.exists_prime_and_dvd hm
  refine ⟨p, hp, ⟨d * k, by ring⟩, ?_⟩
  rw [show d * (p * k) = p * (d * k) by ring, Nat.mul_div_cancel_left _ hp.pos]
  exact Nat.dvd_mul_right d k

/-- A period of which no quotient by a prime factor is one. Source: none: infrastructure. Kind: P -/
theorem minimalPeriod_eq (hn : 0 < n) (h : g^[n] x = x)
    (hprime : ∀ p, p.Prime → p ∣ n → g^[n / p] x ≠ x) : minimalPeriod g x = n := by
  have hper : IsPeriodicPt g n x := h
  by_contra hne
  obtain ⟨p, hp, hpn, hdvd⟩ := dvd_div_prime_of_dvd hn hper.minimalPeriod_dvd hne
  exact hprime p hp hpn (isPeriodicPt_iff_minimalPeriod_dvd.2 hdvd)

/-- The prime factors are given. Source: none: infrastructure. Kind: L -/
theorem minimalPeriod_eq_of_prod {ps : List Nat} (hps : ∀ p ∈ ps, p.Prime) (h : g^[ps.prod] x = x)
    (hdiv : ∀ p ∈ ps, g^[ps.prod / p] x ≠ x) : minimalPeriod g x = ps.prod := by
  apply minimalPeriod_eq (List.prod_pos fun p hp => (hps p hp).pos) h
  intro p hp hdvd
  obtain ⟨q, hq, hpq⟩ := (Prime.dvd_prod_iff hp.prime).1 hdvd
  rw [(Nat.prime_dvd_prime_iff_eq hp (hps q hq)).1 hpq]
  exact hdiv q hq

end period

namespace XorMap

/-- The period of a word, from one chain of squares. Source: none: infrastructure. Kind: P -/
theorem minimalPeriod_eq_of_powers {w : Nat} (f : XorMap w) (e : BitVec w) {ps : List Nat}
    (hps : ∀ p ∈ ps, p.Prime) (hlt : ps.prod < 2 ^ w)
    (h : (powers w f.cols ((ps.prod, e.toNat) :: ps.map fun p => (ps.prod / p, e.toNat))).map
      (· == e.toNat) = true :: ps.map fun _ => false) : minimalPeriod f e = ps.prod := by
  have hruns := f.powers_eq w ((ps.prod, e) :: ps.map fun p => (ps.prod / p, e)) (by
    intro q hq
    rcases List.mem_cons.1 hq with rfl | hq
    · exact hlt
    · obtain ⟨p, -, rfl⟩ := List.mem_map.1 hq
      exact Nat.lt_of_le_of_lt (Nat.div_le_self _ _) hlt)
  rw [List.map_cons, List.map_map] at hruns
  rw [show (fun p => (ps.prod / p, e.toNat)) =
    (fun p : Nat × BitVec w => (p.1, p.2.toNat)) ∘ fun p => (ps.prod / p, e) by rfl, hruns,
    List.map_cons, List.map_cons, List.map_map, List.map_map, List.cons.injEq] at h
  obtain ⟨hfull, hpart⟩ := h
  apply minimalPeriod_eq_of_prod hps
  · exact BitVec.eq_of_toNat_eq (beq_iff_eq.1 hfull)
  · intro p hp heq
    have hbeq := (List.map_inj_left.1 hpart) p hp
    simp only [Function.comp_apply, heq, beq_self_eq_true] at hbeq
    cases hbeq

section full

variable {w : Nat} {f : XorMap w} {e : BitVec w}

/-- Source: none: infrastructure. Kind: L -/
theorem mem_periodicPts_of_full (hw : w ≠ 0) (hfull : minimalPeriod f e = 2 ^ w - 1) :
    e ∈ periodicPts f := by
  apply minimalPeriod_pos_iff_mem_periodicPts.1
  rw [hfull]
  have := Nat.one_lt_two_pow hw
  omega

/-- The orbit of a word never gets to zero. Source: none: infrastructure. Kind: L -/
theorem iterate_ne_zero (he : e ≠ 0#w) (hper : e ∈ periodicPts f) (k : Nat) : f^[k] e ≠ 0#w := by
  intro hzero
  have hiter : f^[k] e ∈ periodicPts f := by
    obtain ⟨n, hn, hfix⟩ := hper
    exact ⟨n, hn, hfix.apply_iterate k⟩
  have hone : minimalPeriod f (f^[k] e) = 1 := by
    rw [hzero]
    exact minimalPeriod_eq_one_iff_isFixedPt.2 f.map_zero
  rw [minimalPeriod_apply_iterate hper] at hone
  -- `e` is a fixed point, so it is `f^[k] e`
  have hfix : IsFixedPt f e := minimalPeriod_eq_one_iff_isFixedPt.1 hone
  rw [iterate_fixed hfix] at hzero
  exact he hzero

/-- A word of full period reaches every word but zero, by counting.
Source: none: infrastructure
Kind: P -/
theorem exists_iterate (hw : w ≠ 0) (he : e ≠ 0#w) (hfull : minimalPeriod f e = 2 ^ w - 1)
    {r : BitVec w} (hr : r ≠ 0#w) : ∃ k < 2 ^ w - 1, f^[k] e = r := by
  have hper := mem_periodicPts_of_full hw hfull
  let orbit := (Finset.range (2 ^ w - 1)).image fun k => (f^[k] e).toNat
  have hcard : orbit.card = 2 ^ w - 1 := by
    rw [Finset.card_image_of_injOn, Finset.card_range]
    intro a ha b hb hab
    have ha' : a < minimalPeriod f e := by rw [hfull]; exact Finset.mem_range.1 ha
    have hb' : b < minimalPeriod f e := by rw [hfull]; exact Finset.mem_range.1 hb
    exact (iterate_eq_iterate_iff_of_lt_minimalPeriod ha' hb').1 (BitVec.eq_of_toNat_eq hab)
  have hsub : orbit ⊆ Finset.Ico 1 (2 ^ w) := by
    intro v hv
    obtain ⟨k, -, rfl⟩ := Finset.mem_image.1 hv
    have hne : (f^[k] e).toNat ≠ 0 := fun h =>
      iterate_ne_zero he hper k (BitVec.eq_of_toNat_eq (by simpa using h))
    exact Finset.mem_Ico.2 ⟨Nat.one_le_iff_ne_zero.2 hne, (f^[k] e).isLt⟩
  have hall : orbit = Finset.Ico 1 (2 ^ w) :=
    Finset.eq_of_subset_of_card_le hsub (by rw [hcard, Nat.card_Ico])
  have hmem : r.toNat ∈ orbit := by
    rw [hall, Finset.mem_Ico]
    have hne : r.toNat ≠ 0 := fun h => hr (BitVec.eq_of_toNat_eq (by simpa using h))
    exact ⟨Nat.one_le_iff_ne_zero.2 hne, r.isLt⟩
  obtain ⟨k, hk, hkr⟩ := Finset.mem_image.1 hmem
  exact ⟨k, Finset.mem_range.1 hk, BitVec.eq_of_toNat_eq hkr⟩

/-- Then each of them has the full period. Source: none: infrastructure. Kind: P -/
theorem minimalPeriod_of_full (hw : w ≠ 0) (he : e ≠ 0#w) (hfull : minimalPeriod f e = 2 ^ w - 1)
    {r : BitVec w} (hr : r ≠ 0#w) : minimalPeriod f r = 2 ^ w - 1 := by
  obtain ⟨k, -, rfl⟩ := exists_iterate hw he hfull hr
  rw [minimalPeriod_apply_iterate (mem_periodicPts_of_full hw hfull), hfull]

end full

end XorMap

end Cs140e.Lib
