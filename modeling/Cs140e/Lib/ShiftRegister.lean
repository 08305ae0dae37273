import Cs140e.Lib.XorMap
import Mathlib.Algebra.Polynomial.Div
import Mathlib.Algebra.CharP.Two
import Mathlib.Algebra.Field.ZMod
import Mathlib.Data.ZMod.Basic
import Mathlib.Tactic.LinearCombination

/-!
# Shift registers

A register of `w` bits that shifts right and adds its taps when a one falls out. Bits enter at the
bottom: this is the division of a polynomial over the field of two elements, in the order of bits in
which the highest coefficient is the lowest bit.

* `ShiftRegister` — the taps, with the top one set, so that no turn forgets anything
  (`turn_injective`).
* `feeds_eq_word` — up to `w` bits can be added at once, before the turns.
* `feeds_eq_iff` — whether two streams leave the same in the register depends on their difference
  only; `feeds_window_ne`, `feeds_two_eq_iff`, the difference is one burst, or a pair of bits.
* `toPoly_feeds` — the register holds the remainder.
-/

namespace Cs140e.Lib

open Function

/-- Source: none: infrastructure. Kind: D -/
structure ShiftRegister (w : Nat) where
  taps : BitVec w
  top : taps.getLsbD (w - 1) = true

namespace ShiftRegister

variable {w : Nat} (R : ShiftRegister w)

/-- Source: none: infrastructure. Kind: L -/
theorem width_pos (R : ShiftRegister w) : 0 < w := by
  have := BitVec.lt_of_getLsbD R.top
  omega

/-- A bit at the bottom of a word. Source: none: infrastructure. Kind: D -/
def low (b : Bool) : BitVec w := if b then 1#w else 0#w

/-- Source: none: infrastructure. Kind: L -/
theorem getLsbD_low (b : Bool) (i : Nat) (hi : i < w) :
    (low b : BitVec w).getLsbD i = (b && decide (i = 0)) := by
  cases b
  · simp [low]
  · have hw : 0 < w := Nat.lt_of_le_of_lt (Nat.zero_le i) hi
    simp [low, hw]

/-- Source: none: infrastructure. Kind: L -/
theorem getLsbD_ite (c : Bool) (x : BitVec w) (i : Nat) :
    (if c then x else 0#w).getLsbD i = (c && x.getLsbD i) := by
  cases c <;> simp

/-- The word shifts, and the taps are added when a one falls out.
Source: none: infrastructure
Kind: D -/
def turn : XorMap w where
  toFun r := (r >>> 1) ^^^ (if r.getLsbD 0 then R.taps else 0#w)
  map_xor a b := by
    apply BitVec.eq_of_getLsbD_eq
    intro i _
    simp only [BitVec.getLsbD_xor, BitVec.getLsbD_ushiftRight, getLsbD_ite]
    cases a.getLsbD 0 <;> cases b.getLsbD 0 <;> cases a.getLsbD (1 + i) <;>
      cases b.getLsbD (1 + i) <;> cases R.taps.getLsbD i <;> rfl

/-- Source: none: infrastructure. Kind: L -/
theorem turn_apply (r : BitVec w) :
    R.turn r = (r >>> 1) ^^^ (if r.getLsbD 0 then R.taps else 0#w) := rfl

/-- Source: none: infrastructure. Kind: L -/
theorem turn_of_low {r : BitVec w} (h : r.getLsbD 0 = false) : R.turn r = r >>> 1 := by
  rw [R.turn_apply, h]
  simp

/-- The top bit tells whether a one fell out. Source: none: infrastructure. Kind: L -/
theorem getLsbD_top_turn (r : BitVec w) : (R.turn r).getLsbD (w - 1) = r.getLsbD 0 := by
  have hw := R.width_pos
  have hout : r.getLsbD (1 + (w - 1)) = false := BitVec.getLsbD_of_ge r _ (by omega)
  rw [R.turn_apply, BitVec.getLsbD_xor, BitVec.getLsbD_ushiftRight, hout]
  cases r.getLsbD 0
  · simp
  · simpa using R.top

/-- Source: none: infrastructure. Kind: P -/
theorem turn_injective : Injective R.turn := by
  apply R.turn.injective_of_ker
  intro r h
  have hlow : r.getLsbD 0 = false := by rw [← R.getLsbD_top_turn, h, BitVec.getLsbD_zero]
  rw [R.turn_of_low hlow] at h
  apply BitVec.eq_of_getLsbD_eq
  intro i hi
  cases i with
  | zero => rw [hlow, BitVec.getLsbD_zero]
  | succ i =>
      have hbit : (r >>> 1).getLsbD i = false := by rw [h, BitVec.getLsbD_zero]
      rw [BitVec.getLsbD_ushiftRight, Nat.add_comm] at hbit
      rw [hbit, BitVec.getLsbD_zero]

/-- Source: none: infrastructure. Kind: L -/
theorem iterate_turn_eq_zero_iff (n : Nat) (r : BitVec w) : R.turn^[n] r = 0#w ↔ r = 0#w := by
  constructor
  · intro h
    apply R.turn_injective.iterate n
    rw [h, XorMap.iterate_zero_word]
  · rintro rfl
    exact R.turn.iterate_zero_word n

/-- Source: none: infrastructure. Kind: L -/
theorem iterate_turn_bijective (n : Nat) : Bijective R.turn^[n] := by
  have hfinite : Finite (BitVec w) := Finite.of_injective BitVec.toFin fun _ _ h =>
    BitVec.eq_of_toFin_eq h
  exact Finite.injective_iff_bijective.1 (R.turn_injective.iterate n)

/-- A word whose low bits are clear only shifts. Source: none: infrastructure. Kind: L -/
theorem iterate_turn_of_low {r : BitVec w} (k : Nat) (h : ∀ i < k, r.getLsbD i = false) :
    R.turn^[k] r = r >>> k := by
  induction k with
  | zero => simp
  | succ k ih =>
      rw [iterate_succ_apply', ih fun i hi => h i (Nat.lt_succ_of_lt hi), R.turn_of_low,
        BitVec.shiftRight_add]
      rw [BitVec.getLsbD_ushiftRight, Nat.add_zero]
      exact h k (Nat.lt_succ_self k)

/-! ### Bits that enter -/

/-- A bit is added at the bottom, then the register turns. Source: none: infrastructure. Kind: D -/
def feed (r : BitVec w) (b : Bool) : BitVec w := R.turn (r ^^^ low b)

/-- Source: none: infrastructure. Kind: D -/
def feeds (r : BitVec w) (bits : List Bool) : BitVec w := bits.foldl R.feed r

/-- Source: none: infrastructure. Kind: L -/
@[simp] theorem feeds_nil (r : BitVec w) : R.feeds r [] = r := rfl

/-- Source: none: infrastructure. Kind: L -/
@[simp] theorem feeds_cons (r : BitVec w) (b : Bool) (bits : List Bool) :
    R.feeds r (b :: bits) = R.feeds (R.feed r b) bits := rfl

/-- Source: none: infrastructure. Kind: L -/
theorem feeds_append (r : BitVec w) (bits bits' : List Bool) :
    R.feeds r (bits ++ bits') = R.feeds (R.feeds r bits) bits' := List.foldl_append

/-- The word of a few bits, the first one lowest. Source: none: infrastructure. Kind: D -/
def word : List Bool → BitVec w
  | [] => 0#w
  | b :: bits => low b ^^^ (word bits <<< 1)

/-- Source: none: infrastructure. Kind: L -/
theorem getLsbD_word (bits : List Bool) {i : Nat} (hi : i < w) :
    (word bits : BitVec w).getLsbD i = bits.getD i false := by
  induction bits generalizing i with
  | nil => simp [word]
  | cons b bits ih =>
      rw [word, BitVec.getLsbD_xor, getLsbD_low b i hi, BitVec.getLsbD_shiftLeft]
      cases i with
      | zero => simp
      | succ i => simpa [hi] using ih (Nat.lt_of_succ_lt hi)

/-- Source: none: infrastructure. Kind: L -/
theorem word_eq_zero_iff (bits : List Bool) (hlen : bits.length ≤ w) :
    (word bits : BitVec w) = 0#w ↔ ∀ b ∈ bits, b = false := by
  constructor
  · intro h b hb
    obtain ⟨i, hi, rfl⟩ := List.getElem_of_mem hb
    have hbit := getLsbD_word (w := w) bits (Nat.lt_of_lt_of_le hi hlen)
    rw [h, BitVec.getLsbD_zero, List.getD_eq_getElem _ _ hi] at hbit
    exact hbit.symm
  · intro h
    apply BitVec.eq_of_getLsbD_eq
    intro i hi
    rw [getLsbD_word bits hi, BitVec.getLsbD_zero, List.getD_eq_getElem?_getD]
    cases hget : bits[i]? with
    | none => rfl
    | some b => exact h b (List.mem_of_getElem? hget)

/-- The word's turn, when no more bits stand above it than fit: its first bit falls out.
Source: none: infrastructure
Kind: L -/
theorem turn_shiftLeft (x : BitVec w) (h : x.getLsbD (w - 1) = false) : R.turn (x <<< 1) = x := by
  have hw := R.width_pos
  have hlow : (x <<< 1).getLsbD 0 = false := by simp
  rw [R.turn_of_low hlow]
  apply BitVec.eq_of_getLsbD_eq
  intro i hi
  rw [BitVec.getLsbD_ushiftRight, BitVec.getLsbD_shiftLeft]
  by_cases htop : i = w - 1
  · subst htop
    rw [h]
    simp
    omega
  · have hin : 1 + i < w := by omega
    simp [hin]

/-- Up to a word of bits can be added at once. Source: none: infrastructure. Kind: P -/
theorem feeds_eq_word (r : BitVec w) (bits : List Bool) (hlen : bits.length ≤ w) :
    R.feeds r bits = R.turn^[bits.length] (r ^^^ word bits) := by
  induction bits generalizing r with
  | nil => simp [word]
  | cons b bits ih =>
      have hlt : bits.length < w := hlen
      have htop : (word bits : BitVec w).getLsbD (w - 1) = false := by
        have hw := R.width_pos
        rw [getLsbD_word bits (by omega), List.getD_eq_default _ _ (by omega)]
      rw [feeds_cons, ih (R.feed r b) (Nat.le_of_lt hlt), List.length_cons, iterate_succ_apply,
        word, ← BitVec.xor_assoc, R.turn.map_xor (r ^^^ low b), R.turn_shiftLeft _ htop]
      rfl

/-! ### Two streams -/

/-- Source: none: infrastructure. Kind: L -/
theorem feed_xor (r s : BitVec w) (b d : Bool) :
    R.feed (r ^^^ s) (b ^^ d) = R.feed r b ^^^ R.feed s d := by
  have hlow : (low (b ^^ d) : BitVec w) = low b ^^^ low d := by cases b <;> cases d <;> simp [low]
  unfold feed
  rw [← R.turn.map_xor, hlow, BitVec.xor_assoc r s, ← BitVec.xor_assoc s, BitVec.xor_comm s,
    BitVec.xor_assoc, BitVec.xor_assoc]

/-- Source: none: infrastructure. Kind: L -/
theorem feeds_xor (r s : BitVec w) (bits ds : List Bool) (hlen : bits.length = ds.length) :
    R.feeds (r ^^^ s) (List.zipWith xor bits ds) = R.feeds r bits ^^^ R.feeds s ds := by
  induction bits generalizing r s ds with
  | nil =>
      cases ds with
      | nil => rfl
      | cons d ds => cases hlen
  | cons b bits ih =>
      cases ds with
      | nil => cases hlen
      | cons d ds =>
          rw [List.zipWith_cons_cons, feeds_cons, feed_xor, ih _ _ ds (Nat.succ.inj hlen)]
          rfl

/-- Two streams leave the same in the register when their difference leaves nothing in an empty one.
Source: none: infrastructure
Kind: P -/
theorem feeds_eq_iff (r : BitVec w) (bits bits' : List Bool) (hlen : bits.length = bits'.length) :
    R.feeds r bits = R.feeds r bits' ↔ R.feeds 0#w (List.zipWith xor bits bits') = 0#w := by
  have h := R.feeds_xor r r bits bits' hlen
  rw [BitVec.xor_self] at h
  rw [h, BitVec.xor_eq_zero_iff]

/-- Source: none: infrastructure. Kind: L -/
theorem feeds_replicate (r : BitVec w) (n : Nat) :
    R.feeds r (List.replicate n false) = R.turn^[n] r := by
  induction n generalizing r with
  | zero => rfl
  | succ n ih =>
      rw [List.replicate_succ, feeds_cons, ih, iterate_succ_apply]
      simp [feed, low]

/-- A difference that is one burst of at most `w` bits leaves something.
Source: none: infrastructure
Kind: P -/
theorem feeds_burst_ne (i j : Nat) (burst : List Bool) (hlen : burst.length ≤ w)
    (hset : true ∈ burst) :
    R.feeds 0#w (List.replicate i false ++ burst ++ List.replicate j false) ≠ 0#w := by
  rw [feeds_append, feeds_append, feeds_replicate, feeds_replicate, XorMap.iterate_zero_word]
  rw [Ne, iterate_turn_eq_zero_iff, feeds_eq_word _ _ _ hlen, iterate_turn_eq_zero_iff,
    BitVec.zero_xor, word_eq_zero_iff _ hlen]
  intro hall
  exact Bool.noConfusion (hall true hset)

/-- A pair of bits, `d` apart, leaves nothing exactly when a single bit comes back in `d` turns.
Source: none: infrastructure
Kind: P -/
theorem feeds_pair_eq_iff (i d j : Nat) :
    R.feeds 0#w (List.replicate i false ++ (true :: List.replicate d false) ++
      (true :: List.replicate j false)) = 0#w ↔ R.turn^[d + 1] 1#w = 1#w := by
  rw [feeds_append, feeds_append, feeds_replicate, XorMap.iterate_zero_word, feeds_cons,
    feeds_replicate, feeds_cons, feeds_replicate, iterate_turn_eq_zero_iff]
  unfold feed
  rw [BitVec.zero_xor, ← iterate_succ_apply]
  have hker := R.iterate_turn_eq_zero_iff 1 (R.turn^[d + 1] (low true) ^^^ low true)
  exact hker.trans BitVec.xor_eq_zero_iff

/-- Source: none: infrastructure. Kind: L -/
theorem eq_replicate_of_getD {ds : List Bool} (h : ∀ i, ds.getD i false = false) :
    ds = List.replicate ds.length false := by
  apply List.eq_replicate_iff.2 ⟨rfl, _⟩
  intro b hb
  obtain ⟨i, hi, rfl⟩ := List.getElem_of_mem hb
  rw [← List.getD_eq_getElem _ false hi]
  exact h i

/-- A difference within a window of `w` bits leaves something. Source: none: infrastructure. Kind: P -/
theorem feeds_window_ne (ds : List Bool) (a : Nat) (hset : true ∈ ds)
    (hin : ∀ i, ds.getD i false = true → a ≤ i ∧ i < a + w) : R.feeds 0#w ds ≠ 0#w := by
  have hfront : ds.take a = List.replicate (ds.take a).length false := by
    apply eq_replicate_of_getD
    intro i
    rw [List.getD_eq_getElem?_getD, List.getElem?_take]
    by_cases hi : i < a
    · rw [if_pos hi, ← List.getD_eq_getElem?_getD]
      by_contra hne
      have := hin i (Bool.eq_true_of_not_eq_false hne)
      omega
    · rw [if_neg hi]
      rfl
  have hback : (ds.drop a).drop w = List.replicate ((ds.drop a).drop w).length false := by
    apply eq_replicate_of_getD
    intro i
    rw [List.getD_eq_getElem?_getD, List.getElem?_drop, List.getElem?_drop,
      ← List.getD_eq_getElem?_getD]
    by_contra hne
    have := hin _ (Bool.eq_true_of_not_eq_false hne)
    omega
  have hsplit : ds = ds.take a ++ (ds.drop a).take w ++ (ds.drop a).drop w := by
    rw [List.append_assoc, List.take_append_drop, List.take_append_drop]
  rw [hsplit] at hset
  rw [hsplit, hfront, hback]
  apply R.feeds_burst_ne
  · rw [List.length_take]
    exact Nat.min_le_left _ _
  · -- the two sides hold no one
    have hno : ∀ n, true ∉ List.replicate n false := fun n h =>
      Bool.noConfusion (List.eq_of_mem_replicate h)
    rw [hfront, hback, List.mem_append, List.mem_append] at hset
    rcases hset with (h | h) | h
    · exact absurd h (hno _)
    · exact h
    · exact absurd h (hno _)

/-- A difference of two bits leaves nothing exactly when a single bit comes back in as many turns as
they are apart. Source: none: infrastructure. Kind: P -/
theorem feeds_two_eq_iff (ds : List Bool) {i j : Nat} (hij : i < j) (hj : j < ds.length)
    (hbits : ∀ k < ds.length, ds.getD k false = decide (k = i ∨ k = j)) :
    R.feeds 0#w ds = 0#w ↔ R.turn^[j - i] 1#w = 1#w := by
  have hds : ds = List.replicate i false ++ (true :: List.replicate (j - i - 1) false) ++
      (true :: List.replicate (ds.length - j - 1) false) := by
    apply List.ext_getElem
    · simp only [List.length_append, List.length_cons, List.length_replicate]
      omega
    · intro k hk _
      have hbit := hbits k hk
      rw [List.getD_eq_getElem _ _ hk] at hbit
      rw [hbit]
      simp only [List.getElem_append, List.getElem_cons, List.getElem_replicate,
        List.length_append, List.length_replicate, List.length_cons]
      grind
  have hdist : j - i = j - i - 1 + 1 := by omega
  rw [hds, R.feeds_pair_eq_iff, ← hdist]

/-! ### The register as a remainder -/

section polynomial

open Polynomial Finset

/-- Source: none: infrastructure. Kind: D -/
def coef (b : Bool) : ZMod 2 := if b then 1 else 0

/-- Source: none: infrastructure. Kind: L -/
theorem coef_xor (a b : Bool) : coef (a ^^ b) = coef a + coef b := by
  cases a <;> cases b <;> decide

/-- Source: none: infrastructure. Kind: L -/
@[simp] theorem coef_false : coef false = 0 := rfl

/-- The polynomial of a stream, the highest coefficient first. Source: none: infrastructure. Kind: D -/
noncomputable def streamPoly : List Bool → (ZMod 2)[X]
  | [] => 0
  | b :: bits => C (coef b) * X ^ bits.length + streamPoly bits

/-- The polynomial of a word, the highest coefficient lowest. Source: none: infrastructure. Kind: D -/
noncomputable def toPoly (r : BitVec w) : (ZMod 2)[X] :=
  ∑ i ∈ range w, C (coef (r.getLsbD i)) * X ^ (w - 1 - i)

/-- Source: none: infrastructure. Kind: L -/
theorem toPoly_xor (r s : BitVec w) : toPoly (r ^^^ s) = toPoly r + toPoly s := by
  unfold toPoly
  rw [← Finset.sum_add_distrib]
  apply Finset.sum_congr rfl
  intro i _
  rw [BitVec.getLsbD_xor, coef_xor, C_add, add_mul]

/-- The powers whose bits are set. Source: none: infrastructure. Kind: L -/
theorem toPoly_eq_sum_filter (r : BitVec w) :
    toPoly r = ∑ i ∈ (range w).filter (fun i => r.getLsbD i = true), X ^ (w - 1 - i) := by
  unfold toPoly
  rw [Finset.sum_filter]
  apply Finset.sum_congr rfl
  intro i _
  cases r.getLsbD i <;> simp [coef]

/-- Source: none: infrastructure. Kind: L -/
theorem degree_toPoly_lt (r : BitVec w) : (toPoly r).degree < (w : WithBot Nat) := by
  unfold toPoly
  apply (degree_lt_iff_coeff_zero _ _).2
  intro m hm
  rw [finsetSum_coeff]
  apply Finset.sum_eq_zero
  intro i hi
  have hi' := Finset.mem_range.1 hi
  rw [coeff_C_mul_X_pow, if_neg (by omega)]

/-- What the register divides by. Source: none: infrastructure. Kind: D -/
noncomputable def generator : (ZMod 2)[X] := X ^ w + toPoly R.taps

/-- Source: none: infrastructure. Kind: L -/
theorem generator_monic : R.generator.Monic := by
  apply (monic_X_pow w).add_of_left
  rw [degree_X_pow]
  exact degree_toPoly_lt R.taps

/-- Source: none: infrastructure. Kind: L -/
theorem degree_generator : R.generator.degree = w := by
  unfold generator
  rw [degree_add_eq_left_of_degree_lt, degree_X_pow]
  rw [degree_X_pow]
  exact degree_toPoly_lt R.taps

/-- The highest coefficient falls out of the shift. Source: none: infrastructure. Kind: L -/
theorem X_mul_toPoly (r : BitVec w) (hw : 0 < w) :
    X * toPoly r = C (coef (r.getLsbD 0)) * X ^ w + toPoly (r >>> 1) := by
  obtain ⟨v, rfl⟩ : ∃ v, w = v + 1 := ⟨w - 1, by omega⟩
  have hlast : r.getLsbD (1 + v) = false := BitVec.getLsbD_of_ge r _ (by omega)
  unfold toPoly
  rw [Finset.mul_sum, Finset.sum_range_succ', Finset.sum_range_succ _ v, add_comm]
  simp only [BitVec.getLsbD_ushiftRight, hlast, coef_false, C_0, zero_mul, add_zero]
  congr 1
  · rw [Nat.sub_zero, Nat.add_sub_cancel, pow_succ]
    ring
  · apply Finset.sum_congr rfl
    intro i hi
    have hi' := Finset.mem_range.1 hi
    have hexp : v + 1 - 1 - i = (v + 1 - 1 - (i + 1)) + 1 := by omega
    rw [hexp, pow_succ, Nat.add_comm 1 i]
    ring

/-- A turn multiplies by `X`, and takes the generator away once if it fits.
Source: none: infrastructure
Kind: P -/
theorem toPoly_turn (r : BitVec w) :
    toPoly (R.turn r) = X * toPoly r + C (coef (r.getLsbD 0)) * R.generator := by
  rw [X_mul_toPoly r R.width_pos, R.turn_apply, toPoly_xor]
  unfold generator
  cases r.getLsbD 0
  · have hzero : toPoly (0#w) = 0 := by
      unfold toPoly
      apply Finset.sum_eq_zero
      intro i _
      rw [BitVec.getLsbD_zero, coef_false, C_0, zero_mul]
    simp [hzero]
  · have hone : coef true = 1 := rfl
    rw [hone, C_1, one_mul, one_mul, if_pos rfl]
    -- the leading power cancels
    linear_combination (-1 : (ZMod 2)[X]) * CharTwo.add_self_eq_zero (X ^ w : (ZMod 2)[X])

/-- Source: none: infrastructure. Kind: L -/
theorem toPoly_low (b : Bool) (hw : 0 < w) : toPoly (low b : BitVec w) = C (coef b) * X ^ (w - 1) := by
  unfold toPoly
  rw [Finset.sum_eq_single 0]
  · rw [getLsbD_low b 0 hw, decide_eq_true rfl, Bool.and_true, Nat.sub_zero]
  · intro i hi hne
    rw [getLsbD_low b i (Finset.mem_range.1 hi), decide_eq_false hne, Bool.and_false, coef_false,
      C_0, zero_mul]
  · intro h
    exact absurd (Finset.mem_range.2 hw) h

/-- Source: none: infrastructure. Kind: L -/
theorem dvd_toPoly_feeds (r : BitVec w) (bits : List Bool) :
    R.generator ∣ X ^ bits.length * toPoly r + X ^ w * streamPoly bits - toPoly (R.feeds r bits) := by
  induction bits generalizing r with
  | nil => simp [streamPoly]
  | cons b bits ih =>
      have hw := R.width_pos
      have hpow : (X : (ZMod 2)[X]) ^ w = X * X ^ (w - 1) := by
        rw [← pow_succ', Nat.sub_add_cancel hw]
      have hfeed : toPoly (R.feed r b) = X * (toPoly r + C (coef b) * X ^ (w - 1)) +
          C (coef ((r ^^^ low b).getLsbD 0)) * R.generator := by
        unfold feed
        rw [R.toPoly_turn, toPoly_xor, toPoly_low b hw]
      have hstep := ih (R.feed r b)
      rw [hfeed] at hstep
      rw [feeds_cons, streamPoly, List.length_cons, pow_succ]
      -- the two differ by a multiple of the generator
      have hmul : R.generator ∣
          X ^ bits.length * (C (coef ((r ^^^ low b).getLsbD 0)) * R.generator) :=
        Dvd.intro_left _ (mul_assoc _ _ _)
      refine (dvd_sub hstep hmul).trans (dvd_of_eq ?_)
      rw [hpow]
      ring

/-- **The register holds the remainder** of what was in it, and what entered behind it, both moved up.
Source: none: infrastructure
Kind: P -/
theorem toPoly_feeds (r : BitVec w) (bits : List Bool) :
    toPoly (R.feeds r bits) =
      (X ^ bits.length * toPoly r + X ^ w * streamPoly bits) %ₘ R.generator := by
  obtain ⟨q, hq⟩ := R.dvd_toPoly_feeds r bits
  have hdeg : (toPoly (R.feeds r bits)).degree < R.generator.degree := by
    rw [R.degree_generator]
    exact degree_toPoly_lt _
  have hsum : toPoly (R.feeds r bits) + R.generator * q =
      X ^ bits.length * toPoly r + X ^ w * streamPoly bits := by
    rw [← hq]
    ring
  exact (div_modByMonic_unique q _ R.generator_monic ⟨hsum, hdeg⟩).2.symm

end polynomial

end ShiftRegister

end Cs140e.Lib
