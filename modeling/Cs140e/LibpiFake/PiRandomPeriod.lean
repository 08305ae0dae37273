import Cs140e.Lib.Congruential
import Cs140e.LibpiFake.PiRandomSeed
import Mathlib.Data.Fintype.EquivFin
import Mathlib.NumberTheory.LucasLehmer
import Mathlib.Tactic.NormNum.Prime

/-!
# The random numbers of the fake pi: periods

What the comment in front of `pi_random_r` says about the trinomials: the low bits of the table are a
linear feedback shift register of the full period.

* `lagMap_period` — the four trinomials are primitive.
* `low_bits_period` — the low bits come again after `2 ^ deg - 1` values, and not before.
* `random_period` — so many states are all different; with the place of the front pointer even as many
  as the least common multiple of that and `deg`.
-/

namespace Cs140e.LibpiFake.PiRandom

open Cs140e.Lib Function

/-! ## The trinomials -/

/-- `x ^ 7 + x ^ 3 + 1`. Source: `pi-random.c` `DEG_1`, `SEP_1`. Kind: L -/
theorem lagMap_period_1 : minimalPeriod (lagMap 7 3) 1#7 = 2 ^ 7 - 1 := by
  have hprime : ∀ p ∈ [127], Nat.Prime p := by norm_num
  exact (lagMap 7 3).minimalPeriod_eq_of_powers _ hprime (by decide) (by decide +kernel)

/-- `x ^ 15 + x + 1`. Source: `pi-random.c` `DEG_2`, `SEP_2`. Kind: L -/
theorem lagMap_period_2 : minimalPeriod (lagMap 15 1) 1#15 = 2 ^ 15 - 1 := by
  have hprime : ∀ p ∈ [7, 31, 151], Nat.Prime p := by norm_num
  exact (lagMap 15 1).minimalPeriod_eq_of_powers _ hprime (by decide) (by decide +kernel)

/-- `x ^ 31 + x ^ 3 + 1`. Source: `pi-random.c` `DEG_3`, `SEP_3`. Kind: L -/
theorem lagMap_period_3 : minimalPeriod (lagMap 31 3) 1#31 = 2 ^ 31 - 1 := by
  -- a Mersenne prime
  have hmersenne : (mersenne 31).Prime := lucas_lehmer_sufficiency 31 (by norm_num) (by norm_num)
  have hprime : ∀ p ∈ [2 ^ 31 - 1], Nat.Prime p := by simpa [mersenne] using hmersenne
  exact (lagMap 31 3).minimalPeriod_eq_of_powers _ hprime (by decide) (by decide +kernel)

/-- `x ^ 63 + x + 1`. Source: `pi-random.c` `DEG_4`, `SEP_4`. Kind: L -/
theorem lagMap_period_4 : minimalPeriod (lagMap 63 1) 1#63 = 2 ^ 63 - 1 := by
  have hprime : ∀ p ∈ [7, 7, 73, 127, 337, 92737, 649657], Nat.Prime p := by norm_num
  exact (lagMap 63 1).minimalPeriod_eq_of_powers _ hprime (by decide) (by decide +kernel)

/-- **The polynomials are primitive.** Source: `pi-random.c` "assuming that the polynomial is irreducible
and primitive". Kind: P -/
theorem lagMap_period {t : Nat} (ht : t < maxTypes) (hne : t ≠ type0) :
    minimalPeriod (lagMap (degrees t) (seps t)) 1#(degrees t) = 2 ^ degrees t - 1 := by
  match t, ht, hne with
  | 0, _, hne => exact absurd rfl hne
  | 1, _, _ => exact lagMap_period_1
  | 2, _, _ => exact lagMap_period_2
  | 3, _, _ => exact lagMap_period_3
  | 4, _, _ => exact lagMap_period_4

/-! ## The low bits -/

/-- Source: `pi-random.c` "the least significant bit of all the numbers in the state table". Kind: D -/
def lowBit (val : Int32) : Bool := val.toBitVec.getLsbD 0

/-- Source: `pi-random.c` `val = *fptr += *rptr`. Kind: L -/
theorem lowBit_add (a b : Int32) : lowBit (a + b) = Bool.xor (lowBit a) (lowBit b) := by
  unfold lowBit
  rw [Int32.toBitVec_add, BitVec.getLsbD_add (by decide)]
  simp [BitVec.carry, Nat.mod_one]

namespace Gen

variable {g : Gen}

/-- Source: `pi-random.c` `pi_random_r`. Kind: L -/
theorem lowBit_lags (hne : g.type ≠ type0) :
    Lags Bool.xor (degrees g.type) (seps g.type) fun n => lowBit (g.seq n) := by
  intro n
  show lowBit (g.seq (n + degrees g.type)) = _
  rw [g.seq_lags hne n, lowBit_add]

/-- A word of the table, as a value of the sequence. Source: `pi-random.c` `pi_random_r`. Kind: L -/
theorem seq_of_table {i : Nat} (hne : g.type ≠ type0) (hi : i < degrees g.type) :
    ∃ n < degrees g.type, g.seq n = g.table i := by
  have hfront := g.front_lt hne
  have hdeg : 0 < degrees g.type := by omega
  refine ⟨(i + (degrees g.type - g.front)) % degrees g.type, Nat.mod_lt _ hdeg, ?_⟩
  have hplace : (g.front + (i + (degrees g.type - g.front)) % degrees g.type) % degrees g.type = i := by
    have hsum : g.front + (i + (degrees g.type - g.front)) = i + degrees g.type := by omega
    rw [Nat.add_mod_mod, hsum, Nat.add_mod_right, Nat.mod_eq_of_lt hi]
  unfold seq
  rw [lagged_of_lt (Nat.mod_lt _ hdeg), hplace]

/-- **The low bits have the full period.** From an odd word in the table on, they go on at two places in
the same way just when these are a multiple of `2 ^ deg - 1` apart.
Source: `pi-random.c` "and will have period 2^deg - 1"
Kind: P -/
theorem low_bits_period (hne : g.type ≠ type0)
    (hodd : ∃ i < degrees g.type, lowBit (g.table i) = true) (i j : Nat) :
    (∀ n, lowBit (g.seq (i + n)) = lowBit (g.seq (j + n))) ↔
      i % (2 ^ degrees g.type - 1) = j % (2 ^ degrees g.type - 1) := by
  obtain ⟨hpos, hlt⟩ := seps_lt g.type_lt hne
  obtain ⟨k, hk, hbit⟩ := hodd
  obtain ⟨n, hn, hseq⟩ := g.seq_of_table hne hk
  have hone : 1#(degrees g.type) ≠ 0#(degrees g.type) := by
    intro hzero
    have hbit := congrArg (fun x => x.getLsbD 0) hzero
    simp at hbit
    omega
  exact lags_period_iff (lowBit_lags hne) hpos (Nat.le_of_lt hlt) hone (lagMap_period g.type_lt hne)
    ⟨n, hn, (congrArg lowBit hseq).trans hbit⟩ i j

/-- When the table and the front place are those of an earlier call, the sequence goes on as it did.
Source: `pi-random.c` `pi_random_r`
Kind: L -/
theorem seq_of_after {i j : Nat} (hne : g.type ≠ type0) (hfront : (g.after i).front = (g.after j).front)
    (htable : ∀ m < degrees g.type, (g.after i).table m = (g.after j).table m) (n : Nat) :
    g.seq (i + n) = g.seq (j + n) := by
  obtain ⟨hpos, hlt⟩ := seps_lt g.type_lt hne
  revert n
  apply congrFun
  refine Lags.ext hpos (Nat.le_of_lt hlt) ((g.seq_lags hne).shift i) ((g.seq_lags hne).shift j)
    fun m hm => ?_
  show g.seq (i + m) = g.seq (j + m)
  rw [← g.window_after hne i m hm, ← g.window_after hne j m hm, hfront]
  exact htable _ (Nat.mod_lt _ (by omega))

end Gen

/-! ## The whole state -/

section

variable {a : Nat} {g : Gen} {s : Random}

/-- A state comes again only after a multiple of `deg` and of `2 ^ deg - 1` calls.
Source: `pi-random.c` "total period of the generator"
Kind: P -/
theorem state_recurs (h : Current a g s) (hne : g.type ≠ type0)
    (hodd : ∃ i < degrees g.type, lowBit (g.table i) = true) {i j : Nat}
    (hstate : (randoms i s).2 = (randoms j s).2) :
    i % degrees g.type = j % degrees g.type ∧
      i % (2 ^ degrees g.type - 1) = j % (2 ^ degrees g.type - 1) := by
  obtain ⟨-, hi, -⟩ := randoms_current h i
  obtain ⟨-, hj, -⟩ := randoms_current h j
  have hni : (g.after i).type ≠ type0 := by rwa [Gen.after_type]
  have hnj : (g.after j).type ≠ type0 := by rwa [Gen.after_type]
  have hfront : (g.after i).front = (g.after j).front := by
    have hptr := (hi.fptr hni).symm.trans ((congrArg (fun t => t.buf.fptr) hstate).trans (hj.fptr hnj))
    have hplace := congrArg WordPtr.place hptr
    dsimp only at hplace
    omega
  have htable : ∀ m < degrees g.type, (g.after i).table m = (g.after j).table m := by
    intro m hm
    rw [← hi.table m (by rw [Gen.after_type]; exact lt_tableSize hm),
      ← hj.table m (by rw [Gen.after_type]; exact lt_tableSize hm), hstate]
  constructor
  · rw [g.after_front hne, g.after_front hne] at hfront
    exact Nat.ModEq.add_left_cancel' g.front hfront
  · refine (Gen.low_bits_period hne hodd i j).mp fun n => ?_
    rw [Gen.seq_of_after hne hfront htable n]

/-- The number at the front pointer. Source: `pi-random.c` `*fptr`. Kind: D -/
def Random.frontWord (s : Random) : Int32 := s.load s.buf.fptr

/-- Source: `pi-random.c` `pi_random_r`. Kind: L -/
theorem frontWord_randoms (h : Current a g s) (hne : g.type ≠ type0) (n : Nat) :
    (randoms n s).2.frontWord = g.seq n := by
  obtain ⟨-, hn, -⟩ := randoms_current h n
  have hne' : (g.after n).type ≠ type0 := by rwa [Gen.after_type]
  have hfront : (g.after n).front < degrees g.type := by
    have hlt := (g.after n).front_lt hne'
    rwa [Gen.after_type] at hlt
  unfold Random.frontWord
  rw [hn.fptr hne', ← (g.window_after hne n).front hfront]
  exact hn.table _ (by rw [Gen.after_type]; exact lt_tableSize hfront)

/-- **The period**: with an odd word in the table, the low bits at the front pointer come again after
`2 ^ deg - 1` calls and not before, and the first so many states are all different.
Source: `pi-random.c` `pi_random_r`
Kind: P -/
theorem random_period (h : Current a g s) (hne : g.type ≠ type0)
    (hodd : ∃ i < degrees g.type, lowBit (s.words a (1 + i)) = true) :
    (∀ i j, (∀ n, lowBit (randoms (i + n) s).2.frontWord = lowBit (randoms (j + n) s).2.frontWord) ↔
      i % (2 ^ degrees g.type - 1) = j % (2 ^ degrees g.type - 1)) ∧
    Set.InjOn (fun n => (randoms n s).2)
      (Set.Iio (Nat.lcm (degrees g.type) (2 ^ degrees g.type - 1))) := by
  have hodd' : ∃ i < degrees g.type, lowBit (g.table i) = true := by
    obtain ⟨i, hi, hbit⟩ := hodd
    exact ⟨i, hi, by rwa [← h.table i (lt_tableSize hi)]⟩
  constructor
  · intro i j
    simp only [frontWord_randoms h hne]
    exact Gen.low_bits_period hne hodd' i j
  · intro i hi j hj hstate
    obtain ⟨hdeg, hfull⟩ := state_recurs h hne hodd' hstate
    have hmod : i ≡ j [MOD Nat.lcm (degrees g.type) (2 ^ degrees g.type - 1)] :=
      Nat.mod_lcm hdeg hfull
    exact Nat.ModEq.eq_of_lt_of_lt hmod hi hj

end

/-- Source: `pi-random.c` `TYPE_1`. Kind: L -/
theorem random_period_seven :
    let s : Random := ⟨⟨⟨0, 4⟩, ⟨0, 1⟩, ⟨0, 1⟩, 1, 7, 3, ⟨0, 8⟩⟩, fun _ i => Int32.ofNat (i - 1)⟩
    (∀ i j, (∀ n, lowBit (randoms (i + n) s).2.frontWord = lowBit (randoms (j + n) s).2.frontWord) ↔
      i % (2 ^ 7 - 1) = j % (2 ^ 7 - 1)) ∧
    Set.InjOn (fun n => (randoms n s).2) (Set.Iio (Nat.lcm 7 (2 ^ 7 - 1))) := by
  refine random_period (g := ⟨1, fun i => Int32.ofNat i, 3, by decide, by decide⟩)
    ⟨⟨rfl, rfl, rfl, rfl, rfl⟩, fun i _ => ?_, fun _ => rfl, fun _ => rfl⟩
    (by decide) ⟨1, by decide, by decide⟩
  exact congrArg Int32.ofNat (Nat.add_sub_cancel_left 1 i)

/-! ## The linear congruential generator -/

/-- The bits of a word, as a number. Source: `pi-random.c` `int32_t`. Kind: D -/
def bitsOf (val : Int32) : Nat := val.toBitVec.toNat

/-- Source: `pi-random.c` `& 0x7fffffff`. Kind: L -/
theorem bitsOf_congruential (val : Int32) :
    bitsOf (congruential val) = linStep 1103515245 12345 (bitsOf val) % 2 ^ 31 := by
  have hand : ∀ x : Int32, bitsOf (x &&& 0x7fffffff) = bitsOf x % 2 ^ 31 := fun x => by
    unfold bitsOf
    rw [Int32.toBitVec_and, BitVec.toNat_and]
    exact Nat.and_two_pow_sub_one_eq_mod x.toBitVec.toNat 31
  unfold congruential
  rw [hand]
  unfold bitsOf linStep
  rw [Int32.toBitVec_add, Int32.toBitVec_mul, BitVec.toNat_add, BitVec.toNat_mul, Nat.mod_add_mod,
    Nat.mod_mod_of_dvd _ (by decide), Nat.mul_comm]
  rfl

/-- Source: `pi-random.c` `TYPE_0`. Kind: L -/
theorem bitsOf_iterate (val : Int32) (n : Nat) :
    bitsOf (congruential^[n] val) % 2 ^ 31 =
      (linStep 1103515245 12345)^[n] (bitsOf val) % 2 ^ 31 := by
  induction n with
  | zero => rfl
  | succ n ih =>
      rw [iterate_succ_apply', iterate_succ_apply', bitsOf_congruential, Nat.mod_mod]
      exact ((Nat.ModEq.refl _).mul ih).add_right _

/-- Source: `pi-random.c` `state[0] = val`. Kind: L -/
theorem Gen.after_table_type0 {g : Gen} (h0 : g.type = type0) (n : Nat) :
    (g.after n).table 0 = congruential^[n] (g.table 0) := by
  induction n with
  | zero => rfl
  | succ n ih =>
      have h0' : (g.after n).type = type0 := by rwa [after_type]
      rw [after_next, iterate_succ_apply', ← ih]
      unfold next value
      simp only
      rw [if_pos h0', if_pos h0', update_self]

/-- **The linear congruential generator**: the low `m` bits of the numbers come again after `2 ^ m` calls
and not before, so that every number of 31 bits comes once in `2 ^ 31` calls.
Source: `pi-random.c` `pi_random_r` `TYPE_0`
Kind: P -/
theorem random_type0_period {a : Nat} {g : Gen} {s : Random} (h : Current a g s) (h0 : g.type = type0) :
    ∃ r : Nat → Int32, (∀ n, (randoms n s).1 = (List.range n).map r) ∧
      (∀ m ≤ 31, ∀ i j, bitsOf (r i) % 2 ^ m = bitsOf (r j) % 2 ^ m ↔ i % 2 ^ m = j % 2 ^ m) ∧
      ∀ x, bitsOf x < 2 ^ 31 → ∃ k < 2 ^ 31, r k = x := by
  have hresult : ∀ k, (g.after k).result = congruential^[k + 1] (g.table 0) := fun k => by
    have h0' : (g.after k).type = type0 := by rwa [Gen.after_type]
    unfold Gen.result Gen.value
    rw [if_pos h0', if_pos h0', Gen.after_table_type0 h0, iterate_succ_apply']
  have hperiod : ∀ m ≤ 31, ∀ i j, bitsOf (g.after i).result % 2 ^ m = bitsOf (g.after j).result % 2 ^ m ↔
      i % 2 ^ m = j % 2 ^ m := by
    intro m hm i j
    have hlow : ∀ k, bitsOf (g.after k).result % 2 ^ m =
        (linStep 1103515245 12345)^[k + 1] (bitsOf (g.table 0)) % 2 ^ m := fun k => by
      have hdvd : 2 ^ m ∣ 2 ^ 31 := pow_dvd_pow 2 hm
      rw [hresult, ← Nat.mod_mod_of_dvd _ hdvd, bitsOf_iterate, Nat.mod_mod_of_dvd _ hdvd]
    rw [hlow, hlow, linStep_period (by decide) (by decide)]
    exact ⟨fun hmod => Nat.ModEq.add_right_cancel' 1 hmod, fun hmod => Nat.ModEq.add_right 1 hmod⟩
  refine ⟨fun k => (g.after k).result, fun n => (randoms_current h n).1, hperiod, fun x hx => ?_⟩
  have hlt : ∀ k, bitsOf (g.after k).result < 2 ^ 31 := fun k => by
    rw [hresult, iterate_succ_apply', bitsOf_congruential]
    exact Nat.mod_lt _ (by decide)
  let number : Fin (2 ^ 31) → Fin (2 ^ 31) := fun k => ⟨bitsOf (g.after k).result, hlt k⟩
  have hinj : Injective number := by
    intro i j hij
    have hbits : bitsOf (g.after i).result = bitsOf (g.after j).result := by
      simpa [number] using hij
    have hmod := (hperiod 31 le_rfl i j).mp (by rw [hbits])
    rw [Nat.mod_eq_of_lt i.isLt, Nat.mod_eq_of_lt j.isLt] at hmod
    exact Fin.ext hmod
  obtain ⟨k, hk⟩ := Finite.surjective_of_injective hinj ⟨bitsOf x, hx⟩
  refine ⟨k, k.isLt, ?_⟩
  have hbits : bitsOf (g.after k).result = bitsOf x := by
    simpa [number] using hk
  exact Int32.toBitVec_inj.mp (BitVec.eq_of_toNat_eq hbits)

/-- Source: `pi-random.c` `TYPE_0`. Kind: L -/
theorem random_type0_period_zero :
    ∃ r : Nat → Int32,
      (∀ n, (randoms n ⟨⟨⟨0, 0⟩, ⟨0, 0⟩, ⟨0, 1⟩, 0, 0, 0, ⟨0, 1⟩⟩, fun _ _ => 0⟩).1 =
        (List.range n).map r) ∧
      (∀ m ≤ 31, ∀ i j, bitsOf (r i) % 2 ^ m = bitsOf (r j) % 2 ^ m ↔ i % 2 ^ m = j % 2 ^ m) ∧
      ∀ x, bitsOf x < 2 ^ 31 → ∃ k < 2 ^ 31, r k = x :=
  random_type0_period (a := 0) (g := ⟨0, fun _ => 0, 0, by decide, fun h => absurd rfl h⟩)
    ⟨⟨rfl, rfl, rfl, rfl, rfl⟩, fun _ _ => rfl, fun h => absurd rfl h, fun h => absurd rfl h⟩ rfl

end Cs140e.LibpiFake.PiRandom
