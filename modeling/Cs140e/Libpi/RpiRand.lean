import Cs140e.Lib.Bytes
import Cs140e.Lib.XorMap
import Mathlib.Data.Nat.ModEq
import Mathlib.Tactic.IntervalCases
import Mathlib.Tactic.NormNum.Prime

/-!
# The random numbers of libpi

`libpi/libc/rpi-rand.c`, a register of 16 bits whose new top bit is the parity of four of them.

* `rand16Map` — the step is linear for xor.
* `rpiRand16_full_period` — from every value but zero, 65535 calls give every value but zero once.
* `rpiRand32_period` — and so do the pairs that `rpi_rand32` makes: 65535 words, then the same again.
-/

namespace Cs140e.Libpi

open Cs140e.Lib Function

/-- Source: `rpi-rand.c` `initial_seed`. Kind: D -/
def initialSeed : UInt16 := 0xACE1

/-- The next value, which is also the next state. Source: `rpi-rand.c` `rpi_rand16`. Kind: D -/
def rpiRand16 (lfsr : UInt16) : UInt16 :=
  let bit := ((lfsr >>> 0) ^^^ (lfsr >>> 2) ^^^ (lfsr >>> 3) ^^^ (lfsr >>> 5)) &&& 1
  (lfsr >>> 1) ||| (bit <<< 15)

/-- The word and the state behind the two calls. The compiler may order them as it likes: `swapped` is
the order in which the right operand comes first. Source: `rpi-rand.c` `rpi_rand32`. Kind: D -/
def rpiRand32 (swapped : Bool) (lfsr : UInt16) : UInt32 × UInt16 :=
  let first := rpiRand16 lfsr
  let second := rpiRand16 first
  (if swapped then (second.toUInt32 <<< 16) ||| first.toUInt32
    else (first.toUInt32 <<< 16) ||| second.toUInt32, second)

/-- Source: `rpi-rand.c` `rpi_reset`. Kind: D -/
def rpiReset (_seed : UInt32) : UInt16 := initialSeed

/-! ### The step is linear -/

/-- Source: `rpi-rand.c` `rpi_rand16`. Kind: L -/
theorem rpiRand16_getLsbD (lfsr : UInt16) {i : Nat} (hi : i < 16) :
    (rpiRand16 lfsr).toBitVec.getLsbD i =
      if i = 15 then lfsr.toBitVec.getLsbD 0 ^^ lfsr.toBitVec.getLsbD 2 ^^ lfsr.toBitVec.getLsbD 3 ^^
        lfsr.toBitVec.getLsbD 5
      else lfsr.toBitVec.getLsbD (i + 1) := by
  unfold rpiRand16
  interval_cases i <;> simp

/-- Source: `rpi-rand.c` `rpi_rand16`. Kind: D -/
def rand16Map : XorMap 16 where
  toFun r := (rpiRand16 ⟨r⟩).toBitVec
  map_xor a b := by
    apply BitVec.eq_of_getLsbD_eq
    intro i hi
    rw [BitVec.getLsbD_xor, rpiRand16_getLsbD _ hi, rpiRand16_getLsbD _ hi, rpiRand16_getLsbD _ hi]
    split
    · simp only [BitVec.getLsbD_xor]
      cases a.getLsbD 0 <;> cases a.getLsbD 2 <;> cases a.getLsbD 3 <;> cases a.getLsbD 5 <;> simp
    · rw [BitVec.getLsbD_xor]

/-- Source: `rpi-rand.c` `rpi_rand16`. Kind: L -/
theorem rand16Map_iterate (n : Nat) (lfsr : UInt16) :
    rand16Map^[n] lfsr.toBitVec = (rpiRand16^[n] lfsr).toBitVec := by
  induction n with
  | zero => rfl
  | succ n ih =>
      rw [iterate_succ_apply', iterate_succ_apply', ih]
      rfl

/-- The seed is back after 65535 calls, and not before. Source: `rpi-rand.c` `rpi_rand16`. Kind: L -/
theorem rand16Map_seed : minimalPeriod rand16Map initialSeed.toBitVec = 2 ^ 16 - 1 := by
  have hprime : ∀ p ∈ [3, 5, 17, 257], Nat.Prime p := by norm_num
  exact rand16Map.minimalPeriod_eq_of_powers _ hprime (by decide) (by decide +kernel)

/-- Source: `rpi-rand.c` `rpi_rand16`. Kind: L -/
theorem toBitVec_ne_zero {v : UInt16} (h : v ≠ 0) : v.toBitVec ≠ 0#16 := fun hv =>
  h (UInt16.toBitVec_inj.1 hv)

/-- Source: `rpi-rand.c` `rpi_rand16`. Kind: L -/
theorem minimalPeriod_rand16Map {lfsr : UInt16} (h : lfsr ≠ 0) :
    minimalPeriod rand16Map lfsr.toBitVec = 2 ^ 16 - 1 :=
  XorMap.minimalPeriod_of_full (by decide) (by decide) rand16Map_seed (toBitVec_ne_zero h)

/-- Source: `rpi-rand.c` `rpi_rand16`. Kind: L -/
theorem minimalPeriod_rpiRand16 {lfsr : UInt16} (h : lfsr ≠ 0) :
    minimalPeriod rpiRand16 lfsr = 65535 := by
  have hmap := minimalPeriod_rand16Map h
  rw [show (65535 : Nat) = 2 ^ 16 - 1 by rfl, ← hmap, minimalPeriod_eq_minimalPeriod_iff]
  intro n
  unfold IsPeriodicPt IsFixedPt
  rw [rand16Map_iterate, UInt16.toBitVec_inj]

/-- Source: `rpi-rand.c` `rpi_rand16`. Kind: L -/
theorem rpiRand16_iterate_ne_zero {lfsr : UInt16} (h : lfsr ≠ 0) (n : Nat) :
    rpiRand16^[n] lfsr ≠ 0 := by
  have hper := XorMap.mem_periodicPts_of_full (by decide) (minimalPeriod_rand16Map h)
  have hne := XorMap.iterate_ne_zero (toBitVec_ne_zero h) hper n
  rw [rand16Map_iterate] at hne
  intro hzero
  exact hne (congrArg UInt16.toBitVec hzero)

/-- Source: `rpi-rand.c` `rpi_rand16`. Kind: L -/
theorem rpiRand16_iterate_eq_iff {lfsr : UInt16} (h : lfsr ≠ 0) (i j : Nat) :
    rpiRand16^[i] lfsr = rpiRand16^[j] lfsr ↔ i % 65535 = j % 65535 := by
  have hper := minimalPeriod_rpiRand16 h
  have hlt : ∀ n, n % 65535 < minimalPeriod rpiRand16 lfsr := fun n => by
    rw [hper]
    exact Nat.mod_lt n (by decide)
  have hmod : ∀ n, rpiRand16^[n % 65535] lfsr = rpiRand16^[n] lfsr := fun n => by
    rw [← hper, iterate_mod_minimalPeriod_eq]
  rw [← hmod i, ← hmod j, iterate_eq_iterate_iff_of_lt_minimalPeriod (hlt i) (hlt j)]

/-- **The generator has the full period**: from every state but zero, the next 65535 values are all the
values but zero, each of them once; then they come again. Source: `rpi-rand.c` `rpi_rand16`. Kind: P -/
theorem rpiRand16_full_period {lfsr : UInt16} (h : lfsr ≠ 0) :
    (∀ v, v ≠ 0 ↔ ∃ k < 65535, rpiRand16^[k + 1] lfsr = v) ∧
      (∀ i j, rpiRand16^[i] lfsr = rpiRand16^[j] lfsr ↔ i % 65535 = j % 65535) := by
  refine ⟨fun v => ⟨fun hv => ?_, ?_⟩, rpiRand16_iterate_eq_iff h⟩
  · have hnext := rpiRand16_iterate_ne_zero h 1
    obtain ⟨k, hk, hkv⟩ := XorMap.exists_iterate (by decide) (toBitVec_ne_zero hnext)
      (minimalPeriod_rand16Map hnext) (toBitVec_ne_zero hv)
    rw [rand16Map_iterate, UInt16.toBitVec_inj] at hkv
    exact ⟨k, hk, hkv⟩
  · rintro ⟨k, -, rfl⟩
    exact rpiRand16_iterate_ne_zero h (k + 1)

/-- Source: `rpi-rand.c` `rpi_rand16`. Kind: L -/
theorem rpiRand16_full_period_seed :
    (∀ v, v ≠ 0 ↔ ∃ k < 65535, rpiRand16^[k + 1] (rpiReset 7) = v) ∧
      (∀ i j, rpiRand16^[i] (rpiReset 7) = rpiRand16^[j] (rpiReset 7) ↔ i % 65535 = j % 65535) :=
  rpiRand16_full_period (by decide)

/-! ### Words from two values -/

/-- Source: `rpi-rand.c` `rpi_rand32`. Kind: L -/
theorem rand32_toNat (a b : UInt16) :
    ((a.toUInt32 <<< 16) ||| b.toUInt32).toNat = b.toNat + a.toNat * 2 ^ 16 := by
  have hshift : (a.toUInt32 <<< 16).toNat = a.toNat <<< 16 := by
    rw [UInt32.toNat_shiftLeft]
    show a.toNat <<< 16 % 2 ^ 32 = a.toNat <<< 16
    apply Nat.mod_eq_of_lt
    have ha := a.toNat_lt
    rw [Nat.shiftLeft_eq]
    omega
  rw [UInt32.toNat_or, hshift, Nat.or_comm]
  exact or_shiftLeft_of_lt b.toNat_lt a.toNat

/-- A word says both values. Source: `rpi-rand.c` `rpi_rand32`. Kind: L -/
theorem rpiRand32_inj {swapped : Bool} {s s' : UInt16}
    (h : (rpiRand32 swapped s).1 = (rpiRand32 swapped s').1) : rpiRand16 s = rpiRand16 s' := by
  have hnat := congrArg UInt32.toNat h
  have hb := (rpiRand16 s).toNat_lt
  have hb' := (rpiRand16 s').toNat_lt
  have hc := (rpiRand16 (rpiRand16 s)).toNat_lt
  have hc' := (rpiRand16 (rpiRand16 s')).toNat_lt
  apply UInt16.toNat_inj.1
  unfold rpiRand32 at hnat
  cases swapped
  · simp only [Bool.false_eq_true, if_false, rand32_toNat] at hnat
    omega
  · simp only [if_true, rand32_toNat] at hnat
    omega

/-- The state behind `n` calls. Source: `rpi-rand.c` `rpi_rand32`. Kind: D -/
def rand32State (swapped : Bool) (lfsr : UInt16) (n : Nat) : UInt16 :=
  (fun s => (rpiRand32 swapped s).2)^[n] lfsr

/-- Source: `rpi-rand.c` `rpi_rand32`. Kind: L -/
theorem rand32State_eq (swapped : Bool) (lfsr : UInt16) (n : Nat) :
    rand32State swapped lfsr n = rpiRand16^[2 * n] lfsr := by
  rw [iterate_mul]
  rfl

/-- The period is odd. Source: `rpi-rand.c` `rpi_rand32`. Kind: L -/
theorem mod_of_twice {i j : Nat} (h : (2 * i + 1) % 65535 = (2 * j + 1) % 65535) :
    i % 65535 = j % 65535 :=
  Nat.ModEq.cancel_left_of_coprime (c := 2) (by decide) (Nat.ModEq.add_right_cancel' 1 h)

/-- **The words have it too**: they come again after 65535 calls, and not before, in whatever order the
two values are drawn. Source: `rpi-rand.c` `rpi_rand32`. Kind: P -/
theorem rpiRand32_period (swapped : Bool) {lfsr : UInt16} (h : lfsr ≠ 0) (i j : Nat) :
    (rpiRand32 swapped (rand32State swapped lfsr i)).1 =
        (rpiRand32 swapped (rand32State swapped lfsr j)).1 ↔ i % 65535 = j % 65535 := by
  have hstep : ∀ n, rpiRand16 (rand32State swapped lfsr n) = rpiRand16^[2 * n + 1] lfsr := fun n => by
    rw [rand32State_eq, iterate_succ_apply']
  constructor
  · intro heq
    have hfirst := rpiRand32_inj heq
    rw [hstep i, hstep j] at hfirst
    exact mod_of_twice ((rpiRand16_iterate_eq_iff h (2 * i + 1) (2 * j + 1)).1 hfirst)
  · intro hmod
    have hmod' : 2 * i % 65535 = 2 * j % 65535 := Nat.ModEq.mul_left 2 hmod
    have hstate : rand32State swapped lfsr i = rand32State swapped lfsr j := by
      rw [rand32State_eq, rand32State_eq]
      exact (rpiRand16_iterate_eq_iff h (2 * i) (2 * j)).2 hmod'
    rw [hstate]

/-- Source: `rpi-rand.c` `rpi_rand32`. Kind: L -/
theorem rpiRand32_period_seed : (rpiRand32 true (rand32State true (rpiReset 7) 0)).1 =
    (rpiRand32 true (rand32State true (rpiReset 7) 65535)).1 ↔ 0 % 65535 = 65535 % 65535 :=
  rpiRand32_period true (by decide) 0 65535

end Cs140e.Libpi
