import Mathlib.Algebra.BigOperators.Group.List.Basic
import Mathlib.Algebra.BigOperators.Intervals

/-!
# Fields of a bit string

A bit string is a function from positions to bits, and a `BitField` an interval of positions.

* `BitField.get`, `BitField.set` — a field read and overwritten, with the laws that relate them
  (`get_set`, `set_get`, `set_set`, `set_comm`).
* `count n x` — the set bits below `n`. `count_tiles` — fields that tile the positions below `n` have
  the set bits of the whole string between them.
* `bits x` — the bit string of a 32-bit word, with the lemmas for the operations on words.
-/

namespace Cs140e.Lib

open Finset

/-- Source: none: infrastructure. Kind: D -/
abbrev Bits := Nat → Bool

/-- The positions from `lb` to `ub`, inclusive. Source: none: infrastructure. Kind: D -/
structure BitField where
  lb : Nat
  ub : Nat
  le : lb ≤ ub

namespace BitField

/-- Source: none: infrastructure. Kind: D -/
def width (f : BitField) : Nat := f.ub - f.lb + 1

/-- Source: none: infrastructure. Kind: D -/
instance : Membership Nat BitField := ⟨fun f i => f.lb ≤ i ∧ i ≤ f.ub⟩

/-- Source: none: infrastructure. Kind: D -/
instance (f : BitField) (i : Nat) : Decidable (i ∈ f) := inferInstanceAs (Decidable (_ ∧ _))

/-- The bits of the field, moved to the bottom. Source: none: infrastructure. Kind: D -/
def get (f : BitField) (x : Bits) : Bits := fun i => decide (i < f.width) && x (f.lb + i)

/-- `v` in place of the bits of the field. Source: none: infrastructure. Kind: D -/
def set (f : BitField) (x v : Bits) : Bits := fun i => if i ∈ f then v (i - f.lb) else x i

/-- No bit of `v` is above the field. Source: none: infrastructure. Kind: D -/
def Fits (f : BitField) (v : Bits) : Prop := ∀ i, f.width ≤ i → v i = false

/-- No position is in both fields. Source: none: infrastructure. Kind: D -/
def Apart (f g : BitField) : Prop := f.ub < g.lb ∨ g.ub < f.lb

variable {f g : BitField} {x v w : Bits} {i : Nat}

/-- Source: none: infrastructure. Kind: L -/
theorem mem_iff : i ∈ f ↔ f.lb ≤ i ∧ i ≤ f.ub := Iff.rfl

/-- Source: none: infrastructure. Kind: L -/
theorem set_of_not_mem (h : i ∉ f) : f.set x v i = x i := if_neg h

/-- Source: none: infrastructure. Kind: L -/
theorem set_of_mem (h : i ∈ f) : f.set x v i = v (i - f.lb) := if_pos h

/-- Reading what was stored. Source: none: infrastructure. Kind: P -/
theorem get_set (h : f.Fits v) : f.get (f.set x v) = v := by
  funext i
  unfold get
  by_cases hi : i < f.width
  · have hmem : f.lb + i ∈ f := by
      have := f.le
      rw [mem_iff]
      unfold width at hi
      omega
    rw [set_of_mem hmem, Nat.add_sub_cancel_left, decide_eq_true hi, Bool.true_and]
  · rw [decide_eq_false hi, Bool.false_and, h i (Nat.le_of_not_lt hi)]

/-- Storing what was read. Source: none: infrastructure. Kind: P -/
theorem set_get : f.set x (f.get x) = x := by
  funext i
  by_cases hi : i ∈ f
  · obtain ⟨hlb, hub⟩ := mem_iff.mp hi
    have hwidth : i - f.lb < f.width := by
      unfold width
      omega
    rw [set_of_mem hi, get, decide_eq_true hwidth, Bool.true_and, Nat.add_sub_cancel' hlb]
  · exact set_of_not_mem hi

/-- The last store counts. Source: none: infrastructure. Kind: P -/
theorem set_set : f.set (f.set x v) w = f.set x w := by
  funext i
  by_cases hi : i ∈ f
  · rw [set_of_mem hi, set_of_mem hi]
  · rw [set_of_not_mem hi, set_of_not_mem hi, set_of_not_mem hi]

/-- Source: none: infrastructure. Kind: L -/
theorem Apart.not_mem (h : Apart f g) (hi : i ∈ f) : i ∉ g := by
  rw [mem_iff] at hi ⊢
  unfold Apart at h
  omega

/-- Stores to fields that do not meet. Source: none: infrastructure. Kind: P -/
theorem set_comm (h : Apart f g) : f.set (g.set x w) v = g.set (f.set x v) w := by
  funext i
  by_cases hf : i ∈ f
  · rw [set_of_mem hf, set_of_not_mem (h.not_mem hf), set_of_mem hf]
  · by_cases hg : i ∈ g
    · rw [set_of_not_mem hf, set_of_mem hg, set_of_mem hg]
    · rw [set_of_not_mem hf, set_of_not_mem hg, set_of_not_mem hg, set_of_not_mem hf]

end BitField

/-! ### Counting -/

/-- The number of set bits below `n`. Source: none: infrastructure. Kind: D -/
def count (n : Nat) (x : Bits) : Nat := (List.range n).countP x

variable {x : Bits} {n : Nat}

/-- Source: none: infrastructure. Kind: L -/
theorem count_succ : count (n + 1) x = count n x + (x n).toNat := by
  unfold count
  rw [List.range_succ, List.countP_append]
  cases hx : x n <;> simp [hx]

/-- Source: none: infrastructure. Kind: L -/
theorem count_le : count n x ≤ n := by
  have h := List.countP_le_length (p := x) (l := List.range n)
  rwa [List.length_range] at h

/-- Source: none: infrastructure. Kind: L -/
theorem count_eq_sum : count n x = ∑ i ∈ range n, (x i).toNat := by
  induction n with
  | zero => rfl
  | succ n ih => rw [count_succ, ih, sum_range_succ]

/-- The set bits of a field. Source: none: infrastructure. Kind: L -/
theorem count_get (f : BitField) (hub : f.ub < n) :
    count n (f.get x) = ∑ i ∈ range n, if i ∈ f then (x i).toNat else 0 := by
  have hle := f.le
  have hwidth : f.width ≤ n := by
    unfold BitField.width
    omega
  have hbits : ∀ i ∈ range f.width, (f.get x i).toNat = (x (f.lb + i)).toNat := by
    intro i hi
    rw [BitField.get, decide_eq_true (mem_range.mp hi), Bool.true_and]
  have habove : ∀ i ∈ range n, i ∉ range f.width → (f.get x i).toNat = 0 := by
    intro i _ hi
    rw [BitField.get, decide_eq_false (fun h => hi (mem_range.mpr h))]
    rfl
  have hfield : (range n).filter (· ∈ f) = Ico f.lb (f.ub + 1) := by
    ext i
    rw [mem_filter, mem_range, mem_Ico, BitField.mem_iff]
    omega
  have hIco : f.ub + 1 - f.lb = f.width := by
    unfold BitField.width
    omega
  rw [count_eq_sum, ← sum_subset (range_mono hwidth) habove, sum_congr rfl hbits, ← sum_filter, hfield,
    sum_Ico_eq_sum_range, hIco]

/-- The fields cover every position below `n` once. Source: none: infrastructure. Kind: D -/
def Tiles (n : Nat) (fs : List BitField) : Prop :=
  (∀ f ∈ fs, f.ub < n) ∧ ∀ i < n, fs.countP (fun f => decide (i ∈ f)) = 1

/-- Set bits counted field by field: each counts as often as it is covered.
Source: none: infrastructure
Kind: L -/
theorem sum_count_get {fs : List BitField} (h : ∀ f ∈ fs, f.ub < n) :
    (fs.map fun f => count n (f.get x)).sum =
      ∑ i ∈ range n, fs.countP (fun f => decide (i ∈ f)) * (x i).toNat := by
  induction fs with
  | nil => simp
  | cons f fs ih =>
      rw [List.map_cons, List.sum_cons, ih fun g hg => h g (List.mem_cons_of_mem f hg),
        count_get f (h f List.mem_cons_self), ← sum_add_distrib]
      refine sum_congr rfl fun i _ => ?_
      rw [List.countP_cons, Nat.add_mul, Nat.add_comm]
      by_cases hi : i ∈ f <;> simp [hi]

/-- **The set bits of the fields are those of the string.** Source: none: infrastructure. Kind: P -/
theorem count_tiles {fs : List BitField} (h : Tiles n fs) :
    (fs.map fun f => count n (f.get x)).sum = count n x := by
  rw [sum_count_get h.1, count_eq_sum]
  refine sum_congr rfl fun i hi => ?_
  rw [h.2 i (mem_range.mp hi), Nat.one_mul]

/-! ### The bits of a word -/

/-- Source: none: infrastructure. Kind: D -/
def bits (x : UInt32) : Bits := x.toNat.testBit

section word

variable {a b k : UInt32} {i : Nat}

/-- A word is its bits. Source: none: infrastructure. Kind: L -/
theorem bits_inj (h : bits a = bits b) : a = b :=
  UInt32.toNat_inj.mp (Nat.eq_of_testBit_eq fun i => congrFun h i)

/-- Source: none: infrastructure. Kind: L -/
theorem bits_of_lt (h : a.toNat < 2 ^ n) (hi : n ≤ i) : bits a i = false :=
  Nat.testBit_lt_two_pow (Nat.lt_of_lt_of_le h (Nat.pow_le_pow_right (by decide) hi))

/-- Source: none: infrastructure. Kind: L -/
theorem bits_of_le (hi : 32 ≤ i) : bits a i = false := bits_of_lt a.toNat_lt hi

/-- Source: none: infrastructure. Kind: L -/
@[simp] theorem bits_zero : bits 0 i = false := Nat.zero_testBit i

/-- Source: none: infrastructure. Kind: L -/
@[simp] theorem bits_and : bits (a &&& b) i = (bits a i && bits b i) := by
  unfold bits
  rw [UInt32.toNat_and, Nat.testBit_and]

/-- Source: none: infrastructure. Kind: L -/
@[simp] theorem bits_or : bits (a ||| b) i = (bits a i || bits b i) := by
  unfold bits
  rw [UInt32.toNat_or, Nat.testBit_or]

/-- Source: none: infrastructure. Kind: L -/
theorem bits_not (hi : i < 32) : bits (~~~a) i = !bits a i := by
  show (~~~a).toBitVec.getLsbD i = !a.toBitVec.getLsbD i
  rw [UInt32.toBitVec_not, BitVec.getLsbD_not, decide_eq_true hi, Bool.true_and]

/-- Source: none: infrastructure. Kind: L -/
theorem bits_shiftRight (hk : k.toNat < 32) : bits (a >>> k) i = bits a (k.toNat + i) := by
  unfold bits
  rw [UInt32.toNat_shiftRight, Nat.mod_eq_of_lt hk, Nat.testBit_shiftRight]

/-- Source: none: infrastructure. Kind: L -/
theorem bits_shiftLeft (hk : k.toNat < 32) :
    bits (a <<< k) i = (decide (i < 32) && (decide (k.toNat ≤ i) && bits a (i - k.toNat))) := by
  unfold bits
  rw [UInt32.toNat_shiftLeft, Nat.mod_eq_of_lt hk, Nat.testBit_mod_two_pow, Nat.testBit_shiftLeft]

end word

end Cs140e.Lib
