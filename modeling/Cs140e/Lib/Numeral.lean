import Mathlib.Data.Nat.Digits.Lemmas

/-!
# Numerals

The digits of a number, most significant first, with one digit for zero.

* `numeral b n` — the digits; `value b ds` — the number that digits denote.
* `numeral_eq` — the recursion that a printing loop follows; `value_numeral` — reading back;
  `value_append` — two strings of digits next to each other.
* `toDigits_eq` — the numeral of the standard library is this one.
-/

namespace Cs140e.Lib

/-- The digits of `n` in base `b`, most significant first. Source: none: infrastructure. Kind: D -/
def numeral (b n : Nat) : List Nat := if n = 0 then [0] else (Nat.digits b n).reverse

/-- The number that digits denote. Source: none: infrastructure. Kind: D -/
def value (b : Nat) (ds : List Nat) : Nat := ds.foldl (fun n d => n * b + d) 0

section

variable {b n : Nat}

/-- The last digit, and the numeral of the rest. Source: none: infrastructure. Kind: L -/
theorem numeral_eq (hb : 1 < b) (n : Nat) :
    numeral b n = (if n / b = 0 then [] else numeral b (n / b)) ++ [n % b] := by
  by_cases hn : n = 0
  · subst hn
    simp [numeral]
  · rw [numeral, if_neg hn, Nat.digits_def' hb (Nat.pos_of_ne_zero hn), List.reverse_cons]
    by_cases hdiv : n / b = 0
    · rw [if_pos hdiv, hdiv]
      simp
    · rw [if_neg hdiv, numeral, if_neg hdiv]

/-- Source: none: infrastructure. Kind: L -/
theorem numeral_ne_nil (hb : 1 < b) (n : Nat) : numeral b n ≠ [] := by
  rw [numeral_eq hb]
  simp

/-- The digits are digits of the base. Source: none: infrastructure. Kind: L -/
theorem numeral_lt (hb : 1 < b) {d : Nat} (hd : d ∈ numeral b n) : d < b := by
  unfold numeral at hd
  split at hd
  · rw [List.mem_singleton.mp hd]
    omega
  · exact Nat.digits_lt_base hb (List.mem_reverse.mp hd)

/-- How many digits a number has. Source: none: infrastructure. Kind: L -/
theorem numeral_length_le_iff (hb : 1 < b) {k : Nat} (hk : 0 < k) :
    (numeral b n).length ≤ k ↔ n < b ^ k := by
  unfold numeral
  split
  · subst n
    simp only [List.length_singleton]
    exact iff_of_true hk (Nat.pow_pos (by omega))
  · rw [List.length_reverse, Nat.digits_length_le_iff hb]

/-- Digits next to each other. Source: none: infrastructure. Kind: L -/
theorem value_append (xs ys : List Nat) :
    value b (xs ++ ys) = value b xs * b ^ ys.length + value b ys := by
  have hacc : ∀ acc, ys.foldl (fun n d => n * b + d) acc = acc * b ^ ys.length + value b ys := by
    induction ys with
    | nil => simp [value]
    | cons y ys ih =>
        intro acc
        rw [value, List.foldl_cons, List.foldl_cons, ih, ih, List.length_cons, pow_succ]
        ring
  rw [value, List.foldl_append, hacc]
  rfl

/-- Digits denote less than the power of the base. Source: none: infrastructure. Kind: L -/
theorem value_lt {ds : List Nat} (h : ∀ d ∈ ds, d < b) : value b ds < b ^ ds.length := by
  induction ds using List.reverseRecOn with
  | nil => simp [value]
  | append_singleton ds d ih =>
      have hds := ih fun e he => h e (List.mem_append_left _ he)
      have hd : d < b := h d (List.mem_append_right _ List.mem_cons_self)
      have hlast : value b [d] = d := by simp [value]
      rw [value_append, hlast, List.length_append, List.length_singleton, pow_one, pow_succ]
      calc value b ds * b + d < (value b ds + 1) * b := by rw [Nat.succ_mul]; omega
        _ ≤ b ^ ds.length * b := Nat.mul_le_mul_right b hds

/-- No digits denote a number with fewer of them than its numeral has.
Source: none: infrastructure. Kind: L -/
theorem numeral_length_le (hb : 1 < b) {ds : List Nat} (h : ∀ d ∈ ds, d < b) (hne : ds ≠ []) :
    (numeral b (value b ds)).length ≤ ds.length :=
  (numeral_length_le_iff hb (List.length_pos_iff.mpr hne)).mpr (value_lt h)

/-- **Reading a numeral back**. Source: none: infrastructure. Kind: P -/
theorem value_numeral (hb : 1 < b) (n : Nat) : value b (numeral b n) = n := by
  induction n using Nat.strong_induction_on with
  | _ n ih =>
      rw [numeral_eq hb, value_append]
      have hlast : value b [n % b] = n % b := by simp [value]
      rw [hlast, List.length_singleton, pow_one]
      split
      · rename_i hdiv
        have hn := Nat.div_add_mod n b
        rw [hdiv] at hn
        simpa [value] using hn
      · rename_i hdiv
        have hlt : n / b < n := Nat.div_lt_self (by_contra fun h => hdiv (by simp_all)) hb
        rw [ih _ hlt, Nat.mul_comm]
        exact Nat.div_add_mod n b

/-- The numeral of the standard library. Source: none: infrastructure. Kind: L -/
theorem toDigits_eq (hb : 1 < b) (n : Nat) : Nat.toDigits b n = (numeral b n).map Nat.digitChar := by
  induction n using Nat.strong_induction_on with
  | _ n ih =>
      rw [Nat.toDigits_eq_if hb, numeral_eq hb, List.map_append, List.map_singleton]
      by_cases hlt : n < b
      · rw [if_pos hlt, if_pos (Nat.div_eq_of_lt hlt), Nat.mod_eq_of_lt hlt]
        rfl
      · have hdiv : n / b ≠ 0 := (Nat.div_pos (by omega) (by omega)).ne'
        rw [if_neg hlt, if_neg hdiv, ih _ (Nat.div_lt_self (by omega) hb)]

end

end Cs140e.Lib
