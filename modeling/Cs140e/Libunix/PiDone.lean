import Cs140e.Lib.Bytes
import Cs140e.Lib.Matcher
import Cs140e.Stop
import Mathlib.Data.Nat.Find
import Mathlib.Tactic.IntervalCases

/-!
# libunix: the shutdown string

`pi_done`, as in `pi-echo.c` and in `pi-cat.c`, watches what the Pi prints for `"DONE!!!\n"`. Its
static variable `pos` is an argument and a result here.

* `piDone_spec`, `piCat_spec` — the calls on successive buffers follow the matcher that does not look
  back.
* `InBuffer` — which buffer a byte of the stream is in.
* `piCat_detects_iff` — the first occurrence is reported in its buffer if and only if an occurrence
  behind an even number of back-to-back prefixes of the string ends in that buffer.
-/

namespace Cs140e.Libunix

open Cs140e.Lib Cs140e.Lib.Matcher

/-- Source: `pi-cat.c` `exit_string`. Kind: D -/
def exitString : List UInt8 := [68, 79, 78, 69, 33, 33, 33, 10]

/-- Whether the end of the string has been seen, and the new `pos`.
Source: `pi-cat.c` `pi_done`, `pi-echo.c` `pi_done`
Kind: D -/
def piDone : List UInt8 → Nat → Except Stop (Bool × Nat)
  | [], pos => return (false, pos)
  | c :: s, pos =>
    if c == 0 then
      return (false, pos)
    else if !(pos < exitString.length) then
      throw (.assert "pos < n")
    else if c != exitString.getD pos 0 then
      -- `pos = 0; return pi_done(s+1);`
      piDone s 0
    else if pos + 1 == exitString.length then
      return (true, pos + 1)
    else
      piDone s (pos + 1)

/-- The calls on successive buffers, up to the first that returns 1: the number of that call.
Source: `pi-cat.c` `pi_cat`
Kind: D -/
def piCat : List (List UInt8) → Nat → Except Stop (Option Nat)
  | [], _ => return none
  | buf :: bufs, pos => do
    let (done, pos) ← piDone buf pos
    if done then
      return some 0
    else
      let i ← piCat bufs pos
      return i.map (· + 1)

/-! ## The calls and the matcher -/

/-- Whether the matcher accepts at the byte `k` behind `u`. Source: none: infrastructure. Kind: D -/
def Accepts (u s : List UInt8) (k : Nat) : Prop :=
  position exitString (u ++ s.take (k + 1)) = exitString.length

variable {u s : List UInt8} {bufs : List (List UInt8)}

/-- The first byte behind `u`. Source: none: infrastructure. Kind: L -/
theorem accepts_cons_zero {c : UInt8} :
    Accepts u (c :: s) 0 ↔ position exitString (u ++ [c]) = exitString.length := Iff.rfl

/-- The bytes behind the first. Source: none: infrastructure. Kind: L -/
theorem accepts_cons_succ {c : UInt8} {k : Nat} :
    Accepts u (c :: s) (k + 1) ↔ Accepts (u ++ [c]) s k := by
  simp [Accepts]

/-- The bytes behind the first buffer. Source: none: infrastructure. Kind: L -/
theorem accepts_append {b : List UInt8} {k : Nat} :
    Accepts u (b ++ s) (b.length + k) ↔ Accepts (u ++ b) s k := by
  unfold Accepts
  rw [Nat.add_assoc, List.take_length_add_append, ← List.append_assoc]

/-- The bytes of the first buffer. Source: none: infrastructure. Kind: L -/
theorem accepts_append_left {b : List UInt8} {k : Nat} (hk : k < b.length) :
    Accepts u (b ++ s) k ↔ Accepts u b k := by
  unfold Accepts
  rw [List.take_append_of_le_length hk]

/-- One character moves the matcher. Source: `pi-cat.c` `pi_done`. Kind: L -/
theorem piDone_cons {c : UInt8} (hc : c ≠ 0) (hu : position exitString u < exitString.length) :
    piDone (c :: s) (position exitString u) =
      if position exitString (u ++ [c]) = exitString.length then .ok (true, exitString.length)
      else piDone s (position exitString (u ++ [c])) := by
  have hget : exitString[position exitString u]? =
      some (exitString.getD (position exitString u) 0) := by
    rw [List.getD_eq_getElem?_getD, List.getElem?_eq_getElem hu, Option.getD_some]
  have hmove : position exitString (u ++ [c]) =
      if c = exitString.getD (position exitString u) 0 then position exitString u + 1 else 0 := by
    rw [position_append_singleton, advance, hget]
    simp only [Option.some.injEq, eq_comm]
  rw [piDone, if_neg (by simpa using hc), if_neg (by simpa using hu), hmove]
  by_cases h : c = exitString.getD (position exitString u) 0
  · rw [if_neg (by simpa using h), if_pos h]
    by_cases hlast : position exitString u + 1 = exitString.length
    · rw [if_pos (by simpa using hlast), if_pos hlast, hlast]
      rfl
    · rw [if_neg (by simpa using hlast), if_neg hlast]
  · rw [if_pos (by simpa using h), if_neg h, if_neg (by decide)]

/-- **One call** follows the matcher up to the first byte that it accepts at.
Source: `pi-cat.c` `pi_done`
Kind: P -/
theorem piDone_spec (hnul : ∀ c ∈ s, c ≠ 0) (hu : position exitString u < exitString.length) :
    ((∃ pos, piDone s (position exitString u) = .ok (true, pos)) ∧ ∃ k < s.length, Accepts u s k) ∨
    piDone s (position exitString u) = .ok (false, position exitString (u ++ s)) ∧
      position exitString (u ++ s) < exitString.length ∧ ∀ k < s.length, ¬ Accepts u s k := by
  induction s generalizing u with
  | nil => exact .inr ⟨by simp [piDone, pure, Except.pure], by simpa using hu, by simp⟩
  | cons c s ih =>
      have hnul' : ∀ x ∈ s, x ≠ 0 := by
        intro x hx
        apply hnul
        exact List.mem_cons_of_mem _ hx
      rw [piDone_cons (hnul c List.mem_cons_self) hu]
      by_cases hlast : position exitString (u ++ [c]) = exitString.length
      · rw [if_pos hlast]
        exact .inl ⟨⟨_, rfl⟩, 0, by simp, accepts_cons_zero.mpr hlast⟩
      · rw [if_neg hlast]
        have hlt := Nat.lt_of_le_of_ne (exists_of_position (w := exitString) (u ++ [c])).1 hlast
        rcases ih hnul' hlt with ⟨hdone, k, hk, hacc⟩ | ⟨hcall, hpos, hno⟩
        · refine .inl ⟨hdone, k + 1, ?_, accepts_cons_succ.mpr hacc⟩
          rw [List.length_cons]
          omega
        · rw [List.append_assoc, List.singleton_append] at hcall hpos
          refine .inr ⟨hcall, hpos, fun k hk => ?_⟩
          cases k with
          | zero => exact hlast
          | succ k =>
              rw [List.length_cons] at hk
              exact fun h => hno k (by omega) (accepts_cons_succ.mp h)

/-! ## Buffers -/

/-- Byte `k` of the stream is in buffer `i`. Source: `pi-cat.c` `pi_cat`. Kind: D -/
def InBuffer (bufs : List (List UInt8)) (i k : Nat) : Prop :=
  (bufs.take i).flatten.length ≤ k ∧ k < (bufs.take (i + 1)).flatten.length

/-- Source: `pi-cat.c` `pi_cat`. Kind: L -/
theorem inBuffer_zero {b : List UInt8} {k : Nat} : InBuffer (b :: bufs) 0 k ↔ k < b.length := by
  simp [InBuffer]

/-- Source: `pi-cat.c` `pi_cat`. Kind: L -/
theorem inBuffer_succ {b : List UInt8} {i k : Nat} :
    InBuffer (b :: bufs) (i + 1) (b.length + k) ↔ InBuffer bufs i k := by
  simp [InBuffer]

/-- Later bytes are in later buffers. Source: `pi-cat.c` `pi_cat`. Kind: L -/
theorem InBuffer.mono {i i' k k' : Nat} (h : InBuffer bufs i k) (h' : InBuffer bufs i' k')
    (hk : k ≤ k') : i ≤ i' := by
  by_contra hlt
  have hle : (bufs.take (i' + 1)).flatten.length ≤ (bufs.take i).flatten.length := by
    have hpre : bufs.take (i' + 1) <+: bufs.take i := List.take_prefix_take_left (by omega)
    obtain ⟨l, hl⟩ := hpre
    rw [← hl, List.flatten_append, List.length_append]
    omega
  have := h.1
  have := h'.2
  omega

/-- **The calls on successive buffers** report the buffer of the first byte that the matcher accepts
at; no assertion fails.
Source: `pi-cat.c` `pi_cat`
Kind: P -/
theorem piCat_spec (hnul : ∀ b ∈ bufs, ∀ c ∈ b, c ≠ 0)
    (hu : position exitString u < exitString.length) :
    (∃ i k, piCat bufs (position exitString u) = .ok (some i) ∧ InBuffer bufs i k ∧
      Accepts u bufs.flatten k ∧ ∀ k' i', InBuffer bufs i' k' → Accepts u bufs.flatten k' → i ≤ i') ∨
    piCat bufs (position exitString u) = .ok none ∧
      ∀ k < bufs.flatten.length, ¬ Accepts u bufs.flatten k := by
  induction bufs generalizing u with
  | nil => exact .inr ⟨rfl, by simp⟩
  | cons b bufs ih =>
      have hnul' : ∀ b ∈ bufs, ∀ c ∈ b, c ≠ 0 := by
        intro b hb
        apply hnul
        exact List.mem_cons_of_mem _ hb
      rcases piDone_spec (u := u) (hnul b List.mem_cons_self) hu with
        ⟨⟨pos, hcall⟩, k, hk, hacc⟩ | ⟨hcall, hpos, hno⟩
      · left
        refine ⟨0, k, ?_, inBuffer_zero.mpr hk, (accepts_append_left hk).mpr hacc, fun _ _ _ _ => ?_⟩
        · simp [piCat, hcall, bind, Except.bind, pure, Except.pure]
        · exact Nat.zero_le _
      · -- what is accepted lies behind this buffer
        have hbehind : ∀ k, Accepts u (b :: bufs).flatten k → ∃ j, k = b.length + j := by
          intro k hacc
          by_contra hnot
          have hk : k < b.length := by
            by_contra hge
            exact hnot ⟨k - b.length, by omega⟩
          exact hno k hk ((accepts_append_left hk).mp hacc)
        rcases ih (u := u ++ b) hnul' hpos with ⟨i, k, hrest, hin, hacc, hmin⟩ | ⟨hrest, hnone⟩
        · left
          refine ⟨i + 1, b.length + k, ?_, inBuffer_succ.mpr hin, accepts_append.mpr hacc, ?_⟩
          · simp [piCat, hcall, hrest, bind, Except.bind, pure, Except.pure]
          · intro k' i' hin' hacc'
            obtain ⟨j, rfl⟩ := hbehind k' hacc'
            rcases i' with _ | i'
            · have := inBuffer_zero.mp hin'
              omega
            · exact Nat.succ_le_succ (hmin j i' (inBuffer_succ.mp hin') (accepts_append.mp hacc'))
        · right
          refine ⟨?_, fun k hk hacc => ?_⟩
          · simp [piCat, hcall, hrest, bind, Except.bind, pure, Except.pure]
          · obtain ⟨j, rfl⟩ := hbehind k hacc
            rw [List.flatten_cons, List.length_append] at hk
            exact hnone j (by omega) (accepts_append.mp hacc)

/-! ## Detection -/

/-- An occurrence of the string ends with byte `k`. Source: `pi-cat.c` `exit_string`. Kind: D -/
def EndsAt (s : List UInt8) (k : Nat) : Prop := k < s.length ∧ exitString <:+ s.take (k + 1)

/-- The first occurrence ends with byte `k`. Source: `pi-cat.c` `exit_string`. Kind: D -/
structure FirstEnd (s : List UInt8) (k : Nat) : Prop where
  ends : EndsAt s k
  first : ∀ j, EndsAt s j → k ≤ j

/-- An occurrence ends with byte `k`, and an even number of nonempty prefixes of the string stand
back to back in front of it.
Source: `pi-cat.c` `pi_done`
Kind: D -/
def CleanEnd (s : List UInt8) (k : Nat) : Prop :=
  k < s.length ∧ ∃ u n, s.take (k + 1) = u ++ exitString ∧ Chain exitString n u ∧ Even n

/-- No assertion fails, some call returns 1 if and only if the stream contains the string, and it is
the call on the buffer with the last byte of the first occurrence.
Source: `pi-cat.c` `pi_cat`
Kind: D -/
def Detects (bufs : List (List UInt8)) : Prop :=
  ∃ res, piCat bufs 0 = .ok res ∧ (res.isSome = true ↔ exitString <:+: bufs.flatten) ∧
    ∀ i, res = some i → ∃ k, FirstEnd bufs.flatten k ∧ InBuffer bufs i k

/-- The matcher accepts at the clean ends. Source: `pi-cat.c` `pi_done`. Kind: L -/
theorem cleanEnd_iff {k : Nat} : CleanEnd s k ↔ k < s.length ∧ Accepts [] s k := by
  unfold CleanEnd Accepts
  rw [List.nil_append]
  exact and_congr_right fun _ => (position_eq_length_iff_chain (by decide)).symm

/-- Source: `pi-cat.c` `pi_done`. Kind: L -/
theorem CleanEnd.endsAt {k : Nat} (h : CleanEnd s k) : EndsAt s k := by
  obtain ⟨hk, u, n, hs, -⟩ := h
  exact ⟨hk, u, hs.symm⟩

/-- A stream that contains the string has a first occurrence. Source: `pi-cat.c` `exit_string`.
Kind: L -/
theorem infix_iff : exitString <:+: s ↔ ∃ k, FirstEnd s k := by
  constructor
  · rintro ⟨u, t, rfl⟩
    have hends : EndsAt (u ++ exitString ++ t) (u.length + 7) := by
      refine ⟨by simp [exitString], u, ?_⟩
      rw [List.take_append_of_le_length (by simp [exitString]), List.take_of_length_le]
      simp [exitString]
    classical
    exact ⟨Nat.find ⟨_, hends⟩, Nat.find_spec ⟨_, hends⟩, fun j hj => Nat.find_min' _ hj⟩
  · rintro ⟨k, ⟨-, h⟩, -⟩
    exact h.isInfix.trans (List.take_prefix _ _).isInfix

/-- **Shutdown detection**: for every stream and every cutting, the calls report the first
occurrence as they should if and only if a clean one ends in the same buffer.
Source: `pi-cat.c` `pi_cat`
Kind: P -/
theorem piCat_detects_iff (hnul : ∀ b ∈ bufs, ∀ c ∈ b, c ≠ 0) :
    Detects bufs ↔ ∀ k, FirstEnd bufs.flatten k →
      ∃ i j, CleanEnd bufs.flatten j ∧ InBuffer bufs i k ∧ InBuffer bufs i j := by
  have hstart : position exitString [] < exitString.length := by decide
  rcases piCat_spec (u := []) hnul hstart with ⟨i, k, hcall, hin, hacc, hmin⟩ | ⟨hcall, hnone⟩
  · have hlt : k < bufs.flatten.length := by
      have hle : (bufs.take (i + 1)).flatten.length ≤ bufs.flatten.length := by
        obtain ⟨l, hl⟩ := List.take_prefix (i + 1) bufs
        conv_rhs => rw [← hl, List.flatten_append, List.length_append]
        omega
      exact Nat.lt_of_lt_of_le hin.2 hle
    have hclean : CleanEnd bufs.flatten k := cleanEnd_iff.mpr ⟨hlt, hacc⟩
    constructor
    · rintro ⟨res, hres, -, hwhere⟩ k₀ hk₀
      obtain rfl : res = some i := Except.ok.inj (hres.symm.trans hcall)
      obtain ⟨k₁, hk₁, hin₁⟩ := hwhere i rfl
      obtain rfl : k₁ = k₀ := Nat.le_antisymm (hk₁.first _ hk₀.ends) (hk₀.first _ hk₁.ends)
      exact ⟨i, k, hclean, hin₁, hin⟩
    · intro hsame
      obtain ⟨k₀, hk₀⟩ := infix_iff.mp (hclean.endsAt.2.isInfix.trans (List.take_prefix _ _).isInfix)
      obtain ⟨i', j, hj, hin₀, hinj⟩ := hsame k₀ hk₀
      have hle : i' ≤ i := hin₀.mono hin (hk₀.first _ hclean.endsAt)
      have hge : i ≤ i' := hmin j i' hinj (cleanEnd_iff.mp hj).2
      obtain rfl : i' = i := Nat.le_antisymm hle hge
      have hcontains : exitString <:+: bufs.flatten := infix_iff.mpr ⟨k₀, hk₀⟩
      refine ⟨some i', hcall, by simp [hcontains], ?_⟩
      intro i hi
      obtain rfl := Option.some.inj hi
      exact ⟨k₀, hk₀, hin₀⟩
  · constructor
    · rintro ⟨res, hres, hcontains, -⟩ k₀ hk₀
      obtain rfl : res = none := Except.ok.inj (hres.symm.trans hcall)
      simpa using hcontains.mpr (infix_iff.mpr ⟨k₀, hk₀⟩)
    · intro hsame
      refine ⟨none, hcall, ?_, by simp⟩
      simp only [Option.isSome_none, Bool.false_eq_true, false_iff]
      intro hinfix
      obtain ⟨k₀, hk₀⟩ := infix_iff.mp hinfix
      obtain ⟨i, j, hj, -, -⟩ := hsame k₀ hk₀
      obtain ⟨hlt, hacc⟩ := cleanEnd_iff.mp hj
      exact hnone j hlt hacc

/-- `"hi\nDONE!!!\n"` in two buffers. Source: `pi-cat.c` `pi_cat`. Kind: L -/
theorem piCat_detects_hi : Detects [[104, 105, 10, 68, 79], [78, 69, 33, 33, 33, 10]] := by
  apply (piCat_detects_iff (by decide)).mpr
  intro k hk
  have hclean : CleanEnd [104, 105, 10, 68, 79, 78, 69, 33, 33, 33, 10] 10 := by
    refine ⟨by decide, [104, 105, 10], 0, rfl, .zero fun p hp hle => ?_, by decide⟩
    have hle' : p ≤ 8 := hle
    interval_cases p <;> decide
  have hlast : k = 10 := by
    have hle := hk.first 10 hclean.endsAt
    have hends := hk.ends.2
    interval_cases k <;> revert hends <;> decide
  subst hlast
  exact ⟨1, 10, hclean, by simp [InBuffer], by simp [InBuffer]⟩

/-- **A missed shutdown**: in `"DDONE!!!\n"` the second `D` is not looked at again.
Source: `pi-cat.c` `pi_done`
Kind: P -/
theorem piCat_misses_done : ¬ Detects [[68, 68, 79, 78, 69, 33, 33, 33, 10]] := by
  rintro ⟨res, hres, hcontains, -⟩
  obtain rfl : res = none := Except.ok.inj (hres.symm.trans rfl)
  have hinfix : exitString <:+: [[68, 68, 79, 78, 69, 33, 33, 33, 10]].flatten := ⟨[68], [], rfl⟩
  simpa using hcontains.mpr hinfix

end Cs140e.Libunix
