import Mathlib.Data.List.Basic

/-!
# Arrays of a fixed size

`Buf α n` is an array of `n` elements. An access that leaves it has no result (`none`), so a program
over it says itself what leaving the array means.

* `Buf.write`, `Buf.read` — copy a block in or out; `Buf.fill` — an array of one value.
* `Buf.Split b pre mid post` — the contents of `b` cut in three; `Split.write` and `Split.read` are
  the rules for an access of the middle part.
-/

namespace Cs140e.Lib

/-- An array of `n` elements. Source: none: infrastructure. Kind: D -/
structure Buf (α : Type) (n : Nat) where
  /-- The contents, in order. -/
  elems : List α
  size : elems.length = n
  deriving DecidableEq

namespace Buf

variable {α : Type} {n : Nat}

/-- Every element is `a`. Source: none: infrastructure. Kind: D -/
def fill (n : Nat) (a : α) : Buf α n := ⟨List.replicate n a, List.length_replicate⟩

/-- Two arrays with the same contents. Source: none: infrastructure. Kind: L -/
@[ext] theorem ext {b c : Buf α n} (h : b.elems = c.elems) : b = c := by
  cases b
  cases c
  subst h
  rfl

/-- Copy `src` to the elements from `off` on. Source: none: infrastructure. Kind: D -/
def write (b : Buf α n) (off : Nat) (src : List α) : Option (Buf α n) :=
  if h : off + src.length ≤ n then
    some ⟨b.elems.take off ++ src ++ b.elems.drop (off + src.length), by
      have := b.size
      simp only [List.length_append, List.length_take, List.length_drop]
      omega⟩
  else
    none

/-- The `k` elements from `off` on. Source: none: infrastructure. Kind: D -/
def read (b : Buf α n) (off k : Nat) : Option (List α) :=
  if off + k ≤ n then some ((b.elems.drop off).take k) else none

/-- The contents of `b`, cut in three. Source: none: infrastructure. Kind: D -/
def Split (b : Buf α n) (pre mid post : List α) : Prop := b.elems = pre ++ mid ++ post

variable {b : Buf α n} {pre mid post : List α}

/-- An array splits at any two places. Source: none: infrastructure. Kind: L -/
theorem exists_split (b : Buf α n) {i k : Nat} (h : i + k ≤ n) :
    ∃ pre mid post, b.Split pre mid post ∧ pre.length = i ∧ mid.length = k := by
  have := b.size
  refine ⟨b.elems.take i, (b.elems.drop i).take k, (b.elems.drop i).drop k, ?_, ?_, ?_⟩
  · rw [Split, List.append_assoc, List.take_append_drop, List.take_append_drop]
  · rw [List.length_take]
    omega
  · rw [List.length_take, List.length_drop]
    omega

/-- The parts fill the array. Source: none: infrastructure. Kind: L -/
theorem Split.length (h : b.Split pre mid post) : pre.length + mid.length + post.length = n := by
  have := b.size
  rw [h] at this
  simpa only [List.length_append] using this

/-- Overwriting the middle part. Source: none: infrastructure. Kind: L -/
theorem Split.write (h : b.Split pre mid post) (src : List α) (hlen : src.length = mid.length) :
    ∃ b', b.write pre.length src = some b' ∧ b'.Split pre src post := by
  have hl := h.length
  have hfit : pre.length + src.length ≤ n := by omega
  unfold Buf.write
  rw [dif_pos hfit]
  refine ⟨_, rfl, ?_⟩
  have htake : b.elems.take pre.length = pre := by rw [h, List.append_assoc, List.take_left]
  have hdrop : b.elems.drop (pre.length + src.length) = post := by
    rw [h, hlen, ← List.length_append, List.drop_left]
  show b.elems.take pre.length ++ src ++ b.elems.drop (pre.length + src.length) = pre ++ src ++ post
  rw [htake, hdrop]

/-- Overwriting what stands behind a first part. Source: none: infrastructure. Kind: L -/
theorem write_append {rest : List α} (h : b.elems = pre ++ rest) (src : List α)
    (hlen : src.length ≤ rest.length) :
    ∃ b', b.write pre.length src = some b' ∧ b'.elems = pre ++ src ++ rest.drop src.length := by
  have hsplit : b.Split pre (rest.take src.length) (rest.drop src.length) := by
    rw [Split, h, List.append_assoc, List.take_append_drop]
  exact hsplit.write src (by rw [List.length_take]; omega)

/-- Reading the middle part. Source: none: infrastructure. Kind: L -/
theorem Split.read (h : b.Split pre mid post) : b.read pre.length mid.length = some mid := by
  have hl := h.length
  unfold Buf.read
  rw [if_pos (by omega), h, List.append_assoc, List.drop_left, List.take_left]

/-- A write succeeds exactly inside of the array. Source: none: infrastructure. Kind: L -/
theorem write_eq_none_iff (b : Buf α n) (off : Nat) (src : List α) :
    b.write off src = none ↔ n < off + src.length := by
  unfold write
  split
  · simp only [reduceCtorEq, false_iff]
    omega
  · simp only [true_iff]
    omega

end Buf

end Cs140e.Lib
