/-!
# How a program ends without returning

`assert` and `panic` (libpi `libc/assert.h`, libunix `demand.h`) print a message and end the
program; a read with nothing to read waits. `Stop` is the set of these ends; a panic keeps its
format string and arguments.
-/

namespace Cs140e

/-- What a panic message prints. Source: none: infrastructure. Kind: D -/
inductive PanicArg where
  /-- A number (`%d`, `%x`). -/
  | num (n : Nat)
  /-- A C string (`%s`). -/
  | str (s : List UInt8)
  deriving DecidableEq, Repr

/-- The ways a program of this repository ends without returning.
Source: `libpi/libc/assert.h` `panic`, `assert`; `libunix/demand.h` `panic`, `demand`
Kind: D -/
inductive Stop where
  /-- `assert(expr)` failed. -/
  | assert (expr : String)
  /-- `panic(msg, args...)`. -/
  | panic (msg : String) (args : List PanicArg)
  /-- Waiting for input that does not come. -/
  | block
  /-- An access outside of an array, which C leaves undefined. -/
  | outOfBounds
  deriving DecidableEq, Repr

section

variable {ε α β : Type}

/-- Equation lemma: sequencing of results. Source: none: infrastructure. Kind: L -/
@[simp] theorem ok_bind (a : α) (f : α → Except ε β) : (Except.ok a >>= f) = f a := rfl

/-- Equation lemma: sequencing of results. Source: none: infrastructure. Kind: L -/
@[simp] theorem error_bind (e : ε) (f : α → Except ε β) : (Except.error e >>= f) = .error e := rfl

/-- A sequence has a result when both parts have one. Source: none: infrastructure. Kind: L -/
theorem bind_eq_ok_iff {x : Except ε α} {f : α → Except ε β} {b : β} :
    (x >>= f) = .ok b ↔ ∃ a, x = .ok a ∧ f a = .ok b := by
  cases x <;> simp

/-- Equation lemma: a result. Source: none: infrastructure. Kind: L -/
@[simp] theorem pure_eq_ok (a : α) : (pure a : Except ε α) = .ok a := rfl

/-- Equation lemma: a stop. Source: none: infrastructure. Kind: L -/
@[simp] theorem throw_eq_error (e : ε) : (throw e : Except ε α) = .error e := rfl

end

/-- An access of an array, which has no result outside of it. Source: none: infrastructure.
Kind: D -/
def inBounds {α : Type} : Option α → Except Stop α
  | some a => return a
  | none => throw .outOfBounds

/-- An access inside of the array. Source: none: infrastructure. Kind: L -/
@[simp] theorem inBounds_some {α : Type} (a : α) : inBounds (some a) = .ok a := rfl

/-- An access outside of the array. Source: none: infrastructure. Kind: L -/
@[simp] theorem inBounds_none {α : Type} : inBounds (none : Option α) = .error .outOfBounds := rfl

end Cs140e
