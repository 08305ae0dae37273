import Cs140e.Lib.Prog
import Cs140e.Lib.Ring
import Cs140e.Lib.Bytes
import Cs140e.Stop

/-!
# `libpi/libc/circular.h`: the lock-free circular queue

The queue as the code computes it, one `Prog` access for each load and store of the `volatile`
fields, in source order (the two loads of a comparison or of a subtraction from left to right).
The header is a template: `α` is `cqe_t` and `N` is `CQ_N`, a word-sized constant the client may
define; `cqN` is its default.

* `Cq` is `cq_t`. `Mem` is the memory a run shares: the queue, whether interrupts are enabled
  (what `int_is_enabled` reads), and two histories that no operation reads: `pushed`, extended by
  the store of `head` in `cqPush`, and `popped`, extended by the store of `tail` in
  `cqPopNonblock`.
* A block of `n` elements at `data` is its list; `n` is the list's length.
* The debugging output of `cq_print` is not modelled.
-/

namespace Cs140e.Libpi.Circular

open Cs140e.Lib Cs140e.Lib.Prog

/-- The default `CQ_N`. Source: `circular.h` `CQ_N`. Kind: D -/
def cqN : UInt32 := 8192

/-- The queue. Source: `circular.h` `cq_t`. Kind: D -/
structure Cq (α : Type) where
  /-- `c_buf[CQ_N]`. -/
  cBuf : Nat → α
  /-- Set by `cq_init`, checked by `cq_ok`. -/
  fence : UInt32
  /-- Index of the next free cell; written by the producer only. -/
  head : UInt32
  /-- Index of the oldest element; written by the consumer only. -/
  tail : UInt32
  /-- Failed pushes (never counted by the code). -/
  overflow : UInt32
  /-- One-bit field. -/
  errorsFatalP : Bool

/-- The memory the two parties share, with the histories of completed operations.
Source: `circular.h` `cq_t`; `rpi-interrupts.h` `int_is_enabled`
Kind: D -/
structure Mem (α : Type) where
  /-- The queue. -/
  q : Cq α
  /-- What `int_is_enabled` answers. -/
  intEnabled : Bool
  /-- History: the elements whose push has completed, oldest first. -/
  pushed : List α
  /-- History: the elements popped so far, oldest first. -/
  popped : List α

variable {α : Type}

/-! ## Loads and stores -/

/-- Load `head`. Source: `circular.h` `c->head`. Kind: D -/
def ldHead : Prog (Mem α) Stop UInt32 := load (·.q.head)

/-- Load `tail`. Source: `circular.h` `c->tail`. Kind: D -/
def ldTail : Prog (Mem α) Stop UInt32 := load (·.q.tail)

/-- Load a cell. Source: `circular.h` `c->c_buf[i]`. Kind: D -/
def ldBuf (i : UInt32) : Prog (Mem α) Stop α := load fun m => m.q.cBuf i.toNat

/-- Store a cell. Source: `circular.h` `c->c_buf[i] = x`. Kind: D -/
def stBuf (i : UInt32) (x : α) : Prog (Mem α) Stop Unit :=
  store fun m => { m with q := { m.q with cBuf := Function.update m.q.cBuf i.toNat x } }

/-- Store `head`, which completes the push of `x`. Source: `circular.h` `c->head = h`. Kind: D -/
def stHead (h : UInt32) (x : α) : Prog (Mem α) Stop Unit :=
  store fun m => { m with q := { m.q with head := h }, pushed := m.pushed ++ [x] }

/-- Store `tail`, which completes the pop of `e`. Source: `circular.h` `c->tail = t`. Kind: D -/
def stTail (t : UInt32) (e : α) : Prog (Mem α) Stop Unit :=
  store fun m => { m with q := { m.q with tail := t }, popped := m.popped ++ [e] }

/-- Store `tail` back to a saved value: no pop. Source: `circular.h` `c->tail = tail`. Kind: D -/
def rewindTail (t : UInt32) : Prog (Mem α) Stop Unit :=
  store fun m => { m with q := { m.q with tail := t } }

/-- Whether interrupts are enabled. Source: `rpi-interrupts.h` `int_is_enabled`. Kind: D -/
def intIsEnabled : Prog (Mem α) Stop Bool := load (·.intEnabled)

/-- `assert(expr)`. Source: `libc/assert.h` `assert`. Kind: D -/
def cAssert (b : Bool) (expr : String) : Prog (Mem α) Stop Unit := check b (.assert expr)

/-! ## Counting -/

/-- Source: `circular.h` `cq_empty`. Kind: D -/
def cqEmpty : Prog (Mem α) Stop Bool := do
  let head ← ldHead
  let tail ← ldTail
  return head == tail

section

variable (N : UInt32)

/-- Source: `circular.h` `cq_full`. Kind: D -/
def cqFull : Prog (Mem α) Stop Bool := do
  let head ← ldHead
  let tail ← ldTail
  return (head + 1) % N == tail

/-- Source: `circular.h` `cq_nelem`. Kind: D -/
def cqNelem : Prog (Mem α) Stop UInt32 := do
  let head ← ldHead
  let tail ← ldTail
  return (head - tail) % N

/-- Source: `circular.h` `cq_nspace`. Kind: D -/
def cqNspace : Prog (Mem α) Stop UInt32 := do
  let n ← cqNelem N
  return (N - 1) - n

/-! ## One element -/

/-- The element popped, or `none` for the return value `0`.
Source: `circular.h` `cq_pop_nonblock`
Kind: D -/
def cqPopNonblock : Prog (Mem α) Stop (Option α) := do
  let empty ← cqEmpty
  if empty then
    return none
  else
    let tail ← ldTail
    let e ← ldBuf tail
    stTail ((tail + 1) % N) e
    return some e

/-- Wait for an element; panics when nobody can push one.
Source: `circular.h` `cq_pop`
Kind: D -/
def cqPop : Prog (Mem α) Stop α :=
  loop (fun _ => do
    let r ← cqPopNonblock N
    match r with
    | some e => return .inr e
    | none =>
      let enabled ← intIsEnabled
      if enabled then
        return .inl ()
      else
        raise (.panic "will deadlock: interrupts not enabled [FIXME]\n" [])) () ret

/-- Whether the element went in. Source: `circular.h` `cq_push`. Kind: D -/
def cqPush (x : α) : Prog (Mem α) Stop Bool := do
  let head ← ldHead
  let full ← cqFull N
  if full then
    return false
  else
    let space ← cqNspace N
    cAssert (0 < space) "cq_nspace(c) > 0"
    stBuf head x
    stHead ((head + 1) % N) x
    return true

/-- Index of the oldest element, for the pointer to its cell.
Source: `circular.h` `cq_peek_ptr`
Kind: D -/
def cqPeekPtr : Prog (Mem α) Stop (Option UInt32) := do
  let empty ← cqEmpty
  if empty then
    return none
  else
    let tail ← ldTail
    return some tail

/-- The oldest element, left in place. Source: `circular.h` `cq_peek`. Kind: D -/
def cqPeek : Prog (Mem α) Stop (Option α) := do
  let empty ← cqEmpty
  if empty then
    return none
  else
    let tail ← ldTail
    let e ← ldBuf tail
    return some e

/-! ## Blocks of elements -/

/-- The loop of `cq_pop_n`: `k` elements still to pop. Source: `circular.h` `cq_pop_n`. Kind: D -/
def popLoop : Nat → Prog (Mem α) Stop (List α)
  | 0 => return []
  | k + 1 => do
    let e ← cqPop N
    let rest ← popLoop k
    return e :: rest

/-- Source: `circular.h` `cq_pop_n`. Kind: D -/
def cqPopN (n : UInt32) : Prog (Mem α) Stop (List α) := popLoop N n.toNat

/-- The block, or `none` for the return value `0`.
Source: `circular.h` `cq_pop_n_noblk`
Kind: D -/
def cqPopNNoblk (n : UInt32) : Prog (Mem α) Stop (Option (List α)) := do
  let nelem ← cqNelem N
  if nelem < n then
    return none
  else
    let v ← cqPopN N n
    return some v

/-- The `n` oldest elements, or `none` for the return value `0`. The element count is kept in an
`int`, which holds any value below `N`.
Source: `circular.h` `cq_peek_n`
Kind: D -/
def cqPeekN (n : UInt32) : Prog (Mem α) Stop (Option (List α)) := do
  let sz ← cqNelem N
  if n > sz then
    return none
  else
    let tail ← ldTail
    let r ← cqPopNNoblk N n
    match r with
    | none => return none
    | some v =>
      rewindTail tail
      let sz' ← cqNelem N
      cAssert (sz == sz') "sz == cq_nelem(c)"
      return some v

/-- The loop of `cq_push_n` over what is left of the block.
Source: `circular.h` `cq_push_n`
Kind: D -/
def pushLoop : List α → Prog (Mem α) Stop Bool
  | [] => return true
  | x :: xs => do
    let ok ← cqPush N x
    if ok then
      pushLoop xs
    else
      raise (.panic "impossible: buffer should have space\n" [])

/-- All of `data` or nothing. Source: `circular.h` `cq_push_n`. Kind: D -/
def cqPushN (data : List α) : Prog (Mem α) Stop Bool := do
  cAssert (data.length != 0) "n"
  let space ← cqNspace N
  if space.toNat < data.length then
    return false
  else
    pushLoop N data

/-! ## Words, over a byte queue -/

/-- Source: `circular.h` `cq_push32`. Kind: D -/
def cqPush32 (x : UInt32) : Prog (Mem UInt8) Stop Bool := cqPushN N (leBytes 4 x.toNat)

/-- Source: `circular.h` `cq_pop32_noblk`. Kind: D -/
def cqPop32Noblk : Prog (Mem UInt8) Stop (Option UInt32) := do
  let r ← cqPopNNoblk N 4
  return r.map fun v => UInt32.ofNat (leValue v)

/-- Source: `circular.h` `cq_pop32`. Kind: D -/
def cqPop32 : Prog (Mem UInt8) Stop UInt32 := do
  let v ← cqPopN N 4
  return UInt32.ofNat (leValue v)

/-! ## Initialization and rollback -/

/-- Source: `circular.h` `cq_ok`. Kind: D -/
def cqOk : Prog (Mem α) Stop Unit := do
  let fence ← load fun m : Mem α => m.q.fence
  if fence != 0x12345678 then raise (.panic "fence is corrupted\n" []) else return ()

/-- The queue `memset` to zero, then its fields set and checked; histories start empty.
Source: `circular.h` `cq_init`
Kind: D -/
def cqInit (errorsFatalP : UInt32) : Prog (Mem UInt8) Stop Unit := do
  store fun m => { m with
    q := { cBuf := fun _ => 0, fence := 0x12345678, head := 0, tail := 0, overflow := 0,
           errorsFatalP := errorsFatalP &&& 1 == 1 },
    pushed := [], popped := [] }
  let empty ← cqEmpty
  cAssert empty "cq_empty(c)"
  let full ← cqFull N
  cAssert (!full) "!cq_full(c)"
  let nelem ← cqNelem N
  cAssert (nelem == 0) "cq_nelem(c) == 0"
  let r ← cqPopNonblock N
  cAssert r.isNone "cq_pop_nonblock(c,&e) == 0 && e == 0x12"

end

/-- Source: `circular.h` `cq_ckpt`. Kind: D -/
def cqCkpt : Prog (Mem α) Stop UInt32 := ldTail

/-- Source: `circular.h` `cq_restore`. Kind: D -/
def cqRestore (ckpt : UInt32) : Prog (Mem α) Stop Unit := rewindTail ckpt

/-- The elements from `tail` up to `head`. Source: `circular.h` `cq_nelem`, `c_buf`. Kind: D -/
def Cq.contents (N : UInt32) (q : Cq α) : List α :=
  Ring.contents N.toNat q.cBuf q.tail.toNat ((q.head - q.tail) % N).toNat

end Cs140e.Libpi.Circular
