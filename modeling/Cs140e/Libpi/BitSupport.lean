import Cs140e.Stop

/-!
# Bits of a word

`libpi/libc/bit-support.h`. The checks of the code are kept, so each function ends in an
`Except Stop`. A shift of a C `int` to or past its sign bit (`1 << nbits` at 31) is that of the word.
-/

namespace Cs140e.Libpi

/-- `assert(expr)` in a computation. Source: `libc/assert.h` `assert`. Kind: D -/
def assertThat (b : Bool) (expr : String) : Except Stop Unit :=
  if b then return () else throw (.assert expr)

/-- Is `x[bit] == 1`? Source: `bit-support.h` `bit_is_on`. Kind: D -/
def bitIsOn (x bit : UInt32) : Except Stop UInt32 := do
  assertThat (decide (bit < 32)) "bit<32"
  return (x >>> bit) &&& 1

/-- A mask with the `nbits` low bits set. Source: `bit-support.h` `bits_mask`. Kind: D -/
def bitsMask (nbits : UInt32) : Except Stop UInt32 :=
  if nbits == 32 then return 0xffffffff
  else do
    assertThat (decide (0 ≤ nbits) && decide (nbits < 32)) "nbits >= 0 && nbits<32"
    return (1 <<< nbits) - 1

/-- The bits `[lb:ub]`, inclusive. Source: `bit-support.h` `bits_get`. Kind: D -/
def bitsGet (x lb ub : UInt32) : Except Stop UInt32 := do
  assertThat (decide (lb ≤ ub)) "lb <= ub"
  assertThat (decide (ub < 32)) "ub < 32"
  let mask ← bitsMask (ub - lb + 1)
  return (x >>> lb) &&& mask

/-- The bits `[lb:ub]` set to 0, the rest unchanged. Source: `bit-support.h` `bits_clr`. Kind: D -/
def bitsClr (x lb ub : UInt32) : Except Stop UInt32 := do
  assertThat (decide (lb ≤ ub)) "lb <= ub"
  assertThat (decide (ub < 32)) "ub < 32"
  let mask ← bitsMask (ub - lb + 1)
  return x &&& ~~~(mask <<< lb)

/-- The bits `[lb:ub]` set to `v`, which must fit. Source: `bit-support.h` `bits_set`. Kind: D -/
def bitsSet (x lb ub v : UInt32) : Except Stop UInt32 := do
  assertThat (decide (lb ≤ ub)) "lb <= ub"
  assertThat (decide (ub < 32)) "ub < 32"
  let n := ub - lb + 1
  assertThat (decide (n ≤ 32)) "n<=32"
  let mask ← bitsMask n
  assertThat ((mask &&& v) == v) "(bits_mask(n) & v) == v"
  let y ← bitsClr x lb ub
  return y ||| (v <<< lb)

/-- The loop over the 32 bits. Source: `bit-support.h` `bit_count`. Kind: D -/
def bitCount (x : UInt32) : Except Stop UInt32 :=
  (List.range 32).foldlM (fun cnt i => do
    let on ← bitIsOn x (UInt32.ofNat i)
    return if on != 0 then cnt + 1 else cnt) 0

end Cs140e.Libpi
