import Cs140e.Libpi.Compare

/-!
# Formatted output

`va-printk.c`, without floating point. A format is the bytes that can be read from the pointer on;
the argument list is the list of what `va_arg` returns next.

* `emit` — the conversion of a number, in a buffer of 64 bytes that is filled from the lowest digit.
* `convert` — one conversion of the format; `copyText` — the copy of its text to the output.
* `vaPrintk`, `snprintk` — the function and its caller.
-/

namespace Cs140e.Libpi

open Cs140e.Lib

/-! ## Characters -/

/-- Source: `libpi/libc/va-printk.c` `isdigit`. Kind: D -/
def isDigit (c : UInt8) : Bool := c ≥ 0x30 && c ≤ 0x39

/-- `"0123456789abcdef"`. Source: `libpi/libc/va-printk.c` `emit`. Kind: D -/
def digitTable : List UInt8 :=
  [0x30, 0x31, 0x32, 0x33, 0x34, 0x35, 0x36, 0x37, 0x38, 0x39, 0x61, 0x62, 0x63, 0x64, 0x65, 0x66]

/-- `"llx"`. Source: `libpi/libc/va-printk.c` `va_printk`. Kind: D -/
def textLlx : List UInt8 := [0x6c, 0x6c, 0x78, 0]

/-- `"lld"`. Source: `libpi/libc/va-printk.c` `va_printk`. Kind: D -/
def textLld : List UInt8 := [0x6c, 0x6c, 0x64, 0]

/-! ## Numbers -/

/-- The bytes of `buf` in `emit`. Source: `libpi/libc/va-printk.c` `emit`. Kind: D -/
abbrev emitRoom : Nat := 64

/-- `do { *p++ = table[u % base]; } while(u /= base)`, with `room` bytes left: what is written.
The tables for the bases 10 and 2 are the first entries of the one for 16.
Source: `libpi/libc/va-printk.c` `emit`
Kind: D -/
def putDigits (base : UInt32) : (room : Nat) → (u : UInt32) → Except Stop (List UInt8)
  | 0, _ => throw .outOfBounds
  | room + 1, u => do
    let c := digitTable.getD (u % base).toNat 0
    let u := u / base
    if u != 0 then
      let cs ← putDigits base room u
      return c :: cs
    else
      return [c]

/-- The spaces and the NUL behind the characters `p`, which must have room. Source:
`libpi/libc/va-printk.c` `pad`. Kind: D -/
def pad (p : List UInt8) (width : Nat) : Except Stop (List UInt8) :=
  let p := p ++ List.replicate (width - p.length) 0x20
  if p.length < emitRoom then return p else throw .outOfBounds

/-- The first characters are dropped when there are too many. Source: `libpi/libc/va-printk.c`
`reverse`. Kind: D -/
def reverse {n : Nat} (dst : Buf UInt8 n) (p : List UInt8) : Except Stop (Buf UInt8 n) :=
  let len := p.length + 1
  let start := if len > n then p.drop (len - n) else p
  inBounds (dst.write 0 (start.reverse ++ [0]))

/-- What the cases of `emit` write. Source: `libpi/libc/va-printk.c` `emit`. Kind: D -/
def emitDigits (base : Nat) (val : UInt32) (signedP : Bool) : Except Stop (List UInt8) :=
  match base with
  | 10 => do
    let negP := val ≥ 0x80000000 && signedP
    let p ← putDigits 10 emitRoom (if negP then -val else val)
    return if negP then p ++ [0x2d] else p
  | 16 => do
    let p ← putDigits 16 emitRoom val
    return p ++ [0x78, 0x30]
  | 8 => return [val.toUInt8]
  | 2 => putDigits 2 emitRoom val
  | _ => throw (.assert "0")

/-- Source: `libpi/libc/va-printk.c` `emit`. Kind: D -/
def emit {n : Nat} (base : Nat) (dst : Buf UInt8 n) (val : UInt32) (width : Nat) (signedP : Bool) :
    Except Stop (Buf UInt8 n) := do
  let width := if width > n then n - 1 else width
  let p ← emitDigits base val signedP
  let p ← pad p width
  reverse dst p

/-! ## Conversions -/

/-- What `va_arg` can return: an `int` or `unsigned`, a `uint64_t`, a `char *`.
Source: `libpi/libc/va-printk.c` `va_printk`
Kind: D -/
inductive VaArg where
  | word (v : UInt32)
  | dword (v : UInt64)
  | ptr (s : CharPtr)

/-- `va_arg(args, int)` or `va_arg(args, unsigned)`. Source: `libpi/libc/va-printk.c` `va_printk`.
Kind: D -/
def vaWord : List VaArg → Except Stop (UInt32 × List VaArg)
  | .word v :: args => return (v, args)
  | _ => throw .outOfBounds

/-- `va_arg(args, uint64_t)`. Source: `libpi/libc/va-printk.c` `va_printk`. Kind: D -/
def vaDword : List VaArg → Except Stop (UInt64 × List VaArg)
  | .dword v :: args => return (v, args)
  | _ => throw .outOfBounds

/-- `va_arg(args, char *)`. Source: `libpi/libc/va-printk.c` `va_printk`. Kind: D -/
def vaPtr : List VaArg → Except Stop (CharPtr × List VaArg)
  | .ptr s :: args => return (s, args)
  | _ => throw .outOfBounds

/-- `while(isdigit(*fmt)) ...`. Source: `libpi/libc/va-printk.c` `va_printk`. Kind: D -/
def scanWidth (width : UInt32) : (fmt : List UInt8) → Except Stop (UInt32 × List UInt8)
  | [] => throw .outOfBounds
  | c :: fmt =>
    if isDigit c then scanWidth (width * 10 + c.toUInt32 - 0x30) fmt else return (width, c :: fmt)

/-- The case `'l'`, from the specifier on: `num` afterwards, and the arguments that are left.
Source: `libpi/libc/va-printk.c` `va_printk`
Kind: D -/
def convertLong (num num1 : Buf UInt8 128) (width : Nat) (ty : List UInt8) (args : List VaArg) :
    Except Stop (Buf UInt8 128 × List VaArg) := do
  let isLlx ← strncmp (.ofBytes ty) (.ofBytes textLlx) 3
  if isLlx != 0 then
    let isLld ← strncmp (.ofBytes ty) (.ofBytes textLld) 3
    if isLld != 0 then
      throw (.assert "strncmp(ty, \"llx\", 3) == 0 || strncmp(ty, \"lld\", 3) == 0")
  let (xx, args) ← vaDword args
  let x0 := (xx >>> 32).toUInt32
  let x1 := xx.toUInt32
  if isLlx == 0 then
    let num ← emit 16 num x0 width false
    let num1 ← emit 16 num1 x1 width false
    let num ← strcat num 0 ((CharPtr.ofBuf num1).add 2)
    return (num, args)
  else
    let num ← emit 10 num x0 width false
    let num1 ← emit 10 num1 x1 width false
    let isZero ← strcmp (.ofBuf num) (.ofBytes [0x30, 0])
    let num ← if isZero == 0 then strcpy num (.ofBuf num1) else strcat num 0 (.ofBuf num1)
    return (num, args)

/-- A number in one of the bases: where its text is, and the arguments that are left.
Source: `libpi/libc/va-printk.c` `va_printk`
Kind: D -/
def convertWord (base : Nat) (num : Buf UInt8 128) (width : Nat) (signedP : Bool)
    (args : List VaArg) : Except Stop (CharPtr × List VaArg) := do
  let (v, args) ← vaWord args
  let num ← emit base num v width signedP
  return (.ofBuf num, args)

/-- `switch(*fmt)` and `fmt++`: where the text is, the arguments and the format that are left. (What
the default case prints, and its write into the format, are not modelled.)
Source: `libpi/libc/va-printk.c` `va_printk`
Kind: D -/
def convert (num num1 : Buf UInt8 128) (width : Nat) (fmt : List UInt8) (args : List VaArg) :
    Except Stop (CharPtr × List VaArg × List UInt8) := do
  let c ← inBounds fmt.head?
  if c == 0x6c then                                           -- 'l'
    let (num, args) ← convertLong num num1 width fmt args
    return (.ofBuf num, args, fmt.drop 3)
  else if c == 0x66 then                                      -- 'f'
    throw (.panic "float not enabled!!!" [])
  else
    let (s, args) ←
      if c == 0x64 then convertWord 10 num width true args          -- 'd'
      else if c == 0x75 then convertWord 10 num width false args    -- 'u'
      else if c == 0x70 || c == 0x78 then
        convertWord 16 num width false args                         -- 'p', 'x'
      else if c == 0x62 then convertWord 2 num width false args     -- 'b'
      else if c == 0x73 then vaPtr args                             -- 's'
      else if c == 0x63 then convertWord 8 num width false args     -- 'c'
      else throw (.panic "printk error\n" [])
    return (s, args, fmt.drop 1)

/-! ## The output -/

/-- `for(; p < e && *s; ) *p++ = *s++`, with `left` bytes up to `e`.
Source: `libpi/libc/va-printk.c` `va_printk`
Kind: D -/
def copyText {m : Nat} (s : CharPtr) (i : Nat) (buf : Buf UInt8 m) (p : Nat) : (left : Nat) →
    Except Stop (Buf UInt8 m × Nat)
  | 0 => return (buf, p)
  | left + 1 => do
    let c ← s.get i
    if c != 0 then
      let buf ← inBounds (buf.write p [c])
      copyText s (i + 1) buf (p + 1) left
    else
      return (buf, p)

/-- The loop over the format. Each turn reads on in it, so `fuel` bytes are enough for a format of
that many. Source: `libpi/libc/va-printk.c` `va_printk`. Kind: D -/
def vaPrintkFrom {m : Nat} (num num1 : Buf UInt8 128) (n : Nat) : (fuel : Nat) →
    (fmt : List UInt8) → (args : List VaArg) → (buf : Buf UInt8 m) → (p : Nat) →
      Except Stop (Buf UInt8 m × Nat)
  | 0, _, _, _, _ => throw .outOfBounds
  | fuel + 1, fmt, args, buf, p => do
    let c ← inBounds fmt.head?
    if c != 0 && p + 1 < n then
      if c != 0x25 then
        let buf ← inBounds (buf.write p [c])
        vaPrintkFrom num num1 n fuel (fmt.drop 1) args buf (p + 1)
      else
        let c1 ← inBounds fmt[1]?
        if c1 == 0x25 then
          let buf ← inBounds (buf.write p [c])
          vaPrintkFrom num num1 n fuel (fmt.drop 2) args buf (p + 1)
        else
          let (width, ty) ← scanWidth 0 (fmt.drop 1)
          if ¬ width < 32 then throw (.assert "width < 32")
          let (s, args, fmt) ← convert num num1 width.toNat ty args
          let (buf, p) ← copyText s 0 buf p (n - 1 - p)
          vaPrintkFrom num num1 n fuel fmt args buf p
    else
      return (buf, p)

/-- Writes at most `n` bytes of `buf`. The buffers `num` and `num1` hold what is on the stack.
Source: `libpi/libc/va-printk.c` `va_printk`
Kind: D -/
def vaPrintk {m : Nat} (num num1 : Buf UInt8 128) (buf : Buf UInt8 m) (n : Nat) (fmt : List UInt8)
    (args : List VaArg) : Except Stop (Buf UInt8 m × Nat) := do
  let buf ← inBounds (buf.write 0 [0])
  let (buf, p) ← vaPrintkFrom num num1 n fmt.length fmt args buf 0
  let buf ← inBounds (buf.write p [0])
  return (buf, p + 1)

/-- Source: `libpi/libc/snprintk.c` `snprintk`. Kind: D -/
def snprintk {m : Nat} (num num1 : Buf UInt8 128) (buf : Buf UInt8 m) (n : Nat) (fmt : List UInt8)
    (args : List VaArg) : Except Stop (Buf UInt8 m × Nat) :=
  vaPrintk num num1 buf n fmt args

end Cs140e.Libpi
