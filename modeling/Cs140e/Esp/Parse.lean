import Cs140e.Esp.Lex
import Mathlib.Logic.Function.Basic

/-!
# `libesp`: the parser

`esp-parse.c`. A C string is the list of its bytes. A matcher returns what the C function returns;
`matchv` and its callers also return how many `va_arg`s they have taken from the `va_list`, whose
`i`-th argument is `va i`: the caller's arguments first, then whatever lies behind them.
-/

namespace Cs140e.Esp

open Cs140e.Lib Cs140e.Lib.Prog

/-! ## Characters -/

/-- Source: `esp-parse.c` `is_eol_ch`. Kind: D -/
def isEolCh (ch : UInt8) : Bool := ch == 13 || ch == 10

/-- Source: `esp-parse.c` `is_space_ch`. Kind: D -/
def isSpaceCh (ch : UInt8) : Bool := ch == 32 || ch == 9

/-- Source: `ctype.h` `isdigit`. Kind: D -/
def isDigit (ch : UInt8) : Bool := 48 ≤ ch && ch ≤ 57

/-- Source: `ctype.h` `isalpha`. Kind: D -/
def isAlpha (ch : UInt8) : Bool := (65 ≤ ch && ch ≤ 90) || (97 ≤ ch && ch ≤ 122)

/-- The value of a plain `char` in a comparison. Source: C, integer promotion. Kind: D -/
def charVal (tgt : Target) (c : UInt8) : Int :=
  if tgt.charSigned && 128 ≤ c then (c.toNat : Int) - 256 else c.toNat

/-- A byte of the input equals a character of a string: an `int` against a `char`.
Source: `esp-parse.c` `lex_getc(l) != *fmt`
Kind: D -/
def charEq (tgt : Target) (ch c : UInt8) : Bool := (ch.toNat : Int) == charVal tgt c

/-! ## Blanks and lines -/

/-- Source: `esp-parse.c` `is_eol`. Kind: D -/
def isEol : Prog World Stop Bool := do
  let ch ← lexPeek
  return isEolCh ch

/-- Source: `esp-parse.c` `is_space`. Kind: D -/
def isSpace : Prog World Stop Bool := do
  let ch ← lexPeek
  return isSpaceCh ch

/-- Source: `esp-parse.c` `skip_blank_space`. Kind: D -/
def skipBlankSpace : Prog World Stop Unit := whileDo isSpace (do let _ ← lexGetc)

/-- `lex_nstream(l) && is_eol(l)`. Source: `esp-parse.c` `match_eol`. Kind: D -/
def bufferedEol : Prog World Stop Bool := do
  let n ← lexNstream
  if n == 0 then return false else isEol

/-- Consumes the end-of-line characters that are already buffered.
Source: `esp-parse.c` `match_eol`
Kind: D -/
def matchEol : Prog World Stop Bool := do
  let ck ← lexGetCkpt
  skipBlankSpace
  let eol ← isEol
  if !eol then
    lexRestoreCkpt ck
    return false
  else
    let _ ← lexGetc
    whileDo bufferedEol (do let _ ← lexGetc)
    return true

/-- If not blank, removes no characters. Source: `esp-parse.c` `match_blank_line`. Kind: D -/
def matchBlankLine : Prog World Stop Bool := do
  let ck ← lexGetCkpt
  skipBlankSpace
  let eol ← matchEol
  if eol then
    return true
  else
    lexRestoreCkpt ck
    return false

/-- Source: `esp-parse.c` `skip_blank_lines`. Kind: D -/
def skipBlankLines : Prog World Stop Unit := whileDo matchBlankLine (return ())

/-- The loop of `get_nonblank_line` with `left` bytes of the buffer left; `none` when they run out.
Source: `esp-parse.c` `get_nonblank_line`
Kind: D -/
def lineLoop : Nat → Prog World Stop (Option (List UInt8))
  | 0 => return none
  | left + 1 => do
    let eol ← matchEol
    if eol then
      return some []
    else
      let ch ← lexGetc
      let line ← lineLoop left
      return line.map (ch :: ·)

/-- The bytes put in the buffer; the C function returns their number, and terminates them unless
there are none. Source: `esp-parse.c` `get_nonblank_line`. Kind: D -/
def getNonblankLine (nbytes : Nat) : Prog World Stop (List UInt8) := do
  let blank ← matchBlankLine
  if blank then
    return []
  else
    skipBlankSpace
    let line ← lineLoop nbytes
    match line with
    | none => raise (.panic "buffer too small nybtes=%d\n" [.num nbytes])
    | some line => return line

/-! ## Values -/

/-- `*x = n`. Source: `esp-parse.c` `match_uint`. Kind: D -/
def Host.setUint (x : Ptr) (n : UInt32) (h : Host) : Host :=
  { h with uints := Function.update h.uints x n }

/-- `out[i] = c`. Source: `esp-parse.c` `match_literal_string`. Kind: D -/
def Host.setByte (out : Ptr) (i : Nat) (c : UInt8) (h : Host) : Host :=
  { h with bufs := Function.update h.bufs out (Function.update (h.bufs out) i c) }

/-- One turn of the loop of `match_uint`, after `i` digits.
Source: `esp-parse.c` `match_uint`
Kind: D -/
def uintTurn (x : Ptr) (i : Nat) : Prog World Stop (Nat ⊕ Bool) := do
  let ch ← lexPeek
  if isDigit ch then
    let old ← load fun w : World => w.host.uints x
    let ch ← lexGetc
    onHost (Host.setUint x (old * 10 + ch.toUInt32 - 48))
    return .inl (i + 1)
  else
    return .inr (i != 0)

/-- Source: `esp-parse.c` `match_uint`. Kind: D -/
def matchUint (x : Ptr) : Prog World Stop Bool := do
  skipBlankSpace
  onHost (Host.setUint x 0)
  loop (uintTurn x) 0 ret

/-- The loop of `match_literal_string`, at offset `i` with `left` bytes of the buffer left. (The
panic prints what lies behind the buffer, which is not modelled.)
Source: `esp-parse.c` `match_literal_string`
Kind: D -/
def literalLoop (out : Ptr) : Nat → Nat → Prog World Stop Bool
  | _, 0 => raise (.panic "malformed string, exceeded size: <%s>\n" [])
  | i, left + 1 => do
    let ch ← lexGetc
    onHost (Host.setByte out i ch)
    if ch == 34 then
      onHost (Host.setByte out i 0)
      return true
    else
      literalLoop out (i + 1) left

/-- Source: `esp-parse.c` `match_literal_string`. Kind: D -/
def matchLiteralString (out : Ptr) (nbytes : Nat) : Prog World Stop Bool := do
  skipBlankSpace
  let ch ← lexPeek
  if ch != 34 then
    return false
  else
    let _ ← lexGetc
    literalLoop out 0 nbytes

/-! ## Tokens -/

/-- The loop of `match_tok` and the check behind it; `last` is `p[-1]`.
Source: `esp-parse.c` `match_tok`
Kind: D -/
def tokScan (tgt : Target) : List UInt8 → UInt8 → Prog World Stop Bool
  | [], last => do
    if isAlpha last then
      let ch ← lexPeek
      return !isAlpha ch
    else
      return true
  | c :: p, _ => do
    let ch ← lexGetc
    if !charEq tgt ch c then
      return false
    else
      tokScan tgt p c

/-- Source: `esp-parse.c` `match_tok`. Kind: D -/
def matchTok (tgt : Target) (tok : List UInt8) : Prog World Stop Bool := do
  let ckpt ← lexGetCkpt
  skipBlankLines
  skipBlankSpace
  cAssert (tok != []) "*p"
  let ok ← tokScan tgt tok 0
  if ok then
    return true
  else
    lexRestoreCkpt ckpt
    return false

/-! ## Formats -/

/-- The local variables of the loop of `matchv`. Source: `esp-parse.c` `matchv`. Kind: D -/
structure ScanState where
  /-- What is left of the format. -/
  fmt : List UInt8
  mustMatch : Bool
  /-- How many arguments have been taken. -/
  k : Nat

/-- The history of `va_arg` slots, with `k` read. Source: `esp-parse.c` `matchv`. Kind: D -/
def Host.readArg (k : Nat) (h : Host) : Host := { h with vaReads := h.vaReads ++ [k] }

/-- `va_arg(args, ...)`: the `k`-th argument. Source: `esp-parse.c` `matchv`. Kind: D -/
def vaArg (va : Nat → Ptr) (k : Nat) : Prog World Stop Ptr := do
  onHost (Host.readArg k)
  return va k

/-- One turn of the loop of `matchv` over the format `fmtString`. The loop ends with whether the
format has matched; `false` is `goto fail`.
Source: `esp-parse.c` `matchv`
Kind: D -/
def scanTurn (tgt : Target) (va : Nat → Ptr) (fmtString : List UInt8) (st : ScanState) :
    Prog World Stop (ScanState ⊕ Bool × ScanState) :=
  match st.fmt with
  | [] => return .inr (true, st)
  | c :: fmt => do
    cAssert (!isEolCh c) "!is_eol_ch(*fmt)"
    let ch ← lexPeek
    if isEolCh ch then
      return .inr (false, st)
    else if c != 37 then
      if c != 32 then
        skipBlankSpace
        let ch ← lexGetc
        if !charEq tgt ch c then
          return .inr (false, st)
        else
          return .inl { st with fmt := fmt }
      else
        return .inl { st with fmt := fmt }
    else
      -- a `%` behind the first character: what came before it has matched
      let mustMatch := st.mustMatch || st.fmt.length != fmtString.length
      match fmt with
      | [] => raise (.panic "illegal format string: <%s>\n" [.str fmtString])
      | d :: fmt =>
        let next : ScanState := ⟨fmt, mustMatch, st.k + 1⟩
        if d == 115 then
          let s ← vaArg va st.k
          let ok ← matchLiteralString s 32
          return if !ok then .inr (false, next) else .inl next
        else if d == 117 then
          let u ← vaArg va st.k
          let ok ← matchUint u
          return if !ok then .inr (false, next) else .inl next
        else
          raise (.panic "illegal format string: <%s>\n" [.str fmtString])

/-- Matches from the `k`-th argument of the `va_list` on.
Source: `esp-parse.c` `matchv`
Kind: D -/
def matchv (tgt : Target) (va : Nat → Ptr) (fmt : List UInt8) (k : Nat) :
    Prog World Stop (Bool × Nat) := do
  let ckpt ← lexGetCkpt
  skipBlankLines
  skipBlankSpace
  let (matched, st) ← loop (scanTurn tgt va fmt) ⟨fmt, false, k⟩ ret
  if matched then
    return (true, st.k)
  else if st.mustMatch then
    raise (.panic "must match failed: malformed value for <%s>!\n" [.str fmt])
  else
    lexRestoreCkpt ckpt
    return (false, st.k)

/-- Source: `esp-parse.c` `match_linev`. Kind: D -/
def matchLinev (tgt : Target) (va : Nat → Ptr) (fmt : List UInt8) (k : Nat) :
    Prog World Stop (Bool × Nat) := do
  let (res, k) ← matchv tgt va fmt k
  if !res then
    return (false, k)
  else
    let eol ← matchEol
    if !eol then
      raise (.panic "did not match end of line\n" [])
    else
      return (true, k)

/-- Source: `esp-parse.c` `match_line`. Kind: D -/
def matchLine (tgt : Target) (fmt : List UInt8) (va : Nat → Ptr) : Prog World Stop Bool := do
  let (res, _) ← matchLinev tgt va fmt 0
  return res

/-- Matches a partial line. Source: `esp-parse.c` `match`. Kind: D -/
def matchPartial (tgt : Target) (fmt : List UInt8) (va : Nat → Ptr) : Prog World Stop Bool := do
  let (res, _) ← matchv tgt va fmt 0
  return res

end Cs140e.Esp
