import Cs140e.Lib.Prog
import Cs140e.Lib.Bytes
import Cs140e.Stop

/-!
# `libesp`: the lexer

`esp-lex-simple.h`, `esp-lex-simple.c` and `esp-lex.c` as `Prog`s over `World`: the lexer and
everything else the library's functions read and write.

* `Lex` is `lex_t`. `stream` holds its first `n` bytes, so `n` is its length, and `input` is the
  device: what the next calls of `esp_read` return, cut as they return it.
* `Host` is the rest of the machine: the memory that parsed values are stored to, the fields of
  `esp_t` the library reads, what was written to the device, and a history of the `va_arg`
  slots read that no operation reads.
* `espRead`, `espHasDataTimeout` and `espWriteExact` follow their contracts in `libesp.h`: with no
  input left, `esp_has_data_timeout` never becomes true and the caller waits forever (`.block`).
* Debugging output (`output`, `esp_debug`, `lex_dump`) is not modelled.
-/

namespace Cs140e.Esp

open Cs140e.Lib Cs140e.Lib.Prog

/-- The bytes of a C string, without its NUL. Source: none: infrastructure. Kind: D -/
def cstr (s : String) : List UInt8 := s.toList.map fun c => UInt8.ofNat c.toNat

/-- Where the library is compiled for: whether plain `char` is signed, and whether a `va_list`
argument is advanced in the caller (an array type) or copied.
Source: `Makefile.unix`, `Makefile.pi`
Kind: D -/
structure Target where
  charSigned : Bool
  vaByRef : Bool

/-- x86-64. Source: `Makefile.unix`. Kind: D -/
def Target.unix : Target := ⟨true, true⟩

/-- ARM. Source: `Makefile.pi`. Kind: D -/
def Target.pi : Target := ⟨false, false⟩

/-! ## The machine -/

/-- The largest stream. Source: `esp-lex-simple.h` `LEX_MAXBUF`. Kind: D -/
def lexMaxbuf : Nat := 1024 * 1024

/-- Source: `esp-lex-simple.h` `lex_t`. Kind: D -/
structure Lex where
  /-- Current position in the buffer. -/
  pos : Nat
  /-- `stream[0..n)`. -/
  stream : List UInt8
  /-- The device: what the next `esp_read` calls return. -/
  input : List (List UInt8)

/-- Addresses values are stored to. Source: none: infrastructure. Kind: D -/
inductive Ptr where
  /-- The caller's memory. -/
  | user (a : Nat)
  /-- The local variable of `esp_is_recv`. -/
  | nbytes
  deriving DecidableEq

/-- The repository's out-of-order message handlers.
Source: `esp-commands.c` `default_handle_out_of_order_msg`, `handle_ooo_server`,
`handle_ooo_client`
Kind: D -/
inductive OooHandler where
  | default
  | server
  | client
  deriving DecidableEq

/-- Everything but the lexer. Source: `libesp.h` `esp_t`. Kind: D -/
structure Host where
  /-- Words. -/
  uints : Ptr → UInt32
  /-- Buffers: the byte at an offset. -/
  bufs : Ptr → Nat → UInt8
  /-- History: the `va_list` slots read, oldest first. -/
  vaReads : List Nat
  /-- What has been written to the device. -/
  sent : List UInt8
  /-- Whether writing to the device works. -/
  writeOk : Bool
  /-- `e->handle_ooo_msg`. -/
  handleOooMsg : OooHandler
  /-- `e->active_p`. -/
  activeP : Bool
  /-- History: how often `handle_ooo_msg` was called. -/
  oooCalls : Nat

/-- What `esp_mk` sets up, over zeroed memory. Source: `libesp.h` `esp_mk`. Kind: D -/
def espMk : Host where
  uints := fun _ => 0
  bufs := fun _ _ => 0
  vaReads := []
  sent := []
  writeOk := true
  handleOooMsg := .default
  activeP := false
  oooCalls := 0

/-- The lexer and the rest. Source: `libesp.h`. Kind: D -/
structure World where
  lex : Lex
  host : Host

/-- A change of everything but the lexer. Source: none: infrastructure. Kind: D -/
def onHost (f : Host → Host) : Prog World Stop Unit :=
  store fun w => { w with host := f w.host }

/-- `assert(expr)`. Source: `libunix/demand.h` `assert`. Kind: D -/
def cAssert (b : Bool) (expr : String) : Prog World Stop Unit := check b (.assert expr)

/-! ## `esp-lex-simple.h` -/

/-- Source: `esp-lex-simple.h` `lex_empty`. Kind: D -/
def lexEmpty : Prog World Stop Bool := do
  let l ← load (·.lex)
  cAssert (l.pos ≤ l.stream.length) "l->pos <= l->n"
  return l.pos == l.stream.length

/-- Source: `esp-lex-simple.h` `lex_nstream`. Kind: D -/
def lexNstream : Prog World Stop Nat := do
  let l ← load (·.lex)
  cAssert (l.pos ≤ l.stream.length) "l->pos <= l->n"
  return l.stream.length - l.pos

/-- Source: `esp-lex-simple.h` `lex_push_n`. Kind: D -/
def lexPushN (buf : List UInt8) : Prog World Stop Unit := do
  cAssert (buf.length > 0) "n>0"
  let l ← load (·.lex)
  cAssert (l.stream.length + buf.length < lexMaxbuf) "(l->n+n) < LEX_MAXBUF"
  store fun w => { w with lex := { w.lex with stream := w.lex.stream ++ buf } }

/-- Source: `esp-lex-simple.h` `lex_get_ckpt`. Kind: D -/
def lexGetCkpt : Prog World Stop Nat := load (·.lex.pos)

/-- Source: `esp-lex-simple.h` `lex_restore_ckpt`. Kind: D -/
def lexRestoreCkpt (ck : Nat) : Prog World Stop Unit :=
  store fun w => { w with lex := { w.lex with pos := ck } }

/-! ## The device -/

/-- Whether there is something to read. Source: `libesp.h` `esp_has_data_timeout`. Kind: D -/
def espHasDataTimeout : Prog World Stop Bool := load fun w => w.lex.input != []

/-- What arrives next. Source: `libesp.h` `esp_read`. Kind: D -/
def espRead : Prog World Stop (List UInt8) :=
  access fun w => (w.lex.input.headD [], { w with lex := { w.lex with input := w.lex.input.tail } })

/-- The number of bytes written: all or none. Source: `libesp.h` `esp_write_exact`. Kind: D -/
def espWriteExact (buf : List UInt8) : Prog World Stop Nat := do
  let ok ← load (·.host.writeOk)
  if ok then
    onHost fun h => { h with sent := h.sent ++ buf }
    return buf.length
  else
    return 0

/-! ## `esp-lex.c` and `esp-lex-simple.c` -/

/-- Read in more data; the loop that waits for it never ends when nothing comes.
Source: `esp-lex.c` `lex_readin`
Kind: D -/
def lexReadin : Prog World Stop Nat := do
  let empty ← lexEmpty
  cAssert empty "lex_empty(l)"
  let nstream ← lexNstream
  cAssert (nstream == 0) "lex_nstream(l) == 0"
  let hasData ← espHasDataTimeout
  if !hasData then raise .block
  let buf ← espRead
  if buf.length == 0 then raise (.panic "server_read failed: %d\n" [.num 0])
  lexPushN buf
  return buf.length

/-- What `lex_getc_simple` and `lex_peek_simple` start with: there is a byte at the position.
Source: `esp-lex-simple.c` `lex_getc_simple`, `lex_peek_simple`
Kind: D -/
def lexFill : Prog World Stop Unit := do
  let empty ← lexEmpty
  if empty then
    let _ ← lexReadin
  let empty ← lexEmpty
  cAssert (!empty) "!lex_empty(l)"

/-- Read a byte. Source: `esp-lex-simple.c` `lex_getc_simple`. Kind: D -/
def lexGetc : Prog World Stop UInt8 := do
  lexFill
  access fun w => (w.lex.stream.getD w.lex.pos 0, { w with lex := { w.lex with pos := w.lex.pos + 1 } })

/-- The next byte, left in place. Source: `esp-lex-simple.c` `lex_peek_simple`. Kind: D -/
def lexPeek : Prog World Stop UInt8 := do
  lexFill
  load fun w => w.lex.stream.getD w.lex.pos 0

end Cs140e.Esp
