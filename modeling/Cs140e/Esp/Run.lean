import Cs140e.Esp.Parse

/-!
# `libesp`: issuing commands and waiting for their responses

`esp-run.c`, with the out-of-order handlers and `esp_is_recv` of `esp-commands.c`. `stale` is what
a `va_arg` finds behind the arguments that were passed. The sleeps between retries are not
modelled.
-/

namespace Cs140e.Esp

open Cs140e.Lib Cs140e.Lib.Prog

/-- Consumes and prints the current line. Source: `esp-run.c` `cmd_echo_line`. Kind: D -/
def cmdEchoLine : Prog World Stop Unit := do
  let _ ← getNonblankLine 1024

/-- Source: `esp-run.h` `cmd_reject_line`. Kind: D -/
def cmdRejectLine {α : Type} : Prog World Stop α := do
  let line ← getNonblankLine 1024
  if line.length == 0 then
    raise (.panic "expected non-blank!\n" [])
  else
    raise (.panic "unexpected line: <%s>\n" [.str line])

/-- Source: `esp-run.c` `cmd_puts`. Kind: D -/
def cmdPuts (cmdOp : List UInt8) : Prog World Stop Unit := do
  let n := cmdOp.length
  cAssert (n != 0) "n"
  cAssert (n < 1024 - 2) "n < sizeof cmd - 2"
  let cmd := cmdOp ++ cstr "\r\n"
  let wrote ← espWriteExact cmd
  if wrote == 0 then raise (.panic "write failed\n" [])

/-- Calls the handler that `e->handle_ooo_msg` points to.
Source: `esp-commands.c` `default_handle_out_of_order_msg`, `handle_ooo_server`,
`handle_ooo_client`
Kind: D -/
def handleOooMsg : Prog World Stop Unit := do
  onHost fun h => { h with oooCalls := h.oooCalls + 1 }
  let handler ← load (·.host.handleOooMsg)
  match handler with
  | .default =>
    let active ← load (·.host.activeP)
    if !active then
      cmdEchoLine
    else
      raise (.panic "unexpected out of order message\n" [])
  | .server => raise (.panic "in handle ooo server\n" [])
  | .client =>
    raise (.panic "client: AFAIK: should never receive unexpected messages.\n" [])

variable (tgt : Target) (stale : Nat → Ptr)

/-- What the response loops do with a line that nothing matched.
Source: `esp-run.c` `cmd_responsev`, `cmd_response`
Kind: D -/
def otherLine (extraP : Bool) : Prog World Stop Unit := do
  if extraP then
    cmdEchoLine
  else
    let blank ← matchBlankLine
    if !blank then
      let line ← getNonblankLine 1024
      if line.length == 0 then
        raise (.panic "expected non-blank!\n" [])
      else
        raise (.panic "specified no extra output for command.  hit some:<%s>.\n" [.str line])

/-- Source: `esp-run.c` `match_busy`. Kind: D -/
def matchBusy : Prog World Stop Bool := do
  let s ← matchLine tgt (cstr "busy s...") stale
  if s then return true else matchLine tgt (cstr "busy p...") stale

/-- The tokens that `cmd_responsev` refuses to skip.
Source: `esp-run.c` `cmd_responsev`
Kind: D -/
def suspicious : Prog World Stop Bool := do
  let ok ← matchTok tgt (cstr "OK")
  if ok then return true else
  let sendOk ← matchTok tgt (cstr "SEND OK")
  if sendOk then return true else
  let ready ← matchTok tgt (cstr "ready")
  if ready then return true else
  matchTok tgt (cstr "BUSY")

/-- One turn of the loop of `cmd_responsev`. The `va_list` it hands to `match_linev` has had `k`
arguments taken from it; whether what `match_linev` takes is seen here depends on the target.
Source: `esp-run.c` `cmd_responsev`
Kind: D -/
def responseTurn (canFailP extraP : Bool) (fmt : List UInt8) (va : Nat → Ptr) (k : Nat) :
    Prog World Stop (Nat ⊕ Bool) := do
  let (res, k') ← matchLinev tgt va fmt k
  let k := if tgt.vaByRef then k' else k
  if res then return .inr true else
  let error ← matchTok tgt (cstr "ERROR")
  if error then
    if canFailP then
      return .inr false
    else
      raise (.panic "fatal error: got an error\n" [])
  else
  let found ← suspicious tgt
  if found then
    raise (.panic "suspicious end of command\n" [])
  else
  let busy ← matchBusy tgt stale
  if busy then
    return .inl k
  else
    otherLine extraP
    return .inl k

/-- Source: `esp-run.c` `cmd_responsev`. Kind: D -/
def cmdResponsev (canFailP extraP : Bool) (fmt : List UInt8) (va : Nat → Ptr) :
    Prog World Stop Bool :=
  loop (responseTurn tgt stale canFailP extraP fmt va) 0 ret

/-- The arguments of a call, with what lies behind them. Source: C, `va_start`. Kind: D -/
def vaStart (args : List Ptr) (k : Nat) : Ptr := args.getD k (stale k)

/-- Source: `esp-run.c` `cmd_responsef`. Kind: D -/
def cmdResponsef (canFailP extraP : Bool) (fmt : List UInt8) (args : List Ptr) :
    Prog World Stop Bool :=
  cmdResponsev tgt stale canFailP extraP fmt (vaStart stale args)

/-- One turn of the loop of `cmd_response`. Source: `esp-run.c` `cmd_response`. Kind: D -/
def endTurn (end' : List UInt8) (canFailP extraP : Bool) : Prog World Stop (Unit ⊕ Bool) := do
  let res ← matchLine tgt end' stale
  if res then return .inr true else
  let error ← matchTok tgt (cstr "ERROR")
  if error then
    if canFailP then
      return .inr false
    else
      raise (.panic "fatal error: got an error\n" [])
  else
  let busy ← matchBusy tgt stale
  if busy then
    return .inl ()
  else
    otherLine extraP
    return .inl ()

/-- Source: `esp-run.c` `cmd_response`. Kind: D -/
def cmdResponse (end' : List UInt8) (canFailP extraP : Bool) : Prog World Stop Bool :=
  loop (fun _ => endTurn tgt stale end' canFailP extraP) () ret

/-- One turn of the loop of `cmd_ack`. Source: `esp-run.c` `cmd_ack`. Kind: D -/
def ackTurn (cmd : List UInt8) : Prog World Stop (Unit ⊕ Bool) := do
  let echo ← matchLine tgt cmd stale
  if echo then return .inr true else
  let blank ← matchBlankLine
  if blank then return .inl () else
  let busy ← matchBusy tgt stale
  if busy then return .inl () else
  handleOooMsg
  return .inl ()

/-- Returns when `cmd` has been acknowledged. Source: `esp-run.c` `cmd_ack`. Kind: D -/
def cmdAck (cmd : List UInt8) : Prog World Stop Bool :=
  loop (fun _ => ackTurn tgt stale cmd) () ret

/-- Source: `esp-run.c` `do_at_cmd`. Kind: D -/
def doAtCmd (cmd response : List UInt8) (extraP : Bool) : Prog World Stop Bool := do
  cmdPuts cmd
  let ack ← cmdAck tgt stale cmd
  if !ack then
    raise (.panic "error issuing cmd <%s>!\n" [.str cmd])
  else
    cmdResponse tgt stale response false extraP

/-- Source: `esp-run.c` `at_cmd`. Kind: D -/
def atCmd (cmd response : List UInt8) : Prog World Stop Bool := doAtCmd tgt stale cmd response false

/-- Source: `esp-run.c` `at_cmd_extra`. Kind: D -/
def atCmdExtra (cmd response : List UInt8) : Prog World Stop Bool :=
  doAtCmd tgt stale cmd response true

/-- The loop of `esp_is_recv`: `left` bytes still to read, `i` read.
Source: `esp-commands.c` `esp_is_recv`
Kind: D -/
def recvLoop (m : Ptr) : Nat → Nat → Prog World Stop Unit
  | 0, _ => return ()
  | left + 1, i => do
    let ch ← lexGetc
    onHost (Host.setByte m i ch)
    recvLoop m left (i + 1)

/-- Source: `esp-commands.c` `esp_is_recv`. Kind: D -/
def espIsRecv (ch data : Ptr) (maxbytes : UInt32) : Prog World Stop UInt32 := do
  let ok ← matchPartial tgt (cstr "+IPD,%u,%u:") (vaStart stale [ch, .nbytes])
  if !ok then
    cmdRejectLine
  else
    let nbytes ← load fun w : World => w.host.uints .nbytes
    cAssert (nbytes > 0) "nbytes>0"
    if nbytes > maxbytes then
      raise (.panic "message is %d bytes long, we have %d space avail\n"
        [.num nbytes.toNat, .num maxbytes.toNat])
    else
      recvLoop data nbytes.toNat 0
      return nbytes

end Cs140e.Esp
