import Cs140e.Lib.Disturb
import Cs140e.Libpi.Circular
import Cs140e.Nrf.Util
import Mathlib.Data.List.TakeDrop

/-!
# Radio: receiving

`nrf_get_pkts` (`nrf-driver.c`) and the calls of `nrf-public.c` that return received data. The chip
is modelled as far as these use it: the registers CONFIG, STATUS and FIFO_STATUS, and the RX FIFO,
whose packets all come from pipe 1 (nothing is being sent).

* `Chip.transfer` — one SPI transfer; `chip` is the link of the driver.
* `nrfGetPkts`, `nrfPipeNbytesAvail`, `nrfGetDataExactNoblk`, `nrfGetDataExactTimeout` — as the code
  computes them; the queue programs run on the pipe's `recvq`.
* `Nic.meanwhile` — what happens beside the driver: packets arrive and time goes by.

`nrf_debug` prints in verbose mode only, `nrf_dump` prints in front of a panic, and `rpi_wait` waits;
none of them is modelled.
-/

namespace Cs140e.Nrf

open Cs140e.Lib Cs140e.Lib.Prog Cs140e.Libpi Cs140e.Libpi.Circular

/-! ## The chip -/

/-- Source: `nrf-internal.h` `NRF_CONFIG`. Kind: D -/
def nrfConfig : UInt8 := 0x0

/-- Source: `nrf-internal.h` `NRF_STATUS`. Kind: D -/
def nrfStatus : UInt8 := 0x7

/-- Source: `nrf-internal.h` `NRF_FIFO_STATUS`. Kind: D -/
def nrfFifoStatus : UInt8 := 0x17

/-- Source: `nrf-internal.h` `NRF_R_RX_PAYLOAD`. Kind: D -/
def nrfRRxPayload : UInt8 := 0b01100001

/-- Source: `nrf-internal.h` `RX_DR`. Kind: D -/
def rxDr : UInt8 := 6

/-- The chip. Source: `nrf-internal.h` "hardware accessors". Kind: D -/
structure Chip where
  config : UInt8
  /-- The interrupt "data ready", a bit of STATUS. -/
  rxDr : Bool
  /-- The payloads in the RX FIFO, oldest first. -/
  fifo : List (List UInt8)
  /-- History: the payloads read off the FIFO. -/
  read : List (List UInt8)

namespace Chip

variable (c : Chip)

/-- The register STATUS: bits 1 to 3 are the pipe of the oldest packet, all set when there is none.
Source: `nrf-internal.h` `RX_DR`, `pipeid_get`, `NRF_PIPEID_EMPTY`
Kind: D -/
def status : UInt8 :=
  (if c.rxDr then 0b1000000 else 0) ||| (if c.fifo.isEmpty then 0b1110 else 0b10)

/-- The register FIFO_STATUS: bit 0 is "RX empty", bit 4 "TX empty".
Source: `nrf-internal.h` `nrf_rx_fifo_empty`, `nrf_tx_fifo_empty`
Kind: D -/
def fifoStatus : UInt8 := 0b10000 ||| (if c.fifo.isEmpty then 1 else 0)

/-- What a register holds. Source: `nrf-internal.h` `nrf_get8`. Kind: D -/
def reg (r : UInt8) : UInt8 :=
  if r == nrfConfig then c.config
  else if r == nrfStatus then c.status
  else if r == nrfFifoStatus then c.fifoStatus
  else 0

/-- A write to a register: a one in STATUS clears an interrupt.
Source: `nrf-internal.h` `nrf_rx_intr_clr`
Kind: D -/
def writeReg (r v : UInt8) : Chip :=
  if r == nrfConfig then { c with config := v }
  else if r == nrfStatus && v &&& 0b1000000 != 0 then { c with rxDr := false }
  else c

/-- The oldest packet leaves the FIFO. Source: `nrf-internal.h` `NRF_R_RX_PAYLOAD`. Kind: D -/
def takePacket : Chip :=
  match c.fifo with
  | [] => c
  | p :: ps => { c with fifo := ps, read := c.read ++ [p] }

/-- A transfer: the status comes back for the command, and then the data.
Source: `spi.h` `spi_n_transfer`; `nrf-internal.h` "cmds"
Kind: D -/
def transfer : List UInt8 → List UInt8 × Chip
  | [] => ([], c)
  | cmd :: data =>
    if cmd == nrfRRxPayload then (c.status :: (c.fifo.headD []).takeD data.length 0, c.takePacket)
    else if cmd < nrfWrReg then (c.status :: List.replicate data.length (c.reg cmd), c)
    else if cmd < 2 * nrfWrReg then
      (c.status :: List.replicate data.length 0, c.writeReg (cmd - nrfWrReg) (data.headD 0))
    else (c.status :: List.replicate data.length 0, c)

/-- Packets arrive. Source: `nrf-driver.c` "there could be more packets on the queue". Kind: D -/
def arrive (ps : List (List UInt8)) : Chip :=
  { c with fifo := c.fifo ++ ps, rxDr := c.rxDr || !ps.isEmpty }

/-- A transfer sends as many bytes as it receives. Source: `spi.h` `spi_n_transfer`. Kind: L -/
theorem transfer_length (tx : List UInt8) : (c.transfer tx).1.length = tx.length := by
  cases tx with
  | nil => rfl
  | cons cmd data =>
      simp only [transfer]
      split_ifs <;> simp [List.takeD_length]

end Chip

/-! ## The driver -/

/-- The one pipe, as far as receiving uses it. Source: `nrf.h` `nrf_pipe_t`. Kind: D -/
structure NrfPipe where
  /-- The size of the packets: 1 to 32 bytes. -/
  msgNbytes : UInt8
  /-- The received bytes that no call has returned yet. -/
  recvq : Mem UInt8
  totRecvBytes : UInt32
  totMsgs : UInt32

/-- The driver's state, its chip and the time. Source: `nrf.h` `nrf_t`. Kind: D -/
structure Nic where
  chip : Chip
  /-- What CONFIG holds while receiving. -/
  rxConfig : UInt8
  pipe : NrfPipe
  /-- The microsecond counter. -/
  usec : UInt32

/-- The link to the chip. Source: `nrf.h` `spi`. Kind: D -/
def chip : Spi Nic where
  transfer tx s := ((s.chip.transfer tx).1, { s with chip := (s.chip.transfer tx).2 })
  length_eq tx s := s.chip.transfer_length tx

/-- The receive queue. Source: `nrf.h` `recvq`. Kind: D -/
def recvq : Lens Nic (Mem UInt8) where
  get s := s.pipe.recvq
  set q s := { s with pipe := { s.pipe with recvq := q } }
  get_set _ _ := rfl
  set_get _ := rfl
  set_set _ _ _ := rfl

/-- Before the `i`-th access of a program, the packets `(w i).1` arrive and the counter has come to
`(w i).2`. Source: `nrf-driver.c` "in case a packet arrives b/n (1) and (2)". Kind: D -/
def Nic.meanwhile (w : Nat → List (List UInt8) × UInt32) (i : Nat) (s : Nic) : Nic :=
  { s with chip := s.chip.arrive (w i).1, usec := (w i).2 }

/-- `slow_assert(nic, cond)`, with `slow_check_p` set. Source: `nrf-internal.h` `slow_assert`;
`nrf.h` `nrf_assert`. Kind: D -/
def slowAssert (b : Bool) (cond : String) : Prog Nic Stop Unit :=
  check b (.panic "%s" [.str cond.toUTF8.toList])

/-- Source: `nrf-internal.h` `nrf_rx_fifo_empty`. Kind: D -/
def nrfRxFifoEmpty : Prog Nic Stop Bool := nrfBitIsset chip nrfFifoStatus 0

/-- Source: `nrf-driver.c` `nrf_rx_has_packet`. Kind: D -/
def nrfRxHasPacket : Prog Nic Stop Bool := do
  let empty ← nrfRxFifoEmpty
  return !empty

/-- Source: `nrf-internal.h` `pipeid_get`. Kind: D -/
def pipeidGet (status : UInt8) : Except Stop UInt32 := bitsGet status.toUInt32 1 3

/-- Source: `nrf-internal.h` `nrf_rx_get_pipeid`. Kind: D -/
def nrfRxGetPipeid : Prog Nic Stop UInt32 := do
  let status ← nrfGet8 chip nrfStatus
  ofResult (pipeidGet status)

/-- Source: `nrf-internal.h` `nrf_rx_intr_clr`. Kind: D -/
def nrfRxIntrClr : Prog Nic Stop Unit := do
  let _ ← nrfPut8 chip nrfStatus (1 <<< rxDr)

/-- Source: `nrf-internal.h` `NRF_PIPEID_EMPTY`. Kind: D -/
def nrfPipeidEmpty : UInt32 := 0b111

/-- The panic for a queue that is full. Source: `nrf-driver.c` `nrf_get_pkts`. Kind: D -/
def overflowPanic (pipen : UInt32) : Stop :=
  .panic "not enough space left for message on pipe=%d\n" [.num pipen.toNat]

/-- One turn of the loop of `nrf_get_pkts`, after `cnt` packets.
Source: `nrf-driver.c` `nrf_get_pkts`
Kind: D -/
def getPktsTurn (cnt : UInt32) : Prog Nic Stop (UInt32 ⊕ UInt32) := do
  let pipen ← nrfRxGetPipeid
  check (pipen != nrfPipeidEmpty) (.panic "impossible: empty pipeid: %b\n" [.num pipen.toNat])
  check (pipen == 1) (.assert "pipeno == 1")
  let nbytes ← load fun s : Nic => s.pipe.msgNbytes
  let (status, bytes) ← nrfGetn chip nrfRRxPayload nbytes.toUInt32
  let msg ← ofResult (inBounds ((Buf.fill 32 0).write 0 bytes))
  let pipeid ← ofResult (pipeidGet status)
  slowAssert (pipen == pipeid) "pipen == pipeid_get(status)"
  let ok ← zoom recvq (cqPushN cqN (msg.elems.take nbytes.toNat))
  check ok (overflowPanic pipen)
  store fun s : Nic => { s with pipe := { s.pipe with totMsgs := s.pipe.totMsgs + 1 } }
  store fun s : Nic =>
    { s with pipe := { s.pipe with totRecvBytes := s.pipe.totRecvBytes + nbytes.toUInt32 } }
  nrfRxIntrClr
  let empty ← nrfRxFifoEmpty
  if empty then return .inr (cnt + 1) else return .inl (cnt + 1)

/-- The number of packets read. Source: `nrf-driver.c` `nrf_get_pkts`. Kind: D -/
def nrfGetPkts : Prog Nic Stop UInt32 := do
  let rxConfig ← load fun s : Nic => s.rxConfig
  let config ← nrfGet8 chip nrfConfig
  slowAssert (config == rxConfig) "nrf_get8(n, NRF_CONFIG) == n->rx_config"
  let packet ← nrfRxHasPacket
  if !packet then return 0 else loop getPktsTurn 0 ret

/-- The number of bytes available. Source: `nrf-public.c` `nrf_pipe_nbytes_avail`. Kind: D -/
def nrfPipeNbytesAvail : Prog Nic Stop UInt32 := do
  let cnt ← nrfGetPkts
  if cnt != 0 then
    let nelem ← zoom recvq (cqNelem cqN)
    check (nelem != 0) (.assert "cq_nelem(&p->recvq)")
    zoom recvq (cqNelem cqN)
  else
    zoom recvq (cqNelem cqN)

/-- The data, or `none` for the return value `0`.
Source: `nrf-public.c` `nrf_get_data_exact_noblk`
Kind: D -/
def nrfGetDataExactNoblk (nbytes : UInt32) : Prog Nic Stop (Option (List UInt8)) := do
  check (decide (nbytes > 0)) (.assert "nbytes > 0")
  let n ← nrfPipeNbytesAvail
  if n == 0 then
    return none
  else if n < nbytes then
    return none
  else
    let msg ← zoom recvq (cqPopN cqN nbytes)
    return some msg

/-- `timer_get_usec()`. Source: `libpi/include/rpi.h` `timer_get_usec`. Kind: D -/
def timerGetUsec : Prog Nic Stop UInt32 := load fun s : Nic => s.usec

/-- The state of a timeout. Source: `libpi/include/timeout.h` `timeout_t`. Kind: D -/
structure Timeout where
  timeLast : UInt32
  timeUsecs : UInt64

/-- Source: `timeout.h` `timeout_start`. Kind: D -/
def timeoutStart : Prog Nic Stop Timeout := do
  let now ← timerGetUsec
  return { timeUsecs := 0, timeLast := now }

/-- Whether the time is up, and the timeout afterwards. Source: `timeout.h` `timeout_get_usec`,
`timeout_usec`. Kind: D -/
def timeoutUsec (t : Timeout) (maxUsec : UInt64) : Prog Nic Stop (Bool × Timeout) := do
  let now ← timerGetUsec
  let t := { timeUsecs := t.timeUsecs + (now - t.timeLast).toUInt64, timeLast := now }
  return (decide (t.timeUsecs ≥ maxUsec), t)

/-- The data, or `none` for the return value `-1`.
Source: `nrf-public.c` `nrf_get_data_exact_timeout`
Kind: D -/
def nrfGetDataExactTimeout (nbytes usecTimeout : UInt32) : Prog Nic Stop (Option (List UInt8)) := do
  let t ← timeoutStart
  loop (fun t : Timeout => do
    let n ← nrfGetDataExactNoblk nbytes
    match n with
    | some msg => return .inr (some msg)
    | none =>
      let (up, t) ← timeoutUsec t usecTimeout.toUInt64
      if up then return .inr none else return .inl t) t ret

end Cs140e.Nrf
