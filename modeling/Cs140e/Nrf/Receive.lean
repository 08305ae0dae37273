import Cs140e.Libpi.CircularSeq
import Cs140e.Nrf.Driver

/-!
# Radio: what is received

Packets arrive at any time; the calls that return data re-cut them.
-/

namespace Cs140e.Nrf

open Cs140e.Lib Cs140e.Lib.Prog Cs140e.Libpi Cs140e.Libpi.Circular

/-! ## One access of the chip -/

section

variable {n : Nat} {w : Nat → List (List UInt8) × UInt32} {P : NrfPipe} {R : List (List UInt8)}
  {Er : Stop → Prop}

/-- Between the accesses of the driver: its pipe, what was read off the FIFO, and a chip in receive
mode whose packets have the pipe's size. Source: `nrf-driver.c` "always should be in rx config".
Kind: D -/
structure At (n : Nat) (P : NrfPipe) (R : List (List UInt8)) (s : Nic) : Prop where
  pipe : s.pipe = P
  read : s.chip.read = R
  config : s.chip.config = s.rxConfig
  sizes : ∀ p ∈ s.chip.fifo, p.length = n

/-- A packet waits. Source: `nrf-driver.c` `nrf_rx_has_packet`. Kind: D -/
def Waiting (s : Nic) : Prop := s.chip.fifo ≠ []

/-- All packets that arrive have the size `n`. Source: `nrf.h` "fixed size message". Kind: D -/
def FixedSize (n : Nat) (w : Nat → List (List UInt8) × UInt32) : Prop :=
  ∀ i, ∀ p ∈ (w i).1, p.length = n

/-- Source: `nrf-driver.c` `nrf_get_pkts`. Kind: L -/
theorem At.stable (hw : FixedSize n w) : Stable (Nic.meanwhile w) (At n P R) := by
  intro i s h
  refine ⟨h.pipe, h.read, h.config, fun p hp => ?_⟩
  rcases List.mem_append.mp hp with hold | hnew
  · exact h.sizes p hold
  · exact hw i p hnew

/-- Source: `nrf-driver.c` `nrf_get_pkts`. Kind: L -/
theorem Waiting.stable : Stable (Nic.meanwhile w) Waiting := by
  intro i s h he
  exact h (List.append_eq_nil_iff.mp he).1

/-- Source: `nrf-driver.c` `nrf_get_pkts`. Kind: L -/
theorem At.waiting_stable (hw : FixedSize n w) :
    Stable (Nic.meanwhile w) fun s => At n P R s ∧ Waiting s :=
  fun i s h => ⟨At.stable hw i s h.1, Waiting.stable i s h.2⟩

/-- The pipe of the oldest packet. Source: `nrf-internal.h` `pipeid_get`. Kind: L -/
theorem pipeidGet_status {c : Chip} (h : c.fifo ≠ []) : pipeidGet c.status = .ok 1 := by
  have hfifo : c.fifo.isEmpty = false := by simpa using h
  unfold Chip.status
  rw [hfifo]
  cases c.rxDr <;> decide

/-- "RX empty". Source: `nrf-internal.h` `nrf_rx_fifo_empty`. Kind: L -/
theorem bitIsOn_fifoStatus (c : Chip) :
    bitIsOn c.fifoStatus.toUInt32 0 = .ok (if c.fifo.isEmpty then 1 else 0) := by
  unfold Chip.fifoStatus
  cases c.fifo.isEmpty <;> decide

/-- The transfer that reads a register. Source: `nrf-util.c` `nrf_get8`. Kind: L -/
theorem transfer_reg {r : UInt8} (hr : r < nrfWrReg) (c : Chip) :
    c.transfer [r, nrfNop] = ([c.status, c.reg r], c) := by
  have hcmd : ¬ (r == nrfRRxPayload) = true := by
    intro he
    rw [beq_iff_eq.mp he] at hr
    exact absurd hr (by decide)
  simp only [Chip.transfer]
  rw [if_neg hcmd, if_pos hr]
  rfl

/-- Reading a register changes nothing. Source: `nrf-util.c` `nrf_get8`. Kind: L -/
theorem nrfGet8_meets {F : Nic → Prop} (hF : Stable (Nic.meanwhile w) F) {r : UInt8}
    (hr : r < nrfWrReg) {G : UInt8 → Nic → Prop} (hG : ∀ s, F s → G (s.chip.reg r) s) :
    Meets (Nic.meanwhile w) F (nrfGet8 chip r) G Er := by
  refine Meets.bind (Meets.access hF (M := fun rx s => G (rx.getD 1 0) s) ?_)
    fun rx => Meets.ret fun s hs => hs
  intro s hs
  show G ((s.chip.transfer [r, nrfNop]).1.getD 1 0)
    { s with chip := (s.chip.transfer [r, nrfNop]).2 }
  rw [transfer_reg hr]
  exact hG s hs

/-- Is the FIFO empty? A packet that waits goes on waiting. Source: `nrf-internal.h`
`nrf_rx_fifo_empty`. Kind: L -/
theorem nrfRxFifoEmpty_meets (hw : FixedSize n w) :
    Meets (Nic.meanwhile w) (At n P R) nrfRxFifoEmpty
      (fun empty s => At n P R s ∧ (empty = false → Waiting s)) Er := by
  refine Meets.bind (Meets.check (by decide)) fun _ => ?_
  refine Meets.bind (nrfGet8_meets (At.stable hw) (by decide) (G := fun x s => At n P R s ∧
    bitIsOn x.toUInt32 0 = .ok (if s.chip.fifo.isEmpty then 1 else 0))
    fun s hs => ⟨hs, bitIsOn_fifoStatus s.chip⟩) fun x => ?_
  refine Meets.bind (Meets.ofResult (Q := fun b s => At n P R s ∧
    b = if s.chip.fifo.isEmpty then 1 else 0) fun s hs => ⟨_, hs.2, hs.1, rfl⟩) fun b => ?_
  refine Meets.ret fun s hs => ⟨hs.1, fun hempty hnil => ?_⟩
  rw [hs.2, hnil] at hempty
  exact absurd hempty (by decide)

/-- The pipe of the packet that waits. Source: `nrf-internal.h` `nrf_rx_get_pipeid`. Kind: L -/
theorem nrfRxGetPipeid_meets (hw : FixedSize n w) :
    Meets (Nic.meanwhile w) (fun s => At n P R s ∧ Waiting s) nrfRxGetPipeid
      (fun pipen s => pipen = 1 ∧ At n P R s ∧ Waiting s) Er := by
  refine Meets.bind (nrfGet8_meets (At.waiting_stable hw) (by decide)
    (G := fun x s => (At n P R s ∧ Waiting s) ∧ pipeidGet x = .ok 1)
    fun s hs => ⟨hs, pipeidGet_status hs.2⟩) fun x => ?_
  exact Meets.ofResult fun s hs => ⟨1, hs.2, rfl, hs.1⟩

/-- Clearing the interrupt. Source: `nrf-internal.h` `nrf_rx_intr_clr`. Kind: L -/
theorem nrfRxIntrClr_meets (hw : FixedSize n w) :
    Meets (Nic.meanwhile w) (At n P R) nrfRxIntrClr (fun _ => At n P R) Er := by
  refine Meets.bind (Meets.bind (Meets.access (At.stable hw) (M := fun _ => At n P R) ?_)
    fun rx => Meets.ret fun s hs => hs) fun _ => Meets.ret fun s hs => hs
  intro s hs
  exact ⟨hs.pipe, hs.read, hs.config, hs.sizes⟩

/-- Reading a packet: the oldest one, whose pipe the status names. Source: `nrf-util.c` `nrf_getn`.
Kind: P -/
theorem nrfGetn_meets (hw : FixedSize n w) (hn : 0 < n) (hn32 : n ≤ 32) {nbytes : UInt32}
    (hnbytes : nbytes.toNat = n) :
    Meets (Nic.meanwhile w) (fun s => At n P R s ∧ Waiting s) (nrfGetn chip nrfRRxPayload nbytes)
      (fun r s => (pipeidGet r.1 = .ok 1 ∧ r.2.length = n) ∧ At n P (R ++ [r.2]) s) Er := by
  rw [nrfGetn_eq chip nrfRRxPayload (by omega) (by omega), hnbytes]
  refine Meets.bind (Meets.access (At.waiting_stable hw) (M := fun got s => (got.length = n + 1 ∧
    pipeidGet (got.headD 0) = .ok 1) ∧ At n P (R ++ [got.drop 1]) s) ?_) fun got => Meets.fact ?_
  · rintro s ⟨hat, hwait⟩
    obtain ⟨p, ps, hfifo⟩ := List.exists_cons_of_ne_nil hwait
    have hp : p.length = n := hat.sizes p (by simp [hfifo])
    have hpipe := pipeidGet_status hwait
    have htransfer : s.chip.transfer (nrfRRxPayload :: List.replicate n nrfNop) =
        (s.chip.status :: p, { s.chip with fifo := ps, read := s.chip.read ++ [p] }) := by
      simp only [Chip.transfer, beq_self_eq_true, if_true, List.length_replicate, Chip.takePacket,
        hfifo, List.headD_cons]
      rw [List.takeD_eq_take _ (by omega), ← hp, List.take_length]
    show (((s.chip.transfer _).1.length = n + 1 ∧ pipeidGet ((s.chip.transfer _).1.headD 0) = .ok 1) ∧
      At n P (R ++ [(s.chip.transfer _).1.drop 1]) { s with chip := (s.chip.transfer _).2 })
    rw [htransfer]
    refine ⟨⟨by rw [List.length_cons, hp], hpipe⟩, hat.pipe, ?_, hat.config, fun q hq => ?_⟩
    · show s.chip.read ++ [p] = R ++ [p]
      rw [hat.read]
    · exact hat.sizes q (by rw [hfifo]; exact List.mem_cons_of_mem _ hq)
  · rintro ⟨hlen, hpipe⟩
    rw [unpack_eq hlen (by omega)]
    refine Meets.ret fun s hs => ⟨⟨hpipe, ?_⟩, hs⟩
    rw [List.length_drop]
    omega

/-- A queue operation of the pipe. Source: `nrf.h` `recvq`. Kind: L -/
theorem recvq_meets {α : Type} (hw : FixedSize n w) {p : Prog (Mem UInt8) Stop α} {q : Mem UInt8}
    {a : α} (h : Runs p P.recvq (.ok a) q) :
    Meets (Nic.meanwhile w) (At n P R) (zoom recvq p)
      (fun b s => b = a ∧ At n { P with recvq := q } R s) Er := by
  have hget : ∀ i s, recvq.get (Nic.meanwhile w i s) = recvq.get s := fun _ _ => rfl
  have henv : Stable (Nic.meanwhile w) fun s => At n { P with recvq := s.pipe.recvq } R s :=
    fun i s hs => At.stable hw i s hs
  refine (Meets.zoom (F := fun s => At n { P with recvq := s.pipe.recvq } R s) hget henv
    (fun u s hs => ?_) h).conseq (fun s hs => ⟨?_, ?_⟩) fun b s hs => ⟨hs.1, ?_⟩
  · refine ⟨?_, hs.read, hs.config, hs.sizes⟩
    show { s.pipe with recvq := u } = _
    rw [hs.pipe]
    rfl
  · rw [hs.pipe]
    exact hs
  · exact congrArg NrfPipe.recvq hs.pipe
  · obtain ⟨-, hF, hq⟩ := hs
    rwa [show s.pipe.recvq = q from hq] at hF

/-! ## The drain loop -/

variable {got : List UInt8}

/-- The books of the pipe at a call: the queue was pushed what was read off the FIFO, `got` has been
popped, and the counters count. Source: `nrf.h` `recvq`, `tot_msgs`, `tot_recv_bytes`. Kind: D -/
structure Books (n : Nat) (got : List UInt8) (P : NrfPipe) (R : List (List UInt8)) : Prop where
  inv : Inv cqN P.recvq
  size : P.msgNbytes.toNat = n
  pushed : P.recvq.pushed = R.flatten
  popped : P.recvq.popped = got
  msgs : P.totMsgs = UInt32.ofNat R.length
  bytes : P.totRecvBytes = UInt32.ofNat R.flatten.length

/-- Between calls. Source: `nrf-public.c`. Kind: D -/
def Sound (n : Nat) (got : List UInt8) (s : Nic) : Prop :=
  ∃ x : NrfPipe × List (List UInt8), Books n got x.1 x.2 ∧ At n x.1 x.2 s

/-- The queue is not empty. Source: `nrf-public.c` `assert(cq_nelem(&p->recvq))`. Kind: D -/
def Filled (s : Nic) : Prop := s.pipe.recvq.popped.length < s.pipe.recvq.pushed.length

/-- A packet fits the buffer. Source: `nrf-driver.c` `NRF_MAX_PKT`. Kind: L -/
theorem msg_filled {bytes : List UInt8} (h : bytes.length ≤ 32) :
    ∃ msg, (Buf.fill 32 (0 : UInt8)).write 0 bytes = some msg ∧
      msg.elems.take bytes.length = bytes := by
  obtain ⟨pre, mid, post, hs, hpre, hmid⟩ :=
    (Buf.fill 32 (0 : UInt8)).exists_split (i := 0) (k := bytes.length) (by omega)
  obtain rfl := List.length_eq_zero_iff.mp hpre
  obtain ⟨msg, hw, hs'⟩ := hs.write bytes hmid.symm
  refine ⟨msg, hw, ?_⟩
  rw [hs', List.nil_append, List.take_left]

/-- A block push of the queue, by its histories. Source: `circular.h` `cq_push_n`. Kind: L -/
theorem cqPushN_histories {m : Mem UInt8} (h : Inv cqN m) {data : List UInt8} (hne : data ≠ []) :
    ∃ ok q, Runs (cqPushN cqN data) m (.ok ok) q ∧ (ok = true → Inv cqN q ∧
      q.pushed = m.pushed ++ data ∧ q.popped = m.popped) := by
  have hrun := cqPushN_runs ringSize_cqN h.fifo hne
  refine ⟨_, _, hrun, fun hok => ?_⟩
  have hroom := of_decide_eq_true hok
  rw [if_pos hroom]
  exact h.pushes ringSize_cqN.two_le hroom

/-- A store to the pipe. Source: `nrf-driver.c` `nrf_get_pkts`. Kind: L -/
theorem At.store {s : Nic} (h : At n P R s) (f : NrfPipe → NrfPipe) :
    At n (f P) R { s with pipe := f s.pipe } :=
  ⟨congrArg f h.pipe, h.read, h.config, h.sizes⟩

/-- The books after one more packet. Source: `nrf-driver.c` `nrf_get_pkts`. Kind: L -/
theorem Books.packet (h : Books n got P R) {bytes : List UInt8} {q : Mem UInt8}
    (hlen : bytes.length = n) (hinv : Inv cqN q) (hpushed : q.pushed = P.recvq.pushed ++ bytes)
    (hpopped : q.popped = P.recvq.popped) :
    Books n got { P with
      recvq := q
      totMsgs := P.totMsgs + 1
      totRecvBytes := P.totRecvBytes + P.msgNbytes.toUInt32 } (R ++ [bytes]) where
  inv := hinv
  size := h.size
  pushed := by
    show q.pushed = _
    rw [hpushed, h.pushed, List.flatten_append, List.flatten_singleton]
  popped := hpopped.trans h.popped
  msgs := by
    show P.totMsgs + 1 = _
    rw [h.msgs, List.length_append, UInt32.ofNat_add]
    rfl
  bytes := by
    show P.totRecvBytes + P.msgNbytes.toUInt32 = _
    rw [h.bytes, List.flatten_append, List.flatten_singleton, List.length_append, UInt32.ofNat_add,
      hlen, ← h.size]
    simp

/-- **One packet**: the turn that ends reads the oldest packet and appends it to the queue.
Source: `nrf-driver.c` `nrf_get_pkts`
Kind: P -/
theorem getPktsTurn_meets (hw : FixedSize n w) (hn : 0 < n) (hn32 : n ≤ 32) (cnt : UInt32) :
    Meets (Nic.meanwhile w) (fun s => Sound n got s ∧ Waiting s) (getPktsTurn cnt)
      (Sum.elim (fun _ s => Sound n got s ∧ Waiting s) fun _ s => Sound n got s ∧ Filled s)
      (· = overflowPanic 1) := by
  refine Meets.conseq (P := fun s => ∃ x : NrfPipe × List (List UInt8), Books n got x.1 x.2 ∧
    At n x.1 x.2 s ∧ Waiting s) (Meets.exists fun ⟨P, R⟩ => Meets.fact fun hb => ?_)
    (fun s hs => ?_) fun _ _ h => h
  swap
  · obtain ⟨⟨x, hb, hat⟩, hwait⟩ := hs
    exact ⟨x, hb, hat, hwait⟩
  refine Meets.bind (nrfRxGetPipeid_meets hw) fun pipen => Meets.fact ?_
  rintro rfl
  refine Meets.bind (Meets.check (by decide)) fun _ =>
    Meets.bind (Meets.check (by decide)) fun _ => ?_
  refine Meets.bind (Meets.access (At.waiting_stable hw)
    (M := fun k s => k = P.msgNbytes ∧ At n P R s ∧ Waiting s)
    fun s hs => ⟨congrArg NrfPipe.msgNbytes hs.1.pipe, hs⟩) fun nbytes => Meets.fact ?_
  rintro rfl
  have hsize : P.msgNbytes.toUInt32.toNat = n := by rw [UInt8.toNat_toUInt32, hb.size]
  refine Meets.bind (nrfGetn_meets hw hn hn32 hsize) fun ⟨status, bytes⟩ => Meets.fact ?_
  rintro ⟨hpipe, hlen⟩
  have hlen : bytes.length = n := hlen
  obtain ⟨msg, hmsg, htake⟩ := msg_filled (show bytes.length ≤ 32 by omega)
  rw [hlen] at htake
  simp only [hmsg, hpipe, hb.size, htake, inBounds_some, ofResult_ok, bind_eq_seq, ret_bind]
  refine Meets.bind (Meets.check (by decide)) fun _ => ?_
  have hne : bytes ≠ [] := List.ne_nil_of_length_pos (by omega)
  obtain ⟨ok, q, hpush, hok⟩ := cqPushN_histories hb.inv hne
  refine Meets.bind (recvq_meets hw hpush) fun ok' => Meets.fact ?_
  rintro rfl
  cases ok' with
  | false => exact Meets.raise rfl
  | true =>
      obtain ⟨hinv, hpushed, hpopped⟩ := hok rfl
      refine Meets.bind (Meets.check rfl) fun _ => ?_
      refine Meets.bind (Meets.store (At.stable hw) fun s hs =>
        hs.store fun p => { p with totMsgs := p.totMsgs + 1 }) fun _ => ?_
      refine Meets.bind (Meets.store (At.stable hw) fun s hs =>
        hs.store fun p => { p with totRecvBytes := p.totRecvBytes + P.msgNbytes.toUInt32 })
        fun _ => ?_
      refine Meets.bind (nrfRxIntrClr_meets hw) fun _ => ?_
      have hb' := hb.packet hlen hinv hpushed hpopped
      have hfilled : q.popped.length < q.pushed.length := by
        have hle := hb.inv.fifo.holds.lo_le
        rw [hpushed, hpopped, List.length_append]
        omega
      refine Meets.bind (nrfRxFifoEmpty_meets hw) fun empty => ?_
      cases empty with
      | true =>
          refine Meets.ret fun s hs => ⟨⟨⟨_, _⟩, hb', hs.1⟩, ?_⟩
          show s.pipe.recvq.popped.length < s.pipe.recvq.pushed.length
          rw [hs.1.pipe]
          exact hfilled
      | false => exact Meets.ret fun s hs => ⟨⟨⟨_, _⟩, hb', hs.1⟩, hs.2 rfl⟩

/-- Source: `nrf-driver.c` `nrf_get_pkts`. Kind: L -/
theorem Sound.stable (hw : FixedSize n w) : Stable (Nic.meanwhile w) (Sound n got) := by
  rintro i s ⟨x, hb, hat⟩
  exact ⟨x, hb, At.stable hw i s hat⟩

/-- **The drain**: `nrf_get_pkts` keeps the books; when it has read a packet the queue is not empty.
Source: `nrf-driver.c` `nrf_get_pkts`
Kind: P -/
theorem nrfGetPkts_meets (hw : FixedSize n w) (hn : 0 < n) (hn32 : n ≤ 32) :
    Meets (Nic.meanwhile w) (Sound n got) nrfGetPkts
      (fun cnt s => Sound n got s ∧ (cnt ≠ 0 → Filled s)) (· = overflowPanic 1) := by
  refine Meets.exists fun ⟨P, R⟩ => Meets.fact fun hb => ?_
  -- CONFIG and `rx_config` agree, and both stay
  refine Meets.conseq (P := fun s => ∃ c, At n P R s ∧ s.rxConfig = c) (Meets.exists fun c => ?_)
    (fun s hs => ⟨s.rxConfig, hs, rfl⟩) fun _ _ h => h
  have hstable : Stable (Nic.meanwhile w) fun s => At n P R s ∧ s.rxConfig = c :=
    fun i s hs => ⟨At.stable hw i s hs.1, hs.2⟩
  refine Meets.bind (Meets.access hstable (M := fun k s => k = c ∧ At n P R s ∧ s.rxConfig = c)
    fun s hs => ⟨hs.2, hs⟩) fun rxConfig => Meets.fact ?_
  rintro rfl
  refine Meets.bind (nrfGet8_meets hstable (by decide)
    (G := fun x s => x = rxConfig ∧ At n P R s)
    fun s hs => ⟨hs.1.config.trans hs.2, hs.1⟩) fun config => Meets.fact ?_
  rintro rfl
  refine Meets.bind (Meets.check (by simp)) fun _ => ?_
  refine Meets.bind (M := fun packet s => At n P R s ∧ (packet = true → Waiting s))
    (Meets.bind (nrfRxFifoEmpty_meets hw) fun empty => Meets.ret fun s hs =>
      ⟨hs.1, fun h => hs.2 (by simpa using h)⟩) fun packet => ?_
  cases packet with
  | false => exact Meets.ret fun s hs => ⟨⟨⟨P, R⟩, hb, hs.1⟩, fun h => absurd rfl h⟩
  | true =>
      refine (Meets.loop (fun _ s => Sound n got s ∧ Waiting s) (getPktsTurn_meets hw hn hn32)
        (fun cnt => Meets.ret fun s hs => ?_) 0).conseq ?_ fun _ _ h => h
      · exact ⟨hs.1, fun _ => hs.2⟩
      · exact fun s hs => ⟨⟨⟨P, R⟩, hb, hs.1⟩, hs.2 rfl⟩

/-! ## The calls -/

/-- The count of the queue. Source: `circular.h` `cq_nelem`. Kind: L -/
theorem cqNelem_meets (hw : FixedSize n w) :
    Meets (Nic.meanwhile w) (Sound n got) (zoom recvq (cqNelem cqN))
      (fun k s => Sound n got s ∧
        k.toNat = s.pipe.recvq.pushed.length - s.pipe.recvq.popped.length) Er := by
  refine Meets.exists fun ⟨P, R⟩ => Meets.fact fun hb => ?_
  refine (recvq_meets hw (cqNelem_iff.mpr ⟨rfl, rfl⟩)).conseq (fun s hs => hs) ?_
  rintro k s ⟨rfl, hat⟩
  refine ⟨⟨⟨P, R⟩, hb, hat⟩, ?_⟩
  rw [hat.pipe]
  exact hb.inv.fifo.nelem ringSize_cqN

/-- The bytes that can be returned. Source: `nrf-public.c` `nrf_pipe_nbytes_avail`. Kind: P -/
theorem nrfPipeNbytesAvail_meets (hw : FixedSize n w) (hn : 0 < n) (hn32 : n ≤ 32) :
    Meets (Nic.meanwhile w) (Sound n got) nrfPipeNbytesAvail
      (fun k s => Sound n got s ∧
        k.toNat = s.pipe.recvq.pushed.length - s.pipe.recvq.popped.length)
      (· = overflowPanic 1) := by
  refine Meets.bind (nrfGetPkts_meets hw hn hn32) fun cnt => Meets.ite (fun hcnt => ?_) fun _ =>
    (cqNelem_meets hw).conseq (fun s hs => hs.1) fun _ _ h => h
  refine Meets.conseq (P := fun s => ∃ x : NrfPipe × List (List UInt8), (Books n got x.1 x.2 ∧
    x.1.recvq.popped.length < x.1.recvq.pushed.length) ∧ At n x.1 x.2 s)
    (Meets.exists fun ⟨P, R⟩ => Meets.fact ?_) (fun s hs => ?_) fun _ _ h => h
  · rintro ⟨hb, hfilled⟩
    have hnelem := hb.inv.fifo.nelem ringSize_cqN
    refine Meets.bind (recvq_meets hw (cqNelem_iff.mpr ⟨rfl, rfl⟩)) fun k => Meets.fact ?_
    rintro rfl
    refine Meets.bind (Meets.check (bne_iff_ne.mpr fun hzero => ?_)) fun _ => ?_
    · rw [hzero, UInt32.toNat_zero] at hnelem
      omega
    · exact (cqNelem_meets hw).conseq (fun s hs => ⟨⟨P, R⟩, hb, hs⟩) fun _ _ h => h
  · obtain ⟨⟨x, hb, hat⟩, hfilled⟩ := hs
    have hlt := hfilled (by simpa using hcnt)
    unfold Filled at hlt
    rw [hat.pipe] at hlt
    exact ⟨x, ⟨hb, hlt⟩, hat⟩

/-- A block pop of the queue, by its histories. Source: `circular.h` `cq_pop_n`. Kind: L -/
theorem cqPopN_histories {m : Mem UInt8} (h : Inv cqN m) {k : UInt32}
    (hk : m.popped.length + k.toNat ≤ m.pushed.length) :
    ∃ msg q, Runs (cqPopN cqN k) m (.ok msg) q ∧ Inv cqN q ∧ q.pushed = m.pushed ∧
      q.popped = m.popped ++ msg ∧ msg.length = k.toNat := by
  obtain ⟨hinv, hpushed, hpopped⟩ := h.pops ringSize_cqN.two_le hk
  refine ⟨_, _, popLoop_runs h.fifo ringSize_cqN.two_le hk, hinv, hpushed, hpopped, ?_⟩
  rw [List.length_take, List.length_drop]
  omega

/-- What a call that may return data leaves. Source: `nrf-public.c` `nrf_get_data_exact_noblk`,
`nrf_get_data_exact_timeout`. Kind: D -/
def Returned (n : Nat) (got : List UInt8) (nbytes : UInt32) (r : Option (List UInt8)) (s : Nic) :
    Prop :=
  Sound n (got ++ r.getD []) s ∧ ∀ msg ∈ r, msg.length = nbytes.toNat

/-- **A call that does not wait** returns data from the queue, or consumes nothing.
Source: `nrf-public.c` `nrf_get_data_exact_noblk`
Kind: P -/
theorem noblk_meets (hw : FixedSize n w) (hn : 0 < n) (hn32 : n ≤ 32) {nbytes : UInt32}
    (hpos : 0 < nbytes) :
    Meets (Nic.meanwhile w) (Sound n got) (nrfGetDataExactNoblk nbytes) (Returned n got nbytes)
      (· = overflowPanic 1) := by
  have hnone : ∀ s, Sound n got s → Returned n got nbytes none s := by
    intro s hs
    refine ⟨?_, fun msg hmsg => absurd hmsg (by simp)⟩
    rwa [Option.getD_none, List.append_nil]
  refine Meets.bind (Meets.check (decide_eq_true hpos)) fun _ => ?_
  refine Meets.bind (nrfPipeNbytesAvail_meets hw hn hn32) fun k => ?_
  refine Meets.ite (fun _ => Meets.ret fun s hs => hnone s hs.1) fun _ => ?_
  refine Meets.ite (fun _ => Meets.ret fun s hs => hnone s hs.1) fun hle => ?_
  refine Meets.conseq (P := fun s => ∃ x : NrfPipe × List (List UInt8), (Books n got x.1 x.2 ∧
    k.toNat = x.1.recvq.pushed.length - x.1.recvq.popped.length) ∧ At n x.1 x.2 s)
    (Meets.exists fun ⟨P, R⟩ => Meets.fact ?_) (fun s hs => ?_) fun _ _ h => h
  · rintro ⟨hb, hk⟩
    have hle : nbytes.toNat ≤ k.toNat := by
      rw [UInt32.lt_iff_toNat_lt] at hle
      omega
    have hlo : P.recvq.popped.length ≤ P.recvq.pushed.length := hb.inv.fifo.holds.lo_le
    have hin : P.recvq.popped.length + nbytes.toNat ≤ P.recvq.pushed.length := by
      have hk : k.toNat = P.recvq.pushed.length - P.recvq.popped.length := hk
      omega
    obtain ⟨msg, q, hrun, hinv, hpushed, hpopped, hlen⟩ := cqPopN_histories hb.inv hin
    refine Meets.bind (recvq_meets hw hrun) fun msg' => Meets.fact ?_
    rintro rfl
    refine Meets.ret fun s hs => ⟨⟨⟨_, R⟩, ?_, hs⟩, ?_⟩
    · exact ⟨hinv, hb.size, hpushed.trans hb.pushed, hpopped.trans (by rw [hb.popped]; rfl), hb.msgs,
        hb.bytes⟩
    · rintro msg ⟨⟩
      exact hlen
  · obtain ⟨⟨x, hb, hat⟩, hk⟩ := hs
    rw [hat.pipe] at hk
    exact ⟨x, ⟨hb, hk⟩, hat⟩

/-- **A call with a timeout** returns data from the queue, or consumes nothing.
Source: `nrf-public.c` `nrf_get_data_exact_timeout`
Kind: P -/
theorem timeout_meets (hw : FixedSize n w) (hn : 0 < n) (hn32 : n ≤ 32) {nbytes : UInt32}
    (hpos : 0 < nbytes) (usec : UInt32) :
    Meets (Nic.meanwhile w) (Sound n got) (nrfGetDataExactTimeout nbytes usec)
      (Returned n got nbytes) (· = overflowPanic 1) := by
  refine Meets.bind (M := fun _ => Sound n got) (Meets.bind (Meets.access (Sound.stable hw)
    (M := fun _ => Sound n got) fun s hs => hs) fun now => Meets.ret fun s hs => hs) fun t => ?_
  refine Meets.loop (fun _ => Sound n got) (M := Returned n got nbytes) (fun t => ?_)
    (fun r => Meets.ret fun s hs => hs) t
  refine Meets.bind (noblk_meets hw hn hn32 hpos) fun r => ?_
  cases r with
  | some msg => exact Meets.ret fun s hs => hs
  | none =>
      refine Meets.conseq (P := Sound n got) ?_ (fun s hs => ?_) fun _ _ h => h
      · refine Meets.bind (M := fun _ => Sound n got) (Meets.bind (Meets.access (Sound.stable hw)
          (M := fun _ => Sound n got) fun s hs => hs) fun now => Meets.ret fun s hs => hs)
          fun ⟨up, t⟩ => ?_
        refine Meets.ite (fun _ => Meets.ret fun s hs => ⟨?_, fun msg hmsg => absurd hmsg (by simp)⟩)
          fun _ => Meets.ret fun s hs => hs
        rwa [Option.getD_none, List.append_nil]
      · have hsound := hs.1
        rwa [Option.getD_none, List.append_nil] at hsound

end

/-! ## The accesses of the driver -/

/-- A relation that holds across every access of the driver. Source: `nrf-driver.c`. Kind: D -/
structure DriverStep (R : Nic → Nic → Prop) : Prop where
  refl : ∀ s, R s s
  chip : ∀ s tx, R s { s with chip := (s.chip.transfer tx).2 }
  pipe : ∀ s p, R s { s with pipe := p }

section

variable {R : Nic → Nic → Prop} (hR : DriverStep R)

include hR

/-- Source: `nrf-util.c` `nrf_get8`. Kind: L -/
theorem nrfGet8_within (r : UInt8) : Within R (nrfGet8 chip r) :=
  Within.bind (Within.access fun s => hR.chip s _) fun _ => .ret

/-- Source: `nrf-internal.h` `nrf_rx_fifo_empty`. Kind: L -/
theorem nrfRxFifoEmpty_within : Within R nrfRxFifoEmpty :=
  Within.bind .check fun _ => Within.bind (nrfGet8_within hR _) fun _ =>
    Within.bind .ofResult fun _ => .ret

/-- Source: `nrf-util.c` `nrf_getn`. Kind: L -/
theorem nrfGetn_within (cmd : UInt8) (nbytes : UInt32) : Within R (nrfGetn chip cmd nbytes) := by
  refine Within.bind (Within.bind .check fun _ => .check) fun _ => ?_
  refine Within.bind .ofResult fun _ => Within.bind .ofResult fun _ => ?_
  refine Within.bind .ofResult fun _ => Within.bind (Within.access fun s => hR.chip s _) fun _ => ?_
  refine Within.bind .ofResult fun _ => Within.bind .ofResult fun _ => ?_
  exact Within.bind .ofResult fun _ => .ret

/-- Source: `nrf.h` `recvq`. Kind: L -/
theorem recvq_within {α : Type} (p : Prog (Mem UInt8) Stop α) : Within R (zoom recvq p) :=
  Within.zoom (fun _ s => hR.pipe s _) p

/-- Source: `nrf-driver.c` `nrf_get_pkts`. Kind: L -/
theorem getPktsTurn_within (cnt : UInt32) : Within R (getPktsTurn cnt) := by
  refine Within.bind (Within.bind (nrfGet8_within hR _) fun _ => .ofResult) fun _ => ?_
  refine Within.bind .check fun _ => Within.bind .check fun _ => ?_
  refine Within.bind (Within.load hR.refl) fun _ => ?_
  refine Within.bind (nrfGetn_within hR _ _) fun _ => Within.bind .ofResult fun _ => ?_
  refine Within.bind .ofResult fun _ => Within.bind .check fun _ => ?_
  refine Within.bind (recvq_within hR _) fun _ => Within.bind .check fun _ => ?_
  refine Within.bind (Within.store fun s => hR.pipe s _) fun _ => ?_
  refine Within.bind (Within.store fun s => hR.pipe s _) fun _ => ?_
  refine Within.bind (Within.bind (Within.bind (Within.access fun s => hR.chip s _) fun _ => .ret)
    fun _ => .ret) fun _ => ?_
  exact Within.bind (nrfRxFifoEmpty_within hR) fun _ => .ite .ret .ret

/-- Source: `nrf-public.c` `nrf_get_data_exact_noblk`. Kind: L -/
theorem noblk_within (nbytes : UInt32) : Within R (nrfGetDataExactNoblk nbytes) := by
  have hpkts : Within R nrfGetPkts := by
    refine Within.bind (Within.load hR.refl) fun _ => ?_
    refine Within.bind (nrfGet8_within hR _) fun _ => Within.bind .check fun _ => ?_
    refine Within.bind (Within.bind (nrfRxFifoEmpty_within hR) fun _ => .ret) fun _ => .ite .ret ?_
    exact ⟨getPktsTurn_within hR, fun _ => .ret⟩
  have havail : Within R nrfPipeNbytesAvail := by
    refine Within.bind hpkts fun _ => .ite ?_ (recvq_within hR _)
    exact Within.bind (recvq_within hR _) fun _ => Within.bind .check fun _ => recvq_within hR _
  refine Within.bind .check fun _ => Within.bind havail fun _ => .ite .ret (.ite .ret ?_)
  exact Within.bind (recvq_within hR _) fun _ => .ret

/-- Source: `nrf-public.c` `nrf_get_data_exact_timeout`. Kind: L -/
theorem timeout_within (nbytes usec : UInt32) : Within R (nrfGetDataExactTimeout nbytes usec) := by
  have hnow : Within R timerGetUsec := Within.load hR.refl
  refine Within.bind (Within.bind hnow fun _ => .ret) fun t => ⟨fun t => ?_, fun _ => .ret⟩
  refine Within.bind (noblk_within hR nbytes) fun r => ?_
  cases r with
  | some msg => exact .ret
  | none => exact Within.bind (Within.bind hnow fun _ => .ret) fun _ => .ite .ret .ret

end

/-- What was read off the FIFO stays read. Source: `nrf-internal.h` `NRF_R_RX_PAYLOAD`. Kind: D -/
def Grows (s t : Nic) : Prop := s.chip.read <+: t.chip.read

/-- Source: `nrf-internal.h` `NRF_R_RX_PAYLOAD`. Kind: L -/
theorem driverStep_grows : DriverStep Grows where
  refl s := List.prefix_refl _
  chip s tx := by
    have htake : s.chip.read <+: s.chip.takePacket.read := by
      unfold Chip.takePacket
      split
      · exact List.prefix_refl _
      · exact List.prefix_append _ _
    have hwrite : ∀ r v, s.chip.read <+: (s.chip.writeReg r v).read := by
      intro r v
      unfold Chip.writeReg
      split_ifs <;> exact List.prefix_refl _
    show s.chip.read <+: (s.chip.transfer tx).2.read
    cases tx with
    | nil => exact List.prefix_refl _
    | cons cmd data =>
        simp only [Chip.transfer]
        split_ifs
        · exact htake
        · exact List.prefix_refl _
        · exact hwrite _ _
        · exact List.prefix_refl _
  pipe s p := List.prefix_refl _

/-- Nothing in the driver moves the counter. Source: `rpi.h` `timer_get_usec`. Kind: L -/
theorem driverStep_usec (u : UInt32) : DriverStep fun s t => s.usec = u → t.usec = u :=
  ⟨fun _ h => h, fun _ _ h => h, fun _ _ h => h⟩

end Cs140e.Nrf
