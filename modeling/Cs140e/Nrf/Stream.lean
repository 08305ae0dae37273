import Cs140e.Nrf.Receive

/-!
# Radio: the stream of payload bytes

Runs of the calls that return received data, over packets of a fixed size that arrive at any time.

* `runRx` — a sequence of calls; `Delivered` — what has been returned and what is in the queue are
  together the payloads read off the FIFO, and the counters count them modulo `2 ^ 32`.
* `rx_delivers` — this holds after every call, and in the middle of a call what has been returned is
  still a prefix; the only panic is the one for a full queue.
* `counters_wrap` — the counters are 32 bits wide: after `2 ^ 32` packets of one byte they are zero.
-/

namespace Cs140e.Nrf

open Cs140e.Lib Cs140e.Lib.Prog Cs140e.Libpi Cs140e.Libpi.Circular

/-- The calls. Source: `nrf-public.c`. Kind: D -/
inductive RxCall where
  | noblk (nbytes : UInt32) (pos : 0 < nbytes)
  | timeout (nbytes : UInt32) (pos : 0 < nbytes) (usecTimeout : UInt32)

/-- The data, or `none` for the return values `0` and `-1`. Source: `nrf-public.c`
`nrf_get_data_exact_noblk`, `nrf_get_data_exact_timeout`. Kind: D -/
def RxCall.prog : RxCall → Prog Nic Stop (Option (List UInt8))
  | noblk nbytes _ => nrfGetDataExactNoblk nbytes
  | timeout nbytes _ usecTimeout => nrfGetDataExactTimeout nbytes usecTimeout

/-- The size a call asks for. Source: `nrf-public.c` `nbytes`. Kind: D -/
def RxCall.nbytes : RxCall → UInt32
  | noblk nbytes _ => nbytes
  | timeout nbytes _ _ => nbytes

/-- One call after the other. Source: `nrf-public.c`. Kind: D -/
def runRx : List RxCall → Prog Nic Stop (List (Option (List UInt8)))
  | [] => return []
  | c :: cs => do
    let r ← c.prog
    let rs ← runRx cs
    return r :: rs

/-- What the successful calls returned, in order. Source: `nrf-public.c` `msg`. Kind: D -/
def received (rs : List (Option (List UInt8))) : List UInt8 := (rs.map (·.getD [])).flatten

/-- After `nrf_init`: the pipe is empty and the chip receives. Source: `nrf-driver.c` `nrf_init`,
`nrf.h` `nrf_pipe_mk`. Kind: D -/
structure Fresh (n : UInt8) (s : Nic) : Prop where
  config : s.chip.config = s.rxConfig
  sizes : ∀ p ∈ s.chip.fifo, p.length = n.toNat
  read : s.chip.read = []
  msgNbytes : s.pipe.msgNbytes = n
  recvq : ∃ m, Runs (cqInit cqN 1) m (.ok ()) s.pipe.recvq
  counters : s.pipe.totMsgs = 0 ∧ s.pipe.totRecvBytes = 0

/-- Between calls that returned `rs`. Source: `nrf-public.c`. Kind: D -/
structure Delivered (rs : List (Option (List UInt8))) (s : Nic) : Prop where
  /-- The rest is in the queue. -/
  rest : received rs ++ s.pipe.recvq.q.contents cqN = s.chip.read.flatten
  /-- Only what was returned has been consumed. -/
  consumed : s.pipe.recvq.popped = received rs
  msgs : s.pipe.totMsgs.toNat = s.chip.read.length % 2 ^ 32
  bytes : s.pipe.totRecvBytes.toNat = s.chip.read.flatten.length % 2 ^ 32

section

variable {n : Nat} {w : Nat → List (List UInt8) × UInt32} {got : List UInt8}

/-- Every call keeps the books. Source: `nrf-public.c`. Kind: L -/
theorem RxCall.meets (hw : FixedSize n w) (hn : 0 < n) (hn32 : n ≤ 32) (c : RxCall) :
    Meets (Nic.meanwhile w) (Sound n got) c.prog (Returned n got c.nbytes)
      (· = overflowPanic 1) := by
  cases c with
  | noblk nbytes pos => exact noblk_meets hw hn hn32 pos
  | timeout nbytes pos usec => exact timeout_meets hw hn hn32 pos usec

/-- Every access of a call is one of the driver's. Source: `nrf-public.c`. Kind: L -/
theorem RxCall.within {R : Nic → Nic → Prop} (hR : DriverStep R) (c : RxCall) : Within R c.prog := by
  cases c with
  | noblk nbytes pos => exact noblk_within hR nbytes
  | timeout nbytes pos usec => exact timeout_within hR nbytes usec

/-- Every sequence of calls keeps the books. Source: `nrf-public.c`. Kind: P -/
theorem runRx_meets (hw : FixedSize n w) (hn : 0 < n) (hn32 : n ≤ 32) (cs : List RxCall) :
    Meets (Nic.meanwhile w) (Sound n got) (runRx cs) (fun rs s => Sound n (got ++ received rs) s ∧
      List.Forall₂ (fun c r => ∀ msg ∈ r, msg.length = c.nbytes.toNat) cs rs)
      (· = overflowPanic 1) := by
  induction cs generalizing got with
  | nil =>
      refine Meets.ret fun s hs => ⟨?_, .nil⟩
      rwa [show received [] = [] from rfl, List.append_nil]
  | cons c cs ih =>
      refine Meets.bind (c.meets hw hn hn32) fun r => Meets.conseq (P := fun s =>
        (∀ msg ∈ r, msg.length = c.nbytes.toNat) ∧ Sound n (got ++ r.getD []) s)
        (Meets.fact fun hr => Meets.bind ih fun rs => Meets.ret fun s hs => ⟨?_, .cons hr hs.2⟩)
        (fun s hs => ⟨hs.2, hs.1⟩) fun _ _ h => h
      have hcons : received (r :: rs) = r.getD [] ++ received rs := rfl
      rw [hcons, ← List.append_assoc]
      exact hs.1

/-- What the books say. Source: `nrf.h` `recvq`, `tot_msgs`, `tot_recv_bytes`. Kind: L -/
theorem Sound.delivered {rs : List (Option (List UInt8))} {s : Nic}
    (h : Sound n (received rs) s) : Delivered rs s := by
  obtain ⟨⟨P, R⟩, hb, hat⟩ := h
  obtain rfl : s.pipe = P := hat.pipe
  obtain rfl : s.chip.read = R := hat.read
  refine ⟨?_, hb.popped, ?_, ?_⟩
  · rw [hb.inv.fifo.contents ringSize_cqN, ← hb.pushed, ← hb.popped]
    calc s.pipe.recvq.popped ++ s.pipe.recvq.pushed.drop s.pipe.recvq.popped.length
        = s.pipe.recvq.pushed.take s.pipe.recvq.popped.length ++
            s.pipe.recvq.pushed.drop s.pipe.recvq.popped.length := by rw [← hb.inv.order]
      _ = s.pipe.recvq.pushed := List.take_append_drop _ _
  · rw [hb.msgs]
    exact UInt32.toNat_ofNat'
  · rw [hb.bytes]
    exact UInt32.toNat_ofNat'

/-- The books of a pipe that was just set up. Source: `nrf-driver.c` `nrf_init`. Kind: L -/
theorem Fresh.sound {n : UInt8} {s : Nic} (h : Fresh n s) : Sound n.toNat [] s := by
  obtain ⟨m, hinit⟩ := h.recvq
  obtain ⟨-, hpushed, hpopped, hinv⟩ := cqInit_runs ringSize_cqN.two_le hinit
  refine ⟨⟨s.pipe, s.chip.read⟩, ⟨hinv, ?_, ?_, hpopped, ?_, ?_⟩, ⟨rfl, rfl, h.config, h.sizes⟩⟩
  · rw [h.msgNbytes]
  · rw [hpushed, h.read]
    rfl
  · rw [h.counters.1, h.read]
    rfl
  · rw [h.counters.2, h.read]
    rfl

end

/-- **The payload stream is delivered**: after any calls, with packets arriving at any time, what was
returned is a prefix of the payloads read, the queue holds the rest, and nothing else was consumed,
so nothing by a call that returns `0` or `-1`; also in the middle of the next call what was returned
is a prefix. The only panic is the one for a full queue.
Source: `nrf-public.c` `nrf_get_data_exact_noblk`, `nrf_get_data_exact_timeout`; `nrf-driver.c`
`nrf_get_pkts`
Kind: P -/
theorem rx_delivers {n : UInt8} (hn : 1 ≤ n.toNat) (hn32 : n.toNat ≤ 32)
    {w : Nat → List (List UInt8) × UInt32} (hw : FixedSize n.toNat w) {s₀ : Nic} (h₀ : Fresh n s₀)
    (cs : List RxCall) :
    (∀ rs s, Runs (under (Nic.meanwhile w) (runRx cs)) (s₀, 0) (.ok rs) s →
      Delivered rs s.1 ∧
        List.Forall₂ (fun c r => ∀ msg ∈ r, msg.length = c.nbytes.toNat) cs rs ∧
        (∀ c t, Runs (under (Nic.meanwhile w) (RxCall.prog c)) s (.ok none) t →
          t.1.pipe.recvq.popped = s.1.pipe.recvq.popped) ∧
        ∀ c u, Passes (under (Nic.meanwhile w) (RxCall.prog c)) s u →
          received rs <+: u.1.chip.read.flatten) ∧
      ∀ e s, Runs (under (Nic.meanwhile w) (runRx cs)) (s₀, 0) (.error e) s → e = overflowPanic 1 := by
  obtain ⟨hok, herror⟩ := runRx_meets hw hn hn32 cs s₀ 0 h₀.sound
  refine ⟨fun rs s hrun => ?_, herror⟩
  obtain ⟨hsound, hsizes⟩ := hok rs s hrun
  have hdelivered := hsound.delivered
  refine ⟨hdelivered, hsizes, fun c t hnone => ?_, fun c u hpass => ?_⟩
  · obtain ⟨x, hb, hat⟩ := (((c.meets hw hn hn32) s.1 s.2 hsound).1 none t hnone).1
    rw [hat.pipe, hb.popped, hdelivered.consumed, Option.getD_none, List.append_nil, List.nil_append]
  have htrans : ∀ s t u, Grows s t → Grows t u → Grows s u := fun _ _ _ h h' => h.trans h'
  have henv : ∀ i s, Grows s (Nic.meanwhile w i s) := fun _ _ => List.prefix_refl _
  have hgrows : Grows s.1 u.1 := hpass.within (fun x => driverStep_grows.refl x.1)
    (fun x y z => htrans x.1 y.1 z.1) (Within.under htrans henv (c.within driverStep_grows))
  obtain ⟨more, hmore⟩ := hgrows
  rw [← hmore, List.flatten_append, ← hdelivered.rest, List.append_assoc]
  exact List.prefix_append _ _

/-! ## The counters wrap -/

/-- Reading a register. Source: `nrf-util.c` `nrf_get8`. Kind: L -/
theorem nrfGet8_runs {r : UInt8} (hr : r < nrfWrReg) (s : Nic) :
    Runs (nrfGet8 chip r) s (.ok (s.chip.reg r)) s := by
  have htransfer : chip.transfer [r, nrfNop] s = ([s.chip.status, s.chip.reg r], s) := by
    show ((s.chip.transfer [r, nrfNop]).1, { s with chip := (s.chip.transfer [r, nrfNop]).2 }) = _
    rw [transfer_reg hr]
  refine runs_act_iff.mpr ?_
  rw [htransfer]
  exact Runs.ret

/-- Is the FIFO empty? Source: `nrf-internal.h` `nrf_rx_fifo_empty`. Kind: L -/
theorem nrfRxFifoEmpty_runs (s : Nic) :
    Runs nrfRxFifoEmpty s (.ok s.chip.fifo.isEmpty) s := by
  refine Runs.bind Runs.ret (Runs.bind (nrfGet8_runs (by decide) s) ?_)
  have hbit : bitIsOn (s.chip.reg nrfFifoStatus).toUInt32 (0 : UInt8).toUInt32 =
      .ok (if s.chip.fifo.isEmpty then 1 else 0) := bitIsOn_fifoStatus s.chip
  refine Runs.bind (runs_ofResult_iff.mpr ⟨hbit.symm, rfl⟩) (runs_ret_iff.mpr ⟨?_, rfl⟩)
  cases s.chip.fifo.isEmpty <;> rfl

/-- Reading the only packet. Source: `nrf-util.c` `nrf_getn`. Kind: L -/
theorem nrfGetn_only {s : Nic} {x : UInt8} (hfifo : s.chip.fifo = [[x]]) :
    Runs (nrfGetn chip nrfRRxPayload 1) s (.ok (s.chip.status, [x]))
      { s with chip := { s.chip with fifo := [], read := s.chip.read ++ [[x]] } } := by
  have hrun := nrfGetn_runs chip nrfRRxPayload (show 0 < (1 : UInt32).toNat by decide) (by decide) s
  have htransfer : chip.transfer (nrfRRxPayload :: List.replicate (1 : UInt32).toNat nrfNop) s =
      ([s.chip.status, x],
        { s with chip := { s.chip with fifo := [], read := s.chip.read ++ [[x]] } }) := by
    simp [chip, Chip.transfer, Chip.takePacket, hfifo]
  rw [htransfer] at hrun
  exact hrun

/-- The turn for the only packet. Source: `nrf-driver.c` `nrf_get_pkts`. Kind: L -/
theorem getPktsTurn_only {s : Nic} {x : UInt8} (hfifo : s.chip.fifo = [[x]])
    (hsize : s.pipe.msgNbytes = 1) {q : Mem UInt8}
    (hpush : Runs (cqPushN cqN [x]) s.pipe.recvq (.ok true) q) :
    ∃ t, Runs (getPktsTurn 0) s (.ok (.inr 1)) t ∧ t.chip.fifo = [] ∧
      t.chip.read = s.chip.read ++ [[x]] ∧ t.pipe.recvq = q := by
  have hwait : s.chip.fifo ≠ [] := by simp [hfifo]
  have hpipe := pipeidGet_status hwait
  obtain ⟨msg, hmsg, htake⟩ := msg_filled (show [x].length ≤ 32 by simp)
  have htake : msg.elems.take 1 = [x] := htake
  have hreg : s.chip.reg nrfStatus = s.chip.status := rfl
  have hid : Runs nrfRxGetPipeid s (.ok 1) s := by
    refine Runs.bind (nrfGet8_runs (by decide) s) ?_
    rw [hreg, hpipe]
    exact Runs.ret
  refine ⟨{ s with
    chip := { s.chip with rxDr := false, fifo := [], read := s.chip.read ++ [[x]] }
    pipe := { s.pipe with
      recvq := q
      totMsgs := s.pipe.totMsgs + 1
      totRecvBytes := s.pipe.totRecvBytes + 1 } }, ?_, rfl, rfl, rfl⟩
  refine Runs.bind hid (Runs.bind Runs.ret ?_)
  refine Runs.bind Runs.ret (runs_load_bind_iff.mpr ?_)
  rw [hsize]
  refine Runs.bind (nrfGetn_only hfifo) ?_
  simp only [hmsg, hpipe, inBounds_some, ofResult_ok, bind_eq_seq, ret_bind, UInt8.toNat_one, htake]
  refine Runs.bind Runs.ret (Runs.bind (Runs.zoom (l := recvq) hpush) ?_)
  refine Runs.bind Runs.ret (runs_store_bind_iff.mpr ?_)
  refine runs_store_bind_iff.mpr (Runs.bind (Runs.bind (Runs.bind (runs_act_iff.mpr
    Runs.ret) Runs.ret) Runs.ret) ?_)
  exact Runs.bind (nrfRxFifoEmpty_runs _) Runs.ret

/-- The count of a queue. Source: `circular.h` `cq_nelem`. Kind: L -/
theorem cqNelem_one {t : Nic} (hinv : Inv cqN t.pipe.recvq)
    (hone : t.pipe.recvq.pushed.length = t.pipe.recvq.popped.length + 1) :
    Runs (zoom recvq (cqNelem cqN)) t (.ok 1) t := by
  have hnelem := hinv.fifo.nelem ringSize_cqN
  have hcount : (t.pipe.recvq.q.head - t.pipe.recvq.q.tail) % cqN = 1 := by
    apply UInt32.toNat_inj.mp
    rw [hnelem, hone, UInt32.toNat_one]
    omega
  have hrun : Runs (cqNelem cqN) (recvq.get t) (.ok 1) (recvq.get t) :=
    cqNelem_iff.mpr ⟨congrArg Except.ok hcount.symm, rfl⟩
  exact hrun.zoom

/-- A call that finds one packet of one byte and an empty queue. Source: `nrf-public.c`
`nrf_get_data_exact_noblk`. Kind: L -/
theorem noblk_only {s : Nic} {got : List UInt8} {x : UInt8} (h : Sound 1 got s)
    (hfifo : s.chip.fifo = [[x]]) (hempty : s.chip.read.flatten = got) :
    ∃ t, Runs (nrfGetDataExactNoblk 1) s (.ok (some [x])) t ∧ t.chip.fifo = [] ∧
      t.chip.read = s.chip.read ++ [[x]] := by
  obtain ⟨⟨P, R⟩, hb, hat⟩ := h
  obtain rfl : s.pipe = P := hat.pipe
  obtain rfl : s.chip.read = R := hat.read
  have hcq : cqN.toNat = 8192 := rfl
  have hpushed : s.pipe.recvq.pushed = got := hb.pushed.trans hempty
  have hpopped : s.pipe.recvq.popped = got := hb.popped
  have hroom : s.pipe.recvq.pushed.length + [x].length < s.pipe.recvq.popped.length + cqN.toNat := by
    rw [hpushed, hpopped, List.length_singleton]
    omega
  -- the packet goes into the queue
  have hpush := cqPushN_runs ringSize_cqN hb.inv.fifo (List.cons_ne_nil x [])
  rw [decide_eq_true hroom, if_pos hroom] at hpush
  obtain ⟨hinv, hpushed', hpopped'⟩ := hb.inv.pushes ringSize_cqN.two_le hroom
  have hsize : s.pipe.msgNbytes = 1 := UInt8.toNat_inj.mp hb.size
  obtain ⟨t, hturn, hfifo', hread', hq⟩ := getPktsTurn_only hfifo hsize hpush
  have hpkts : Runs nrfGetPkts s (.ok 1) t := by
    refine runs_load_bind_iff.mpr (Runs.bind (nrfGet8_runs (by decide) s) ?_)
    have hconfig : s.chip.reg nrfConfig = s.rxConfig := hat.config
    rw [hconfig, beq_self_eq_true]
    refine Runs.bind Runs.ret ?_
    refine Runs.bind (Runs.bind (nrfRxFifoEmpty_runs s) Runs.ret) ?_
    rw [hfifo]
    exact runs_loop_iff.mpr (Runs.bind hturn Runs.ret)
  -- it is the one element there, and is popped
  rw [← hq] at hinv hpushed' hpopped'
  have hone : t.pipe.recvq.pushed.length = t.pipe.recvq.popped.length + 1 := by
    rw [hpushed', hpopped', hpushed, hpopped, List.length_append, List.length_singleton]
  have hnelem := cqNelem_one hinv hone
  have hpop := popLoop_runs hinv.fifo ringSize_cqN.two_le (k := 1) (by omega)
  have hx : (t.pipe.recvq.pushed.drop t.pipe.recvq.popped.length).take 1 = [x] := by
    rw [hpushed', hpopped', hpushed, hpopped, List.drop_left, List.take_succ_cons, List.take_zero]
  rw [hx] at hpop
  have havail : Runs nrfPipeNbytesAvail s (.ok 1) t :=
    hpkts.bind (hnelem.bind (Runs.bind Runs.ret hnelem))
  refine ⟨recvq.set (t.pipe.recvq.pops cqN 1) t, ?_, hfifo', hread'⟩
  refine Runs.bind Runs.ret (havail.bind ?_)
  exact (Runs.zoom (l := recvq) hpop).bind Runs.ret

/-- One packet of one byte at the access `i`, and nothing else. Source: `nrf-driver.c`
`nrf_get_pkts`. Kind: D -/
def packetAt (i j : Nat) : List (List UInt8) × UInt32 := (if j = i then [[7]] else [], 0)

/-- Source: `nrf-driver.c` `nrf_get_pkts`. Kind: L -/
theorem fixedSize_packetAt (i : Nat) : FixedSize 1 (packetAt i) := by
  intro j p hp
  unfold packetAt at hp
  split at hp
  · rw [List.mem_singleton.mp hp]
    rfl
  · exact absurd hp List.not_mem_nil

/-- A call during which one packet of one byte arrives returns it. Source: `nrf-public.c`
`nrf_get_data_exact_noblk`. Kind: L -/
theorem noblk_packetAt {s : Nic} {got : List UInt8} (h : Sound 1 got s) (hfifo : s.chip.fifo = [])
    (hempty : s.chip.read.flatten = got) (i : Nat) :
    ∃ t j, Runs (under (Nic.meanwhile (packetAt i)) (nrfGetDataExactNoblk 1)) (s, i)
        (.ok (some [7])) (t, j) ∧ t.chip.fifo = [] ∧ t.chip.read = s.chip.read ++ [[7]] := by
  have hw := fixedSize_packetAt i
  -- the packet arrives before the first access, and then the environment rests
  obtain ⟨k, hk⟩ : ∃ k, nrfGetDataExactNoblk 1 = act (fun s : Nic => (s.rxConfig, s)) k :=
    ⟨_, rfl⟩
  have harrived : (Nic.meanwhile (packetAt i) i s).chip.fifo = [[7]] := by
    show s.chip.fifo ++ (packetAt i i).1 = [[7]]
    simp [hfifo, packetAt]
  obtain ⟨t, hrun, hfifo', hread'⟩ := noblk_only (Sound.stable hw i s h) harrived hempty
  have hwithin := noblk_within (driverStep_usec 0) 1
  rw [hk] at hrun hwithin ⊢
  have hrest : ∀ j ≥ i + 1, ∀ u : Nic, u.usec = 0 → Nic.meanwhile (packetAt i) j u = u := by
    intro j hj u hu
    have hne : j ≠ i := by omega
    simp [Nic.meanwhile, packetAt, hne, Chip.arrive, ← hu]
  obtain ⟨j, hrun'⟩ := (runs_act_iff.mp hrun).undisturbed hrest (hwithin.2 _) rfl
  exact ⟨t, j, runs_act_iff.mpr hrun', hfifo', hread'⟩

/-- Any number of calls, with a packet during each. Source: `nrf-public.c`. Kind: P -/
theorem calls_packets (k : Nat) {s : Nic} {got : List UInt8} (h : Sound 1 got s)
    (hfifo : s.chip.fifo = []) (hempty : s.chip.read.flatten = got) (i : Nat) :
    ∃ w cs rs t j, FixedSize 1 w ∧ Runs (under (Nic.meanwhile w) (runRx cs)) (s, i) (.ok rs) (t, j) ∧
      t.chip.read = s.chip.read ++ List.replicate k [7] := by
  induction k generalizing s got i with
  | zero =>
      exact ⟨packetAt i, [], [], s, i, fixedSize_packetAt i, Runs.ret,
        (List.append_nil _).symm⟩
  | succ k ih =>
      have hw := fixedSize_packetAt i
      obtain ⟨t₁, j₁, hcall, hfifo₁, hread₁⟩ := noblk_packetAt h hfifo hempty i
      have hsound₁ : Sound 1 (got ++ [7]) t₁ :=
        ((noblk_meets hw (by decide) (by decide) (by decide) s i h).1 _ _ hcall).1
      obtain ⟨w, cs, rs, t, j, hw', hrest, hread⟩ := ih hsound₁ hfifo₁ (by
        rw [hread₁, List.flatten_append, hempty]
        rfl) j₁
      -- the two environments, one after the other
      let w' : Nat → List (List UInt8) × UInt32 := fun m => if m < j₁ then packetAt i m else w m
      have hcall' := (hcall.before (Nic.meanwhile w')).2 fun m _ hm => by
        funext u
        simp only [Nic.meanwhile, w', if_pos hm]
      have hrest' := (hrest.before (Nic.meanwhile w')).2 fun m hm _ => by
        funext u
        simp only [Nic.meanwhile, w', if_neg (Nat.not_lt.mpr hm)]
      refine ⟨w', .noblk 1 (by decide) :: cs, some [7] :: rs, t, j, ?_, ?_, ?_⟩
      · intro m p hp
        by_cases hm : m < j₁
        · exact hw m p (by simpa only [w', if_pos hm] using hp)
        · exact hw' m p (by simpa only [w', if_neg hm] using hp)
      · show Runs (under _ ((nrfGetDataExactNoblk 1).bind fun r =>
          (runRx cs).bind fun rs => ret (r :: rs))) _ _ _
        rw [under_bind]
        refine hcall'.bind ?_
        rw [under_bind]
        exact hrest'.bind Runs.ret
      · rw [hread, hread₁, List.append_assoc, List.singleton_append, List.replicate_succ]

/-- A pipe for packets of `n` bytes that was just set up. Source: `nrf-driver.c` `nrf_init`.
Kind: D -/
def freshNic (n : UInt8) : Nic where
  chip := { config := 0b1111111, rxDr := false, fifo := [], read := [] }
  rxConfig := 0b1111111
  pipe := { msgNbytes := n, recvq := emptyMem.fresh 1, totRecvBytes := 0, totMsgs := 0 }
  usec := 0

/-- Source: `nrf-driver.c` `nrf_init`. Kind: L -/
theorem fresh_freshNic (n : UInt8) : Fresh n (freshNic n) where
  config := rfl
  sizes := fun p hp => absurd hp List.not_mem_nil
  read := rfl
  msgNbytes := rfl
  recvq := ⟨emptyMem, (cqInit_iff (by decide)).mpr ⟨rfl, rfl⟩⟩
  counters := ⟨rfl, rfl⟩

/-- **The counters wrap**: after `2 ^ 32` packets of one byte they no longer count.
Source: `nrf.h` `tot_msgs`, `tot_recv_bytes`
Kind: P -/
theorem counters_wrap : ∃ w cs rs s, FixedSize (1 : UInt8).toNat w ∧ Fresh 1 (freshNic 1) ∧
    Runs (under (Nic.meanwhile w) (runRx cs)) (freshNic 1, 0) (.ok rs) s ∧
      s.1.pipe.totMsgs.toNat ≠ s.1.chip.read.length ∧
      s.1.pipe.totRecvBytes.toNat ≠ s.1.chip.read.flatten.length := by
  obtain ⟨w, cs, rs, t, j, hw, hrun, hread⟩ :=
    calls_packets (2 ^ 32) (fresh_freshNic 1).sound rfl rfl 0
  have hsound := ((runRx_meets hw (by decide) (by decide) cs (freshNic 1) 0
    (fresh_freshNic 1).sound).1 _ _ hrun).1
  have hdelivered : Delivered rs t := hsound.delivered
  have hlength : t.chip.read.length = 2 ^ 32 := by
    rw [hread, List.length_append, List.length_replicate]
    rfl
  have hbytes : t.chip.read.flatten.length = 2 ^ 32 := by
    have hsum : ∀ k, (List.replicate k [(7 : UInt8)]).flatten.length = k := by
      intro k
      induction k with
      | zero => rfl
      | succ k ih =>
          rw [List.replicate_succ, List.flatten_cons, List.length_append, ih]
          exact Nat.add_comm 1 k
    rw [hread]
    exact hsum _
  refine ⟨w, cs, rs, (t, j), hw, fresh_freshNic 1, hrun, ?_, ?_⟩
  · rw [hdelivered.msgs, hlength]
    decide
  · rw [hdelivered.bytes, hbytes]
    decide

/-- Two packets of three bytes; the second one arrives later. Source: `nrf-driver.c` `nrf_get_pkts`.
Kind: D -/
def twoPackets (i : Nat) : List (List UInt8) × UInt32 :=
  (if i = 1 then [[1, 2, 3]] else if i = 60 then [[4, 5, 6]] else [], UInt32.ofNat i)

/-- Calls that do not keep to the packets. Source: `nrf-public.c`. Kind: D -/
def twoByTwo : List RxCall :=
  [.noblk 2 (by decide), .timeout 2 (by decide) 100, .noblk 3 (by decide), .timeout 1 (by decide) 2,
    .timeout 2 (by decide) 2]

/-- The second call reads the end of one packet and the start of the other, the third and the last one
find too little. Source: `nrf-public.c`. Kind: L -/
theorem rx_delivers_two : ∃ s, Runs (under (Nic.meanwhile twoPackets) (runRx twoByTwo)) (freshNic 3, 0)
      (.ok [some [1, 2], some [3, 4], none, some [5], none]) s ∧
    Delivered [some [1, 2], some [3, 4], none, some [5], none] s.1 := by
  have hw : FixedSize (3 : UInt8).toNat twoPackets := by
    intro i p hp
    unfold twoPackets at hp
    split_ifs at hp
    · rw [List.mem_singleton.mp hp]
      rfl
    · rw [List.mem_singleton.mp hp]
      rfl
    · cases hp
  have hexec : (exec 400 (under (Nic.meanwhile twoPackets) (runRx twoByTwo)) (freshNic 3, 0)).map (·.1) =
      some (.ok [some [1, 2], some [3, 4], none, some [5], none]) := by
    decide +kernel
  obtain ⟨s, hrun⟩ := runs_of_exec hexec
  have hdelivers := (rx_delivers (by decide) (by decide) hw (fresh_freshNic 3) twoByTwo).1 _ s hrun
  exact ⟨s, hrun, hdelivers.1⟩

end Cs140e.Nrf
