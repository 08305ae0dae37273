import Cs140e.Nrf.RoundTrip
import Cs140e.Nrf.Stream
import Mathlib.Data.List.Forall2

/-!
# Radio: messages from one side to the other

What the sender puts into its messages, and what the receiver gets out of `nrf_get_msg_exact_timeout`
when the packets arrive at any time and the calls have any timeouts. How a packet goes from the one chip
to the other is not in the code: the packets that arrive are assumed to be the first ones of those that
were given to `nrf_send_msg_ack` or `nrf_send_msg_noack`, in this order.

* `nrfGetMsgExactTimeout`, `sendMsg` — as the code computes them.
* `getMsgs_meets` — the messages of any number of calls are the next packets, one each.
* `messages_arrive` — the matching gets return what was put, message by message.
-/

namespace Cs140e.Nrf

open Cs140e.Lib Cs140e.Lib.Prog Cs140e.Libpi Cs140e.Libpi.Circular

/-! ## The code -/

/-- Source: `nrf-config.h` `nrf_legal_msg_nbytes`. Kind: D -/
def nrfLegalMsgNbytes (nbytes : UInt32) : Bool := nbytes > 0 && nbytes ≤ 32

/-- Source: `msg2.h` `msg_recv_mk_empty`. Kind: D -/
def msgRecvMkEmpty (nbytes : UInt32) : MsgRecv := ⟨.zero, 0, nbytes⟩

/-- The number of bytes, or `none` for the return value `-1`; and the message `*out`.
Source: `nrf-public.c` `nrf_get_msg_exact_timeout`
Kind: D -/
def nrfGetMsgExactTimeout (nbytes usecTimeout : UInt32) : Prog Nic Stop (Option UInt32 × MsgRecv) := do
  check (nrfLegalMsgNbytes nbytes) (.assert "nrf_legal_msg_nbytes(nbytes)")
  let out := msgRecvMkEmpty nbytes
  let r ← nrfGetDataExactTimeout nbytes usecTimeout
  match r with
  | none => return (none, out)
  | some data => do
    let msg ← ofResult (out.msg.write 0 data)
    return (some nbytes, { out with msg })

/-- A receiver with a list of timeouts, one for each call; it takes the messages of the calls that return
`nbytes`. Source: `tests/3-loop-msg.c` `one_way_test`. Kind: D -/
def getMsgs (nbytes : UInt32) : List UInt32 → Prog Nic Stop (List MsgRecv)
  | [] => return []
  | usec :: usecs => do
    let (n, m) ← nrfGetMsgExactTimeout nbytes usec
    let ms ← getMsgs nbytes usecs
    return if n = some nbytes then m :: ms else ms

/-- The packet that is given to `nrf_send_ack` or `nrf_send_noack`, after some puts into a new message.
Source: `nrf.h` `nrf_send_msg_ack`, `nrf_send_msg_noack`
Kind: D -/
def sendMsg (nbytes : UInt32) (xs : List Item) : Except Stop (List UInt8) := do
  let m ← xs.foldlM Item.put (msgSendMk nbytes)
  m.msg.read 0 (msgSendNbytes m).toNat

/-! ## The calls -/

section

variable {n : Nat} {w : Nat → List (List UInt8) × UInt32} {got : List UInt8}

/-- A message filled with a packet. Source: `msg2.h` `msg_recv_ptr`. Kind: L -/
theorem msgRecvMkEmpty_filled {data : List UInt8} {nbytes : UInt32} (hpos : 0 < nbytes.toNat)
    (hmax : nbytes.toNat ≤ nrfMaxpkt) (hlen : data.length = nbytes.toNat) :
    ∃ msg, (msgRecvMkEmpty nbytes).msg.write 0 data = .ok msg ∧
      Left { msgRecvMkEmpty nbytes with msg } data := by
  obtain ⟨msg, hwrite, hbytes⟩ := Packet.zero.write_ok 0 data (by omega)
  refine ⟨msg, hwrite, ⟨?_, ?_, hmax, ?_⟩⟩
  · intro h0
    have h0 : nbytes.toNat = 0 := congrArg UInt32.toNat h0
    omega
  · show 0 + data.length = nbytes.toNat
    rw [Nat.zero_add, hlen]
  · show (msg.bytes.drop 0).take data.length = data
    rw [hbytes, List.take_zero, List.nil_append, List.drop_zero, List.take_left]

/-- What a call for a message leaves. Source: `nrf-public.c` `nrf_get_msg_exact_timeout`. Kind: D -/
def Filling (n : Nat) (got : List UInt8) (nbytes : UInt32) (r : Option UInt32 × MsgRecv) (s : Nic) :
    Prop :=
  (r.1 = none ∧ Sound n got s) ∨ ∃ data, r.1 = some nbytes ∧ Sound n (got ++ data) s ∧
    data.length = nbytes.toNat ∧ Left r.2 data

/-- **A call for a message** fills it from the queue, or consumes nothing.
Source: `nrf-public.c` `nrf_get_msg_exact_timeout`
Kind: P -/
theorem nrfGetMsgExactTimeout_meets (hw : FixedSize n w) (hn : 0 < n) (hn32 : n ≤ 32) {nbytes : UInt32}
    (hpos : 0 < nbytes) (hmax : nbytes ≤ 32) (usec : UInt32) :
    Meets (Nic.meanwhile w) (Sound n got) (nrfGetMsgExactTimeout nbytes usec) (Filling n got nbytes)
      (· = overflowPanic 1) := by
  have hlegal : nrfLegalMsgNbytes nbytes = true := by
    unfold nrfLegalMsgNbytes
    simp [hpos, hmax]
  refine Meets.bind (Meets.check hlegal) fun _ => ?_
  refine Meets.bind (timeout_meets hw hn hn32 hpos usec) fun r => ?_
  cases r with
  | none =>
      refine Meets.ret fun s hs => .inl ⟨rfl, ?_⟩
      have hsound := hs.1
      rwa [Option.getD_none, List.append_nil] at hsound
  | some data =>
      refine Meets.conseq (P := fun s => data.length = nbytes.toNat ∧ Sound n (got ++ data) s)
        (Meets.fact fun hlen => ?_) (fun s hs => ⟨hs.2 data rfl, hs.1⟩) fun _ _ h => h
      obtain ⟨msg, hwrite, hleft⟩ := msgRecvMkEmpty_filled (UInt32.lt_iff_toNat_lt.mp hpos)
        (UInt32.le_iff_toNat_le.mp hmax) hlen
      refine Meets.bind (M := fun msg' s => msg' = msg ∧ Sound n (got ++ data) s)
        (Meets.ofResult fun s hs => ⟨msg, hwrite, rfl, hs⟩) fun msg' => Meets.fact ?_
      rintro rfl
      exact Meets.ret fun s hs => .inr ⟨data, rfl, hs, hlen, hleft⟩

/-- Source: `nrf-public.c` `nrf_get_msg_exact_timeout`. Kind: L -/
theorem getMsgs_within {R : Nic → Nic → Prop} (hR : DriverStep R) (nbytes : UInt32)
    (usecs : List UInt32) : Within R (getMsgs nbytes usecs) := by
  induction usecs with
  | nil => exact .ret
  | cons usec usecs ih =>
      refine Within.bind ?_ fun _ => Within.bind ih fun _ => .ret
      refine Within.bind .check fun _ => Within.bind (timeout_within hR nbytes usec) fun r => ?_
      cases r with
      | none => exact .ret
      | some data => exact Within.bind .ofResult fun _ => .ret

/-- **Any number of calls**: each message holds the next bytes of the stream.
Source: `nrf-public.c` `nrf_get_msg_exact_timeout`
Kind: P -/
theorem getMsgs_meets (hw : FixedSize n w) (hn : 0 < n) (hn32 : n ≤ 32) {nbytes : UInt32}
    (hpos : 0 < nbytes) (hmax : nbytes ≤ 32) (usecs : List UInt32) :
    Meets (Nic.meanwhile w) (Sound n got) (getMsgs nbytes usecs)
      (fun ms s => ∃ ds : List (List UInt8), Sound n (got ++ ds.flatten) s ∧
        (∀ d ∈ ds, d.length = nbytes.toNat) ∧ List.Forall₂ (fun d m => Left m d) ds ms)
      (· = overflowPanic 1) := by
  induction usecs generalizing got with
  | nil =>
      refine Meets.ret fun s hs => ⟨[], ?_, fun d hd => absurd hd List.not_mem_nil, .nil⟩
      rwa [List.flatten_nil, List.append_nil]
  | cons usec usecs ih =>
      refine Meets.bind (nrfGetMsgExactTimeout_meets hw hn hn32 hpos hmax usec) fun ⟨r, m⟩ => ?_
      cases r with
      | none =>
          refine Meets.conseq (P := Sound n got) ?_ (fun s hs => ?_) fun _ _ h => h
          · refine Meets.bind ih fun ms => Meets.ret fun s hs => ?_
            rw [if_neg (by simp)]
            exact hs
          · rcases hs with ⟨-, hs⟩ | ⟨data, hsome, -⟩
            · exact hs
            · exact absurd hsome (by simp)
      | some k =>
          refine Meets.conseq (P := fun s => ∃ data, (k = nbytes ∧ data.length = nbytes.toNat ∧
            Left m data) ∧ Sound n (got ++ data) s) (Meets.exists fun data => Meets.fact ?_)
            (fun s hs => ?_) fun _ _ h => h
          · rintro ⟨rfl, hlen, hleft⟩
            refine Meets.bind ih fun ms => Meets.ret fun s hs => ?_
            obtain ⟨ds, hsound, hlens, hms⟩ := hs
            rw [if_pos rfl]
            refine ⟨data :: ds, ?_, List.forall_mem_cons.mpr ⟨hlen, hlens⟩, .cons hleft hms⟩
            rwa [List.flatten_cons, ← List.append_assoc]
          · rcases hs with ⟨hnone, -⟩ | ⟨data, hsome, hs, hlen, hleft⟩
            · exact absurd hnone (by simp)
            · exact ⟨data, ⟨Option.some.inj hsome, hlen, hleft⟩, hs⟩

end

/-! ## The packets -/

/-- The packets that have arrived before the `i`-th access. Source: `nrf-driver.c` `nrf_get_pkts`.
Kind: D -/
def arrivedBy (w : Nat → List (List UInt8) × UInt32) (i : Nat) : List (List UInt8) :=
  (List.range i).flatMap fun k => (w k).1

/-- Source: `nrf-internal.h` `NRF_R_RX_PAYLOAD`. Kind: L -/
theorem Chip.takePacket_keeps (c : Chip) :
    c.takePacket.read ++ c.takePacket.fifo = c.read ++ c.fifo := by
  unfold Chip.takePacket
  cases hfifo : c.fifo with
  | nil => simp only [hfifo]
  | cons p ps => simp

/-- Source: `nrf-internal.h` `nrf_rx_intr_clr`. Kind: L -/
theorem Chip.writeReg_keeps (c : Chip) (r v : UInt8) :
    (c.writeReg r v).read ++ (c.writeReg r v).fifo = c.read ++ c.fifo := by
  unfold Chip.writeReg
  split_ifs <;> rfl

/-- No packet is lost or made: what was read off the FIFO and what is in it are what has arrived.
Source: `nrf-internal.h` `NRF_R_RX_PAYLOAD`
Kind: P -/
theorem getMsgs_arrived {w : Nat → List (List UInt8) × UInt32} {nbytes : UInt32} {usecs : List UInt32}
    {s₀ s : Nic} {j : Nat} {o : Except Stop (List MsgRecv)} (hread : s₀.chip.read = [])
    (hfifo : s₀.chip.fifo = [])
    (h : Runs (under (Nic.meanwhile w) (getMsgs nbytes usecs)) (s₀, 0) o (s, j)) :
    s.chip.read ++ s.chip.fifo = arrivedBy w j := by
  have hstep : DriverStep fun s t => ∀ i, s.chip.read ++ s.chip.fifo = arrivedBy w i →
      t.chip.read ++ t.chip.fifo = arrivedBy w i := by
    refine ⟨fun _ _ h => h, fun s tx i hi => ?_, fun _ _ _ h => h⟩
    have hkeep : (s.chip.transfer tx).2.read ++ (s.chip.transfer tx).2.fifo =
        s.chip.read ++ s.chip.fifo := by
      cases tx with
      | nil => rfl
      | cons cmd data =>
          simp only [Chip.transfer]
          split_ifs
          · exact s.chip.takePacket_keeps
          · rfl
          · exact s.chip.writeReg_keeps _ _
          · rfl
    exact hkeep.trans hi
  refine Runs.along (J := fun i s => s.chip.read ++ s.chip.fifo = arrivedBy w i) (fun i s hi => ?_)
    (getMsgs_within hstep nbytes usecs) h ?_
  · show s.chip.read ++ (s.chip.fifo ++ (w i).1) = arrivedBy w (i + 1)
    unfold arrivedBy at hi ⊢
    rw [← List.append_assoc, hi, List.range_succ, List.flatMap_append, List.flatMap_singleton]
  · show s₀.chip.read ++ s₀.chip.fifo = arrivedBy w 0
    rw [hread, hfifo]
    rfl

/-- Packets of one size are found again in their bytes. Source: none: infrastructure. Kind: L -/
theorem prefix_of_flatten {α : Type} {n : Nat} (hn : 0 < n) {ds rs : List (List α)}
    (hds : ∀ d ∈ ds, d.length = n) (hrs : ∀ r ∈ rs, r.length = n) (h : ds.flatten <+: rs.flatten) :
    ds <+: rs := by
  induction ds generalizing rs with
  | nil => exact List.nil_prefix
  | cons d ds ih =>
      have hd := hds d List.mem_cons_self
      cases rs with
      | nil =>
          have hlen := h.length_le
          rw [List.flatten_cons, List.length_append, hd, List.flatten_nil, List.length_nil] at hlen
          omega
      | cons r rs =>
          have hr := hrs r List.mem_cons_self
          obtain ⟨rest, hrest⟩ := h
          rw [List.flatten_cons, List.flatten_cons, List.append_assoc] at hrest
          obtain ⟨rfl, htail⟩ := List.append_inj hrest (by rw [hd, hr])
          exact (List.prefix_cons_inj d).mpr (ih (fun x hx => hds x (List.mem_cons_of_mem _ hx))
            (fun x hx => hrs x (List.mem_cons_of_mem _ hx)) ⟨rest, htail⟩)

/-- The puts of a message make its packet. Source: `nrf.h` `nrf_send_msg_ack`. Kind: L -/
theorem sendMsg_eq {nbytes : UInt32} {xs : List Item} (hmax : nbytes.toNat ≤ nrfMaxpkt)
    (hxs : ∀ x ∈ xs, x.InRange) (hfit : (xs.map Item.size).sum ≤ nbytes.toNat) :
    sendMsg nbytes xs = .ok (xs.flatMap Item.bytes) := by
  obtain ⟨m, hputs, hw⟩ := puts_wrote (msgSendMk_wrote hmax) hxs (by simpa [msgSendMk] using hfit)
  rw [List.nil_append] at hw
  have hlen : (xs.flatMap Item.bytes).length = (xs.map Item.size).sum := by
    rw [List.length_flatMap]
    simp only [Item.bytes_length]
  have hread := m.msg.read_ok 0 (xs.flatMap Item.bytes).length (by omega)
  rw [List.drop_zero, hw.bytes] at hread
  unfold sendMsg
  rw [hputs]
  show m.msg.read 0 m.putOff.toNat = _
  rw [hw.off, hread]

/-- Source: `nrf.h` `nrf_send_msg_ack`. Kind: L -/
theorem sendMsgs_eq {nbytes : UInt32} {sent : List (List Item)} (hmax : nbytes.toNat ≤ nrfMaxpkt)
    (hsent : ∀ xs ∈ sent, (∀ x ∈ xs, x.InRange) ∧ (xs.map Item.size).sum = nbytes.toNat) :
    sent.mapM (sendMsg nbytes) = .ok (sent.map (·.flatMap Item.bytes)) := by
  induction sent with
  | nil => rfl
  | cons xs sent ih =>
      obtain ⟨hxs, hsize⟩ := hsent xs List.mem_cons_self
      rw [List.mapM_cons, sendMsg_eq hmax hxs (Nat.le_of_eq hsize),
        ih fun ys hys => hsent ys (List.mem_cons_of_mem _ hys)]
      rfl

/-- Everything is taken from a message by the matching gets.
Source: `msg2.h` `msg_nbytes_get`
Kind: L -/
theorem gets_all {r : MsgRecv} {xs : List Item} (h : Left r (xs.flatMap Item.bytes)) :
    ∃ r', gets r xs = .ok (xs.map Item.got, r') ∧ msgNbytesGet r' = .ok 0 := by
  obtain ⟨r', hgets, hleft⟩ := gets_left h
  have hoff : r'.getOff = r'.nbytes := UInt32.toNat_inj.mp (by simpa using hleft.off)
  refine ⟨r', hgets, ?_⟩
  unfold msgNbytesGet
  simp [hleft.nonempty, hoff, pure, Except.pure]

/-- The packets that were returned are the first ones that have arrived.
Source: `nrf.h` `recvq`
Kind: P -/
theorem returned_firstOnes {n : Nat} (hn : 0 < n) {w : Nat → List (List UInt8) × UInt32}
    (hw : FixedSize n w) {s : Nic} {j : Nat} {ds : List (List UInt8)} (hsound : Sound n ds.flatten s)
    (hds : ∀ d ∈ ds, d.length = n) (harrived : s.chip.read ++ s.chip.fifo = arrivedBy w j) :
    ds <+: arrivedBy w j := by
  have hreceived : received (ds.map some) = ds.flatten := by
    unfold received
    rw [List.map_map]
    exact congrArg List.flatten (List.map_id ds)
  rw [← hreceived] at hsound
  have hrest := hsound.delivered.rest
  have hread : ∀ r ∈ s.chip.read, r.length = n := by
    intro r hr
    have hmem : r ∈ arrivedBy w j := by
      rw [← harrived]
      exact List.mem_append_left _ hr
    obtain ⟨k, -, hk⟩ := List.mem_flatMap.mp hmem
    exact hw k r hk
  rw [hreceived] at hrest
  exact (prefix_of_flatten hn hds hread ⟨_, hrest⟩).trans ⟨_, harrived⟩

/-- **Messages arrive**: the sender's puts make one packet for each of its messages. When the packets
that arrive, at any time, are the first ones of these, then after any number of calls with any timeouts
the messages that were returned are the first ones sent, in their order: the matching gets return what
was put, with the 24-bit values swapped, and nothing is left. The only panic is the one for a full queue.
Source: `nrf-public.c` `nrf_get_msg_exact_timeout`; `nrf.h` `nrf_send_msg_ack`, `nrf_send_msg_noack`;
`msg2.h`
Kind: P -/
theorem messages_arrive {n : UInt8} (hn : 1 ≤ n.toNat) (hn32 : n.toNat ≤ 32)
    {sent : List (List Item)} (hsent : ∀ xs ∈ sent, (∀ x ∈ xs, x.InRange) ∧
      (xs.map Item.size).sum = n.toNat) :
    ∃ pkts, sent.mapM (sendMsg n.toUInt32) = .ok pkts ∧
      ∀ (w : Nat → List (List UInt8) × UInt32) (s₀ : Nic) (usecs : List UInt32), Fresh n s₀ →
        s₀.chip.fifo = [] → (∀ i, arrivedBy w i <+: pkts) →
        (∀ ms s, Runs (under (Nic.meanwhile w) (getMsgs n.toUInt32 usecs)) (s₀, 0) (.ok ms) s →
          ms.length ≤ sent.length ∧
          List.Forall₂ (fun xs m => ∃ m', gets m xs = .ok (xs.map Item.got, m') ∧
            msgNbytesGet m' = .ok 0) (sent.take ms.length) ms) ∧
        ∀ e s, Runs (under (Nic.meanwhile w) (getMsgs n.toUInt32 usecs)) (s₀, 0) (.error e) s →
          e = overflowPanic 1 := by
  have hn32' : n.toUInt32.toNat = n.toNat := UInt8.toNat_toUInt32 n
  rw [← hn32'] at hsent
  refine ⟨_, sendMsgs_eq (hn32'.trans_le hn32) hsent, fun w s₀ usecs h₀ hfifo hpkts => ?_⟩
  have hlength : ∀ p ∈ sent.map (·.flatMap Item.bytes), p.length = n.toNat := by
    intro p hp
    obtain ⟨xs, hxs, rfl⟩ := List.mem_map.mp hp
    rw [List.length_flatMap, ← hn32', ← (hsent xs hxs).2]
    simp only [Item.bytes_length]
  have hw : FixedSize n.toNat w := by
    intro i p hp
    have hmem : p ∈ arrivedBy w (i + 1) :=
      List.mem_flatMap.mpr ⟨i, List.mem_range.mpr (Nat.lt_succ_self i), hp⟩
    exact hlength p ((hpkts (i + 1)).subset hmem)
  have hpos : 0 < n.toUInt32 := UInt32.lt_iff_toNat_lt.mpr (by rw [hn32']; exact hn)
  have hmax : n.toUInt32 ≤ 32 := UInt32.le_iff_toNat_le.mpr (by rw [hn32']; exact hn32)
  obtain ⟨hok, herror⟩ := getMsgs_meets hw hn hn32 hpos hmax usecs s₀ 0 h₀.sound
  refine ⟨fun ms ⟨s, j⟩ hrun => ?_, herror⟩
  obtain ⟨ds, hsound, hds, hleft⟩ := hok ms _ hrun
  rw [hn32'] at hds
  have hfirst : ds <+: sent.map (·.flatMap Item.bytes) :=
    (returned_firstOnes hn hw hsound hds (getMsgs_arrived h₀.read hfifo hrun)).trans (hpkts j)
  have hlen : ds.length = ms.length := hleft.length_eq
  have hle := hfirst.length_le
  rw [List.length_map, hlen] at hle
  refine ⟨hle, ?_⟩
  rw [List.prefix_iff_eq_take.mp hfirst, hlen, ← List.map_take, List.forall₂_map_left_iff] at hleft
  exact hleft.imp fun _ _ h => gets_all h

/-- Two packets of five bytes, one of them later. Source: `nrf-public.c` `nrf_get_msg_exact_timeout`.
Kind: D -/
def laterPackets (i : Nat) : List (List UInt8) × UInt32 :=
  (if i = 2 then [[7, 0xef, 0xbe, 0xad, 0xde]] else if i = 150 then [[0x34, 0x12, 1, 2, 3]] else [],
    UInt32.ofNat i)

/-- Source: `nrf-public.c` `nrf_get_msg_exact_timeout`. Kind: L -/
theorem arrivedBy_laterPackets (i : Nat) : arrivedBy laterPackets i =
    if i ≤ 2 then [] else if i ≤ 150 then [[7, 0xef, 0xbe, 0xad, 0xde]]
    else [[7, 0xef, 0xbe, 0xad, 0xde], [0x34, 0x12, 1, 2, 3]] := by
  induction i with
  | zero => rfl
  | succ i ih =>
      have hsucc : arrivedBy laterPackets (i + 1) = arrivedBy laterPackets i ++ (laterPackets i).1 := by
        unfold arrivedBy
        rw [List.range_succ, List.flatMap_append, List.flatMap_singleton]
      rw [hsucc, ih]
      unfold laterPackets
      split_ifs <;> first | rfl | omega

/-- What the two messages are as they come in. Source: `msg2.h` `msg_recv_t`. Kind: D -/
def laterMessages : List MsgRecv :=
  [⟨⟨[7, 0xef, 0xbe, 0xad, 0xde] ++ List.replicate 27 0, rfl⟩, 0, 5⟩,
    ⟨⟨[0x34, 0x12, 1, 2, 3] ++ List.replicate 27 0, rfl⟩, 0, 5⟩]

/-- Two messages of five bytes, and four calls, of which two come too early.
Source: `nrf-public.c` `nrf_get_msg_exact_timeout`
Kind: L -/
theorem messages_arrive_two :
    (∃ s, Runs (under (Nic.meanwhile laterPackets) (getMsgs 5 [0, 0, 0, 100])) (freshNic 5, 0)
      (.ok laterMessages) s) ∧
    List.Forall₂ (fun xs m => ∃ m', gets m xs = .ok (xs.map Item.got, m') ∧ msgNbytesGet m' = .ok 0)
      [[Item.put8 7, .put32 0xdeadbeef], [.put16 0x1234, .put24 0x030201]] laterMessages := by
  have hsizes : ∀ xs ∈ [[Item.put8 7, .put32 0xdeadbeef], [.put16 0x1234, .put24 0x030201]],
      (∀ x ∈ xs, x.InRange) ∧ (xs.map Item.size).sum = (5 : UInt8).toNat := by decide
  have hexec : (exec 600 (under (Nic.meanwhile laterPackets) (getMsgs 5 [0, 0, 0, 100]))
      (freshNic 5, 0)).map (·.1) = some (.ok laterMessages) := by
    decide +kernel
  obtain ⟨s, hrun⟩ := runs_of_exec hexec
  obtain ⟨pkts, hpkts, harrive⟩ := messages_arrive (n := 5) (by decide) (by decide) hsizes
  have heq : [[Item.put8 7, .put32 0xdeadbeef], [.put16 0x1234, .put24 0x030201]].mapM
      (sendMsg (5 : UInt8).toUInt32) = .ok [[7, 0xef, 0xbe, 0xad, 0xde], [0x34, 0x12, 1, 2, 3]] := rfl
  obtain rfl := Except.ok.inj (hpkts.symm.trans heq)
  have hprefix : ∀ i, arrivedBy laterPackets i <+:
      [[7, 0xef, 0xbe, 0xad, 0xde], [0x34, 0x12, 1, 2, 3]] := by
    intro i
    rw [arrivedBy_laterPackets]
    split_ifs
    · exact List.nil_prefix
    · exact ⟨[[0x34, 0x12, 1, 2, 3]], rfl⟩
    · exact List.prefix_refl _
  have hreturned := (harrive laterPackets (freshNic 5) [0, 0, 0, 100] (fresh_freshNic 5) rfl hprefix).1
    laterMessages s hrun
  exact ⟨⟨s, hrun⟩, hreturned.2⟩

end Cs140e.Nrf
