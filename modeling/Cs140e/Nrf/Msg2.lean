import Cs140e.Lib.Bytes
import Cs140e.Stop

/-!
# Radio messages

`msg2.h`: a message is a packet of 32 bytes with an offset for the next put or get. Functions that
change a message return it; `memcpy` of an integer variable copies its little-endian bytes.

* `Packet` — the byte array, of its fixed size; accesses outside of it stop with `.outOfBounds`.
* `MsgSend`, `MsgRecv` and their operations.
* `Wrote m bs` — `bs` is what has been put; `msgPutN_wrote` is the spec of a put.
* `Left r bs` — `bs` is what is left to get; `msgGetN_left` is the spec of a get.
-/

namespace Cs140e.Nrf

open Cs140e.Lib

/-! ## Packets -/

/-- Maximum packet size on nrf is 32 bytes. Source: `msg2.h` `NRF_MAXPKT`. Kind: D -/
def nrfMaxpkt : Nat := 32

/-- Source: `msg2.h` `msg`. Kind: D -/
structure Packet where
  bytes : List UInt8
  size : bytes.length = nrfMaxpkt
  deriving DecidableEq

namespace Packet

/-- `memset` to 0. Source: `msg2.h` `msg_send_mk`. Kind: D -/
def zero : Packet := ⟨List.replicate nrfMaxpkt 0, List.length_replicate⟩

/-- `memcpy(&msg[off], src, n)`. Source: `msg2.h` `msg_put_n`. Kind: D -/
def write (p : Packet) (off : Nat) (src : List UInt8) : Except Stop Packet :=
  if h : off + src.length ≤ nrfMaxpkt then
    return ⟨p.bytes.take off ++ src ++ p.bytes.drop (off + src.length), by
      have := p.size
      simp only [List.length_append, List.length_take, List.length_drop]
      omega⟩
  else
    throw .outOfBounds

/-- `memcpy(out, &msg[off], n)`. Source: `msg2.h` `msg_get_n`. Kind: D -/
def read (p : Packet) (off n : Nat) : Except Stop (List UInt8) :=
  if off + n ≤ nrfMaxpkt then return (p.bytes.drop off).take n else throw .outOfBounds

variable (p : Packet) (off n : Nat) (src : List UInt8)

/-- A write inside of the packet. Source: `msg2.h` `msg_put_n`. Kind: L -/
theorem write_ok (h : off + src.length ≤ nrfMaxpkt) : ∃ q, p.write off src = .ok q ∧
    q.bytes = p.bytes.take off ++ src ++ p.bytes.drop (off + src.length) := by
  unfold write
  rw [dif_pos h]
  exact ⟨_, rfl, rfl⟩

/-- A read inside of the packet. Source: `msg2.h` `msg_get_n`. Kind: L -/
theorem read_ok (h : off + n ≤ nrfMaxpkt) : p.read off n = .ok ((p.bytes.drop off).take n) := by
  unfold read
  rw [if_pos h]
  rfl

end Packet

/-! ## Sending -/

/-- Source: `msg2.h` `msg_send_t`. Kind: D -/
structure MsgSend where
  msg : Packet
  /-- `msg[put_off]` = next byte to write. -/
  putOff : UInt32
  maxbytes : UInt32

/-- Create a new empty msg. Source: `msg2.h` `msg_send_mk`. Kind: D -/
def msgSendMk (maxbytes : UInt32) : MsgSend := ⟨.zero, 0, maxbytes⟩

/-- Source: `msg2.h` `msg_wrote_all`. Kind: D -/
def msgWroteAll (m : MsgSend) : Bool := m.maxbytes == m.putOff

/-- The offset of the pointer that is returned. Source: `msg2.h` `m_put_ptr`. Kind: D -/
def mPutPtr (m : MsgSend) (nbytes : UInt32) : Except Stop UInt32 := do
  let off := m.putOff
  let maxbytes := m.maxbytes
  if !(off < maxbytes) then throw (.assert "off < maxbytes")
  let n := maxbytes - off
  if n < nbytes then
    throw (.panic "not enough bytes left: have %d, need %d\n" [.num n.toNat, .num nbytes.toNat])
  return off

/-- Source: `msg2.h` `m_put_ptr_inc`. Kind: D -/
def mPutPtrInc (m : MsgSend) (nbytes : UInt32) : Except Stop (UInt32 × MsgSend) := do
  let out ← mPutPtr m nbytes
  return (out, { m with putOff := m.putOff + nbytes })

/-- Source: `msg2.h` `msg_put_n`. Kind: D -/
def msgPutN (m : MsgSend) (src : List UInt8) : Except Stop MsgSend := do
  let (dst, m) ← mPutPtrInc m (UInt32.ofNat src.length)
  let msg ← m.msg.write dst.toNat src
  return { m with msg }

/-- Source: `msg2.h` `msg_put8`. Kind: D -/
def msgPut8 (m : MsgSend) (x : UInt8) : Except Stop MsgSend := msgPutN m [x]

/-- Source: `msg2.h` `msg_put16`. Kind: D -/
def msgPut16 (m : MsgSend) (x : UInt16) : Except Stop MsgSend := msgPutN m (leBytes 2 x.toNat)

/-- Source: `msg2.h` `msg_put32`. Kind: D -/
def msgPut32 (m : MsgSend) (x : UInt32) : Except Stop MsgSend := msgPutN m (leBytes 4 x.toNat)

/-- Source: `msg2.h` `msg_put64`. Kind: D -/
def msgPut64 (m : MsgSend) (x : UInt64) : Except Stop MsgSend := msgPutN m (leBytes 8 x.toNat)

/-- Source: `msg2.h` `msg_put24`. Kind: D -/
def msgPut24 (m : MsgSend) (x : UInt32) : Except Stop MsgSend := do
  if x >>> 24 != 0 then throw (.assert "(x >> 24) == 0")
  let m ← msgPut8 m ((x >>> 0) &&& 0xff).toUInt8
  let m ← msgPut8 m ((x >>> 8) &&& 0xff).toUInt8
  msgPut8 m ((x >>> 16) &&& 0xff).toUInt8

/-- Number of bytes available to send. Source: `msg2.h` `msg_send_nbytes`. Kind: D -/
def msgSendNbytes (m : MsgSend) : UInt32 := m.putOff

/-! ## Receiving -/

/-- Source: `msg2.h` `msg_recv_t`. Kind: D -/
structure MsgRecv where
  msg : Packet
  getOff : UInt32
  nbytes : UInt32
  deriving DecidableEq

/-- Zero everything, and copy the `nbytes` bytes of data. Source: `msg2.h` `msg_recv_mk`. Kind: D -/
def msgRecvMk (data : List UInt8) : Except Stop MsgRecv := do
  let msg ← Packet.zero.write 0 data
  return ⟨msg, 0, UInt32.ofNat data.length⟩

/-- Recast message. Source: `msg2.h` `msg_send_to_recv`. Kind: D -/
def msgSendToRecv (m : MsgSend) : Except Stop MsgRecv := do
  let data ← m.msg.read 0 (msgSendNbytes m).toNat
  msgRecvMk data

/-- Number of bytes left for a get. Source: `msg2.h` `msg_nbytes_get`. Kind: D -/
def msgNbytesGet (m : MsgRecv) : Except Stop UInt32 := do
  if m.nbytes == 0 then throw (.assert "m->nbytes")
  if !(m.getOff ≤ m.nbytes) then throw (.assert "m->get_off <= m->nbytes")
  return m.nbytes - m.getOff

/-- Check the size of the message; a pointer to its start is returned.
Source: `msg2.h` `msg_get_ptr`
Kind: D -/
def msgGetPtr (m : MsgRecv) (expectedNbytes : UInt32) : Except Stop UInt32 := do
  let n := m.nbytes
  if n != expectedNbytes then
    throw (.panic "expected %d bytes, have %d\n" [.num expectedNbytes.toNat, .num n.toNat])
  return 0

/-- The offset of the pointer that is returned. Source: `msg2.h` `m_get_ptr`. Kind: D -/
def mGetPtr (m : MsgRecv) (nbytes : UInt32) : Except Stop UInt32 := do
  let getOff := m.getOff
  let left ← msgNbytesGet m
  if left < nbytes then
    throw (.panic "not enough bytes left: have %d, need %d\n" [.num left.toNat, .num nbytes.toNat])
  return getOff

/-- Source: `msg2.h` `m_get_ptr_inc`. Kind: D -/
def mGetPtrInc (m : MsgRecv) (nbytes : UInt32) : Except Stop (UInt32 × MsgRecv) := do
  let out ← mGetPtr m nbytes
  return (out, { m with getOff := m.getOff + nbytes })

/-- Copy out `nbytes` of data: error if not enough there. Source: `msg2.h` `msg_get_n`. Kind: D -/
def msgGetN (m : MsgRecv) (nbytes : UInt32) : Except Stop (List UInt8 × MsgRecv) := do
  let (src, m) ← mGetPtrInc m nbytes
  let out ← m.msg.read src.toNat nbytes.toNat
  return (out, m)

/-- Source: `msg2.h` `msg_get32`. Kind: D -/
def msgGet32 (m : MsgRecv) : Except Stop (UInt32 × MsgRecv) := do
  let (out, m) ← msgGetN m 4
  return (UInt32.ofNat (leValue out), m)

/-- Source: `msg2.h` `msg_get16`. Kind: D -/
def msgGet16 (m : MsgRecv) : Except Stop (UInt16 × MsgRecv) := do
  let (out, m) ← msgGetN m 2
  return (UInt16.ofNat (leValue out), m)

/-- Source: `msg2.h` `msg_get8`. Kind: D -/
def msgGet8 (m : MsgRecv) : Except Stop (UInt8 × MsgRecv) := do
  let (out, m) ← msgGetN m 1
  return (UInt8.ofNat (leValue out), m)

/-- Source: `msg2.h` `msg_get24`. Kind: D -/
def msgGet24 (m : MsgRecv) : Except Stop (UInt32 × MsgRecv) := do
  let x : UInt32 := 0
  let (b, m) ← msgGet8 m
  let x := x ||| b.toUInt32 <<< 16
  let (b, m) ← msgGet8 m
  let x := x ||| b.toUInt32 <<< 8
  let (b, m) ← msgGet8 m
  let x := x ||| b.toUInt32 <<< 0
  return (x, m)

/-! ## What is put and what is left -/

/-- `bs` is what has been put so far. Source: `msg2.h` `msg_send_t`. Kind: D -/
structure Wrote (m : MsgSend) (bs : List UInt8) : Prop where
  off : m.putOff.toNat = bs.length
  bytes : m.msg.bytes.take bs.length = bs
  max : m.maxbytes.toNat ≤ nrfMaxpkt

/-- `bs` is what is left to get. Source: `msg2.h` `msg_recv_t`. Kind: D -/
structure Left (m : MsgRecv) (bs : List UInt8) : Prop where
  nonempty : m.nbytes ≠ 0
  off : m.getOff.toNat + bs.length = m.nbytes.toNat
  size : m.nbytes.toNat ≤ nrfMaxpkt
  bytes : (m.msg.bytes.drop m.getOff.toNat).take bs.length = bs

/-- A new message. Source: `msg2.h` `msg_send_mk`. Kind: L -/
theorem msgSendMk_wrote {maxbytes : UInt32} (h : maxbytes.toNat ≤ nrfMaxpkt) :
    Wrote (msgSendMk maxbytes) [] :=
  ⟨rfl, rfl, h⟩

/-- The checks of a put pass when there is space. Source: `msg2.h` `m_put_ptr`. Kind: L -/
theorem mPutPtr_eq {m : MsgSend} {nbytes : UInt32} (hpos : 0 < nbytes.toNat)
    (hfit : m.putOff.toNat + nbytes.toNat ≤ m.maxbytes.toNat) :
    mPutPtr m nbytes = .ok m.putOff := by
  have hoff : m.putOff < m.maxbytes := by
    rw [UInt32.lt_iff_toNat_lt]
    omega
  have hleft : ¬ m.maxbytes - m.putOff < nbytes := by
    rw [UInt32.lt_iff_toNat_lt, UInt32.toNat_sub_of_le _ _ (UInt32.le_of_lt hoff)]
    omega
  simp [mPutPtr, hoff, hleft, pure, Except.pure]

/-- **A put that fits** appends its bytes. Source: `msg2.h` `msg_put_n`. Kind: P -/
theorem msgPutN_wrote {m : MsgSend} {bs : List UInt8} (src : List UInt8) (h : Wrote m bs)
    (hne : src ≠ []) (hfit : bs.length + src.length ≤ m.maxbytes.toNat) :
    ∃ m', msgPutN m src = .ok m' ∧ Wrote m' (bs ++ src) ∧ m'.maxbytes = m.maxbytes := by
  have hpos := List.length_pos_iff.mpr hne
  have hmax := h.max
  have hoff := h.off
  have hsize := m.msg.size
  unfold nrfMaxpkt at hmax hsize
  have hlen : src.length < 2 ^ 32 := by omega
  have hn : (UInt32.ofNat src.length).toNat = src.length := UInt32.toNat_ofNat_of_lt' hlen
  have hnext : (m.putOff + UInt32.ofNat src.length).toNat = bs.length + src.length := by
    rw [UInt32.toNat_add, hn, hoff, Nat.mod_eq_of_lt (by omega)]
  have hptr : mPutPtr m (UInt32.ofNat src.length) = .ok m.putOff :=
    mPutPtr_eq (by omega) (by omega)
  obtain ⟨msg, hwrite, hbytes⟩ := m.msg.write_ok m.putOff.toNat src (by rw [nrfMaxpkt]; omega)
  refine ⟨{ m with msg, putOff := m.putOff + UInt32.ofNat src.length }, ?_, ⟨?_, ?_, h.max⟩, rfl⟩
  · simp [msgPutN, mPutPtrInc, hptr, hwrite, bind, Except.bind, pure, Except.pure]
  · rw [hnext, List.length_append]
  · have htake : (m.msg.bytes.take bs.length ++ src).length = bs.length + src.length := by
      rw [h.bytes, List.length_append]
    rw [hbytes, hoff, List.length_append, ← htake, List.take_left', h.bytes]
    rfl

/-- The checks of a get pass when there is enough. Source: `msg2.h` `m_get_ptr`. Kind: L -/
theorem mGetPtr_eq {m : MsgRecv} {nbytes : UInt32} (hne : m.nbytes ≠ 0)
    (hfit : m.getOff.toNat + nbytes.toNat ≤ m.nbytes.toNat) : mGetPtr m nbytes = .ok m.getOff := by
  have hle : m.getOff ≤ m.nbytes := by
    rw [UInt32.le_iff_toNat_le]
    omega
  have hleft : ¬ m.nbytes - m.getOff < nbytes := by
    rw [UInt32.lt_iff_toNat_lt, UInt32.toNat_sub_of_le _ _ hle]
    omega
  simp [mGetPtr, msgNbytesGet, hne, hle, hleft, bind, Except.bind, pure, Except.pure]

/-- **A get of what is there** takes its bytes. Source: `msg2.h` `msg_get_n`. Kind: P -/
theorem msgGetN_left {m : MsgRecv} (src : List UInt8) {bs : List UInt8} (h : Left m (src ++ bs)) :
    ∃ m', msgGetN m (UInt32.ofNat src.length) = .ok (src, m') ∧ Left m' bs := by
  have hoff := h.off
  have hmax := h.size
  rw [List.length_append] at hoff
  unfold nrfMaxpkt at hmax
  have hlen : src.length < 2 ^ 32 := by omega
  have hn : (UInt32.ofNat src.length).toNat = src.length := UInt32.toNat_ofNat_of_lt' hlen
  have hnext : (m.getOff + UInt32.ofNat src.length).toNat = m.getOff.toNat + src.length := by
    rw [UInt32.toNat_add, hn, Nat.mod_eq_of_lt (by omega)]
  have hptr : mGetPtr m (UInt32.ofNat src.length) = .ok m.getOff := mGetPtr_eq h.nonempty (by omega)
  have hread := m.msg.read_ok m.getOff.toNat src.length (by rw [nrfMaxpkt]; omega)
  have hbytes := h.bytes
  rw [List.length_append] at hbytes
  refine ⟨{ m with getOff := m.getOff + UInt32.ofNat src.length }, ?_, ⟨h.nonempty, ?_, h.size, ?_⟩⟩
  · have hsrc : (m.msg.bytes.drop m.getOff.toNat).take src.length = src := by
      have := congrArg (List.take src.length) hbytes
      rwa [List.take_take, Nat.min_eq_left (Nat.le_add_right _ _), List.take_left] at this
    simp [msgGetN, mGetPtrInc, hptr, hn, hread, hsrc, bind, Except.bind, pure, Except.pure]
  · show (m.getOff + UInt32.ofNat src.length).toNat + bs.length = m.nbytes.toNat
    omega
  · have := congrArg (List.drop src.length) hbytes
    rwa [List.drop_take, Nat.add_sub_cancel_left, List.drop_drop, List.drop_left, ← hnext] at this

/-- What has been put is what is left to get. Source: `msg2.h` `msg_send_to_recv`. Kind: P -/
theorem msgSendToRecv_left {m : MsgSend} {bs : List UInt8} (h : Wrote m bs) (hne : bs ≠ [])
    (hfit : bs.length ≤ nrfMaxpkt) : ∃ r, msgSendToRecv m = .ok r ∧ Left r bs := by
  have hpos := List.length_pos_iff.mpr hne
  have hread := m.msg.read_ok 0 bs.length (by omega)
  rw [List.drop_zero, h.bytes] at hread
  obtain ⟨msg, hwrite, hbytes⟩ := Packet.zero.write_ok 0 bs (by omega)
  have hlen : bs.length < 2 ^ 32 := Nat.lt_of_le_of_lt hfit (by decide)
  have hn : (UInt32.ofNat bs.length).toNat = bs.length := UInt32.toNat_ofNat_of_lt' hlen
  refine ⟨⟨msg, 0, UInt32.ofNat bs.length⟩, ?_, ⟨?_, ?_, ?_, ?_⟩⟩
  · simp [msgSendToRecv, msgSendNbytes, h.off, hread, msgRecvMk, hwrite, bind, Except.bind, pure,
      Except.pure]
  · intro h0
    have := congrArg UInt32.toNat h0
    rw [hn, UInt32.toNat_zero] at this
    omega
  · rw [hn, UInt32.toNat_zero, Nat.zero_add]
  · rw [hn]
    exact hfit
  · simp [hbytes]

end Cs140e.Nrf
