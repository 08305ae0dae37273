import Cs140e.Nrf.Msg2
import Cs140e.Nrf.Util

/-!
# Radio: which uses stay inside of the arrays

The checks of `msg2.h` compare offsets with the size that the caller gave, and those of `nrf_getn`
and `nrf_putn` compare with one more than the size of the arrays.

* `PutCall`, `GetCall`, `Use` — a message that is filled, one that is taken apart, and the two
  transfers; `Use.run` runs one.
* `Puts m n r` — what `n` bytes put do; `put_puts` for a call, `puts_puts` for a sequence.
* `Use.Fits` — the sizes that fit the arrays. `use_in_bounds_iff`: a use that passes the checks stays
  inside of the arrays exactly when it fits.
-/

namespace Cs140e.Nrf

open Cs140e.Lib Cs140e.Lib.Prog

/-- A block of memory, whose size is an `unsigned`. Source: none: infrastructure. Kind: D -/
abbrev Block := { bytes : List UInt8 // bytes.length < 2 ^ 32 }

/-- Source: `msg2.h` `msg_put8`, `msg_put16`, `msg_put24`, `msg_put32`, `msg_put64`, `msg_put_n`.
Kind: D -/
inductive PutCall where
  | put8 (x : UInt8)
  | put16 (x : UInt16)
  | put24 (x : UInt32)
  | put32 (x : UInt32)
  | put64 (x : UInt64)
  | putN (src : Block)

/-- Source: `msg2.h` `msg_put8`, `msg_put16`, `msg_put24`, `msg_put32`, `msg_put64`, `msg_put_n`.
Kind: D -/
def PutCall.put (m : MsgSend) : PutCall → Except Stop MsgSend
  | put8 x => msgPut8 m x
  | put16 x => msgPut16 m x
  | put24 x => msgPut24 m x
  | put32 x => msgPut32 m x
  | put64 x => msgPut64 m x
  | putN src => msgPutN m src.1

/-- How many bytes are put. Source: `msg2.h`. Kind: D -/
def PutCall.size : PutCall → Nat
  | put8 _ => 1
  | put16 _ => 2
  | put24 _ => 3
  | put32 _ => 4
  | put64 _ => 8
  | putN src => src.1.length

/-- Source: `msg2.h` `msg_get8`, `msg_get16`, `msg_get24`, `msg_get32`, `msg_get_n`, `msg_get_ptr`.
Kind: D -/
inductive GetCall where
  | get8
  | get16
  | get24
  | get32
  | getN (nbytes : UInt32)
  | getPtr (expectedNbytes : UInt32)

/-- The message afterwards. Source: `msg2.h` `msg_get8`, `msg_get16`, `msg_get24`, `msg_get32`,
`msg_get_n`, `msg_get_ptr`. Kind: D -/
def GetCall.get (m : MsgRecv) : GetCall → Except Stop MsgRecv
  | get8 => do
    let (_, m) ← msgGet8 m
    return m
  | get16 => do
    let (_, m) ← msgGet16 m
    return m
  | get24 => do
    let (_, m) ← msgGet24 m
    return m
  | get32 => do
    let (_, m) ← msgGet32 m
    return m
  | getN nbytes => do
    let (_, m) ← msgGetN m nbytes
    return m
  | getPtr expectedNbytes => do
    let _ ← msgGetPtr m expectedNbytes
    return m

/-- A use of one of the arrays. Source: `msg2.h`, `nrf-util.c`. Kind: D -/
inductive Use where
  /-- `msg_send_mk(maxbytes)`, and puts. -/
  | send (maxbytes : UInt32) (puts : List PutCall)
  /-- `msg_recv_mk(data, nbytes)`, and gets. -/
  | recv (data : Block) (gets : List GetCall)
  /-- `nrf_getn(nic, cmd, bytes, nbytes)`. -/
  | getn (cmd : UInt8) (nbytes : UInt32)
  /-- `nrf_putn(nic, cmd, bytes, nbytes)`. -/
  | putn (cmd : UInt8) (bytes : Block)

variable {S : Type}

/-- Source: `msg2.h`, `nrf-util.c`. Kind: D -/
def Use.run (spi : Spi S) : Use → Prog S Stop Unit
  | send maxbytes puts => do
    let _ ← ofResult (puts.foldlM PutCall.put (msgSendMk maxbytes))
    return ()
  | recv data gets => do
    let m ← ofResult (msgRecvMk data.1)
    let _ ← ofResult (gets.foldlM GetCall.get m)
    return ()
  | getn cmd nbytes => do
    let _ ← nrfGetn spi cmd nbytes
    return ()
  | putn cmd bytes => do
    let _ ← nrfPutn spi cmd bytes.1
    return ()

/-- The sizes fit: `msg[0..32)`, or `rx[0..64)` and `tx[0..64)` with the command in front.
Source: `msg2.h` `NRF_MAXPKT`, `nrf-util.c` `rx`, `tx`
Kind: D -/
def Use.Fits : Use → Prop
  | send _ puts => (puts.map PutCall.size).sum ≤ nrfMaxpkt
  | recv data _ => data.1.length ≤ nrfMaxpkt
  | getn _ nbytes => nbytes.toNat + 1 ≤ 64
  | putn _ bytes => bytes.1.length + 1 ≤ 64

/-- No check of the code stops the program. Source: `libc/assert.h` `assert`, `panic`. Kind: D -/
def PassesChecks {α : Type} (p : Prog S Stop α) (s : S) : Prop :=
  ∀ e t, Runs p s (.error e) t → e = .outOfBounds

/-- The program ends, without an access outside of an array. Source: none: infrastructure. Kind: D -/
def StaysInBounds {α : Type} (p : Prog S Stop α) (s : S) : Prop :=
  ∃ o t, Runs p s o t ∧ o ≠ .error .outOfBounds

/-- A program that ends otherwise does not stay in bounds. Source: none: infrastructure. Kind: L -/
theorem staysInBounds_iff {α : Type} {p : Prog S Stop α} {s t : S} {o : Except Stop α}
    (h : Runs p s o t) : StaysInBounds p s ↔ o ≠ .error .outOfBounds := by
  constructor
  · rintro ⟨o', t', h', hne⟩
    rwa [(h.det h').1]
  · intro hne
    exact ⟨o, t, h, hne⟩

/-! ## Puts -/

/-- What `n` bytes put do: they go in below the size of the array, or they leave it, or a check
stops them. Source: `msg2.h` `msg_put_n`. Kind: D -/
def Puts (m : MsgSend) (n : Nat) : Except Stop MsgSend → Prop
  | .ok m' => m'.putOff.toNat = m.putOff.toNat + n ∧ m'.putOff.toNat ≤ nrfMaxpkt
  | .error e => e = .outOfBounds → nrfMaxpkt < m.putOff.toNat + n

variable {m : MsgSend}

/-- Source: none: infrastructure. Kind: L -/
theorem Puts.bind {n k : Nat} {r : Except Stop MsgSend} {f : MsgSend → Except Stop MsgSend}
    (hr : Puts m n r) (hf : ∀ m', m'.putOff.toNat ≤ nrfMaxpkt → Puts m' k (f m')) :
    Puts m (n + k) (r >>= f) := by
  cases r with
  | error e =>
      intro he
      have := hr he
      omega
  | ok m' =>
      obtain ⟨hoff, hle⟩ := hr
      have hnext := hf m' hle
      show Puts m (n + k) (f m')
      cases hfm : f m' with
      | error e =>
          rw [hfm] at hnext
          intro he
          have := hnext he
          omega
      | ok m'' =>
          rw [hfm] at hnext
          exact ⟨by have := hnext.1; omega, hnext.2⟩

/-- The checks of a put. Source: `msg2.h` `m_put_ptr`. Kind: L -/
theorem mPutPtr_cases (m : MsgSend) (nbytes : UInt32) :
    mPutPtr m nbytes = .ok m.putOff ∨ ∃ e, mPutPtr m nbytes = .error e ∧ e ≠ .outOfBounds := by
  by_cases hoff : m.putOff < m.maxbytes
  · by_cases hleft : m.maxbytes - m.putOff < nbytes
    · refine .inr ⟨.panic "not enough bytes left: have %d, need %d\n"
        [.num (m.maxbytes - m.putOff).toNat, .num nbytes.toNat], ?_, by simp⟩
      simp [mPutPtr, hoff, hleft]
    · exact .inl (by simp [mPutPtr, hoff, hleft])
  · exact .inr ⟨.assert "off < maxbytes", by
      simp [mPutPtr, hoff], by simp⟩

/-- A put of a block. Source: `msg2.h` `msg_put_n`. Kind: L -/
theorem msgPutN_puts (m : MsgSend) (src : List UInt8) (hsrc : src.length < 2 ^ 32) :
    Puts m src.length (msgPutN m src) := by
  have hn : (UInt32.ofNat src.length).toNat = src.length := UInt32.toNat_ofNat_of_lt' hsrc
  rcases mPutPtr_cases m (UInt32.ofNat src.length) with hptr | ⟨e, hptr, hne⟩
  · by_cases hfit : m.putOff.toNat + src.length ≤ nrfMaxpkt
    · obtain ⟨msg, hwrite, -⟩ := m.msg.write_ok m.putOff.toNat src hfit
      have hrun : msgPutN m src =
          .ok { m with msg, putOff := m.putOff + UInt32.ofNat src.length } := by
        simp [msgPutN, mPutPtrInc, hptr, hwrite]
      have hoff : (m.putOff + UInt32.ofNat src.length).toNat = m.putOff.toNat + src.length := by
        unfold nrfMaxpkt at hfit
        rw [UInt32.toNat_add, hn, Nat.mod_eq_of_lt (by omega)]
      rw [hrun]
      exact ⟨hoff, hoff.trans_le hfit⟩
    · have hwrite : m.msg.write m.putOff.toNat src = .error .outOfBounds := by
        unfold Packet.write
        rw [dif_neg hfit]
        rfl
      have hrun : msgPutN m src = .error .outOfBounds := by
        simp [msgPutN, mPutPtrInc, hptr, hwrite]
      rw [hrun]
      intro _
      omega
  · have hrun : msgPutN m src = .error e := by
      simp [msgPutN, mPutPtrInc, hptr]
    rw [hrun]
    exact fun he => absurd he hne

/-- A put. Source: `msg2.h` `msg_put8`, `msg_put16`, `msg_put24`, `msg_put32`, `msg_put64`.
Kind: L -/
theorem put_puts (m : MsgSend) (c : PutCall) : Puts m c.size (c.put m) := by
  have hbytes : ∀ (m' : MsgSend) n v, n < 9 → Puts m' n (msgPutN m' (leBytes n v)) := by
    intro m' n v hn
    have := msgPutN_puts m' (leBytes n v) (by rw [leBytes_length]; omega)
    rwa [leBytes_length] at this
  have hbyte : ∀ (m' : MsgSend) x, Puts m' 1 (msgPut8 m' x) :=
    fun m' x => msgPutN_puts m' [x] (by simp)
  cases c with
  | put8 x => exact hbyte m x
  | put16 x => exact hbytes m 2 _ (by decide)
  | put32 x => exact hbytes m 4 _ (by decide)
  | put64 x => exact hbytes m 8 _ (by decide)
  | putN src => exact msgPutN_puts m src.1 src.2
  | put24 x =>
      show Puts m 3 (msgPut24 m x)
      unfold msgPut24
      split
      · intro he
        simp at he
      · exact (hbyte m _).bind fun m₁ _ => (hbyte m₁ _).bind fun m₂ _ => hbyte m₂ _

/-- **Puts one after the other.** Source: `msg2.h` `msg_put_n`. Kind: P -/
theorem puts_puts (hm : m.putOff.toNat ≤ nrfMaxpkt) (cs : List PutCall) :
    Puts m (cs.map PutCall.size).sum (cs.foldlM PutCall.put m) := by
  induction cs generalizing m with
  | nil => exact ⟨rfl, hm⟩
  | cons c cs ih =>
      rw [List.foldlM_cons, List.map_cons, List.sum_cons]
      exact (put_puts m c).bind fun m' hm' => ih hm'

/-! ## Gets -/

/-- The message is inside of its array. Source: `msg2.h` `msg_recv_t`. Kind: D -/
def Inside (r : MsgRecv) : Prop := r.getOff.toNat ≤ r.nbytes.toNat ∧ r.nbytes.toNat ≤ nrfMaxpkt

/-- A get leaves the message inside of its array, or a check stops it. Source: `msg2.h` `msg_get_n`.
Kind: D -/
def Gets {α : Type} : Except Stop (α × MsgRecv) → Prop
  | .ok (_, r) => Inside r
  | .error e => e ≠ .outOfBounds

variable {r : MsgRecv}

/-- The checks of a get. Source: `msg2.h` `m_get_ptr`. Kind: L -/
theorem mGetPtr_cases (r : MsgRecv) (nbytes : UInt32) :
    (mGetPtr r nbytes = .ok r.getOff ∧ r.getOff.toNat + nbytes.toNat ≤ r.nbytes.toNat) ∨
      ∃ e, mGetPtr r nbytes = .error e ∧ e ≠ .outOfBounds := by
  by_cases hne : r.nbytes = 0
  · exact .inr ⟨.assert "m->nbytes", by
      simp [mGetPtr, msgNbytesGet, hne],
      by simp⟩
  · by_cases hle : r.getOff ≤ r.nbytes
    · by_cases hleft : r.nbytes - r.getOff < nbytes
      · refine .inr ⟨.panic "not enough bytes left: have %d, need %d\n"
          [.num (r.nbytes - r.getOff).toNat, .num nbytes.toNat], ?_, by simp⟩
        simp [mGetPtr, msgNbytesGet, hne, hle, hleft]
      · refine .inl ⟨by
          simp [mGetPtr, msgNbytesGet, hne, hle, hleft], ?_⟩
        rw [UInt32.lt_iff_toNat_lt, UInt32.toNat_sub_of_le _ _ hle] at hleft
        rw [UInt32.le_iff_toNat_le] at hle
        omega
    · exact .inr ⟨.assert "m->get_off <= m->nbytes", by
        simp [mGetPtr, msgNbytesGet, hne, hle], by simp⟩

/-- A get of a block. Source: `msg2.h` `msg_get_n`. Kind: L -/
theorem msgGetN_gets (h : Inside r) (nbytes : UInt32) : Gets (msgGetN r nbytes) := by
  have hmax := h.2
  rcases mGetPtr_cases r nbytes with ⟨hptr, hfit⟩ | ⟨e, hptr, hne⟩
  · have hread := r.msg.read_ok r.getOff.toNat nbytes.toNat (by omega)
    have hrun : msgGetN r nbytes = .ok ((r.msg.bytes.drop r.getOff.toNat).take nbytes.toNat,
        { r with getOff := r.getOff + nbytes }) := by
      simp [msgGetN, mGetPtrInc, hptr, hread]
    have hoff : (r.getOff + nbytes).toNat = r.getOff.toNat + nbytes.toNat := by
      unfold nrfMaxpkt at hmax
      rw [UInt32.toNat_add, Nat.mod_eq_of_lt (by omega)]
    rw [hrun]
    exact ⟨hoff.trans_le hfit, hmax⟩
  · have hrun : msgGetN r nbytes = .error e := by
      simp [msgGetN, mGetPtrInc, hptr]
    rw [hrun]
    exact hne

/-- Source: none: infrastructure. Kind: L -/
theorem Gets.bind {α β : Type} {x : Except Stop (α × MsgRecv)}
    {f : α × MsgRecv → Except Stop (β × MsgRecv)} (hx : Gets x)
    (hf : ∀ a r', Inside r' → Gets (f (a, r'))) : Gets (x >>= f) := by
  cases x with
  | error e => exact hx
  | ok p => exact hf p.1 p.2 hx

/-- Source: `msg2.h` `msg_get8`. Kind: L -/
theorem msgGet8_gets (h : Inside r) : Gets (msgGet8 r) :=
  (msgGetN_gets h 1).bind fun _ _ h' => h'

/-- A get. Source: `msg2.h` `msg_get8`, `msg_get16`, `msg_get24`, `msg_get32`. Kind: L -/
theorem get_inside (h : Inside r) (c : GetCall) :
    (∃ r', c.get r = .ok r' ∧ Inside r') ∨ ∃ e, c.get r = .error e ∧ e ≠ .outOfBounds := by
  have hdrop : ∀ {α : Type} {x : Except Stop (α × MsgRecv)}, Gets x →
      (∃ r', (do let (_, r) ← x; return r : Except Stop MsgRecv) = .ok r' ∧ Inside r') ∨
        ∃ e, (do let (_, r) ← x; return r : Except Stop MsgRecv) = .error e ∧ e ≠ .outOfBounds := by
    intro α x hx
    cases x with
    | error e => exact .inr ⟨e, rfl, hx⟩
    | ok p => exact .inl ⟨p.2, rfl, hx⟩
  cases c with
  | get8 => exact hdrop (msgGet8_gets h)
  | get16 => exact hdrop ((msgGetN_gets h 2).bind fun _ _ h' => h')
  | get32 => exact hdrop ((msgGetN_gets h 4).bind fun _ _ h' => h')
  | getN nbytes => exact hdrop (msgGetN_gets h nbytes)
  | get24 =>
      exact hdrop ((msgGet8_gets h).bind fun _ _ h₁ => (msgGet8_gets h₁).bind fun _ _ h₂ =>
        (msgGet8_gets h₂).bind fun _ _ h₃ => h₃)
  | getPtr expectedNbytes =>
      by_cases hn : r.nbytes = expectedNbytes
      · refine .inl ⟨r, ?_, h⟩
        simp [GetCall.get, msgGetPtr, hn]
      · refine .inr ⟨.panic "expected %d bytes, have %d\n"
          [.num expectedNbytes.toNat, .num r.nbytes.toNat], ?_, by simp⟩
        simp [GetCall.get, msgGetPtr, hn]

/-- **Gets one after the other.** Source: `msg2.h` `msg_get_n`. Kind: P -/
theorem gets_inside (h : Inside r) (cs : List GetCall) :
    cs.foldlM GetCall.get r ≠ .error .outOfBounds := by
  induction cs generalizing r with
  | nil => simp
  | cons c cs ih =>
      rw [List.foldlM_cons]
      rcases get_inside h c with ⟨r', hget, hr'⟩ | ⟨e, hget, hne⟩
      · rw [hget]
        exact ih hr'
      · rw [hget]
        simpa using hne

/-- A received message is inside of its array. Source: `msg2.h` `msg_recv_mk`. Kind: L -/
theorem msgRecvMk_inside {data : Block} (h : data.1.length ≤ nrfMaxpkt) :
    ∃ r, msgRecvMk data.1 = .ok r ∧ Inside r := by
  obtain ⟨msg, hwrite, -⟩ := Packet.zero.write_ok 0 data.1 (by omega)
  refine ⟨⟨msg, 0, UInt32.ofNat data.1.length⟩, ?_, ?_, ?_⟩
  · simp [msgRecvMk, hwrite]
  · simp
  · show (UInt32.ofNat data.1.length).toNat ≤ nrfMaxpkt
    rwa [UInt32.toNat_ofNat_of_lt' data.2]

/-! ## Uses -/

variable {spi : Spi S} {s : S}

/-- A message that is filled. Source: `msg2.h` `msg_send_mk`, `msg_put_n`. Kind: L -/
theorem send_in_bounds_iff {maxbytes : UInt32} {puts : List PutCall}
    (h : PassesChecks ((Use.send maxbytes puts).run spi) s) :
    StaysInBounds ((Use.send maxbytes puts).run spi) s ↔ (Use.send maxbytes puts).Fits := by
  have hputs := puts_puts (m := msgSendMk maxbytes) (Nat.zero_le _) puts
  have hzero : (msgSendMk maxbytes).putOff.toNat = 0 := rfl
  cases hfold : puts.foldlM PutCall.put (msgSendMk maxbytes) with
  | ok m' =>
      rw [hfold] at hputs
      have hrun : Runs ((Use.send maxbytes puts).run spi) s (.ok ()) s := by simp [Use.run, hfold]
      rw [staysInBounds_iff hrun]
      simp only [ne_eq, reduceCtorEq, not_false_eq_true, true_iff]
      show (puts.map PutCall.size).sum ≤ nrfMaxpkt
      have := hputs.1
      have := hputs.2
      omega
  | error e =>
      rw [hfold] at hputs
      have hrun : Runs ((Use.send maxbytes puts).run spi) s (.error e) s := by
        simp [Use.run, hfold]
      obtain rfl := h e s hrun
      have hover : nrfMaxpkt < (puts.map PutCall.size).sum := by
        have := hputs rfl
        omega
      rw [staysInBounds_iff hrun]
      simp only [ne_eq, not_true_eq_false, false_iff]
      exact Nat.not_le.mpr hover

/-- A message that is taken apart. Source: `msg2.h` `msg_recv_mk`, `msg_get_n`. Kind: L -/
theorem recv_in_bounds_iff {data : Block} {gets : List GetCall} :
    StaysInBounds ((Use.recv data gets).run spi) s ↔ (Use.recv data gets).Fits := by
  by_cases hfit : data.1.length ≤ nrfMaxpkt
  · obtain ⟨r, hr, hin⟩ := msgRecvMk_inside hfit
    have hgets := gets_inside hin gets
    have hiff : StaysInBounds ((Use.recv data gets).run spi) s ↔ True := by
      cases hfold : gets.foldlM GetCall.get r with
      | ok r' =>
          have hrun : Runs ((Use.recv data gets).run spi) s (.ok ()) s := by
            simp [Use.run, hr, hfold]
          simp [staysInBounds_iff hrun]
      | error e =>
          rw [hfold] at hgets
          have hrun : Runs ((Use.recv data gets).run spi) s (.error e) s := by
            simp [Use.run, hr, hfold]
          simpa [staysInBounds_iff hrun] using hgets
    exact hiff.trans (iff_of_true trivial hfit)
  · have hwrite : Packet.zero.write 0 data.1 = .error .outOfBounds := by
      unfold Packet.write
      rw [dif_neg (by omega)]
      rfl
    have hmk : msgRecvMk data.1 = .error .outOfBounds := by
      simp [msgRecvMk, hwrite]
    have hrun : Runs ((Use.recv data gets).run spi) s (.error .outOfBounds) s := by
      simp [Use.run, hmk]
    rw [staysInBounds_iff hrun]
    simp only [ne_eq, not_true_eq_false, false_iff]
    exact hfit

/-- A transfer passes its two checks with these sizes only. Source: `nrf-util.c` `nrf_getn`,
`nrf_putn`. Kind: L -/
theorem size_of_passes {α : Type} {nbytes : UInt32} {p : Prog S Stop α}
    (hp : ∃ k, p = (checkNbytes nbytes).bind k) (h : PassesChecks p s) :
    0 < nbytes.toNat ∧ nbytes.toNat ≤ 64 := by
  obtain ⟨k, rfl⟩ := hp
  have hend : ∃ o, Runs (checkNbytes nbytes : Prog S Stop Unit) s o s ∧
      ∀ e, o = .error e → e ≠ .outOfBounds := by
    unfold checkNbytes check
    split
    · split
      · exact ⟨.ok (), by simp, by simp⟩
      · exact ⟨.error (.assert "nbytes > 0"), by simp, by simp⟩
    · exact ⟨.error (.assert "nbytes < (sizeof tx + 1)"), by simp, by simp⟩
  obtain ⟨o, hrun, hne⟩ := hend
  cases o with
  | ok u => exact checkNbytes_inv hrun
  | error e => exact absurd (h e s hrun.bind_error) (hne e rfl)

/-- **Which uses stay in bounds**: of those that pass the checks, the ones whose sizes fit.
Source: `msg2.h` `m_put_ptr`, `msg_recv_mk`, `m_get_ptr`; `nrf-util.c` `nrf_getn`, `nrf_putn`
Kind: P -/
theorem use_in_bounds_iff (spi : Spi S) (s : S) (u : Use) (h : PassesChecks (u.run spi) s) :
    StaysInBounds (u.run spi) s ↔ u.Fits := by
  cases u with
  | send maxbytes puts => exact send_in_bounds_iff h
  | recv data gets => exact recv_in_bounds_iff
  | getn cmd nbytes =>
      obtain ⟨hpos, hle⟩ := size_of_passes ⟨_, seq_seq (checkNbytes nbytes) _ _⟩ h
      by_cases hfit : nbytes.toNat + 1 ≤ 64
      · have hrun := (nrfGetn_runs spi cmd hpos hfit s).bind
          (f := fun _ => ret ()) Runs.ret
        have hrun' : Runs ((Use.getn cmd nbytes).run spi) s _ _ := hrun
        simpa [staysInBounds_iff hrun', Use.Fits] using hfit
      · have hrun : Runs ((Use.getn cmd nbytes).run spi) s (.error .outOfBounds) s :=
          (nrfGetn_full spi cmd (by omega) s).bind_error
        simpa [staysInBounds_iff hrun, Use.Fits] using hfit
  | putn cmd bytes =>
      have hn : (UInt32.ofNat bytes.1.length).toNat = bytes.1.length :=
        UInt32.toNat_ofNat_of_lt' bytes.2
      obtain ⟨hpos, hle⟩ :=
        size_of_passes ⟨_, seq_seq (checkNbytes (UInt32.ofNat bytes.1.length)) _ _⟩ h
      rw [hn] at hpos hle
      by_cases hfit : bytes.1.length + 1 ≤ 64
      · have hrun := (nrfPutn_runs spi cmd hpos hfit s).bind
          (f := fun _ => ret ()) Runs.ret
        have hrun' : Runs ((Use.putn cmd bytes).run spi) s _ _ := hrun
        simpa [staysInBounds_iff hrun', Use.Fits] using hfit
      · have hrun : Runs ((Use.putn cmd bytes).run spi) s (.error .outOfBounds) s :=
          (nrfPutn_full spi cmd (by omega) s).bind_error
        simpa [staysInBounds_iff hrun, Use.Fits] using hfit

/-- A link that returns what it is sent. Source: `spi.h` `spi_n_transfer`. Kind: D -/
def loopback : Spi Unit := ⟨fun tx s => (tx, s), fun _ _ => rfl⟩

/-- The theorem at a transfer of 63 bytes. Source: `nrf-util.c` `nrf_getn`. Kind: L -/
theorem getn_63_in_bounds : StaysInBounds ((Use.getn 0b01100001 63).run loopback) () := by
  have hrun := (nrfGetn_runs loopback 0b01100001 (show 0 < (63 : UInt32).toNat by decide)
    (by decide) ()).bind (f := fun _ => ret ()) Runs.ret
  have hpass : PassesChecks ((Use.getn 0b01100001 63).run loopback) () := by
    intro e t h
    have hrun' : Runs ((Use.getn 0b01100001 63).run loopback) () _ _ := hrun
    exact absurd (hrun'.det h).1 (by simp)
  exact (use_in_bounds_iff loopback () (.getn 0b01100001 63) hpass).mpr (by simp [Use.Fits])

/-- **64 bytes** pass both checks of `nrf_getn`, and the command is written behind them.
Source: `nrf-util.c` `assert(nbytes < (sizeof tx + 1))`
Kind: P -/
theorem getn_64_out_of_bounds : PassesChecks ((Use.getn 0b01100001 64).run loopback) () ∧
    ¬ StaysInBounds ((Use.getn 0b01100001 64).run loopback) () := by
  have hrun : Runs ((Use.getn 0b01100001 64).run loopback) () (.error .outOfBounds) () :=
    (nrfGetn_full loopback 0b01100001 (by decide) ()).bind_error
  constructor
  · intro e t h
    exact (Except.error.inj (hrun.det h).1).symm
  · rw [staysInBounds_iff hrun]
    simp

end Cs140e.Nrf
