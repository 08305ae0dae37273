import Cs140e.Esp.Send
import Mathlib.Data.List.GetD

/-!
# Client and server

The loops of `1-ping-pong`: the client sends back what it receives, and the server sends a text and
compares the answer with it.

* `clientTrial_ends`, `serverTrial_ends` — one turn of each loop.
* `clientLoop_echoes` — the client, for any number of messages, however the input is cut.
* `serverLoop_verdict` — the server returns exactly when every answer is the text it sent, and stops
  at the first that is not.
* `pingPong_completes` — the two together, when each gets what the other has sent.
-/

namespace Cs140e.Esp

open Cs140e.Lib Cs140e.Lib.Prog

/-! ## The code -/

/-- The string in a buffer. Source: C, `strlen`, `strcmp`. Kind: D -/
def Host.cString (h : Host) (buf : Ptr) (size : Nat) : List UInt8 :=
  (h.bytesAt buf size).takeWhile (· != 0)

/-- `buf[n] = 0`. Source: `client.c` `esp_main`. Kind: D -/
def terminate (buf : Ptr) (size n : Nat) : Prog World Stop Unit := do
  if n < size then
    onHost (Host.setByte buf n 0)
    return ()
  else
    raise .outOfBounds

/-- `ch` of the client, `x` of the server. Source: `client.c`, `server.c` `esp_main`. Kind: D -/
def chanVar : Ptr := .user 0

/-- `buf` of the client, `reply` of the server. Source: `client.c`, `server.c` `esp_main`. Kind: D -/
def replyBuf : Ptr := .user 1

/-- Source: `server.c` `esp_main` `hello`. Kind: D -/
def helloBuf : Ptr := .user 2

/-- Source: `esp-commands.c` `esp_send` `nsent`. Kind: D -/
def nsentVar : Ptr := .user 3

/-- Source: `server.c` `esp_main` `sprintf(hello, "hello %d", i)`. Kind: D -/
def helloText (i : Nat) : List UInt8 := cstr "hello " ++ decimal i

section

variable (tgt : Target) (stale : Nat → Ptr)

/-- Source: `client.c`, `server.c` `esp_main`. Kind: D -/
def sendString (buf : Ptr) : Prog World Stop Unit := do
  let len ← load fun w : World => (w.host.cString buf 1024).length
  let sent ← espSend tgt stale nsentVar 0 buf (UInt32.ofNat len)
  if sent == 0 then raise (.panic "cannot send!!\n" [])

/-- One turn of the client's loop. Source: `client.c` `esp_main`. Kind: D -/
def clientTrial : Prog World Stop Unit := do
  let n ← espIsRecv tgt stale chanVar replyBuf 1024
  terminate replyBuf 1024 n.toNat
  sendString tgt stale replyBuf

/-- Source: `client.c` `esp_main`. Kind: D -/
def clientLoop : Nat → Prog World Stop Unit
  | 0 => return ()
  | ntrials + 1 => do
    clientTrial tgt stale
    clientLoop ntrials

/-- One turn of the server's loop. Source: `server.c` `esp_main`. Kind: D -/
def serverTrial (ch : UInt32) (i : Nat) : Prog World Stop Unit := do
  onHost (Host.setBytes helloBuf 0 (helloText i ++ [0]))
  sendString tgt stale helloBuf
  let n ← espIsRecv tgt stale chanVar replyBuf 1024
  let x ← load fun w : World => w.host.uints chanVar
  cAssert (x == ch) "x == ch"
  terminate replyBuf 1024 n.toNat
  let reply ← load fun w : World => w.host.cString replyBuf 1024
  let hello ← load fun w : World => w.host.cString helloBuf 1024
  if reply == hello then
    return ()
  else
    raise (.panic "mismatch: have <%s>, expected <%s>\n" [.str reply, .str hello])

/-- The turns from `i` on. Source: `server.c` `esp_main`. Kind: D -/
def serverLoop (ch : UInt32) : Nat → Nat → Prog World Stop Unit
  | _, 0 => return ()
  | i, ntrials + 1 => do
    serverTrial tgt stale ch i
    serverLoop ch (i + 1) ntrials

end

/-! ## Strings in buffers -/

/-- Source: none: infrastructure. Kind: L -/
theorem Host.bytesAt_length (h : Host) (buf : Ptr) (n : Nat) : (h.bytesAt buf n).length = n := by
  unfold Host.bytesAt
  rw [List.length_map, List.length_range]

/-- Source: none: infrastructure. Kind: L -/
theorem Host.bytesAt_congr {h h' : Host} {buf : Ptr} {n : Nat}
    (heq : ∀ j < n, h.bufs buf j = h'.bufs buf j) : h.bytesAt buf n = h'.bytesAt buf n := by
  unfold Host.bytesAt
  apply List.map_congr_left
  intro j hj
  exact heq j (List.mem_range.mp hj)

/-- A buffer that starts with some bytes and a NUL holds the string of those bytes.
Source: C, `strlen`, `strcmp`
Kind: L -/
theorem Host.cString_eq {h : Host} {buf : Ptr} {size : Nat} {bytes : List UInt8}
    (hlt : bytes.length < size) (hbytes : ∀ j < bytes.length, h.bufs buf j = bytes.getD j 0)
    (hend : h.bufs buf bytes.length = 0) :
    h.cString buf size = bytes.takeWhile (· != 0) := by
  have hsplit : (List.range size).map (h.bufs buf) = bytes ++ 0 ::
      (List.range (size - bytes.length - 1)).map fun j => h.bufs buf (bytes.length + 1 + j) := by
    apply List.ext_getElem
    · simp only [List.length_append, List.length_cons, List.length_map, List.length_range]
      omega
    · intro j hj _
      rw [List.length_map, List.length_range] at hj
      rw [List.getElem_map, List.getElem_range]
      rcases Nat.lt_trichotomy j bytes.length with hlt' | heq | hgt
      · rw [List.getElem_append_left hlt', hbytes j hlt', List.getD_eq_getElem _ _ hlt']
      · subst heq
        rw [List.getElem_append_right (Nat.le_refl _)]
        simp [hend]
      · obtain ⟨k, rfl⟩ : ∃ k, j = bytes.length + 1 + k := ⟨j - (bytes.length + 1), by omega⟩
        rw [List.getElem_append_right (by omega)]
        have hk : bytes.length + 1 + k - bytes.length = k + 1 := by omega
        simp [hk]
  unfold Host.cString Host.bytesAt
  rw [hsplit]
  by_cases hall : ∀ c ∈ bytes, (c != 0) = true
  · rw [List.takeWhile_append_of_pos hall, List.takeWhile_eq_self_iff.mpr hall]
    simp
  · rw [List.takeWhile_append, if_neg]
    intro hlen
    apply hall
    have hself : bytes.takeWhile (· != 0) = bytes :=
      (List.takeWhile_prefix _).eq_of_length hlen
    exact List.takeWhile_eq_self_iff.mp hself

/-- Source: C, `strlen`. Kind: L -/
theorem Host.cString_length_le (h : Host) (buf : Ptr) (size : Nat) :
    (h.cString buf size).length ≤ size :=
  calc (h.cString buf size).length ≤ (h.bytesAt buf size).length :=
        (List.takeWhile_prefix _).length_le
    _ = size := h.bytesAt_length buf size

/-- The string is what is in front of the NUL. Source: C, `strlen`. Kind: L -/
theorem Host.bytesAt_cString (h : Host) (buf : Ptr) (size : Nat) :
    h.bytesAt buf (h.cString buf size).length = h.cString buf size := by
  have hle := h.cString_length_le buf size
  have hprefix : h.cString buf size <+: h.bytesAt buf size := List.takeWhile_prefix _
  calc h.bytesAt buf (h.cString buf size).length
      = (h.bytesAt buf size).take (h.cString buf size).length := by
        unfold Host.bytesAt
        rw [← List.map_take, List.take_range, Nat.min_eq_left hle]
    _ = h.cString buf size := (List.prefix_iff_eq_take.mp hprefix).symm

/-! ## Sending a string -/

/-- The device has got these bytes, and no handler was called. Source: none: infrastructure. Kind: D -/
structure Wrote (out : List UInt8) (h h' : Host) : Prop where
  sent : h'.sent = h.sent ++ out
  writeOk : h'.writeOk = h.writeOk
  oooCalls : h'.oooCalls = h.oooCalls

/-- Source: none: infrastructure. Kind: L -/
theorem Wrote.trans {out out' : List UInt8} {h h' h'' : Host} (ho : Wrote out h h')
    (ho' : Wrote out' h' h'') : Wrote (out ++ out') h h'' :=
  ⟨by rw [ho'.sent, ho.sent, List.append_assoc], ho'.writeOk.trans ho.writeOk,
    ho'.oooCalls.trans ho.oooCalls⟩

/-- Source: none: infrastructure. Kind: L -/
theorem Wrote.refl (h : Host) : Wrote [] h h := ⟨(List.append_nil _).symm, rfl, rfl⟩

/-- Storing bytes sends none. Source: none: infrastructure. Kind: L -/
theorem wrote_setBytes (p : Ptr) (i : Nat) (bytes : List UInt8) (h : Host) :
    Wrote [] h (h.setBytes p i bytes) := by
  induction bytes generalizing i h with
  | nil => exact Wrote.refl h
  | cons c bytes ih =>
      have hrest := ih (i + 1) (h.setByte p i c)
      exact ⟨hrest.sent, hrest.writeOk, hrest.oooCalls⟩

/-- The command that announces a message, and the message.
Source: `esp-commands.c` `esp_send`
Kind: D -/
def message (msg : List UInt8) : List UInt8 :=
  cipsend 0 (UInt32.ofNat msg.length) ++ cstr "\r\n" ++ msg

variable {tgt : Target} {stale : Nat → Ptr} {v : View}

/-- What a turn of either loop leaves: the stream behind the turn's part of it.
Source: `client.c`, `server.c` `esp_main`
Kind: D -/
structure Turned (out tail : List UInt8) (v v' : View) : Prop where
  rest : v'.rest.dropWhile isBlankCh = tail.dropWhile isBlankCh
  wrote : Wrote out v.host v'.host

/-- A string is sent up to its NUL. Source: `client.c`, `server.c` `esp_main`. Kind: P -/
theorem sendString_ends {buf : Ptr} {msg tail : List UInt8} (hmsg : v.host.cString buf 1024 = msg)
    (hne : msg ≠ []) (x : SendReply msg.length) (hw : v.host.writeOk = true)
    (hr : v.rest = x.bytes (cipsend 0 (UInt32.ofNat msg.length)) ++ tail) :
    Ends Reads (sendString tgt stale buf) v (.ok ())
      (fun v' => Turned (message msg) tail v v' ∧ v'.host.bufs = v.host.bufs) := by
  have hlen : msg.length ≤ 1024 := by
    rw [← hmsg]
    exact v.host.cString_length_le buf 1024
  have hm : (UInt32.ofNat msg.length).toNat = msg.length := by
    rw [UInt32.toNat_ofNat_of_lt']
    exact Nat.lt_of_le_of_lt hlen (by decide)
  have hpos : 0 < UInt32.ofNat msg.length := by
    rw [UInt32.lt_iff_toNat_lt, hm]
    exact List.length_pos_iff.mpr hne
  have hdata : v.host.bytesAt buf msg.length = msg := by
    rw [← hmsg]
    exact v.host.bytesAt_cString buf 1024
  refine host_ends (f := fun h => (h.cString buf 1024).length) ?_
  rw [hmsg]
  apply (espSend_ends nsentVar 0 hm hpos x hdata hw hr).bind
  intro v' hv'
  obtain ⟨hdrop, -, hhost, -⟩ := hv'.dropWhile isBlankCh_of_isEolCh
  have hzero : ¬ (UInt32.ofNat msg.length == 0) = true := by
    rw [beq_iff_eq]
    exact fun h => absurd hpos (by rw [h]; decide)
  rw [if_neg hzero]
  refine .ret ⟨⟨?_, ?_⟩, ?_⟩
  · rw [hdrop, List.dropWhile_append_of_pos]
    exact fun y hy => isBlankCh_of_isEolCh y (x.sendEol_ok.eol y (List.mem_of_mem_tail hy))
  · rw [hhost]
    exact ⟨List.append_assoc _ _ _, rfl, rfl⟩
  · rw [hhost]
    rfl

/-- An empty string is not sent. Source: `esp-commands.c` `esp_send`. Kind: L -/
theorem sendString_empty {buf : Ptr} (hmsg : v.host.cString buf 1024 = []) :
    Ends Reads (sendString tgt stale buf) v (.error (.assert "n>0")) (· = v) := by
  refine host_ends (f := fun h => (h.cString buf 1024).length) ?_
  rw [hmsg]
  exact Ends.bind_error (Ends.raise rfl)

/-! ## Receiving a message -/

/-- A frame on the channel `channel`. Source: `esp-commands.c` `esp_is_recv`. Kind: D -/
structure Arrival where
  frame : Frame
  channel : Nat
  blank_ok : ∀ c ∈ frame.blank, isBlankCh c = true
  channel_ok : Numeral frame.ch channel
  len_ok : Numeral frame.len frame.payload.length
  payload_ok : 1 ≤ frame.payload.length
  fits : frame.payload.length ≤ 1024

namespace Arrival

variable (a : Arrival)

/-- What is in front of the first NUL. Source: `client.c` `esp_main`. Kind: D -/
def text : List UInt8 := a.frame.payload.takeWhile (· != 0)

/-- The memory behind the call. Source: `esp-commands.c` `esp_is_recv`. Kind: D -/
def received (stale : Nat → Ptr) (h : Host) : Host :=
  (h.ipd (vaStart stale [chanVar, .nbytes]) a.frame.ch a.frame.len).setBytes replyBuf 0
    a.frame.payload

end Arrival

/-- A frame behind an end of line. Source: `esp-commands.c` `esp_is_recv`. Kind: D -/
def Arrival.plain (ch : UInt32) (payload : List UInt8) (hpos : 1 ≤ payload.length)
    (hfits : payload.length ≤ 1024) : Arrival where
  frame := ⟨cstr "\r\n", decimal ch.toNat, decimal payload.length, payload⟩
  channel := ch.toNat
  blank_ok := by
    have hblank : ∀ c ∈ cstr "\r\n", isBlankCh c = true := by decide
    exact hblank
  channel_ok := numeral_decimal ch.toNat_lt
  len_ok := numeral_decimal (Nat.lt_of_le_of_lt hfits (by decide))
  payload_ok := hpos
  fits := hfits

/-- Source: `esp-commands.c` `esp_is_recv`. Kind: P -/
theorem receive_ends (a : Arrival) {r : List UInt8}
    (hr : v.rest.dropWhile isBlankCh = (a.frame.bytes ++ r).dropWhile isBlankCh) :
    Ends Reads (espIsRecv tgt stale chanVar replyBuf 1024) v
      (.ok (UInt32.ofNat a.frame.payload.length)) (· = (v.seek r).on (a.received stale)) := by
  -- the blanks that are left of the line before are blanks in front of this frame
  let x : Receipt :=
    { frame := { a.frame with blank := v.rest.takeWhile isBlankCh }
      ch := 0
      data := replyBuf
      maxbytes := 1024
      channel := a.channel
      blank_ok := fun c hc => List.mem_takeWhile_imp hc
      channel_ok := a.channel_ok
      len_ok := a.len_ok
      payload_ok := a.payload_ok
      fits := a.fits }
  have hdrop : (a.frame.bytes ++ r).dropWhile isBlankCh =
      cstr "+IPD," ++ a.frame.ch ++ cstr "," ++ a.frame.len ++ cstr ":" ++ a.frame.payload ++ r := by
    rw [Frame.bytes]
    simp only [List.append_assoc]
    exact dropWhile_append_cons a.blank_ok (by decide)
  refine espIsRecv_ends tgt stale x ?_
  rw [← List.takeWhile_append_dropWhile (p := isBlankCh) (l := v.rest), hr, hdrop]
  simp [x, Frame.bytes]

namespace Arrival

variable (a : Arrival) (h : Host)

/-- Source: `esp-commands.c` `esp_is_recv`. Kind: L -/
theorem length_toNat : (UInt32.ofNat a.frame.payload.length).toNat = a.frame.payload.length := by
  apply UInt32.toNat_ofNat_of_lt'
  exact Nat.lt_of_le_of_lt a.fits (by decide)

/-- Source: `esp-commands.c` `esp_is_recv`. Kind: L -/
theorem received_wrote : Wrote [] h (a.received stale h) := by
  have hstore := wrote_setBytes replyBuf 0 a.frame.payload
    (h.ipd (vaStart stale [chanVar, .nbytes]) a.frame.ch a.frame.len)
  exact ⟨hstore.sent, hstore.writeOk, hstore.oooCalls⟩

/-- Source: `esp-commands.c` `esp_is_recv`. Kind: L -/
theorem received_channel : ((a.received stale h).uints chanVar).toNat = a.channel := by
  unfold received
  rw [Host.setBytes_uints]
  have hvalue : (h.ipd (vaStart stale [chanVar, .nbytes]) a.frame.ch a.frame.len).uints chanVar =
      uintValue 0 a.frame.ch := by
    simp [Host.ipd, vaStart, Host.setUint, Host.readArg, chanVar]
  rw [hvalue, a.channel_ok.toNat]

/-- Source: `esp-commands.c` `esp_is_recv`. Kind: L -/
theorem received_bufs (p : Ptr) (j : Nat) : (a.received stale h).bufs p j =
    if p = replyBuf ∧ j < a.frame.payload.length then a.frame.payload.getD j 0 else h.bufs p j := by
  unfold received
  rw [Host.setBytes_bufs]
  simp only [Nat.zero_le, Nat.zero_add, true_and, Nat.sub_zero]
  rfl

/-- With a NUL behind it the buffer holds the text. Source: `client.c` `esp_main`. Kind: L -/
theorem text_of_terminated (hlt : a.frame.payload.length < 1024) :
    ((a.received stale h).setByte replyBuf a.frame.payload.length 0).cString replyBuf 1024 =
      a.text := by
  apply Host.cString_eq hlt
  · intro j hj
    have hne : j ≠ a.frame.payload.length := Nat.ne_of_lt hj
    unfold Host.setByte
    simp only [Function.update_self]
    rw [Function.update_of_ne hne, received_bufs, if_pos ⟨rfl, hj⟩]
  · simp [Host.setByte]

end Arrival

/-! ## One turn of each loop -/

/-- Source: `client.c` `esp_main`. Kind: L -/
theorem terminate_ends {buf : Ptr} {size n : Nat} (hlt : n < size) :
    Ends Reads (terminate buf size n) v (.ok ()) (· = v.on (Host.setByte buf n 0)) := by
  unfold terminate
  rw [if_pos hlt]
  exact onHost_ends (.ret rfl)

/-- Source: `client.c` `esp_main`. Kind: L -/
theorem terminate_full {buf : Ptr} {size n : Nat} (hge : ¬ n < size) :
    Ends Reads (terminate buf size n) v (.error .outOfBounds) (· = v) := by
  unfold terminate
  rw [if_neg hge]
  exact Ends.raise rfl

/-- **A turn of the client** sends the text back. Source: `client.c` `esp_main`. Kind: P -/
theorem clientTrial_ends (a : Arrival) {tail : List UInt8} (hlt : a.frame.payload.length < 1024)
    (hne : a.text ≠ []) (x : SendReply a.text.length) (hw : v.host.writeOk = true)
    (hr : v.rest.dropWhile isBlankCh = (a.frame.bytes ++
      (x.bytes (cipsend 0 (UInt32.ofNat a.text.length)) ++ tail)).dropWhile isBlankCh) :
    Ends Reads (clientTrial tgt stale) v (.ok ()) (Turned (message a.text) tail v) := by
  refine (receive_ends a hr).seq ?_
  rw [a.length_toNat]
  refine (terminate_ends hlt).seq ?_
  have hwrote := @Arrival.received_wrote stale a v.host
  have hok : (a.received stale v.host).writeOk = true := hwrote.writeOk.trans hw
  apply (sendString_ends (v := ((v.seek (x.bytes (cipsend 0 (UInt32.ofNat a.text.length)) ++ tail)).on
    (a.received stale)).on (Host.setByte replyBuf a.frame.payload.length 0))
    (a.text_of_terminated v.host hlt) hne x hok rfl).mono
  rintro v' ⟨hturned, -⟩
  exact ⟨hturned.rest, (hwrote.trans (wrote_setBytes _ _ [0] _)).trans hturned.wrote⟩

/-- A message that fills the buffer has no room for the NUL. Source: `client.c` `esp_main`. Kind: L -/
theorem clientTrial_full (a : Arrival) {r : List UInt8} (hfull : a.frame.payload.length = 1024)
    (hr : v.rest.dropWhile isBlankCh = (a.frame.bytes ++ r).dropWhile isBlankCh) :
    Ends Reads (clientTrial tgt stale) v (.error .outOfBounds) (Turned [] r v) := by
  refine (receive_ends a hr).seq ?_
  have hge : ¬ a.frame.payload.length < 1024 := by
    rw [hfull]
    exact Nat.lt_irrefl 1024
  rw [a.length_toNat]
  apply Ends.bind_error
  apply (terminate_full hge).mono
  rintro _ rfl
  exact ⟨rfl, a.received_wrote v.host⟩

/-- A message without text is not sent back. Source: `client.c` `esp_main`. Kind: L -/
theorem clientTrial_empty (a : Arrival) {r : List UInt8} (hlt : a.frame.payload.length < 1024)
    (hnil : a.text = [])
    (hr : v.rest.dropWhile isBlankCh = (a.frame.bytes ++ r).dropWhile isBlankCh) :
    Ends Reads (clientTrial tgt stale) v (.error (.assert "n>0")) (Turned [] r v) := by
  refine (receive_ends a hr).seq ?_
  rw [a.length_toNat]
  refine (terminate_ends hlt).seq ?_
  apply (sendString_empty (v := ((v.seek r).on (a.received stale)).on
    (Host.setByte replyBuf a.frame.payload.length 0))
    ((a.text_of_terminated v.host hlt).trans hnil)).mono
  rintro _ rfl
  exact ⟨rfl, (a.received_wrote v.host).trans (wrote_setBytes _ _ [0] _)⟩

/-! ## The client -/

/-- What arrives in a turn of the client, and the device's answer to what it sends back.
Source: `client.c` `esp_main`
Kind: D -/
structure ClientTurn where
  arrival : Arrival
  reply : SendReply arrival.text.length

/-- Source: `client.c` `esp_main`. Kind: D -/
def ClientTurn.bytes (t : ClientTurn) : List UInt8 :=
  t.arrival.frame.bytes ++ t.reply.bytes (cipsend 0 (UInt32.ofNat t.arrival.text.length))

/-- How the loop ends. Source: `client.c` `esp_main`. Kind: D -/
def clientVerdict : List ClientTurn → Except Stop Unit
  | [] => .ok ()
  | t :: ts =>
    if t.arrival.frame.payload.length = 1024 then .error .outOfBounds
    else if t.arrival.text = [] then .error (.assert "n>0")
    else clientVerdict ts

/-- What it has sent by then. Source: `client.c` `esp_main`. Kind: D -/
def clientSent : List ClientTurn → List UInt8
  | [] => []
  | t :: ts =>
    if t.arrival.frame.payload.length = 1024 ∨ t.arrival.text = [] then []
    else message t.arrival.text ++ clientSent ts

/-- Source: `client.c` `esp_main`. Kind: P -/
theorem clientLoop_ends (turns : List ClientTurn) {tail : List UInt8} (hw : v.host.writeOk = true)
    (hr : v.rest.dropWhile isBlankCh =
      (turns.flatMap ClientTurn.bytes ++ tail).dropWhile isBlankCh) :
    Ends Reads (clientLoop tgt stale turns.length) v (clientVerdict turns)
      (fun v' => Wrote (clientSent turns) v.host v'.host) := by
  induction turns generalizing v with
  | nil => exact .ret (Wrote.refl v.host)
  | cons t ts ih =>
      have hframe : v.rest.dropWhile isBlankCh = (t.arrival.frame.bytes ++
          (t.reply.bytes (cipsend 0 (UInt32.ofNat t.arrival.text.length)) ++
            (ts.flatMap ClientTurn.bytes ++ tail))).dropWhile isBlankCh := by
        rw [hr, List.flatMap_cons, ClientTurn.bytes]
        simp only [List.append_assoc]
      unfold clientVerdict clientSent clientLoop
      by_cases hfull : t.arrival.frame.payload.length = 1024
      · rw [if_pos hfull, if_pos (.inl hfull)]
        exact Ends.bind_error ((clientTrial_full t.arrival hfull hframe).mono fun _ h => h.wrote)
      · have hlt : t.arrival.frame.payload.length < 1024 :=
          Nat.lt_of_le_of_ne t.arrival.fits hfull
        by_cases hnil : t.arrival.text = []
        · rw [if_neg hfull, if_pos hnil, if_pos (.inr hnil)]
          exact Ends.bind_error ((clientTrial_empty t.arrival hlt hnil hframe).mono fun _ h => h.wrote)
        · rw [if_neg hfull, if_neg hnil, if_neg (by rintro (h | h); exacts [hfull h, hnil h])]
          apply (clientTrial_ends t.arrival hlt hnil t.reply hw hframe).bind
          intro v₁ hv₁
          apply (ih (hv₁.wrote.writeOk.trans hw) hv₁.rest).mono
          intro v₂ hv₂
          exact hv₁.wrote.trans hv₂

/-- **The client sends back the text of every message**, in order, and nothing else, until one comes
that has no text, or no room for the NUL behind it; however the input is cut, and however many turns
the loop has. Source: `client.c` `esp_main`. Kind: P -/
theorem clientLoop_echoes (tgt : Target) (stale : Nat → Ptr) (turns : List ClientTurn)
    (tail : List UInt8) (host : Host) (hw : host.writeOk = true) (input : List (List UInt8))
    (hne : ∀ c ∈ input, c ≠ []) (hin : input.flatten = turns.flatMap ClientTurn.bytes ++ tail)
    (hsmall : input.flatten.length < lexMaxbuf) :
    ∃ w, Runs (clientLoop tgt stale turns.length) (start input host) (clientVerdict turns) w ∧
      w.host.sent = host.sent ++ clientSent turns ∧ w.host.oooCalls = host.oooCalls := by
  have hends : Ends Reads (clientLoop tgt stale turns.length) ⟨input.flatten, input.flatten, host⟩
      (clientVerdict turns) fun v' => Wrote (clientSent turns) host v'.host :=
    clientLoop_ends turns hw (congrArg _ hin)
  obtain ⟨w, hrun, v, hv, hwrote⟩ := hends _ (start_reads hne hsmall host)
  refine ⟨w, hrun, ?_, ?_⟩
  · rw [hv.host]
    exact hwrote.sent
  · rw [hv.host]
    exact hwrote.oooCalls

/-- A message that is sent back, and one that starts with a NUL.
Source: `client.c` `esp_main`
Kind: L -/
theorem clientLoop_echoes_two :
    let turns : List ClientTurn :=
      [⟨.plain 0 (cstr "hi") (by decide) (by decide), .plain 2 (by decide)⟩,
        ⟨.plain 0 [0] (by decide) (by decide), .plain 0 (by decide)⟩]
    ∃ w, Runs (clientLoop .unix (fun _ => .user 9) turns.length)
      (start [turns.flatMap ClientTurn.bytes] espMk) (clientVerdict turns) w ∧
      w.host.sent = espMk.sent ++ clientSent turns ∧ w.host.oooCalls = espMk.oooCalls :=
  clientLoop_echoes .unix _ _ [] espMk rfl _ (by decide +kernel) (by decide +kernel)
    (by decide +kernel)

/-! ## The server -/

/-- What the device answers to the text of the turn, and what arrives then.
Source: `server.c` `esp_main`
Kind: D -/
structure ServerTurn where
  i : Nat
  reply : SendReply (helloText i).length
  arrival : Arrival

/-- Source: `server.c` `esp_main`. Kind: D -/
def ServerTurn.bytes (t : ServerTurn) : List UInt8 :=
  t.reply.bytes (cipsend 0 (UInt32.ofNat (helloText t.i).length)) ++ t.arrival.frame.bytes

/-- The turns from `i` on. Source: `server.c` `esp_main`. Kind: D -/
def Numbered (i : Nat) (turns : List ServerTurn) : Prop :=
  turns.map ServerTurn.i = List.range' i turns.length

/-- How a turn ends. Source: `server.c` `esp_main`. Kind: D -/
def turnVerdict (ch : UInt32) (i : Nat) (a : Arrival) : Except Stop Unit :=
  if a.channel ≠ ch.toNat then .error (.assert "x == ch")
  else if a.frame.payload.length = 1024 then .error .outOfBounds
  else if a.text = helloText i then .ok ()
  else .error (.panic "mismatch: have <%s>, expected <%s>\n" [.str a.text, .str (helloText i)])

/-- How the loop ends: with the first turn that stops. Source: `server.c` `esp_main`. Kind: D -/
def serverVerdict (ch : UInt32) : List ServerTurn → Except Stop Unit
  | [] => .ok ()
  | t :: ts => do
    turnVerdict ch t.i t.arrival
    serverVerdict ch ts

/-- What it has sent by then. Source: `server.c` `esp_main`. Kind: D -/
def serverSent (ch : UInt32) : List ServerTurn → List UInt8
  | [] => []
  | t :: ts => message (helloText t.i) ++
    if turnVerdict ch t.i t.arrival = .ok () then serverSent ch ts else []

/-- Source: `server.c` `esp_main`. Kind: L -/
theorem helloText_ne_zero {i : Nat} {c : UInt8} (hc : c ∈ helloText i) : (c != 0) = true := by
  rcases List.mem_append.mp hc with hc | hc
  · have htext : ∀ c ∈ cstr "hello ", (c != 0) = true := by decide
    exact htext c hc
  · obtain ⟨h48, -⟩ := mem_decimal hc
    rw [bne_iff_ne]
    rintro rfl
    exact absurd h48 (by decide)

/-- Source: `server.c` `esp_main`. Kind: L -/
theorem helloText_length_lt {i : Nat} (hi : i < 2 ^ 32) : (helloText i).length < 1024 := by
  have hdigits := decimal_length_le hi
  rw [helloText, List.length_append, show (cstr "hello ").length = 6 by rfl]
  omega

/-- `sprintf` writes the text and a NUL. Source: `server.c` `esp_main`. Kind: L -/
theorem cString_hello {h h' : Host} {i : Nat} (hi : i < 2 ^ 32)
    (hbufs : ∀ j, h'.bufs helloBuf j = (h.setBytes helloBuf 0 (helloText i ++ [0])).bufs helloBuf j) :
    h'.cString helloBuf 1024 = helloText i := by
  have hself : (helloText i).takeWhile (· != 0) = helloText i :=
    List.takeWhile_eq_self_iff.mpr fun _ hc => helloText_ne_zero hc
  have hlen : (helloText i ++ [0]).length = (helloText i).length + 1 := by simp
  rw [← hself]
  apply Host.cString_eq (helloText_length_lt hi)
  · intro j hj
    rw [hbufs, Host.setBytes_bufs, if_pos ⟨rfl, Nat.zero_le j, by omega⟩, Nat.sub_zero,
      List.getD_eq_getElem _ _ (by omega), List.getD_eq_getElem _ _ hj, List.getElem_append_left hj]
  · rw [hbufs, Host.setBytes_bufs, if_pos ⟨rfl, Nat.zero_le _, by omega⟩, Nat.sub_zero]
    simp

/-- Source: `server.c` `esp_main`. Kind: L -/
theorem Host.setByte_bufs_of_ne {p q : Ptr} (hne : q ≠ p) (i : Nat) (c : UInt8) (h : Host) :
    (h.setByte p i c).bufs q = h.bufs q :=
  Function.update_of_ne hne _ _

/-- Reading the answer leaves the text that was sent alone. Source: `server.c` `esp_main`. Kind: L -/
theorem cString_hello_received (a : Arrival) (h : Host) :
    ((a.received stale h).setByte replyBuf a.frame.payload.length 0).cString helloBuf 1024 =
      h.cString helloBuf 1024 := by
  have hne : helloBuf ≠ replyBuf := by decide
  unfold Host.cString
  rw [Host.bytesAt_congr]
  intro j _
  rw [Host.setByte_bufs_of_ne hne, a.received_bufs, if_neg fun hj => hne hj.1]

/-- Source: `server.c` `esp_main`. Kind: P -/
theorem answer_ends (ch : UInt32) (i : Nat) (a : Arrival)
    (hhello : v.host.cString helloBuf 1024 = helloText i) :
    Ends Reads ((load fun w : World => w.host.uints chanVar).bind fun x =>
        (cAssert (x == ch) "x == ch").bind fun _ =>
          (terminate replyBuf 1024 a.frame.payload.length).bind fun _ =>
            (load fun w : World => w.host.cString replyBuf 1024).bind fun reply =>
              (load fun w : World => w.host.cString helloBuf 1024).bind fun hello =>
                if reply == hello then ret ()
                else raise (.panic "mismatch: have <%s>, expected <%s>\n" [.str reply, .str hello]))
      (v.on (a.received stale)) (turnVerdict ch i a)
      (fun v' => v'.rest = v.rest ∧ Wrote [] v.host v'.host) := by
  have hchan := @Arrival.received_channel stale a v.host
  have hwrote := @Arrival.received_wrote stale a v.host
  refine host_ends (f := fun h => h.uints chanVar) ?_
  unfold turnVerdict
  by_cases hch : a.channel = ch.toNat
  · have hx : ((v.on (a.received stale)).host.uints chanVar == ch) = true := by
      rw [beq_iff_eq]
      apply UInt32.toNat_inj.mp
      exact hchan.trans hch
    rw [if_neg (not_not_intro hch)]
    refine cAssert_ends hx ?_
    by_cases hfull : a.frame.payload.length = 1024
    · rw [if_pos hfull]
      have hge : ¬ a.frame.payload.length < 1024 := by
        rw [hfull]
        exact Nat.lt_irrefl 1024
      apply Ends.bind_error
      apply (terminate_full hge).mono
      rintro _ rfl
      exact ⟨rfl, hwrote⟩
    · have hlt : a.frame.payload.length < 1024 := Nat.lt_of_le_of_ne a.fits hfull
      rw [if_neg hfull]
      refine (terminate_ends hlt).seq ?_
      refine host_ends (f := fun h => h.cString replyBuf 1024) ?_
      refine host_ends (f := fun h => h.cString helloBuf 1024) ?_
      rw [show ((v.on (a.received stale)).on (Host.setByte replyBuf a.frame.payload.length 0)).host =
          (a.received stale v.host).setByte replyBuf a.frame.payload.length 0 by rfl,
        a.text_of_terminated v.host hlt, cString_hello_received, hhello]
      have hdone := hwrote.trans (wrote_setBytes replyBuf a.frame.payload.length [0] _)
      by_cases hsame : a.text = helloText i
      · rw [if_pos (beq_iff_eq.mpr hsame), if_pos hsame]
        exact .ret ⟨rfl, hdone⟩
      · rw [if_neg fun h => hsame (beq_iff_eq.mp h), if_neg hsame]
        exact .raise ⟨rfl, hdone⟩
  · have hx : ((v.on (a.received stale)).host.uints chanVar == ch) = false := by
      rw [beq_eq_false_iff_ne]
      rintro rfl
      exact hch hchan.symm
    rw [if_pos hch, hx]
    exact Ends.bind_error (.raise ⟨rfl, hwrote⟩)

/-- **A turn of the server** compares the answer with the text it has sent.
Source: `server.c` `esp_main`
Kind: P -/
theorem serverTrial_ends (ch : UInt32) (t : ServerTurn) (hi : t.i < 2 ^ 32) {tail : List UInt8}
    (hw : v.host.writeOk = true) (hr : v.rest = t.bytes ++ tail) :
    Ends Reads (serverTrial tgt stale ch t.i) v (turnVerdict ch t.i t.arrival)
      (fun v' => v'.rest = tail ∧ Wrote (message (helloText t.i)) v.host v'.host) := by
  have hstore := wrote_setBytes helloBuf 0 (helloText t.i ++ [0]) v.host
  have hne : helloText t.i ≠ [] := by simp [helloText, cstr]
  have hrest : v.rest = t.reply.bytes (cipsend 0 (UInt32.ofNat (helloText t.i).length)) ++
      (t.arrival.frame.bytes ++ tail) := by
    rw [hr, ServerTurn.bytes, List.append_assoc]
  refine onHost_ends ?_
  apply (sendString_ends (v := v.on (Host.setBytes helloBuf 0 (helloText t.i ++ [0])))
    (cString_hello hi fun _ => rfl) hne t.reply (hstore.writeOk.trans hw) hrest).bind
  rintro v₁ ⟨hturned, hbufs⟩
  have hhello : v₁.host.cString helloBuf 1024 = helloText t.i :=
    cString_hello (h := v.host) hi fun j => by
      rw [hbufs]
      rfl
  refine (receive_ends t.arrival hturned.rest).seq ?_
  rw [t.arrival.length_toNat]
  apply (answer_ends ch t.i t.arrival (v := v₁.seek tail) hhello).mono
  rintro v₂ ⟨htail, hwrote⟩
  refine ⟨htail, ?_⟩
  have hall := (hstore.trans hturned.wrote).trans hwrote
  rwa [List.append_nil, List.nil_append] at hall

/-- Source: `server.c` `esp_main`. Kind: L -/
theorem numbered_cons {i : Nat} {t : ServerTurn} {ts : List ServerTurn} :
    Numbered i (t :: ts) ↔ t.i = i ∧ Numbered (i + 1) ts := by
  unfold Numbered
  rw [List.map_cons, List.length_cons, List.range'_succ, List.cons.injEq]

/-- Source: `server.c` `esp_main`. Kind: P -/
theorem serverLoop_ends (ch : UInt32) (turns : List ServerTurn) {i : Nat} (hnum : Numbered i turns)
    (hk : i + turns.length ≤ 2 ^ 31) {tail : List UInt8} (hw : v.host.writeOk = true)
    (hr : v.rest = turns.flatMap ServerTurn.bytes ++ tail) :
    Ends Reads (serverLoop tgt stale ch i turns.length) v (serverVerdict ch turns)
      (fun v' => Wrote (serverSent ch turns) v.host v'.host) := by
  induction turns generalizing v i with
  | nil => exact .ret (Wrote.refl v.host)
  | cons t ts ih =>
      obtain ⟨rfl, hnum'⟩ := numbered_cons.mp hnum
      rw [List.length_cons] at hk
      rw [List.flatMap_cons, List.append_assoc] at hr
      have hturn : Ends Reads (serverTrial tgt stale ch t.i) v (turnVerdict ch t.i t.arrival) _ :=
        serverTrial_ends ch t (by omega) hw hr
      unfold serverVerdict serverSent serverLoop
      cases hv : turnVerdict ch t.i t.arrival with
      | ok u =>
          rw [hv] at hturn
          rw [if_pos rfl]
          apply hturn.bind
          rintro v₁ ⟨hrest, hwrote⟩
          apply (ih hnum' (by omega) (hwrote.writeOk.trans hw) hrest).mono
          intro v₂ hv₂
          exact hwrote.trans hv₂
      | error e =>
          rw [hv] at hturn
          rw [if_neg (by simp), List.append_nil]
          apply Ends.bind_error
          exact hturn.mono fun _ h => h.2

/-- The answer of turn `i` is the text sent. Source: `server.c` `esp_main`. Kind: D -/
structure Answered (ch : UInt32) (i : Nat) (a : Arrival) : Prop where
  channel : a.channel = ch.toNat
  room : a.frame.payload.length < 1024
  text : a.text = helloText i

/-- Source: `server.c` `esp_main`. Kind: L -/
theorem turnVerdict_ok_iff (ch : UInt32) (i : Nat) (a : Arrival) :
    turnVerdict ch i a = .ok () ↔ Answered ch i a := by
  unfold turnVerdict
  constructor
  · intro h
    split at h
    · cases h
    · next hch =>
      split at h
      · cases h
      · next hfull =>
        split at h
        · next htext =>
          exact ⟨not_not.mp hch, Nat.lt_of_le_of_ne a.fits hfull, htext⟩
        · cases h
  · intro h
    rw [if_neg (not_not_intro h.channel), if_neg (Nat.ne_of_lt h.room), if_pos h.text]

/-- Source: `server.c` `esp_main`. Kind: L -/
theorem serverVerdict_ok_iff (ch : UInt32) (turns : List ServerTurn) :
    serverVerdict ch turns = .ok () ↔ ∀ t ∈ turns, Answered ch t.i t.arrival := by
  induction turns with
  | nil => simp [serverVerdict]
  | cons t ts ih =>
      rw [List.forall_mem_cons, ← turnVerdict_ok_iff, ← ih, serverVerdict]
      cases turnVerdict ch t.i t.arrival with
      | ok u => simp
      | error e => simp

/-- Source: `server.c` `esp_main`. Kind: L -/
theorem serverSent_of_answered {ch : UInt32} {turns : List ServerTurn}
    (h : ∀ t ∈ turns, Answered ch t.i t.arrival) :
    serverSent ch turns = turns.flatMap fun t => message (helloText t.i) := by
  induction turns with
  | nil => rfl
  | cons t ts ih =>
      rw [List.forall_mem_cons] at h
      rw [List.flatMap_cons, serverSent, if_pos ((turnVerdict_ok_iff _ _ _).mpr h.1), ih h.2]

/-- What the server sends in its turn arrives at the client, and what the client sends back at the server.
Source: `client.c`, `server.c` `esp_main`
Kind: D -/
structure Delivered (ch : UInt32) (c : ClientTurn) (s : ServerTurn) : Prop where
  there : c.arrival.frame.payload = helloText s.i
  back : s.arrival.frame.payload = c.arrival.text
  channel : s.arrival.channel = ch.toNat

section

variable {ch : UInt32} {c : ClientTurn} {s : ServerTurn}

/-- Source: `client.c`, `server.c` `esp_main`. Kind: L -/
theorem takeWhile_helloText (i : Nat) : (helloText i).takeWhile (· != 0) = helloText i :=
  List.takeWhile_eq_self_iff.mpr fun _ hc => helloText_ne_zero hc

/-- Source: `client.c` `esp_main`. Kind: L -/
theorem Delivered.text (hdel : Delivered ch c s) : c.arrival.text = helloText s.i := by
  unfold Arrival.text
  rw [hdel.there, takeWhile_helloText]

/-- Source: `client.c` `esp_main`. Kind: L -/
theorem Delivered.echoed (hdel : Delivered ch c s) (hi : s.i < 2 ^ 32) :
    c.arrival.frame.payload.length ≠ 1024 ∧ c.arrival.text ≠ [] := by
  rw [hdel.there, hdel.text]
  refine ⟨Nat.ne_of_lt (helloText_length_lt hi), ?_⟩
  simp [helloText, cstr]

/-- Source: `server.c` `esp_main`. Kind: L -/
theorem Delivered.answered (hdel : Delivered ch c s) (hi : s.i < 2 ^ 32) :
    Answered ch s.i s.arrival := by
  have hback : s.arrival.frame.payload = helloText s.i := hdel.back.trans hdel.text
  refine ⟨hdel.channel, ?_, ?_⟩
  · rw [hback]
    exact helloText_length_lt hi
  · unfold Arrival.text
    rw [hback, takeWhile_helloText]

/-- Source: `client.c` `esp_main`. Kind: L -/
theorem client_of_delivered {clients : List ClientTurn} {servers : List ServerTurn}
    (hdel : List.Forall₂ (Delivered ch) clients servers) (hlt : ∀ s ∈ servers, s.i < 2 ^ 32) :
    clientVerdict clients = .ok () ∧
      clientSent clients = servers.flatMap fun t => message (helloText t.i) := by
  induction hdel with
  | nil => exact ⟨rfl, rfl⟩
  | cons hcs hrest ih =>
      rw [List.forall_mem_cons] at hlt
      obtain ⟨hfull, hnil⟩ := hcs.echoed hlt.1
      obtain ⟨hverdict, hsent⟩ := ih hlt.2
      constructor
      · rw [clientVerdict, if_neg hfull, if_neg hnil, hverdict]
      · rw [clientSent, if_neg (by rintro (h | h); exacts [hfull h, hnil h]), hsent, hcs.text,
          List.flatMap_cons]

/-- Source: `server.c` `esp_main`. Kind: L -/
theorem answered_of_delivered {clients : List ClientTurn} {servers : List ServerTurn}
    (hdel : List.Forall₂ (Delivered ch) clients servers) (hlt : ∀ s ∈ servers, s.i < 2 ^ 32) :
    ∀ s ∈ servers, Answered ch s.i s.arrival := by
  induction hdel with
  | nil => exact fun _ h => absurd h List.not_mem_nil
  | cons hcs hrest ih =>
      rw [List.forall_mem_cons] at hlt ⊢
      exact ⟨hcs.answered hlt.1, ih hlt.2⟩

end

/-- Source: `server.c` `esp_main`. Kind: L -/
theorem Numbered.lt {i : Nat} {turns : List ServerTurn} (hnum : Numbered i turns) {t : ServerTurn}
    (ht : t ∈ turns) : t.i < i + turns.length := by
  have hmem : t.i ∈ turns.map ServerTurn.i := List.mem_map_of_mem ht
  rw [hnum, List.mem_range'_1] at hmem
  exact hmem.2

/-- **The ping-pong completes**: when each side gets what the other has sent, both loops run through all
their turns, and each has sent the same texts, in order, and nothing else.
Source: `client.c`, `server.c` `esp_main`
Kind: P -/
theorem pingPong_completes (tgt tgt' : Target) (stale stale' : Nat → Ptr) (ch : UInt32)
    (clients : List ClientTurn) (servers : List ServerTurn)
    (hdel : List.Forall₂ (Delivered ch) clients servers) (hnum : Numbered 0 servers)
    (hk : servers.length ≤ 2 ^ 31) (host host' : Host) (hw : host.writeOk = true)
    (hw' : host'.writeOk = true) (input input' : List (List UInt8)) (hne : ∀ c ∈ input, c ≠ [])
    (hne' : ∀ c ∈ input', c ≠ []) (hin : input.flatten = clients.flatMap ClientTurn.bytes)
    (hin' : input'.flatten = servers.flatMap ServerTurn.bytes)
    (hsmall : input.flatten.length < lexMaxbuf) (hsmall' : input'.flatten.length < lexMaxbuf) :
    (∃ w, Runs (clientLoop tgt stale clients.length) (start input host) (.ok ()) w ∧
      w.host.sent = host.sent ++ servers.flatMap fun t => message (helloText t.i)) ∧
    (∃ w, Runs (serverLoop tgt' stale' ch 0 servers.length) (start input' host') (.ok ()) w ∧
      w.host.sent = host'.sent ++ servers.flatMap fun t => message (helloText t.i)) := by
  have hlt : ∀ s ∈ servers, s.i < 2 ^ 32 := fun s hs => by
    have hi := hnum.lt hs
    omega
  constructor
  · obtain ⟨hverdict, hsent⟩ := client_of_delivered hdel hlt
    have hflat : input.flatten = clients.flatMap ClientTurn.bytes ++ [] := by
      rw [List.append_nil, hin]
    have hends : Ends Reads (clientLoop tgt stale clients.length)
        ⟨input.flatten, input.flatten, host⟩ (clientVerdict clients)
        fun v' => Wrote (clientSent clients) host v'.host :=
      clientLoop_ends clients hw (congrArg _ hflat)
    obtain ⟨w, hrun, v, hv, hwrote⟩ := hends _ (start_reads hne hsmall host)
    rw [hverdict] at hrun
    refine ⟨w, hrun, ?_⟩
    rw [hv.host, ← hsent]
    exact hwrote.sent
  · have hgood := answered_of_delivered hdel hlt
    have hflat : input'.flatten = servers.flatMap ServerTurn.bytes ++ [] := by
      rw [List.append_nil, hin']
    have hends : Ends Reads (serverLoop tgt' stale' ch 0 servers.length)
        ⟨input'.flatten, input'.flatten, host'⟩ (serverVerdict ch servers)
        fun v' => Wrote (serverSent ch servers) host' v'.host :=
      serverLoop_ends ch servers hnum (by omega) hw' hflat
    obtain ⟨w, hrun, v, hv, hwrote⟩ := hends _ (start_reads hne' hsmall' host')
    rw [(serverVerdict_ok_iff ch servers).mpr hgood] at hrun
    refine ⟨w, hrun, ?_⟩
    rw [hv.host, ← serverSent_of_answered hgood]
    exact hwrote.sent

/-- Two turns. Source: `client.c`, `server.c` `esp_main`. Kind: L -/
theorem pingPong_completes_two :
    let clients : List ClientTurn :=
      [⟨.plain 0 (cstr "hello 0") (by decide) (by decide), .plain 7 (by decide)⟩,
        ⟨.plain 0 (cstr "hello 1") (by decide) (by decide), .plain 7 (by decide)⟩]
    let servers : List ServerTurn :=
      [⟨0, .plain 7 (by decide), .plain 0 (cstr "hello 0") (by decide) (by decide)⟩,
        ⟨1, .plain 7 (by decide), .plain 0 (cstr "hello 1") (by decide) (by decide)⟩]
    (∃ w, Runs (clientLoop .unix (fun _ => .user 9) clients.length)
      (start [clients.flatMap ClientTurn.bytes] espMk) (.ok ()) w ∧
      w.host.sent = espMk.sent ++ servers.flatMap fun t => message (helloText t.i)) ∧
    (∃ w, Runs (serverLoop .pi (fun _ => .user 9) 0 0 servers.length)
      (start [servers.flatMap ServerTurn.bytes] espMk) (.ok ()) w ∧
      w.host.sent = espMk.sent ++ servers.flatMap fun t => message (helloText t.i)) := by
  refine pingPong_completes .unix .pi _ _ 0 _ _ (.cons ⟨?_, ?_, rfl⟩ (.cons ⟨?_, ?_, rfl⟩ .nil)) ?_
    ?_ espMk espMk rfl rfl _ _ ?_ ?_ ?_ ?_ ?_ ?_
  case refine_5 => exact rfl
  all_goals decide +kernel

end Cs140e.Esp
