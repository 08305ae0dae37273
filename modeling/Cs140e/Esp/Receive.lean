import Cs140e.Esp.Scan
import Cs140e.Esp.Run

/-!
# `+IPD` receive framing

A frame is a header that the text matcher reads and a payload that `esp_is_recv` reads byte by byte
from the same lexer.

* `Frame` — the bytes of one frame; `Receipt` — a frame with the arguments of the call that is to
  receive it.
* `ipd_ends` — the header, exactly through its `:`. `recvLoop_ends` — the payload.
* `recvHeader_ends` — a call behind its header; `espIsRecv_ends` — one call. `Receives` — what a
  sequence of calls should do; `receives_frames`: it does it, for every list of frames and every
  cutting.
-/

namespace Cs140e.Esp

open Cs140e.Lib Cs140e.Lib.Prog

/-- One frame. Source: `esp-commands.c` `esp_is_recv`. Kind: D -/
structure Frame where
  /-- Blank lines in front of the header. -/
  blank : List UInt8
  /-- The numeral of the channel. -/
  ch : List UInt8
  /-- The numeral of the length. -/
  len : List UInt8
  payload : List UInt8

/-- The bytes of a frame. Source: `esp-commands.c` `"+IPD,%u,%u:"`. Kind: D -/
def Frame.bytes (f : Frame) : List UInt8 :=
  f.blank ++ cstr "+IPD," ++ f.ch ++ cstr "," ++ f.len ++ cstr ":" ++ f.payload

/-- A frame and the call that is to receive it: `esp_is_recv(e, ch, data, maxbytes)`.
Source: `esp-commands.c` `esp_is_recv`
Kind: D -/
structure Receipt where
  frame : Frame
  /-- The address passed as `ch`. -/
  ch : Nat
  /-- The address passed as `data`. -/
  data : Ptr
  maxbytes : UInt32
  /-- The number the channel's numeral stands for. -/
  channel : Nat
  blank_ok : ∀ c ∈ frame.blank, isBlankCh c = true
  channel_ok : Numeral frame.ch channel
  len_ok : Numeral frame.len frame.payload.length
  payload_ok : 1 ≤ frame.payload.length
  fits : frame.payload.length ≤ maxbytes.toNat

/-- The payload stored from `m[i]` on. Source: `esp-commands.c` `m[i] = lex_getc(e->l)`. Kind: D -/
def Host.setBytes (m : Ptr) : Nat → List UInt8 → Host → Host
  | _, [], h => h
  | i, c :: cs, h => Host.setBytes m (i + 1) cs (h.setByte m i c)

/-- Source: `esp-commands.c` `m[i] = lex_getc(e->l)`. Kind: L -/
@[simp] theorem Host.setByte_uints (m : Ptr) (i : Nat) (c : UInt8) (h : Host) :
    (h.setByte m i c).uints = h.uints := rfl

/-- Storing bytes leaves the words alone. Source: `esp-commands.c` `m[i] = lex_getc(e->l)`.
Kind: L -/
@[simp] theorem Host.setBytes_uints (m : Ptr) (i : Nat) (cs : List UInt8) (h : Host) :
    (h.setBytes m i cs).uints = h.uints := by
  induction cs generalizing i h with
  | nil => rfl
  | cons c cs ih => rw [Host.setBytes, ih, Host.setByte_uints]

/-- The bytes stored, and nothing else. Source: `esp-commands.c` `m[i] = lex_getc(e->l)`. Kind: P -/
theorem Host.setBytes_bufs (m p : Ptr) (i j : Nat) (cs : List UInt8) (h : Host) :
    (h.setBytes m i cs).bufs p j =
      if p = m ∧ i ≤ j ∧ j < i + cs.length then cs.getD (j - i) 0 else h.bufs p j := by
  induction cs generalizing i h with
  | nil =>
      rw [if_neg (by rintro ⟨-, h₁, h₂⟩; exact absurd h₂ (Nat.not_lt.mpr h₁))]
      rfl
  | cons c cs ih =>
      rw [Host.setBytes, ih, List.length_cons]
      by_cases hp : p = m
      · subst hp
        simp only [true_and, Host.setByte, Function.update_self]
        by_cases hj : j = i
        · subst hj
          have hout : ¬ (j + 1 ≤ j ∧ j < j + 1 + cs.length) := by omega
          have hin : j ≤ j ∧ j < j + (cs.length + 1) := by omega
          rw [if_neg hout, if_pos hin, Function.update_self, Nat.sub_self, List.getD_cons_zero]
        · have hiff : (i + 1 ≤ j ∧ j < i + 1 + cs.length) ↔ (i ≤ j ∧ j < i + (cs.length + 1)) := by
            omega
          rw [if_congr hiff rfl rfl, Function.update_of_ne hj]
          split
          · next hin =>
            obtain ⟨k, rfl⟩ : ∃ k, j = i + 1 + k := ⟨j - (i + 1), by omega⟩
            have hk : i + 1 + k - i = k + 1 := by omega
            rw [hk, List.getD_cons_succ, Nat.add_sub_cancel_left]
          · rfl
      · simp [hp, Host.setByte]

variable {tgt : Target} {stale : Nat → Ptr} {v : View} {r : List UInt8}

/-- The payload is read byte by byte, whatever the bytes are. Source: `esp-commands.c`
`esp_is_recv`. Kind: P -/
theorem recvLoop_ends {m : Ptr} {i : Nat} {payload : List UInt8} (hr : v.rest = payload ++ r) :
    Ends Reads (recvLoop m payload.length i) v (.ok ())
      (· = (v.seek r).on (Host.setBytes m i payload)) := by
  induction payload generalizing v i with
  | nil =>
      have hv : (v.seek r).on (Host.setBytes m i []) = v := by
        rw [← show v.rest = r from hr]
        rfl
      rw [hv]
      exact .ret rfl
  | cons c cs ih =>
      refine (lexGetc_ends (show v.rest = c :: (cs ++ r) from hr)).seq (onHost_ends ?_)
      exact ih (v := (v.seek (cs ++ r)).on (Host.setByte m i c)) rfl

/-- The memory after the header: two arguments taken, two words stored.
Source: `esp-commands.c` `match(e->l, "+IPD,%u,%u:", ch, &nbytes)`
Kind: D -/
def Host.ipd (va : Nat → Ptr) (ch len : List UInt8) (h : Host) : Host :=
  (((h.readArg 0).setUint (va 0) (uintValue 0 ch)).readArg 1).setUint (va 1) (uintValue 0 len)

/-- **The header** is read exactly through its `:`.
Source: `esp-commands.c` `match(e->l, "+IPD,%u,%u:", ch, &nbytes)`
Kind: P -/
theorem ipd_ends (va : Nat → Ptr) {ch len : List UInt8} (hch : Digits ch) (hlen : Digits len)
    (hr : v.rest.dropWhile isBlankCh = cstr "+IPD," ++ ch ++ cstr "," ++ len ++ cstr ":" ++ r) :
    Ends Reads (matchPartial tgt (cstr "+IPD,%u,%u:") va) v (.ok true)
      (· = (v.seek r).on (Host.ipd va ch len)) := by
  have hhead : cstr "+IPD," ++ ch ++ cstr "," ++ len ++ cstr ":" ++ r =
      43 :: (cstr "IPD," ++ (ch ++ 44 :: (len ++ 58 :: r))) := by
    simp [cstr]
  have hfmt : cstr "+IPD,%u,%u:" =
      cstr "+IPD," ++ 37 :: 117 :: ([44] ++ 37 :: 117 :: ([58] ++ [])) := by decide
  rw [hhead] at hr
  refine Ends.bind (a := (true, 2)) (Q := (· = (v.seek r).on (Host.ipd va ch len))) ?_
    fun _ h => .ret h
  refine lexGetCkpt_ends fun _ => skipToText_ends hr ?_
  refine Ends.bind (a := (true, ⟨[], true, 2⟩)) (Q := (· = (v.seek r).on (Host.ipd va ch len))) ?_
    (by rintro _ rfl; exact .ret rfl)
  generalize hs : cstr "+IPD,%u,%u:" = fmtString at hfmt ⊢
  have hmust : (false || ([44] ++ 37 :: 117 :: ([58] ++ []) : List UInt8).length + 2 !=
      fmtString.length) = true := by
    rw [hfmt]
    rfl
  rw [show (⟨fmtString, false, 0⟩ : ScanState) = ⟨cstr "+IPD," ++ 37 :: 117 :: ([44] ++ 37 :: 117 ::
    ([58] ++ [])), false, 0⟩ by rw [← hfmt]]
  -- the text, the two numerals and what stands behind them
  refine scan_lits (by decide) rfl ?_
  refine scan_uint hch (by decide) rfl ?_
  rw [afterArg, hmust]
  refine scan_lits (by decide : ∀ c ∈ [44], isPlain c = true) rfl ?_
  refine scan_uint hlen (by decide) rfl ?_
  rw [afterArg, Bool.true_or]
  refine scan_lits (by decide : ∀ c ∈ [58], isPlain c = true) rfl ?_
  exact scan_end

/-- The memory after a receipt. Source: `esp-commands.c` `esp_is_recv`. Kind: D -/
def Receipt.after (stale : Nat → Ptr) (x : Receipt) (h : Host) : Host :=
  (h.ipd (vaStart stale [.user x.ch, .nbytes]) x.frame.ch x.frame.len).setBytes x.data 0
    x.frame.payload

/-- `lex_panic` in `esp_is_recv`. Source: `esp-commands.c` `esp_is_recv`. Kind: D -/
def tooLong (nbytes maxbytes : UInt32) : Stop :=
  .panic "message is %d bytes long, we have %d space avail\n"
    [.num nbytes.toNat, .num maxbytes.toNat]

variable (tgt stale) in
/-- `esp_is_recv` behind a header: the length it goes on with is what `match_uint` has stored.
Source: `esp-commands.c` `esp_is_recv`
Kind: P -/
theorem recvHeader_ends (ch data : Ptr) (maxbytes : UInt32) {chan len : List UInt8}
    {o : Except Stop UInt32} {Q : View → Prop} (hchan : Digits chan) (hlen : Digits len)
    (hr : v.rest.dropWhile isBlankCh = cstr "+IPD," ++ chan ++ cstr "," ++ len ++ cstr ":" ++ r)
    (hk : Ends Reads (if uintValue 0 len > 0 then
        if uintValue 0 len > maxbytes then raise (tooLong (uintValue 0 len) maxbytes)
        else (recvLoop data (uintValue 0 len).toNat 0).bind fun _ => ret (uintValue 0 len)
      else raise (.assert "nbytes>0"))
      ((v.seek r).on (Host.ipd (vaStart stale [ch, .nbytes]) chan len)) o Q) :
    Ends Reads (espIsRecv tgt stale ch data maxbytes) v o Q := by
  refine (ipd_ends (vaStart stale [ch, .nbytes]) hchan hlen hr).seq ?_
  refine host_ends (f := fun h => h.uints .nbytes) ?_
  rw [show ((v.seek r).on (Host.ipd (vaStart stale [ch, .nbytes]) chan len)).host.uints .nbytes =
    uintValue 0 len by simp [Host.ipd, vaStart]]
  by_cases hpos : uintValue 0 len > 0
  · rw [if_pos hpos] at hk
    exact cAssert_ends (by simpa using hpos) hk
  · rw [if_neg hpos] at hk
    unfold cAssert check
    rw [decide_eq_false hpos]
    exact hk

variable (tgt stale) in
/-- **One call of `esp_is_recv`** takes one frame.
Source: `esp-commands.c` `esp_is_recv`
Kind: P -/
theorem espIsRecv_ends (x : Receipt) (hr : v.rest = x.frame.bytes ++ r) :
    Ends Reads (espIsRecv tgt stale (.user x.ch) x.data x.maxbytes) v
      (.ok (UInt32.ofNat x.frame.payload.length)) (· = (v.seek r).on (x.after stale)) := by
  have hlen := x.len_ok
  have hnat := hlen.toNat
  have hpos := x.payload_ok
  have hfits := x.fits
  -- the header
  have hhead : v.rest.dropWhile isBlankCh = cstr "+IPD," ++ x.frame.ch ++ cstr "," ++
      x.frame.len ++ cstr ":" ++ (x.frame.payload ++ r) := by
    rw [hr, Frame.bytes]
    simp only [List.append_assoc]
    exact dropWhile_append_cons x.blank_ok (by decide)
  refine recvHeader_ends tgt stale _ _ _ x.channel_ok.digits hlen.digits hhead ?_
  -- the length it stored
  have hvalue : uintValue 0 x.frame.len = UInt32.ofNat x.frame.payload.length :=
    UInt32.toNat_inj.mp (by rw [hnat, UInt32.toNat_ofNat_of_lt' hlen.lt])
  have hle : ¬ uintValue 0 x.frame.len > x.maxbytes := by
    rw [gt_iff_lt, UInt32.lt_iff_toNat_lt, hnat]
    omega
  have hzero : uintValue 0 x.frame.len > 0 := by
    rw [gt_iff_lt, UInt32.lt_iff_toNat_lt, hnat, UInt32.toNat_zero]
    omega
  rw [if_pos hzero, if_neg hle, hnat]
  refine (recvLoop_ends (v := (v.seek (x.frame.payload ++ r)).on _) rfl).seq ?_
  rw [hvalue]
  exact .ret rfl

/-- Successive calls take the frames one by one: each returns the length of its frame, stores the
channel and exactly the payload, and leaves the lexer behind the frame.
Source: `esp-commands.c` `esp_is_recv`
Kind: D -/
def Receives (tgt : Target) (stale : Nat → Ptr) (tail : List UInt8) : List Receipt → World → Prop
  | [], w => w.unread = tail
  | x :: xs, w => ∃ n w', Runs (espIsRecv tgt stale (.user x.ch) x.data x.maxbytes) w (.ok n) w' ∧
      n.toNat = x.frame.payload.length ∧
      (w'.host.uints (.user x.ch)).toNat = x.channel ∧
      (∀ a, a ≠ x.ch → w'.host.uints (.user a) = w.host.uints (.user a)) ∧
      (∀ p j, w'.host.bufs p j = if p = x.data ∧ j < x.frame.payload.length
        then x.frame.payload.getD j 0 else w.host.bufs p j) ∧
      Receives tgt stale tail xs w'

/-- The calls take the frames from wherever the lexer is. Source: `esp-commands.c` `esp_is_recv`.
Kind: P -/
theorem receives_of_reads (xs : List Receipt) (tail : List UInt8) {w : World} (h : Reads v w)
    (hr : v.rest = xs.flatMap (fun x => x.frame.bytes) ++ tail) :
    Receives tgt stale tail xs w := by
  induction xs generalizing v w with
  | nil => exact h.unread.trans hr
  | cons x xs ih =>
      rw [List.flatMap_cons, List.append_assoc] at hr
      obtain ⟨w', hrun, v', hv', rfl⟩ := espIsRecv_ends tgt stale x hr w h
      have hhost : w'.host = x.after stale w.host := by rw [hv'.host, h.host]; rfl
      refine ⟨_, w', hrun, UInt32.toNat_ofNat_of_lt' x.len_ok.lt, ?_, ?_, ?_, ih hv' rfl⟩
      · rw [hhost]
        simp [Receipt.after, Host.ipd, vaStart, Host.setUint, Host.readArg, x.channel_ok.toNat]
      · intro a ha
        rw [hhost]
        simp [Receipt.after, Host.ipd, vaStart, Host.setUint, Host.readArg, ha]
      · intro p j
        rw [hhost, Receipt.after, Host.setBytes_bufs]
        simp [Host.ipd, Host.setUint, Host.readArg]

/-- **`+IPD` receive framing**: for every list of frames and every cutting of the stream,
successive calls of `esp_is_recv` deliver the frames and stop right behind the last one.
Source: `esp-commands.c` `esp_is_recv`
Kind: P -/
theorem receives_frames (tgt : Target) (stale : Nat → Ptr) (xs : List Receipt)
    (tail : List UInt8) (host : Host) (input : List (List UInt8)) (hne : ∀ c ∈ input, c ≠ [])
    (hin : input.flatten = xs.flatMap (fun x => x.frame.bytes) ++ tail)
    (hsmall : input.flatten.length < lexMaxbuf) :
    Receives tgt stale tail xs (start input host) :=
  receives_of_reads xs tail (start_reads hne hsmall host) hin

/-- A frame whose payload looks like another header. Source: `esp-commands.c` `esp_is_recv`.
Kind: D -/
def headerInPayload : Receipt where
  frame := ⟨cstr "\r\n", cstr "1", cstr "10", cstr "\r\n+IPD,2,3"⟩
  ch := 0
  data := .user 1
  maxbytes := 64
  channel := 1
  blank_ok := by decide
  channel_ok := ⟨by decide, by decide, by decide, by decide⟩
  len_ok := ⟨by decide, by decide, by decide, by decide⟩
  payload_ok := by decide
  fits := by decide

/-- Source: `esp-commands.c` `esp_is_recv`. Kind: L -/
theorem receives_frames_header : Receives .unix (fun _ => .user 9) (cstr "\r\n") [headerInPayload]
    (start [cstr "\r", cstr "\n+IPD,1,1", cstr "0:\r\n+IPD,2,3\r\n"] espMk) :=
  receives_frames .unix _ [headerInPayload] _ espMk _ (by decide) (by decide) (by decide)

end Cs140e.Esp
