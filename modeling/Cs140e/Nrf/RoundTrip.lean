import Cs140e.Nrf.Msg2

/-!
# Radio messages: puts and the matching gets

* `Item` — a typed put; `Item.bytes` is what it puts (`put_wrote`), `Item.got` what the matching get
  makes of that (`get_left`). They differ for 24 bits: the put is little-endian, the get is not.
* `roundTrip_eq` — any sequence of puts and the matching gets, by induction on the sequence.
* `roundTrip_iff` — the values come back if and only if every 24-bit one reads the same both ways.
-/

namespace Cs140e.Nrf

open Cs140e.Lib

/-- A put, with its value. Source: `msg2.h` `msg_put8`, `msg_put16`, `msg_put24`, `msg_put32`,
`msg_put_n`. Kind: D -/
inductive Item where
  | put8 (x : UInt8)
  | put16 (x : UInt16)
  | put24 (x : UInt32)
  | put32 (x : UInt32)
  | putN (src : List UInt8)
  deriving DecidableEq

namespace Item

/-- Source: `msg2.h` `msg_put8`, `msg_put16`, `msg_put24`, `msg_put32`, `msg_put_n`. Kind: D -/
def put (m : MsgSend) : Item → Except Stop MsgSend
  | put8 x => msgPut8 m x
  | put16 x => msgPut16 m x
  | put24 x => msgPut24 m x
  | put32 x => msgPut32 m x
  | putN src => msgPutN m src

/-- The matching get; its value is returned as the put that it would match.
Source: `msg2.h` `msg_get8`, `msg_get16`, `msg_get24`, `msg_get32`, `msg_get_n`
Kind: D -/
def get (m : MsgRecv) : Item → Except Stop (Item × MsgRecv)
  | put8 _ => do
    let (x, m) ← msgGet8 m
    return (put8 x, m)
  | put16 _ => do
    let (x, m) ← msgGet16 m
    return (put16 x, m)
  | put24 _ => do
    let (x, m) ← msgGet24 m
    return (put24 x, m)
  | put32 _ => do
    let (x, m) ← msgGet32 m
    return (put32 x, m)
  | putN src => do
    let (out, m) ← msgGetN m (UInt32.ofNat src.length)
    return (putN out, m)

/-- The value is in range, and there is at least one byte. Source: `msg2.h` `msg_put24`.
Kind: D -/
def InRange : Item → Prop
  | put24 x => x.toNat < 2 ^ 24
  | putN src => src ≠ []
  | _ => True

instance : DecidablePred InRange
  | put24 x => inferInstanceAs (Decidable (x.toNat < 2 ^ 24))
  | putN src => inferInstanceAs (Decidable (src ≠ []))
  | put8 _ | put16 _ | put32 _ => .isTrue trivial

/-- Source: `msg2.h`. Kind: D -/
def size : Item → Nat
  | put8 _ => 1
  | put16 _ => 2
  | put24 _ => 3
  | put32 _ => 4
  | putN src => src.length

end Item

/-- The gets that match some puts, in the same order. Source: `tests/0-test-msg2.c`. Kind: D -/
def gets (m : MsgRecv) : List Item → Except Stop (List Item × MsgRecv)
  | [] => return ([], m)
  | x :: xs => do
    let (y, m) ← x.get m
    let (ys, m) ← gets m xs
    return (y :: ys, m)

/-- Puts on a new message, the conversion, the matching gets, and the number of bytes left.
Source: `tests/0-test-msg2.c`
Kind: D -/
def roundTrip (maxbytes : UInt32) (xs : List Item) : Except Stop (List Item × UInt32) := do
  let m ← xs.foldlM Item.put (msgSendMk maxbytes)
  let r ← msgSendToRecv m
  let (ys, r) ← gets r xs
  let n ← msgNbytesGet r
  return (ys, n)

/-! ## One put and its get -/

/-- A number of 24 bits with its first and last byte exchanged. Source: `msg2.h` `msg_get24`.
Kind: D -/
def swap24 (x : UInt32) : UInt32 :=
  UInt32.ofNat (x.toNat % 256 * 65536 + x.toNat / 256 % 256 * 256 + x.toNat / 65536 % 256)

/-- Source: `msg2.h` `msg_get24`. Kind: L -/
theorem swap24_toNat (x : UInt32) : (swap24 x).toNat =
    x.toNat % 256 * 65536 + x.toNat / 256 % 256 * 256 + x.toNat / 65536 % 256 := by
  have hlt : x.toNat % 256 * 65536 + x.toNat / 256 % 256 * 256 + x.toNat / 65536 % 256 < 2 ^ 32 := by
    omega
  exact UInt32.toNat_ofNat_of_lt' hlt

namespace Item

/-- The bytes that are put. Source: `msg2.h`. Kind: D -/
def bytes : Item → List UInt8
  | put8 x => [x]
  | put16 x => leBytes 2 x.toNat
  | put24 x => leBytes 3 x.toNat
  | put32 x => leBytes 4 x.toNat
  | putN src => src

/-- What the matching get returns. Source: `msg2.h`. Kind: D -/
def got : Item → Item
  | put24 x => put24 (swap24 x)
  | x => x

/-- Source: `msg2.h`. Kind: L -/
theorem bytes_length (x : Item) : x.bytes.length = x.size := by
  cases x <;> simp [bytes, size]

/-- Source: `msg2.h`. Kind: L -/
theorem size_pos {x : Item} (h : x.InRange) : 0 < x.size := by
  cases x with
  | putN src => exact List.length_pos_iff.mpr h
  | _ => simp [size]

end Item

variable {m : MsgSend} {r : MsgRecv} {bs : List UInt8}

/-- A 24-bit put. Source: `msg2.h` `msg_put24`. Kind: P -/
theorem msgPut24_wrote {x : UInt32} (h : Wrote m bs) (hx : x.toNat < 2 ^ 24)
    (hfit : bs.length + 3 ≤ m.maxbytes.toNat) :
    ∃ m', msgPut24 m x = .ok m' ∧ Wrote m' (bs ++ leBytes 3 x.toNat) ∧ m'.maxbytes = m.maxbytes := by
  have hassert : x >>> 24 = 0 := by
    apply UInt32.toNat_inj.mp
    rw [UInt32.toNat_shiftRight, Nat.shiftRight_eq_div_pow]
    exact Nat.div_eq_of_lt hx
  obtain ⟨m₁, h₁, hw₁, hmax₁⟩ := msgPutN_wrote [((x >>> 0) &&& 0xff).toUInt8] h (by simp)
    (by simp; omega)
  obtain ⟨m₂, h₂, hw₂, hmax₂⟩ := msgPutN_wrote [((x >>> 8) &&& 0xff).toUInt8] hw₁ (by simp)
    (by simp [hmax₁]; omega)
  obtain ⟨m₃, h₃, hw₃, hmax₃⟩ := msgPutN_wrote [((x >>> 16) &&& 0xff).toUInt8] hw₂ (by simp)
    (by simp [hmax₂, hmax₁]; omega)
  refine ⟨m₃, ?_, ?_, by rw [hmax₃, hmax₂, hmax₁]⟩
  · simp only [msgPut24, hassert, msgPut8, h₁, h₂, h₃, bind, Except.bind]
    rfl
  · have hbytes : [((x >>> 0) &&& 0xff).toUInt8, ((x >>> 8) &&& 0xff).toUInt8,
        ((x >>> 16) &&& 0xff).toUInt8] = leBytes 3 x.toNat := by
      simp only [byte_of_word, leBytes, Nat.div_div_eq_div_mul]
      simp
    rw [← hbytes]
    simpa using hw₃

/-- **A put** appends the bytes of its value. Source: `msg2.h`. Kind: P -/
theorem put_wrote {x : Item} (h : Wrote m bs) (hx : x.InRange)
    (hfit : bs.length + x.size ≤ m.maxbytes.toNat) :
    ∃ m', x.put m = .ok m' ∧ Wrote m' (bs ++ x.bytes) ∧ m'.maxbytes = m.maxbytes := by
  cases x with
  | put8 x => exact msgPutN_wrote [x] h (by simp) hfit
  | put16 x => exact msgPutN_wrote (leBytes 2 x.toNat) h (by simp [leBytes]) hfit
  | put24 x => exact msgPut24_wrote h hx hfit
  | put32 x => exact msgPutN_wrote (leBytes 4 x.toNat) h (by simp [leBytes]) hfit
  | putN src => exact msgPutN_wrote src h hx hfit

/-- A byte that is left. Source: `msg2.h` `msg_get8`. Kind: L -/
theorem msgGet8_left {b : UInt8} (h : Left r (b :: bs)) :
    ∃ r', msgGet8 r = .ok (b, r') ∧ Left r' bs := by
  obtain ⟨r', hget, hleft⟩ := msgGetN_left [b] h
  have hget' : msgGetN r 1 = .ok ([b], r') := hget
  refine ⟨r', ?_, hleft⟩
  simp [msgGet8, hget', leValue, bind, Except.bind, pure, Except.pure]

/-- A 24-bit get of what a 24-bit put has put. Source: `msg2.h` `msg_get24`. Kind: P -/
theorem msgGet24_left {x : UInt32} (h : Left r (leBytes 3 x.toNat ++ bs)) :
    ∃ r', msgGet24 r = .ok (swap24 x, r') ∧ Left r' bs := by
  obtain ⟨r₁, h₁, hl₁⟩ := msgGet8_left h
  obtain ⟨r₂, h₂, hl₂⟩ := msgGet8_left hl₁
  obtain ⟨r₃, h₃, hl₃⟩ := msgGet8_left hl₂
  have hvalue : (0 : UInt32) ||| (UInt8.ofNat x.toNat).toUInt32 <<< 16 |||
      (UInt8.ofNat (x.toNat / 256)).toUInt32 <<< 8 |||
      (UInt8.ofNat (x.toNat / 256 / 256)).toUInt32 <<< 0 = swap24 x := by
    have hword := word_toNat (UInt8.ofNat (x.toNat / 256 / 256)) (UInt8.ofNat (x.toNat / 256))
      (UInt8.ofNat x.toNat) 0
    have hor : (0 : UInt32) ||| (UInt8.ofNat x.toNat).toUInt32 <<< 16 |||
        (UInt8.ofNat (x.toNat / 256)).toUInt32 <<< 8 |||
        (UInt8.ofNat (x.toNat / 256 / 256)).toUInt32 <<< 0 =
        (UInt8.ofNat (x.toNat / 256 / 256)).toUInt32 ||| (UInt8.ofNat (x.toNat / 256)).toUInt32 <<< 8 |||
          (UInt8.ofNat x.toNat).toUInt32 <<< 16 ||| (0 : UInt8).toUInt32 <<< 24 := by
      rw [show (0 : UInt8).toUInt32 <<< 24 = 0 from rfl, UInt32.shiftLeft_zero, UInt32.zero_or,
        UInt32.or_zero, UInt32.or_comm, UInt32.or_comm ((UInt8.ofNat x.toNat).toUInt32 <<< 16),
        UInt32.or_assoc]
    apply UInt32.toNat_inj.mp
    rw [hor, hword, swap24_toNat]
    simp only [leValue, UInt8.toNat_ofNat', UInt8.toNat_zero]
    omega
  refine ⟨r₃, ?_, hl₃⟩
  rw [← hvalue]
  simp [msgGet24, h₁, h₂, h₃, bind, Except.bind, pure, Except.pure]

/-- **A get** takes the bytes of the put it matches. Source: `msg2.h`. Kind: P -/
theorem get_left {x : Item} (h : Left r (x.bytes ++ bs)) :
    ∃ r', x.get r = .ok (x.got, r') ∧ Left r' bs := by
  cases x with
  | put8 x =>
      obtain ⟨r', hget, hleft⟩ := msgGet8_left h
      exact ⟨r', by simp [Item.get, Item.got, hget, bind, Except.bind, pure, Except.pure], hleft⟩
  | put16 x =>
      obtain ⟨r', hget, hleft⟩ := msgGetN_left (leBytes 2 x.toNat) h
      have hget' : msgGetN r 2 = .ok (leBytes 2 x.toNat, r') := hget
      have hvalue : UInt16.ofNat (leValue (leBytes 2 x.toNat)) = x := by
        rw [leValue_leBytes_of_lt (n := 2) x.toNat_lt, UInt16.ofNat_toNat]
      refine ⟨r', ?_, hleft⟩
      simp [Item.get, Item.got, msgGet16, hget', hvalue, bind, Except.bind, pure, Except.pure]
  | put24 x =>
      obtain ⟨r', hget, hleft⟩ := msgGet24_left h
      exact ⟨r', by simp [Item.get, Item.got, hget, bind, Except.bind, pure, Except.pure], hleft⟩
  | put32 x =>
      obtain ⟨r', hget, hleft⟩ := msgGetN_left (leBytes 4 x.toNat) h
      have hget' : msgGetN r 4 = .ok (leBytes 4 x.toNat, r') := hget
      have hvalue : UInt32.ofNat (leValue (leBytes 4 x.toNat)) = x := by
        rw [leValue_leBytes_of_lt (n := 4) x.toNat_lt, UInt32.ofNat_toNat]
      refine ⟨r', ?_, hleft⟩
      simp [Item.get, Item.got, msgGet32, hget', hvalue, bind, Except.bind, pure, Except.pure]
  | putN src =>
      obtain ⟨r', hget, hleft⟩ := msgGetN_left src h
      exact ⟨r', by simp [Item.get, Item.got, hget, bind, Except.bind, pure, Except.pure], hleft⟩

/-! ## Sequences -/

/-- **The puts** append the bytes of their values. Source: `msg2.h`. Kind: P -/
theorem puts_wrote {xs : List Item} (h : Wrote m bs) (hxs : ∀ x ∈ xs, x.InRange)
    (hfit : bs.length + (xs.map Item.size).sum ≤ m.maxbytes.toNat) :
    ∃ m', xs.foldlM Item.put m = .ok m' ∧ Wrote m' (bs ++ xs.flatMap Item.bytes) := by
  induction xs generalizing m bs with
  | nil => exact ⟨m, rfl, by simpa using h⟩
  | cons x xs ih =>
      rw [List.map_cons, List.sum_cons] at hfit
      obtain ⟨m₁, hput, hw, hmax⟩ := put_wrote h (hxs x List.mem_cons_self) (by omega)
      obtain ⟨m₂, hputs, hw₂⟩ := ih hw (fun y hy => hxs y (List.mem_cons_of_mem _ hy))
        (by rw [hmax, List.length_append, Item.bytes_length]; omega)
      refine ⟨m₂, ?_, by simpa using hw₂⟩
      simp [List.foldlM_cons, hput, hputs, bind, Except.bind]

/-- **The matching gets** take them. Source: `msg2.h`. Kind: P -/
theorem gets_left {xs : List Item} (h : Left r (xs.flatMap Item.bytes)) :
    ∃ r', gets r xs = .ok (xs.map Item.got, r') ∧ Left r' [] := by
  induction xs generalizing r with
  | nil => exact ⟨r, rfl, h⟩
  | cons x xs ih =>
      obtain ⟨r₁, hget, hl⟩ := get_left (x := x) h
      obtain ⟨r₂, hgets, hl₂⟩ := ih hl
      exact ⟨r₂, by simp [gets, hget, hgets, bind, Except.bind, pure, Except.pure], hl₂⟩

/-- **Every sequence of puts goes through**, and comes back with its 24-bit values swapped.
Source: `msg2.h`
Kind: P -/
theorem roundTrip_eq {maxbytes : UInt32} (hmax : maxbytes.toNat ≤ nrfMaxpkt) {xs : List Item}
    (hne : xs ≠ []) (hxs : ∀ x ∈ xs, x.InRange)
    (hfit : (xs.map Item.size).sum ≤ maxbytes.toNat) :
    roundTrip maxbytes xs = .ok (xs.map Item.got, 0) := by
  obtain ⟨m, hputs, hw⟩ := puts_wrote (msgSendMk_wrote hmax) hxs
    (by simpa [msgSendMk] using hfit)
  rw [List.nil_append] at hw
  have hlen : (xs.flatMap Item.bytes).length = (xs.map Item.size).sum := by
    rw [List.length_flatMap]
    simp only [Item.bytes_length]
  have hbytes : xs.flatMap Item.bytes ≠ [] := by
    obtain ⟨x, xs, rfl⟩ := List.exists_cons_of_ne_nil hne
    have hpos := Item.size_pos (hxs x List.mem_cons_self)
    intro h
    rw [h, List.map_cons, List.sum_cons, List.length_nil] at hlen
    omega
  obtain ⟨r, hrecv, hl⟩ := msgSendToRecv_left hw hbytes (by omega)
  obtain ⟨r', hgets, hl'⟩ := gets_left hl
  have hoff : r'.getOff = r'.nbytes := UInt32.toNat_inj.mp (by simpa using hl'.off)
  simp [roundTrip, hputs, hrecv, hgets, msgNbytesGet, hl'.nonempty, hoff, bind, Except.bind, pure,
    Except.pure]

/-- A 24-bit value survives when its first and last byte are equal. Source: `msg2.h` `msg_get24`.
Kind: L -/
theorem swap24_eq_iff {x : UInt32} :
    swap24 x = x ↔ x.toNat % 256 = x.toNat / 65536 := by
  have hdiv : x.toNat / 65536 = x.toNat / 256 / 256 := by rw [Nat.div_div_eq_div_mul]
  rw [← UInt32.toNat_inj, swap24_toNat, hdiv]
  omega

/-- **Typed radio messages**: doing the puts, the conversion and the matching gets never panics,
leaves nothing, and returns the values if and only if every 24-bit value has equal first and last
bytes.
Source: `msg2.h`
Kind: P -/
theorem roundTrip_iff {maxbytes : UInt32} (hmax : maxbytes.toNat ≤ nrfMaxpkt) {xs : List Item}
    (hne : xs ≠ []) (hxs : ∀ x ∈ xs, x.InRange)
    (hfit : (xs.map Item.size).sum ≤ maxbytes.toNat) :
    roundTrip maxbytes xs = .ok (xs, 0) ↔
      ∀ x, Item.put24 x ∈ xs → x.toNat % 256 = x.toNat / 65536 := by
  rw [roundTrip_eq hmax hne hxs hfit, Except.ok.injEq, Prod.mk.injEq, and_iff_left rfl]
  have hgot : ∀ y ∈ xs, y.got = y ↔ ∀ x, y = .put24 x → x.toNat % 256 = x.toNat / 65536 := by
    intro y hy
    cases y with
    | put24 x => simp [Item.got, swap24_eq_iff]
    | _ => simp [Item.got]
  have hmap : xs.map Item.got = xs ↔ ∀ y ∈ xs, y.got = y := by
    conv_lhs => rhs; rw [← List.map_id xs]
    rw [List.map_inj_left]
    rfl
  rw [hmap]
  constructor
  · intro h x hx
    exact (hgot _ hx).mp (h _ hx) x rfl
  · intro h y hy
    refine (hgot y hy).mpr ?_
    rintro x rfl
    exact h x hy

/-- One put of each kind. Source: `tests/0-test-msg2.c`. Kind: L -/
theorem roundTrip_mixed :
    roundTrip 32 [.put8 7, .put24 0x010201, .putN [1, 2, 3], .put32 0xdeadbeef, .put16 0x1234] =
      .ok ([.put8 7, .put24 0x010201, .putN [1, 2, 3], .put32 0xdeadbeef, .put16 0x1234], 0) :=
  (roundTrip_iff (by decide) (by decide) (by decide) (by decide)).mpr (by simp)

/-- **A 24-bit value comes back swapped.** Source: `msg2.h` `msg_put24`, `msg_get24`. Kind: P -/
theorem roundTrip_swaps : roundTrip 32 [.put24 1] ≠ .ok ([.put24 1], 0) := by
  decide

end Cs140e.Nrf
