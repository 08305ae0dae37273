import Cs140e.Nrf.Bounds

/-!
# Radio messages: the layout

Which bytes a message holds does not depend on how they were put.

* `Piece` — some consecutive bytes, and the put they are put with; `putAll` puts a list of them.
* `Laid m bs` — `bs` has been put, and nothing else: there is one such message (`Laid.unique`).
* `put_laid`, `put_refused` — a put that fits, and one that does not.
* `layout_of_bytes` — any two cuttings of a byte string make the same message, and puts of too many
  bytes panic in the first put that does not fit.
-/

namespace Cs140e.Nrf

open Cs140e.Lib

/-! ## Pieces -/

/-- The put functions. Source: `msg2.h` `msg_put_n`, `msg_put8`, `msg_put16`, `msg_put24`,
`msg_put32`, `msg_put64`. Kind: D -/
inductive Way where
  | n
  | w8
  | w16
  | w24
  | w32
  | w64
  deriving DecidableEq

/-- What can be put so: any nonempty block, or one of the function's size. Source: `msg2.h`. Kind: D -/
def Way.Takes : Way → Block → Prop
  | n, bs => bs.1 ≠ []
  | w8, bs => bs.1.length = 1
  | w16, bs => bs.1.length = 2
  | w24, bs => bs.1.length = 3
  | w32, bs => bs.1.length = 4
  | w64, bs => bs.1.length = 8

/-- Consecutive bytes of a message that are put together. Source: `msg2.h`. Kind: D -/
structure Piece where
  bytes : Block
  way : Way
  takes : way.Takes bytes

/-- The call: a put function that takes a number gets the little-endian value of the bytes.
Source: `tests/0-test-msg2.c` `test_put_rand`
Kind: D -/
def Piece.call (p : Piece) : PutCall :=
  match p.way with
  | .n => .putN p.bytes
  | .w8 => .put8 (UInt8.ofNat (leValue p.bytes.1))
  | .w16 => .put16 (UInt16.ofNat (leValue p.bytes.1))
  | .w24 => .put24 (UInt32.ofNat (leValue p.bytes.1))
  | .w32 => .put32 (UInt32.ofNat (leValue p.bytes.1))
  | .w64 => .put64 (UInt64.ofNat (leValue p.bytes.1))

/-- Source: `tests/0-test-msg2.c` `test_put_rand`. Kind: D -/
def Piece.put (m : MsgSend) (p : Piece) : Except Stop MsgSend := p.call.put m

/-- A new message, and the puts. Source: `tests/0-test-msg2.c` `test_put_rand`. Kind: D -/
def putAll (maxbytes : UInt32) (ps : List Piece) : Except Stop MsgSend :=
  ps.foldlM Piece.put (msgSendMk maxbytes)

/-- The byte string that was cut. Source: `tests/0-test-msg2.c` `test_put_rand`. Kind: D -/
def text (ps : List Piece) : List UInt8 := ps.flatMap fun p => p.bytes.1

/-- How a put of too much ends. Source: `msg2.h` `m_put_ptr`. Kind: D -/
def Refused (e : Stop) : Prop :=
  e = .assert "off < maxbytes" ∨
    ∃ n k, e = .panic "not enough bytes left: have %d, need %d\n" [.num n, .num k]

/-! ## What has been put -/

/-- `bs` has been put, and zeros stand behind it. Source: `msg2.h` `msg_send_t`. Kind: D -/
structure Laid (m : MsgSend) (bs : List UInt8) : Prop where
  bytes : m.msg.bytes = bs ++ List.replicate (nrfMaxpkt - bs.length) 0
  off : m.putOff.toNat = bs.length
  fits : bs.length ≤ m.maxbytes.toNat
  max : m.maxbytes.toNat ≤ nrfMaxpkt

variable {m m' : MsgSend} {bs : List UInt8}

/-- Source: `msg2.h` `msg_send_t`. Kind: P -/
theorem Laid.unique (h : Laid m bs) (h' : Laid m' bs) (hmax : m.maxbytes = m'.maxbytes) : m = m' := by
  obtain ⟨⟨bytes, size⟩, putOff, maxbytes⟩ := m
  obtain ⟨⟨bytes', size'⟩, putOff', maxbytes'⟩ := m'
  have hbytes : bytes = bytes' := h.bytes.trans h'.bytes.symm
  have hoff : putOff = putOff' := UInt32.toNat_inj.mp (h.off.trans h'.off.symm)
  have hmax' : maxbytes = maxbytes' := hmax
  subst hbytes hoff hmax'
  rfl

/-- Source: `msg2.h` `msg_send_mk`. Kind: L -/
theorem msgSendMk_laid {maxbytes : UInt32} (h : maxbytes.toNat ≤ nrfMaxpkt) :
    Laid (msgSendMk maxbytes) [] :=
  ⟨rfl, rfl, Nat.zero_le _, h⟩

/-- Source: `msg2.h` `msg_wrote_all`. Kind: L -/
theorem Laid.wroteAll_iff (h : Laid m bs) :
    msgWroteAll m = true ↔ bs.length = m.maxbytes.toNat := by
  unfold msgWroteAll
  rw [beq_iff_eq, ← UInt32.toNat_inj, h.off, eq_comm]

/-- **A put that fits.** Source: `msg2.h` `msg_put_n`. Kind: P -/
theorem msgPutN_laid (src : List UInt8) (h : Laid m bs) (hne : src ≠ [])
    (hfit : bs.length + src.length ≤ m.maxbytes.toNat) :
    ∃ m', msgPutN m src = .ok m' ∧ Laid m' (bs ++ src) ∧ m'.maxbytes = m.maxbytes := by
  have hpos := List.length_pos_iff.mpr hne
  have hmax := h.max
  have hoff := h.off
  have hlen : src.length < 2 ^ 32 := by
    unfold nrfMaxpkt at hmax
    omega
  have hn : (UInt32.ofNat src.length).toNat = src.length := UInt32.toNat_ofNat_of_lt' hlen
  have hnext : (m.putOff + UInt32.ofNat src.length).toNat = bs.length + src.length := by
    unfold nrfMaxpkt at hmax
    rw [UInt32.toNat_add, hn, hoff, Nat.mod_eq_of_lt (by omega)]
  have hptr : mPutPtr m (UInt32.ofNat src.length) = .ok m.putOff := mPutPtr_eq (by omega) (by omega)
  obtain ⟨msg, hwrite, hbytes⟩ := m.msg.write_ok m.putOff.toNat src (by omega)
  refine ⟨{ m with msg, putOff := m.putOff + UInt32.ofNat src.length }, ?_, ⟨?_, ?_, ?_, h.max⟩, rfl⟩
  · simp [msgPutN, mPutPtrInc, hptr, hwrite]
  · have hrest : nrfMaxpkt - bs.length - src.length = nrfMaxpkt - (bs ++ src).length := by
      rw [List.length_append]
      omega
    rw [hbytes, hoff, h.bytes, List.take_left, List.drop_append, List.drop_eq_nil_of_le (by omega),
      List.nil_append, Nat.add_sub_cancel_left, List.drop_replicate, hrest]
  · rw [hnext, List.length_append]
  · rw [List.length_append]
    exact hfit

/-- **A put that does not fit.** Source: `msg2.h` `msg_put_n`. Kind: P -/
theorem msgPutN_refused (src : List UInt8) (h : Laid m bs) (hlen : src.length < 2 ^ 32)
    (hfit : m.maxbytes.toNat < bs.length + src.length) :
    ∃ e, msgPutN m src = .error e ∧ Refused e := by
  have hoff := h.off
  have hn : (UInt32.ofNat src.length).toNat = src.length := UInt32.toNat_ofNat_of_lt' hlen
  by_cases hspace : m.putOff < m.maxbytes
  · have hspace' : m.putOff.toNat < m.maxbytes.toNat := hspace
    have hleft : m.maxbytes - m.putOff < UInt32.ofNat src.length := by
      rw [UInt32.lt_iff_toNat_lt, UInt32.toNat_sub_of_le _ _ (UInt32.le_of_lt hspace), hn]
      omega
    refine ⟨.panic "not enough bytes left: have %d, need %d\n"
      [.num (m.maxbytes - m.putOff).toNat, .num (UInt32.ofNat src.length).toNat], ?_, .inr ⟨_, _, rfl⟩⟩
    simp only [msgPutN, mPutPtrInc, mPutPtr, hspace, hleft, decide_true, Bool.not_true,
      Bool.false_eq_true, if_false, if_true, pure_eq_ok, throw_eq_error, error_bind]
  · refine ⟨.assert "off < maxbytes", ?_, .inl rfl⟩
    simp only [msgPutN, mPutPtrInc, mPutPtr, hspace, decide_false, Bool.not_false, if_true,
      throw_eq_error, error_bind]

/-! ## One piece -/

/-- The three single puts of a 24-bit put. Source: `msg2.h` `msg_put24`. Kind: L -/
theorem msgPut24_eq (m : MsgSend) (b₀ b₁ b₂ : UInt8) :
    msgPut24 m (UInt32.ofNat (leValue [b₀, b₁, b₂])) = (do
      let m ← msgPutN m [b₀]
      let m ← msgPutN m [b₁]
      msgPutN m [b₂]) := by
  have hlt : leValue [b₀, b₁, b₂] < 2 ^ 24 :=
    Nat.lt_of_lt_of_le (leValue_lt [b₀, b₁, b₂]) (by decide : 256 ^ 3 ≤ 2 ^ 24)
  have hvalue : (UInt32.ofNat (leValue [b₀, b₁, b₂])).toNat = leValue [b₀, b₁, b₂] :=
    UInt32.toNat_ofNat_of_lt' (Nat.lt_of_lt_of_le hlt (by decide))
  have hassert : UInt32.ofNat (leValue [b₀, b₁, b₂]) >>> 24 = 0 := by
    apply UInt32.toNat_inj.mp
    rw [UInt32.toNat_shiftRight, hvalue, Nat.shiftRight_eq_div_pow]
    exact Nat.div_eq_of_lt hlt
  have hbytes := leBytes_word (UInt32.ofNat (leValue [b₀, b₁, b₂]))
  have hback : leBytes 4 (leValue [b₀, b₁, b₂]) = [b₀, b₁, b₂, 0] := by
    have h := leBytes_leValue [b₀, b₁, b₂, 0]
    have hlen : [b₀, b₁, b₂, 0].length = 4 := rfl
    have hzero : leValue [b₀, b₁, b₂, 0] = leValue [b₀, b₁, b₂] := by
      simp only [leValue, UInt8.toNat_zero, Nat.mul_zero, Nat.add_zero]
    rwa [hlen, hzero] at h
  rw [hvalue, hback] at hbytes
  injection hbytes with h₀ hbytes
  injection hbytes with h₁ hbytes
  injection hbytes with h₂ hbytes
  simp only [msgPut24, hassert, msgPut8, h₀, h₁, h₂, bne_self_eq_false, Bool.false_eq_true,
    if_false]

/-- What the call puts: a block at once, or three bytes one by one. Source: `msg2.h`. Kind: P -/
theorem put_eq (m : MsgSend) (p : Piece) :
    p.bytes.1 ≠ [] ∧ (p.put m = msgPutN m p.bytes.1 ∨
      ∃ b₀ b₁ b₂, p.bytes.1 = [b₀, b₁, b₂] ∧ p.put m = (do
        let m ← msgPutN m [b₀]
        let m ← msgPutN m [b₁]
        msgPutN m [b₂])) := by
  obtain ⟨⟨src, hlen⟩, way, htakes⟩ := p
  have hlt := leValue_lt src
  have hback := leBytes_leValue src
  unfold Piece.put Piece.call
  cases way with
  | n => exact ⟨htakes, .inl rfl⟩
  | w8 =>
      have hsize : src.length = 1 := htakes
      obtain ⟨b, rfl⟩ := List.length_eq_one_iff.mp hsize
      refine ⟨List.cons_ne_nil _ _, .inl ?_⟩
      simp [PutCall.put, msgPut8, leValue]
  | w16 =>
      have hsize : src.length = 2 := htakes
      have hne : src ≠ [] := List.ne_nil_of_length_pos (by omega)
      rw [hsize] at hlt hback
      refine ⟨hne, .inl ?_⟩
      simp only [PutCall.put, msgPut16]
      rw [UInt16.toNat_ofNat_of_lt' hlt, hback]
  | w24 =>
      have hsize : src.length = 3 := htakes
      obtain ⟨b₀, b₁, b₂, rfl⟩ := List.length_eq_three.mp hsize
      exact ⟨List.cons_ne_nil _ _, .inr ⟨b₀, b₁, b₂, rfl, msgPut24_eq m b₀ b₁ b₂⟩⟩
  | w32 =>
      have hsize : src.length = 4 := htakes
      have hne : src ≠ [] := List.ne_nil_of_length_pos (by omega)
      rw [hsize] at hlt hback
      refine ⟨hne, .inl ?_⟩
      simp only [PutCall.put, msgPut32]
      rw [UInt32.toNat_ofNat_of_lt' hlt, hback]
  | w64 =>
      have hsize : src.length = 8 := htakes
      have hne : src ≠ [] := List.ne_nil_of_length_pos (by omega)
      rw [hsize] at hlt hback
      refine ⟨hne, .inl ?_⟩
      simp only [PutCall.put, msgPut64]
      rw [UInt64.toNat_ofNat_of_lt' hlt, hback]

/-- **A piece that fits** is appended. Source: `msg2.h`. Kind: P -/
theorem put_laid {p : Piece} (h : Laid m bs)
    (hfit : bs.length + p.bytes.1.length ≤ m.maxbytes.toNat) :
    ∃ m', p.put m = .ok m' ∧ Laid m' (bs ++ p.bytes.1) ∧ m'.maxbytes = m.maxbytes := by
  obtain ⟨hne, hput | ⟨b₀, b₁, b₂, hbytes, hput⟩⟩ := put_eq m p
  · rw [hput]
    exact msgPutN_laid p.bytes.1 h hne hfit
  · rw [hbytes, List.length_cons, List.length_cons, List.length_singleton] at hfit
    obtain ⟨m₁, h₁, hl₁, hmax₁⟩ := msgPutN_laid [b₀] h (List.cons_ne_nil _ _)
      (by rw [List.length_singleton]; omega)
    obtain ⟨m₂, h₂, hl₂, hmax₂⟩ := msgPutN_laid [b₁] hl₁ (List.cons_ne_nil _ _)
      (by rw [List.length_append, List.length_singleton, List.length_singleton, hmax₁]; omega)
    obtain ⟨m₃, h₃, hl₃, hmax₃⟩ := msgPutN_laid [b₂] hl₂ (List.cons_ne_nil _ _) (by
      simp only [List.length_append, List.length_singleton, hmax₂, hmax₁]
      omega)
    refine ⟨m₃, by rw [hput, h₁, ok_bind, h₂, ok_bind, h₃], ?_, by rw [hmax₃, hmax₂, hmax₁]⟩
    rw [hbytes]
    simpa using hl₃

/-- **A piece that does not fit** is refused, a 24-bit one perhaps after some of its bytes.
Source: `msg2.h`
Kind: P -/
theorem put_refused {p : Piece} (h : Laid m bs)
    (hfit : m.maxbytes.toNat < bs.length + p.bytes.1.length) : ∃ e, p.put m = .error e ∧ Refused e := by
  obtain ⟨hne, hput | ⟨b₀, b₁, b₂, hbytes, hput⟩⟩ := put_eq m p
  · rw [hput]
    exact msgPutN_refused p.bytes.1 h p.bytes.2 hfit
  · rw [hbytes, List.length_cons, List.length_cons, List.length_singleton] at hfit
    have hone : ∀ b : UInt8, [b].length < 2 ^ 32 := fun _ => by rw [List.length_singleton]; decide
    rw [hput]
    by_cases h₀ : m.maxbytes.toNat < bs.length + 1
    · obtain ⟨e, he, hrefused⟩ := msgPutN_refused [b₀] h (hone b₀) h₀
      exact ⟨e, by rw [he, error_bind], hrefused⟩
    · obtain ⟨m₁, h₁, hl₁, hmax₁⟩ := msgPutN_laid [b₀] h (List.cons_ne_nil _ _)
        (Nat.le_of_not_lt h₀)
      rw [h₁, ok_bind]
      by_cases h₁ : m₁.maxbytes.toNat < (bs ++ [b₀]).length + 1
      · obtain ⟨e, he, hrefused⟩ := msgPutN_refused [b₁] hl₁ (hone b₁) h₁
        exact ⟨e, by rw [he, error_bind], hrefused⟩
      · obtain ⟨m₂, h₂, hl₂, hmax₂⟩ := msgPutN_laid [b₁] hl₁ (List.cons_ne_nil _ _)
          (Nat.le_of_not_lt h₁)
        rw [h₂, ok_bind]
        refine msgPutN_refused [b₂] hl₂ (hone b₂) ?_
        simp only [List.length_append, List.length_singleton, hmax₂, hmax₁]
        omega

/-! ## All pieces -/

/-- Pieces that fit. Source: `tests/0-test-msg2.c` `test_put_rand`. Kind: P -/
theorem puts_laid {ps : List Piece} (h : Laid m bs)
    (hfit : bs.length + (text ps).length ≤ m.maxbytes.toNat) :
    ∃ m', ps.foldlM Piece.put m = .ok m' ∧ Laid m' (bs ++ text ps) ∧ m'.maxbytes = m.maxbytes := by
  induction ps generalizing m bs with
  | nil => exact ⟨m, rfl, by simpa [text] using h, rfl⟩
  | cons p ps ih =>
      have htext : text (p :: ps) = p.bytes.1 ++ text ps := List.flatMap_cons
      rw [htext, List.length_append] at hfit
      obtain ⟨m₁, hput, hl₁, hmax₁⟩ := put_laid (p := p) h (by omega)
      obtain ⟨m₂, hputs, hl₂, hmax₂⟩ := ih hl₁ (by rw [List.length_append, hmax₁]; omega)
      refine ⟨m₂, ?_, ?_, hmax₂.trans hmax₁⟩
      · rw [List.foldlM_cons, hput, ok_bind, hputs]
      · rw [htext, ← List.append_assoc]
        exact hl₂

/-- Pieces that do not: the first that does not is refused.
Source: `tests/0-test-msg2.c` `test_put_rand`
Kind: P -/
theorem puts_refused {ps : List Piece} (h : Laid m bs)
    (hfit : m.maxbytes.toNat < bs.length + (text ps).length) :
    ∃ pre p post m' e, ps = pre ++ p :: post ∧ bs.length + (text pre).length ≤ m.maxbytes.toNat ∧
      m.maxbytes.toNat < bs.length + (text (pre ++ [p])).length ∧ pre.foldlM Piece.put m = .ok m' ∧
      p.put m' = .error e ∧ Refused e ∧ ps.foldlM Piece.put m = .error e := by
  induction ps generalizing m bs with
  | nil =>
      have hfits := h.fits
      simp only [text, List.flatMap_nil, List.length_nil, Nat.add_zero] at hfit
      omega
  | cons p ps ih =>
      have htext : ∀ qs, text (p :: qs) = p.bytes.1 ++ text qs := fun _ => List.flatMap_cons
      by_cases hp : m.maxbytes.toNat < bs.length + p.bytes.1.length
      · obtain ⟨e, hput, hrefused⟩ := put_refused h hp
        refine ⟨[], p, ps, m, e, rfl, h.fits, ?_, rfl, hput, hrefused, ?_⟩
        · simpa [text] using hp
        · rw [List.foldlM_cons, hput, error_bind]
      · obtain ⟨m₁, hput, hl₁, hmax₁⟩ := put_laid (p := p) h (Nat.le_of_not_lt hp)
        rw [htext, List.length_append] at hfit
        obtain ⟨pre, q, post, m₂, e, rfl, hpre, hover, hruns, hq, hrefused, hall⟩ :=
          ih hl₁ (by rw [List.length_append, hmax₁]; omega)
        rw [List.length_append, hmax₁] at hpre hover
        refine ⟨p :: pre, q, post, m₂, e, rfl, ?_, ?_, ?_, hq, hrefused, ?_⟩
        · rw [htext, List.length_append]
          omega
        · rw [List.cons_append, htext, List.length_append]
          omega
        · rw [List.foldlM_cons, hput, ok_bind, hruns]
        · rw [List.foldlM_cons, hput, ok_bind, hall]

/-- **The layout depends only on the bytes.** Pieces that fit make the message that every other cutting
of the same bytes makes; pieces that do not panic, in the first put whose bytes do not all fit.
Source: `msg2.h`
Kind: P -/
theorem layout_of_bytes (maxbytes : UInt32) (hmax : maxbytes.toNat ≤ nrfMaxpkt) (ps : List Piece) :
    ((text ps).length ≤ maxbytes.toNat → ∃ m, putAll maxbytes ps = .ok m ∧
      m.msg.bytes = text ps ++ List.replicate (nrfMaxpkt - (text ps).length) 0 ∧
      m.putOff.toNat = (text ps).length ∧
      (msgWroteAll m = true ↔ (text ps).length = maxbytes.toNat) ∧
      ∀ qs, text qs = text ps → putAll maxbytes qs = .ok m) ∧
    ((∃ e, putAll maxbytes ps = .error e) ↔ maxbytes.toNat < (text ps).length) ∧
    (maxbytes.toNat < (text ps).length → ∃ pre p post m e, ps = pre ++ p :: post ∧
      (text pre).length ≤ maxbytes.toNat ∧ maxbytes.toNat < (text (pre ++ [p])).length ∧
      putAll maxbytes pre = .ok m ∧ p.put m = .error e ∧ Refused e ∧
      putAll maxbytes ps = .error e) := by
  have hstart := msgSendMk_laid hmax
  have hfits : ∀ qs, (text qs).length ≤ maxbytes.toNat → ∃ m, putAll maxbytes qs = .ok m ∧
      Laid m (text qs) ∧ m.maxbytes = maxbytes := by
    intro qs hqs
    exact puts_laid hstart (by rw [List.length_nil, Nat.zero_add]; exact hqs)
  have hover : maxbytes.toNat < (text ps).length → ∃ pre p post m e, ps = pre ++ p :: post ∧
      (text pre).length ≤ maxbytes.toNat ∧ maxbytes.toNat < (text (pre ++ [p])).length ∧
      putAll maxbytes pre = .ok m ∧ p.put m = .error e ∧ Refused e ∧
      putAll maxbytes ps = .error e := by
    intro hlen
    have hpast : maxbytes.toNat < ([] : List UInt8).length + (text ps).length := by
      rw [List.length_nil, Nat.zero_add]
      exact hlen
    have h := puts_refused hstart hpast
    simp only [List.length_nil, Nat.zero_add] at h
    exact h
  refine ⟨fun hlen => ?_, ⟨?_, ?_⟩, hover⟩
  · obtain ⟨m, hput, hl, hm⟩ := hfits ps hlen
    refine ⟨m, hput, hl.bytes, hl.off, hm ▸ hl.wroteAll_iff, fun qs hqs => ?_⟩
    obtain ⟨m', hput', hl', hm'⟩ := hfits qs (hqs ▸ hlen)
    rw [hqs] at hl'
    rw [hput', hl'.unique hl (hm'.trans hm.symm)]
  · rintro ⟨e, he⟩
    by_contra hlen
    obtain ⟨m, hput, -⟩ := hfits ps (Nat.le_of_not_lt hlen)
    rw [hput] at he
    cases he
  · intro hlen
    obtain ⟨_, _, _, _, e, _, _, _, _, _, _, hall⟩ := hover hlen
    exact ⟨e, hall⟩

/-- Five bytes in three pieces, one more than fit in four. Source: `tests/0-test-msg2.c`. Kind: L -/
theorem layout_of_bytes_three :
    let ps := [⟨⟨[1], by decide⟩, .w8, rfl⟩, ⟨⟨[2, 3, 4], by decide⟩, .w24, rfl⟩,
      ⟨⟨[5], by decide⟩, .n, List.cons_ne_nil _ _⟩]
    (∃ m, putAll 5 ps = .ok m) ∧ ∃ e, putAll 4 ps = .error e :=
  ⟨((layout_of_bytes 5 (by decide) _).1 (by decide)).imp fun _ h => h.1,
    (layout_of_bytes 4 (by decide) _).2.1.mpr (by decide)⟩

end Cs140e.Nrf
