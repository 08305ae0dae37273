import Cs140e.Libpi.Str
import Mathlib.Data.Nat.Bitwise

/-!
# UTF-8

The encoder of `unicode-utf8.c`, for the code points that a UTF-16 unit can be.

* `utf`, `codepointLen`, `toUtf8` — the code.
* `utf8Bytes` — the encoding in numbers, which `utf8Bytes_eq` compares with the one of `String`.
* `to_utf8_eq` — what the encoder returns.
-/

namespace Cs140e.Fat32

open Cs140e.Lib Cs140e.Libpi

/-! ## The code -/

/-- Source: `unicode-utf8.c` `utf_t`. Kind: D -/
structure Utf where
  mask : UInt8
  lead : UInt8
  /-- Beginning of the code point range. -/
  beg : UInt32
  /-- End of the code point range. -/
  last : UInt32
  bitsStored : Nat

/-- The last entry is a zeroed one, not a null pointer. Source: `unicode-utf8.c` `utf`. Kind: D -/
def utf : List Utf :=
  [⟨0x3f, 0x80, 0, 0, 6⟩, ⟨0x7f, 0x00, 0, 0x7f, 7⟩, ⟨0x1f, 0xc0, 0x80, 0x7ff, 5⟩,
    ⟨0x0f, 0xe0, 0x800, 0xffff, 4⟩, ⟨0x07, 0xf0, 0x10000, 0x10ffff, 3⟩, ⟨0, 0, 0, 0, 0⟩]

/-- The loop of `codepoint_len`, which only a match ends. Source: `unicode-utf8.c` `codepoint_len`.
Kind: D -/
def codepointLenFrom (cp : UInt32) (len : Nat) : List Utf → Except Stop Nat
  | [] => throw .outOfBounds
  | u :: us => if cp ≥ u.beg ∧ cp ≤ u.last then return len else codepointLenFrom cp (len + 1) us

/-- Source: `unicode-utf8.c` `codepoint_len`. Kind: D -/
def codepointLen (cp : UInt32) : Except Stop Int := do
  let len ← codepointLenFrom cp 0 utf
  if len > 4 then return -1
  return len

/-- `cp >> shift`, which has no meaning for a count outside of the word.
Source: `unicode-utf8.c` `to_utf8`
Kind: D -/
def shiftRight (cp : UInt32) (shift : Int) : Except Stop UInt32 :=
  if 0 ≤ shift ∧ shift < 32 then return cp >>> .ofNat shift.toNat else throw .outOfBounds

/-- `(cp >> shift & mask) | lead`. Source: `unicode-utf8.c` `to_utf8`. Kind: D -/
def utfByte (cp : UInt32) (shift : Int) (u : Utf) : Except Stop UInt8 := do
  let x ← shiftRight cp shift
  return (x.toUInt8 &&& u.mask) ||| u.lead

/-- The loop of `to_utf8`, at index `i` with `left` bytes to go.
Source: `unicode-utf8.c` `to_utf8`
Kind: D -/
def toUtf8From (cp : UInt32) (u : Utf) (ret : Buf UInt8 5) (i : Nat) (shift : Int) :
    (left : Nat) → Except Stop (Buf UInt8 5)
  | 0 => return ret
  | left + 1 => do
    let b ← utfByte cp shift u
    let ret ← inBounds (ret.write i [b])
    toUtf8From cp u ret (i + 1) (shift - u.bitsStored) left

/-- `ret` is the function's static buffer; a null pointer is `none`.
Source: `unicode-utf8.c` `to_utf8`
Kind: D -/
def toUtf8 (ret : Buf UInt8 5) (cp : UInt32) : Except Stop (Option (Buf UInt8 5)) := do
  let bytes ← codepointLen cp
  if bytes < 0 then return none
  let u0 ← inBounds utf[0]?
  let u ← inBounds utf[bytes.toNat]?
  let shift : Int := u0.bitsStored * (bytes - 1)
  let b ← utfByte cp shift u
  let ret ← inBounds (ret.write 0 [b])
  let ret ← toUtf8From cp u0 ret 1 (shift - u0.bitsStored) (bytes.toNat - 1)
  let ret ← inBounds (ret.write bytes.toNat [0])
  return some ret

/-! ## The encoding -/

/-- The UTF-8 encoding of a code point below `0x10000`. Source: `unicode-utf8.c`, the table at the
end. Kind: D -/
def utf8Bytes (v : Nat) : List UInt8 :=
  if v < 0x80 then [.ofNat v]
  else if v < 0x800 then [.ofNat (v / 64 % 32 + 0xc0), .ofNat (v % 64 + 0x80)]
  else [.ofNat (v / 4096 % 16 + 0xe0), .ofNat (v / 64 % 64 + 0x80), .ofNat (v % 64 + 0x80)]

/-- The encoding of a string. Source: none: infrastructure. Kind: L -/
theorem utf8Bytes_eq (c : Char) (h : c.toNat < 0x10000) :
    utf8Bytes c.toNat = String.utf8EncodeChar c := by
  have hv : c.val.toNat = c.toNat := rfl
  unfold utf8Bytes String.utf8EncodeChar
  simp only [hv]
  split_ifs <;> first | rfl | omega

/-- How many bytes the encoding has. Source: `unicode-utf8.c` `codepoint_len`. Kind: D -/
def utf8Width (v : Nat) : Nat := if v < 0x80 then 1 else if v < 0x800 then 2 else 3

/-- Source: `unicode-utf8.c` `codepoint_len`. Kind: L -/
theorem utf8Bytes_length (v : Nat) : (utf8Bytes v).length = utf8Width v := by
  unfold utf8Bytes utf8Width
  split_ifs <;> rfl

/-- A byte of the encoding of a character other than NUL is not a NUL.
Source: `unicode-utf8.c` `to_utf8`. Kind: L -/
theorem utf8Bytes_not_nul {v : Nat} (hpos : 0 < v) : 0 ∉ utf8Bytes v := by
  have hne : ∀ n, 0 < n → n < 256 → (0 : UInt8) ≠ .ofNat n := by
    intro n hn hlt h
    have := congrArg UInt8.toNat h
    rw [UInt8.toNat_ofNat', Nat.mod_eq_of_lt hlt] at this
    exact absurd this.symm (Nat.ne_of_gt hn)
  unfold utf8Bytes
  split_ifs with h1 h2
  · simpa using hne v hpos (by omega)
  · simp only [List.mem_cons, List.not_mem_nil, or_false, not_or]
    exact ⟨hne _ (by omega) (by omega), hne _ (by omega) (by omega)⟩
  · simp only [List.mem_cons, List.not_mem_nil, or_false, not_or]
    exact ⟨hne _ (by omega) (by omega), hne _ (by omega) (by omega), hne _ (by omega) (by omega)⟩

/-! ## The encoder -/

/-- Where the table ends the search. Source: `unicode-utf8.c` `codepoint_len`. Kind: L -/
theorem codepoint_len_eq {cp : UInt32} (hpos : 0 < cp.toNat) (hlt : cp.toNat < 0x10000) :
    codepointLen cp = .ok (utf8Width cp.toNat : Int) := by
  have hzero : ¬ (cp ≥ 0 ∧ cp ≤ 0) := by
    rintro ⟨-, h⟩
    exact absurd (UInt32.le_iff_toNat_le.mp h) (Nat.not_le_of_gt hpos)
  have hfrom : codepointLenFrom cp 0 utf = .ok (utf8Width cp.toNat) := by
    rw [utf, codepointLenFrom, if_neg hzero]
    simp only [codepointLenFrom, ge_iff_le, UInt32.le_iff_toNat_le, UInt32.reduceToNat, utf8Width]
    split_ifs <;> first | rfl | omega
  have hle : utf8Width cp.toNat ≤ 3 := by
    unfold utf8Width
    split_ifs <;> omega
  rw [codepointLen, hfrom, ok_bind, if_neg (by omega)]
  rfl

/-- A byte of six bits or less and its marker bits. Source: `unicode-utf8.c` `to_utf8`. Kind: L -/
theorem utfByte_eq (cp : UInt32) {k : Nat} (hk : k < 32) {u : Utf} {m l : Nat} (hm : m ∣ 256)
    (hbyte : ∀ b < 256, (UInt8.ofNat b &&& u.mask) ||| u.lead = .ofNat (b % m + l)) :
    utfByte cp k u = .ok (.ofNat (cp.toNat / 2 ^ k % m + l)) := by
  have hshift : shiftRight cp k = .ok (cp >>> .ofNat k) := by
    rw [shiftRight, if_pos ⟨Int.natCast_nonneg k, by omega⟩]
    rfl
  have hlow : (cp >>> UInt32.ofNat k).toUInt8 = .ofNat (cp.toNat / 2 ^ k % 256) := by
    apply UInt8.toNat_inj.mp
    simp [Nat.mod_eq_of_lt hk, UInt32.toNat_shiftRight, Nat.shiftRight_eq_div_pow]
  rw [utfByte, hshift, ok_bind, hlow, hbyte _ (Nat.mod_lt _ (by decide)), Nat.mod_mod_of_dvd _ hm]
  rfl

/-- The five elements of a list of five. Source: none: infrastructure. Kind: L -/
theorem exists_five : (l : List UInt8) → l.length = 5 → ∃ a b c d e, l = [a, b, c, d, e]
  | [a, b, c, d, e], _ => ⟨a, b, c, d, e, rfl⟩

/-- **What the encoder returns**, whatever its buffer held. Source: `unicode-utf8.c` `to_utf8`.
Kind: P -/
theorem to_utf8_eq (ret : Buf UInt8 5) {cp : UInt32} (hpos : 0 < cp.toNat)
    (hlt : cp.toNat < 0x10000) : ∃ ret' tail, toUtf8 ret cp = .ok (some ret') ∧
      ret'.elems = utf8Bytes cp.toNat ++ 0 :: tail := by
  have hlen := codepoint_len_eq hpos hlt
  -- a byte behind the first one
  have hnext : ∀ {k : Nat}, k < 32 → utfByte cp k ⟨0x3f, 0x80, 0, 0, 6⟩ =
      .ok (.ofNat (cp.toNat / 2 ^ k % 64 + 0x80)) :=
    fun hk => utfByte_eq cp hk ⟨4, rfl⟩ (by decide +kernel)
  obtain ⟨elems, hsize⟩ := ret
  obtain ⟨a, b, c, d, e, rfl⟩ := exists_five elems hsize
  unfold utf8Width at hlen
  unfold utf8Bytes
  split_ifs at hlen ⊢ with h1 h2
  · have hfirst : utfByte cp 0 ⟨0x7f, 0x00, 0, 0x7f, 7⟩ =
        .ok (.ofNat (cp.toNat / 2 ^ 0 % 128 + 0)) :=
      utfByte_eq cp (k := 0) (by decide) ⟨2, rfl⟩ (by decide +kernel)
    rw [Nat.pow_zero, Nat.div_one, Nat.add_zero] at hfirst
    refine ⟨⟨[.ofNat (cp.toNat % 128), 0, c, d, e], rfl⟩, [c, d, e], ?_, ?_⟩
    · simp [toUtf8, hlen, utf, hfirst, toUtf8From, Buf.write]
    · simp [Nat.mod_eq_of_lt h1]
  · have hfirst : utfByte cp 6 ⟨0x1f, 0xc0, 0x80, 0x7ff, 5⟩ =
        .ok (.ofNat (cp.toNat / 64 % 32 + 0xc0)) :=
      utfByte_eq cp (k := 6) (by decide) ⟨8, rfl⟩ (by decide +kernel)
    have h0 : utfByte cp 0 ⟨0x3f, 0x80, 0, 0, 6⟩ = .ok (.ofNat (cp.toNat % 64 + 0x80)) :=
      (hnext (k := 0) (by decide)).trans (by simp)
    refine ⟨⟨[.ofNat (cp.toNat / 64 % 32 + 0xc0), .ofNat (cp.toNat % 64 + 0x80), 0, d, e], rfl⟩,
      [d, e], ?_, rfl⟩
    simp [toUtf8, hlen, utf, hfirst, h0, toUtf8From, Buf.write]
  · have hfirst : utfByte cp 12 ⟨0x0f, 0xe0, 0x800, 0xffff, 4⟩ =
        .ok (.ofNat (cp.toNat / 4096 % 16 + 0xe0)) :=
      utfByte_eq cp (k := 12) (by decide) ⟨16, rfl⟩ (by decide +kernel)
    have h6 : utfByte cp 6 ⟨0x3f, 0x80, 0, 0, 6⟩ = .ok (.ofNat (cp.toNat / 64 % 64 + 0x80)) :=
      hnext (k := 6) (by decide)
    have h0 : utfByte cp 0 ⟨0x3f, 0x80, 0, 0, 6⟩ = .ok (.ofNat (cp.toNat % 64 + 0x80)) :=
      (hnext (k := 0) (by decide)).trans (by simp)
    refine ⟨⟨[.ofNat (cp.toNat / 4096 % 16 + 0xe0), .ofNat (cp.toNat / 64 % 64 + 0x80),
      .ofNat (cp.toNat % 64 + 0x80), 0, e], rfl⟩, [e], ?_, rfl⟩
    simp [toUtf8, hlen, utf, hfirst, h6, h0, toUtf8From, Buf.write]

end Cs140e.Fat32
