import Cs140e.Lib.Bytes
import Cs140e.Lib.ShiftRegister
import Mathlib.Tactic.NormNum.Prime

/-!
# The CRC-32 checksum

`libpi/libc/crc.c` runs over the bytes with a table of 256 words. Behind it is a register of 32 bits
that every byte turns eight times.

* `ourCrc32Inc_eq` — the table is the register.
* `crc32_remainder` — what the checksum is: the remainder of the buffer, as a polynomial.
* `crc32_detects_window`, `crc32_two_bits_iff` — what it tells apart.
* `crc32_suffix` — four bytes behind a buffer give every checksum once, and the checksum itself
  always gives the same one.
-/

namespace Cs140e.Libpi

open Cs140e.Lib ShiftRegister

/-- Source: `crc.c` `crc32_tab`. Kind: D -/
def crc32Tab : Array UInt32 := #[
  0x00000000, 0x77073096, 0xee0e612c, 0x990951ba, 0x076dc419, 0x706af48f,
  0xe963a535, 0x9e6495a3, 0x0edb8832, 0x79dcb8a4, 0xe0d5e91e, 0x97d2d988,
  0x09b64c2b, 0x7eb17cbd, 0xe7b82d07, 0x90bf1d91, 0x1db71064, 0x6ab020f2,
  0xf3b97148, 0x84be41de, 0x1adad47d, 0x6ddde4eb, 0xf4d4b551, 0x83d385c7,
  0x136c9856, 0x646ba8c0, 0xfd62f97a, 0x8a65c9ec, 0x14015c4f, 0x63066cd9,
  0xfa0f3d63, 0x8d080df5, 0x3b6e20c8, 0x4c69105e, 0xd56041e4, 0xa2677172,
  0x3c03e4d1, 0x4b04d447, 0xd20d85fd, 0xa50ab56b, 0x35b5a8fa, 0x42b2986c,
  0xdbbbc9d6, 0xacbcf940, 0x32d86ce3, 0x45df5c75, 0xdcd60dcf, 0xabd13d59,
  0x26d930ac, 0x51de003a, 0xc8d75180, 0xbfd06116, 0x21b4f4b5, 0x56b3c423,
  0xcfba9599, 0xb8bda50f, 0x2802b89e, 0x5f058808, 0xc60cd9b2, 0xb10be924,
  0x2f6f7c87, 0x58684c11, 0xc1611dab, 0xb6662d3d, 0x76dc4190, 0x01db7106,
  0x98d220bc, 0xefd5102a, 0x71b18589, 0x06b6b51f, 0x9fbfe4a5, 0xe8b8d433,
  0x7807c9a2, 0x0f00f934, 0x9609a88e, 0xe10e9818, 0x7f6a0dbb, 0x086d3d2d,
  0x91646c97, 0xe6635c01, 0x6b6b51f4, 0x1c6c6162, 0x856530d8, 0xf262004e,
  0x6c0695ed, 0x1b01a57b, 0x8208f4c1, 0xf50fc457, 0x65b0d9c6, 0x12b7e950,
  0x8bbeb8ea, 0xfcb9887c, 0x62dd1ddf, 0x15da2d49, 0x8cd37cf3, 0xfbd44c65,
  0x4db26158, 0x3ab551ce, 0xa3bc0074, 0xd4bb30e2, 0x4adfa541, 0x3dd895d7,
  0xa4d1c46d, 0xd3d6f4fb, 0x4369e96a, 0x346ed9fc, 0xad678846, 0xda60b8d0,
  0x44042d73, 0x33031de5, 0xaa0a4c5f, 0xdd0d7cc9, 0x5005713c, 0x270241aa,
  0xbe0b1010, 0xc90c2086, 0x5768b525, 0x206f85b3, 0xb966d409, 0xce61e49f,
  0x5edef90e, 0x29d9c998, 0xb0d09822, 0xc7d7a8b4, 0x59b33d17, 0x2eb40d81,
  0xb7bd5c3b, 0xc0ba6cad, 0xedb88320, 0x9abfb3b6, 0x03b6e20c, 0x74b1d29a,
  0xead54739, 0x9dd277af, 0x04db2615, 0x73dc1683, 0xe3630b12, 0x94643b84,
  0x0d6d6a3e, 0x7a6a5aa8, 0xe40ecf0b, 0x9309ff9d, 0x0a00ae27, 0x7d079eb1,
  0xf00f9344, 0x8708a3d2, 0x1e01f268, 0x6906c2fe, 0xf762575d, 0x806567cb,
  0x196c3671, 0x6e6b06e7, 0xfed41b76, 0x89d32be0, 0x10da7a5a, 0x67dd4acc,
  0xf9b9df6f, 0x8ebeeff9, 0x17b7be43, 0x60b08ed5, 0xd6d6a3e8, 0xa1d1937e,
  0x38d8c2c4, 0x4fdff252, 0xd1bb67f1, 0xa6bc5767, 0x3fb506dd, 0x48b2364b,
  0xd80d2bda, 0xaf0a1b4c, 0x36034af6, 0x41047a60, 0xdf60efc3, 0xa867df55,
  0x316e8eef, 0x4669be79, 0xcb61b38c, 0xbc66831a, 0x256fd2a0, 0x5268e236,
  0xcc0c7795, 0xbb0b4703, 0x220216b9, 0x5505262f, 0xc5ba3bbe, 0xb2bd0b28,
  0x2bb45a92, 0x5cb36a04, 0xc2d7ffa7, 0xb5d0cf31, 0x2cd99e8b, 0x5bdeae1d,
  0x9b64c2b0, 0xec63f226, 0x756aa39c, 0x026d930a, 0x9c0906a9, 0xeb0e363f,
  0x72076785, 0x05005713, 0x95bf4a82, 0xe2b87a14, 0x7bb12bae, 0x0cb61b38,
  0x92d28e9b, 0xe5d5be0d, 0x7cdcefb7, 0x0bdbdf21, 0x86d3d2d4, 0xf1d4e242,
  0x68ddb3f8, 0x1fda836e, 0x81be16cd, 0xf6b9265b, 0x6fb077e1, 0x18b74777,
  0x88085ae6, 0xff0f6a70, 0x66063bca, 0x11010b5c, 0x8f659eff, 0xf862ae69,
  0x616bffd3, 0x166ccf45, 0xa00ae278, 0xd70dd2ee, 0x4e048354, 0x3903b3c2,
  0xa7672661, 0xd06016f7, 0x4969474d, 0x3e6e77db, 0xaed16a4a, 0xd9d65adc,
  0x40df0b66, 0x37d83bf0, 0xa9bcae53, 0xdebb9ec5, 0x47b2cf7f, 0x30b5ffe9,
  0xbdbdf21c, 0xcabac28a, 0x53b39330, 0x24b4a3a6, 0xbad03605, 0xcdd70693,
  0x54de5729, 0x23d967bf, 0xb3667a2e, 0xc4614ab8, 0x5d681b02, 0x2a6f2b94,
  0xb40bbe37, 0xc30c8ea1, 0x5a05df1b, 0x2d02ef8d]

/-- One turn of the loop. Source: `crc.c` `our_crc32_inc`. Kind: D -/
def crc32Byte (crc : UInt32) (p : UInt8) : UInt32 :=
  crc32Tab.getD ((crc ^^^ p.toUInt32) &&& 0xFF).toNat 0 ^^^ (crc >>> 8)

/-- Source: `crc.c` `our_crc32_inc`. Kind: D -/
def ourCrc32Inc (buf : List UInt8) (crc : UInt32) : UInt32 :=
  buf.foldl crc32Byte (crc ^^^ ~~~0) ^^^ ~~~0

/-- Source: `crc.c` `our_crc32`. Kind: D -/
def ourCrc32 (buf : List UInt8) : UInt32 := ourCrc32Inc buf 0

/-! ### The register behind the table -/

/-- The polynomial of CRC-32, its highest coefficient lowest. Source: `crc.c` `crc32_tab`. Kind: D -/
def crc32Register : ShiftRegister 32 := ⟨0xedb88320#32, by decide⟩

/-- Each word of the table is eight turns of its index. Source: `crc.c` `crc32_tab`. Kind: L -/
theorem crc32Tab_eq (i : Nat) (hi : i < 256) :
    (crc32Tab.getD i 0).toBitVec = crc32Register.turn^[8] (BitVec.ofNat 32 i) := by
  have hall : ∀ i < 256, (crc32Tab.getD i 0).toBitVec =
      crc32Register.turn^[8] (BitVec.ofNat 32 i) := by decide +kernel
  exact hall i hi

/-- The bits of a byte, the lowest first. Source: `crc.c` `our_crc32_inc`. Kind: D -/
def byteBits (p : UInt8) : List Bool := (List.range 8).map p.toBitVec.getLsbD

/-- The bits of a buffer. Source: `crc.c` `our_crc32_inc`. Kind: D -/
def streamBits (buf : List UInt8) : List Bool := buf.flatMap byteBits

/-- Source: `crc.c` `our_crc32_inc`. Kind: L -/
@[simp] theorem streamBits_length (buf : List UInt8) :
    (streamBits buf).length = 8 * buf.length := by
  induction buf with
  | nil => rfl
  | cons p buf ih =>
      have hcons : streamBits (p :: buf) = byteBits p ++ streamBits buf := rfl
      have hbyte : (byteBits p).length = 8 := rfl
      rw [hcons, List.length_append, ih, hbyte, List.length_cons]
      omega

/-- Source: `crc.c` `our_crc32_inc`. Kind: L -/
theorem byteBits_getD (p : UInt8) (i : Nat) : (byteBits p).getD i false = p.toNat.testBit i := by
  by_cases hi : i < 8
  · have hlen : i < (byteBits p).length := hi
    rw [List.getD_eq_getElem _ _ hlen]
    simp [byteBits, BitVec.getLsbD]
  · have hlt : p.toNat < 2 ^ i :=
      Nat.lt_of_lt_of_le p.toNat_lt (Nat.pow_le_pow_right (by decide) (by omega))
    have hlen : (byteBits p).length ≤ i := by
      show 8 ≤ i
      omega
    rw [List.getD_eq_default _ _ hlen, Nat.testBit_lt_two_pow hlt]

/-- The bits of a buffer are those of the number it stores. Source: `crc.c` `our_crc32_inc`. Kind: L -/
theorem streamBits_getD (buf : List UInt8) (i : Nat) :
    (streamBits buf).getD i false = (leValue buf).testBit i := by
  induction buf generalizing i with
  | nil => simp [streamBits, leValue]
  | cons p buf ih =>
      have hcons : streamBits (p :: buf) = byteBits p ++ streamBits buf := rfl
      have hbyte : (byteBits p).length = 8 := rfl
      have hlt : p.toNat < 2 ^ 8 := p.toNat_lt
      rw [hcons, leValue, Nat.add_comm, show (256 : Nat) = 2 ^ 8 by rfl,
        Nat.testBit_two_pow_mul_add _ hlt, List.getD_eq_getElem?_getD]
      by_cases hi : i < 8
      · rw [if_pos hi, List.getElem?_append_left (by rwa [hbyte]), ← List.getD_eq_getElem?_getD,
          byteBits_getD]
      · rw [if_neg hi, List.getElem?_append_right (by rw [hbyte]; omega), hbyte,
          ← List.getD_eq_getElem?_getD, ih]

/-- Source: `crc.c` `our_crc32_inc`. Kind: L -/
theorem streamBits_append (buf buf' : List UInt8) :
    streamBits (buf ++ buf') = streamBits buf ++ streamBits buf' := List.flatMap_append

/-- Buffers of one length that store the same bits are the same.
Source: `crc.c` `our_crc32_inc`
Kind: L -/
theorem eq_of_streamBits {buf buf' : List UInt8} (hlen : buf.length = buf'.length)
    (h : ∀ i, (streamBits buf).getD i false = (streamBits buf').getD i false) : buf = buf' := by
  have hvalue : leValue buf = leValue buf' := by
    apply Nat.eq_of_testBit_eq
    intro i
    rw [← streamBits_getD, ← streamBits_getD, h]
  rw [← leBytes_leValue buf, ← leBytes_leValue buf', hlen, hvalue]

/-! ### A byte at a time -/

/-- The word splits into its low byte and the rest. Source: `crc.c` `our_crc32_inc`. Kind: L -/
theorem split_low_byte (x : BitVec 32) : (x &&& 0xff#32) ^^^ (x &&& ~~~0xff#32) = x := by
  apply BitVec.eq_of_getLsbD_eq
  intro i hi
  rw [BitVec.getLsbD_xor, BitVec.getLsbD_and, BitVec.getLsbD_and, BitVec.getLsbD_not]
  cases x.getLsbD i <;> cases (0xff#32).getLsbD i <;> simp [hi]

/-- Source: `crc.c` `our_crc32_inc`. Kind: L -/
theorem getLsbD_low_byte (i : Nat) : (0xff#32).getLsbD i = decide (i < 8) := by
  rw [BitVec.getLsbD_ofNat, show (0xff : Nat) = 2 ^ 8 - 1 by rfl, Nat.testBit_two_pow_sub_one]
  by_cases hi : i < 8
  · simp [hi, Nat.lt_trans hi (by decide : 8 < 32)]
  · simp [hi]

/-- Eight turns are one look at the table. Source: `crc.c` `our_crc32_inc`. Kind: P -/
theorem iterate_turn_eight (x : BitVec 32) :
    crc32Register.turn^[8] x = (crc32Tab.getD (x &&& 0xff#32).toNat 0).toBitVec ^^^ (x >>> 8) := by
  have hclear : ∀ i < 8, (x &&& ~~~0xff#32).getLsbD i = false := by
    intro i hi
    rw [BitVec.getLsbD_and, BitVec.getLsbD_not, getLsbD_low_byte]
    simp [hi]
  have hshift : (x &&& ~~~0xff#32) >>> 8 = x >>> 8 := by
    apply BitVec.eq_of_getLsbD_eq
    intro i hi
    rw [BitVec.getLsbD_ushiftRight, BitVec.getLsbD_ushiftRight, BitVec.getLsbD_and,
      BitVec.getLsbD_not, getLsbD_low_byte]
    by_cases hin : 8 + i < 32
    · simp [hin]
    · rw [BitVec.getLsbD_of_ge x (8 + i) (by omega)]
      rfl
  have hlow : (x &&& 0xff#32).toNat < 256 := by
    rw [BitVec.toNat_and]
    exact Nat.lt_succ_of_le Nat.and_le_right
  calc crc32Register.turn^[8] x
      = crc32Register.turn^[8] ((x &&& 0xff#32) ^^^ (x &&& ~~~0xff#32)) := by rw [split_low_byte]
    _ = crc32Register.turn^[8] (x &&& 0xff#32) ^^^ (x &&& ~~~0xff#32) >>> 8 := by
        rw [XorMap.iterate_xor, iterate_turn_of_low _ 8 hclear]
    _ = _ := by rw [crc32Tab_eq _ hlow, BitVec.ofNat_toNat, BitVec.setWidth_eq, hshift]

/-- Source: `crc.c` `our_crc32_inc`. Kind: L -/
theorem word_byteBits (p : UInt8) : (word (byteBits p) : BitVec 32) = p.toUInt32.toBitVec := by
  apply BitVec.eq_of_getLsbD_eq
  intro i hi
  rw [getLsbD_word _ hi, byteBits_getD, BitVec.getLsbD]
  rfl

/-- The loop's turn lets the bits of the byte into the register.
Source: `crc.c` `our_crc32_inc`
Kind: P -/
theorem crc32Byte_eq (crc : UInt32) (p : UInt8) :
    (crc32Byte crc p).toBitVec = crc32Register.feeds crc.toBitVec (byteBits p) := by
  have hbyte : (byteBits p).length = 8 := rfl
  have hout : p.toUInt32.toBitVec >>> 8 = 0#32 := by
    apply BitVec.eq_of_toNat_eq
    rw [BitVec.toNat_ushiftRight, Nat.shiftRight_eq_div_pow]
    exact Nat.div_eq_of_lt p.toNat_lt
  rw [feeds_eq_word _ _ _ (by rw [hbyte]; decide), hbyte, word_byteBits, iterate_turn_eight,
    BitVec.ushiftRight_xor_distrib, hout, BitVec.xor_zero]
  rfl

/-- **The table-driven loop is the register**, from the complement of the running value, and the
result is complemented. Source: `crc.c` `our_crc32_inc`. Kind: P -/
theorem ourCrc32Inc_eq (buf : List UInt8) (crc : UInt32) :
    (ourCrc32Inc buf crc).toBitVec =
      ~~~ crc32Register.feeds (~~~ crc.toBitVec) (streamBits buf) := by
  have hloop : ∀ crc : UInt32, (buf.foldl crc32Byte crc).toBitVec =
      crc32Register.feeds crc.toBitVec (streamBits buf) := by
    induction buf with
    | nil => exact fun _ => rfl
    | cons p buf ih =>
        intro crc
        have hcons : streamBits (p :: buf) = byteBits p ++ streamBits buf := rfl
        rw [List.foldl_cons, ih, crc32Byte_eq, hcons, feeds_append]
  have hnot : ∀ x : BitVec 32, x ^^^ (~~~0 : UInt32).toBitVec = ~~~ x := fun x =>
    BitVec.xor_allOnes
  unfold ourCrc32Inc
  rw [UInt32.toBitVec_xor, hnot, hloop, UInt32.toBitVec_xor, hnot]

/-! ### What the checksum is -/

section remainder

open Polynomial

/-- The generator of CRC-32. Source: `crc.c` `our_crc32_inc`. Kind: D -/
noncomputable def crc32Poly : (ZMod 2)[X] :=
  X ^ 32 + (X ^ 26 + X ^ 23 + X ^ 22 + X ^ 16 + X ^ 12 + X ^ 11 + X ^ 10 + X ^ 8 + X ^ 7 + X ^ 5 +
    X ^ 4 + X ^ 2 + X + 1)

/-- Source: `crc.c` `crc32_tab`. Kind: L -/
theorem toPoly_taps : toPoly crc32Register.taps = X ^ 26 + X ^ 23 + X ^ 22 + X ^ 16 + X ^ 12 + X ^ 11 +
    X ^ 10 + X ^ 8 + X ^ 7 + X ^ 5 + X ^ 4 + X ^ 2 + X + 1 := by
  have hbits : (Finset.range 32).filter (fun i => crc32Register.taps.getLsbD i = true) =
      {31, 30, 29, 27, 26, 24, 23, 21, 20, 19, 15, 9, 8, 5} := by decide +kernel
  rw [toPoly_eq_sum_filter, hbits]
  simp
  ring

/-- Source: `crc.c` `crc32_tab`. Kind: L -/
theorem generator_eq : crc32Register.generator = crc32Poly := by
  unfold generator crc32Poly
  rw [toPoly_taps]

/-- **The checksum is the remainder**: with `n` bytes, of the complement of the running value moved up
by `8 * n` bits plus the bytes moved up by 32, divided by the generator; and complemented.
Source: `crc.c` `our_crc32_inc`
Kind: P -/
theorem crc32_remainder (buf : List UInt8) (crc : UInt32) :
    toPoly (~~~ (ourCrc32Inc buf crc).toBitVec) =
      (X ^ (8 * buf.length) * toPoly (~~~ crc.toBitVec) + X ^ 32 * streamPoly (streamBits buf)) %ₘ
        crc32Poly := by
  rw [ourCrc32Inc_eq, BitVec.not_not, toPoly_feeds, generator_eq, streamBits_length]

end remainder

/-! ### What it tells apart -/

/-- Source: `crc.c` `our_crc32_inc`. Kind: L -/
theorem ourCrc32Inc_eq_iff {buf buf' : List UInt8} (crc : UInt32) (hlen : buf.length = buf'.length) :
    ourCrc32Inc buf crc = ourCrc32Inc buf' crc ↔
      crc32Register.feeds 0#32 (List.zipWith xor (streamBits buf) (streamBits buf')) = 0#32 := by
  have hbits : (streamBits buf).length = (streamBits buf').length := by
    rw [streamBits_length, streamBits_length, hlen]
  rw [← UInt32.toBitVec_inj, ourCrc32Inc_eq, ourCrc32Inc_eq, BitVec.not_inj,
    feeds_eq_iff _ _ _ _ hbits]

/-- Source: `crc.c` `our_crc32_inc`. Kind: L -/
theorem getD_zipWith_xor {bs bs' : List Bool} (hlen : bs.length = bs'.length) (i : Nat) :
    (List.zipWith xor bs bs').getD i false = (bs.getD i false ^^ bs'.getD i false) := by
  rw [List.getD_eq_getElem?_getD, List.getElem?_zipWith]
  by_cases hi : i < bs.length
  · rw [List.getElem?_eq_getElem hi, List.getElem?_eq_getElem (hlen ▸ hi),
      List.getD_eq_getElem _ _ hi, List.getD_eq_getElem _ _ (hlen ▸ hi)]
    rfl
  · rw [List.getElem?_eq_none (Nat.not_lt.1 hi), List.getD_eq_default _ _ (Nat.not_lt.1 hi),
      List.getD_eq_default _ _ (hlen ▸ Nat.not_lt.1 hi)]
    rfl

/-- **Two buffers that differ, but only within 32 bits in a row, have different checksums**, whatever
stands around these bits and whatever the running value is. Source: `crc.c` `our_crc32_inc`. Kind: P -/
theorem crc32_detects_window {buf buf' : List UInt8} (crc : UInt32) (a : Nat)
    (hlen : buf.length = buf'.length) (hne : buf ≠ buf')
    (hout : ∀ i, ¬ (a ≤ i ∧ i < a + 32) →
      (streamBits buf).getD i false = (streamBits buf').getD i false) :
    ourCrc32Inc buf crc ≠ ourCrc32Inc buf' crc := by
  have hbits : (streamBits buf).length = (streamBits buf').length := by
    rw [streamBits_length, streamBits_length, hlen]
  rw [Ne, ourCrc32Inc_eq_iff crc hlen]
  apply feeds_window_ne _ _ a
  · -- some bit differs, or the buffers would be the same
    by_contra hno
    apply hne
    apply eq_of_streamBits hlen
    intro i
    have hbit := getD_zipWith_xor hbits i
    by_cases hi : i < (List.zipWith xor (streamBits buf) (streamBits buf')).length
    · rw [List.getD_eq_getElem _ _ hi] at hbit
      have hfalse : (List.zipWith xor (streamBits buf) (streamBits buf'))[i] = false := by
        by_contra htrue
        exact hno (Bool.eq_true_of_not_eq_false htrue ▸ List.getElem_mem hi)
      rw [hfalse] at hbit
      simpa using hbit.symm
    · rw [List.getD_eq_default _ _ (Nat.not_lt.1 hi)] at hbit
      simpa using hbit.symm
  · intro i hi
    by_contra hin
    rw [getD_zipWith_xor hbits, hout i hin, Bool.xor_self] at hi
    cases hi

/-- Source: `crc.c` `our_crc32_inc`. Kind: L -/
theorem crc32_detects_window_byte :
    ourCrc32Inc [0x40, 0x41, 0x42] 0 ≠ ourCrc32Inc [0x40, 0x7e, 0x42] 0 := by
  have hout : ∀ i, ¬ (8 ≤ i ∧ i < 8 + 32) → (streamBits [0x40, 0x41, 0x42]).getD i false =
      (streamBits [0x40, 0x7e, 0x42]).getD i false := by
    intro i hi
    have hfront : ∀ i < 8, (streamBits [0x40, 0x41, 0x42]).getD i false =
        (streamBits [0x40, 0x7e, 0x42]).getD i false := by decide +kernel
    by_cases hlow : i < 8
    · exact hfront i hlow
    · have hback : 24 ≤ i := by omega
      rw [List.getD_eq_default _ _ hback, List.getD_eq_default _ _ hback]
  exact crc32_detects_window 0 8 rfl (by decide) hout

/-- The buffer with one of its bits inverted. Source: `crc.c` `our_crc32_inc`. Kind: D -/
def flipBit (buf : List UInt8) (i : Nat) : List UInt8 :=
  buf.modify (i / 8) (· ^^^ (1 <<< UInt8.ofNat (i % 8)))

/-- Source: `crc.c` `our_crc32_inc`. Kind: L -/
@[simp] theorem flipBit_length (buf : List UInt8) (i : Nat) : (flipBit buf i).length = buf.length :=
  List.length_modify _ _ _

/-- Source: `crc.c` `our_crc32_inc`. Kind: L -/
theorem streamBits_getD_byte (buf : List UInt8) (k : Nat) :
    (streamBits buf).getD k false = (buf.getD (k / 8) 0).toNat.testBit (k % 8) := by
  induction buf generalizing k with
  | nil => simp [streamBits]
  | cons p buf ih =>
      have hcons : streamBits (p :: buf) = byteBits p ++ streamBits buf := rfl
      have hbyte : (byteBits p).length = 8 := rfl
      rw [hcons, List.getD_eq_getElem?_getD]
      by_cases hk : k < 8
      · rw [List.getElem?_append_left (by rwa [hbyte]), ← List.getD_eq_getElem?_getD, byteBits_getD,
          Nat.div_eq_of_lt hk, Nat.mod_eq_of_lt hk]
        rfl
      · obtain ⟨m, rfl⟩ := Nat.exists_eq_add_of_le' (Nat.not_lt.1 hk)
        rw [List.getElem?_append_right (by rw [hbyte]; omega), hbyte, Nat.add_sub_cancel,
          ← List.getD_eq_getElem?_getD, ih, Nat.add_div_right m (by decide), Nat.add_mod_right]
        rfl

/-- Source: `crc.c` `our_crc32_inc`. Kind: L -/
theorem testBit_flip (p : UInt8) {j m : Nat} (hj : j < 8) (hm : m < 8) :
    (p ^^^ (1 <<< UInt8.ofNat j)).toNat.testBit m = (p.toNat.testBit m ^^ decide (m = j)) := by
  have hall : ∀ j < 8, ∀ m < 8, ((1 : UInt8) <<< UInt8.ofNat j).toNat.testBit m = decide (m = j) := by
    decide +kernel
  rw [UInt8.toNat_xor, Nat.testBit_xor, hall j hj m hm]

/-- Source: `crc.c` `our_crc32_inc`. Kind: L -/
theorem streamBits_flipBit {buf : List UInt8} {i : Nat} (hi : i < 8 * buf.length) (k : Nat) :
    (streamBits (flipBit buf i)).getD k false =
      ((streamBits buf).getD k false ^^ decide (k = i)) := by
  have hpos : i / 8 < buf.length := by omega
  rw [streamBits_getD_byte, streamBits_getD_byte]
  unfold flipBit
  by_cases hbyte : k / 8 = i / 8
  · have hget : buf.getD (i / 8) 0 = buf[i / 8] := List.getD_eq_getElem _ _ hpos
    have hget' : (buf.modify (i / 8) (· ^^^ (1 <<< UInt8.ofNat (i % 8)))).getD (i / 8) 0 =
        buf[i / 8] ^^^ (1 <<< UInt8.ofNat (i % 8)) := by
      rw [List.getD_eq_getElem _ _ (by rwa [List.length_modify]), List.getElem_modify_eq]
    rw [hbyte, hget, hget', testBit_flip _ (Nat.mod_lt _ (by decide)) (Nat.mod_lt _ (by decide))]
    congr 1
    rw [decide_eq_decide]
    omega
  · have hget : (buf.modify (i / 8) (· ^^^ (1 <<< UInt8.ofNat (i % 8)))).getD (k / 8) 0 =
        buf.getD (k / 8) 0 := by
      rw [List.getD_eq_getElem?_getD, List.getElem?_modify_ne _ _ (Ne.symm hbyte),
        ← List.getD_eq_getElem?_getD]
    have hne : k ≠ i := fun h => hbyte (by rw [h])
    rw [hget, decide_eq_false hne, Bool.xor_false]

/-- A single bit comes back after `2 ^ 32 - 1` turns, and not before.
Source: `crc.c` `crc32_tab`
Kind: L -/
theorem minimalPeriod_one : Function.minimalPeriod crc32Register.turn 1#32 = 2 ^ 32 - 1 := by
  have hprime : ∀ p ∈ [3, 5, 17, 257, 65537], Nat.Prime p := by norm_num
  exact crc32Register.turn.minimalPeriod_eq_of_powers 1#32 hprime (by decide) (by decide +kernel)

/-- **Two inverted bits leave the checksum as it is exactly when they are a multiple of `2 ^ 32 - 1` bits
apart.** Source: `crc.c` `our_crc32_inc`. Kind: P -/
theorem crc32_two_bits_iff (buf : List UInt8) (crc : UInt32) {i j : Nat} (hij : i < j)
    (hj : j < 8 * buf.length) :
    ourCrc32Inc (flipBit (flipBit buf i) j) crc = ourCrc32Inc buf crc ↔ 2 ^ 32 - 1 ∣ j - i := by
  have hlen : (flipBit (flipBit buf i) j).length = buf.length := by
    rw [flipBit_length, flipBit_length]
  have hbits : (streamBits (flipBit (flipBit buf i) j)).length = (streamBits buf).length := by
    rw [streamBits_length, streamBits_length, hlen]
  have hdiff : (List.zipWith xor (streamBits (flipBit (flipBit buf i) j)) (streamBits buf)).length =
      8 * buf.length := by
    rw [List.length_zipWith, hbits, streamBits_length, Nat.min_self]
  rw [ourCrc32Inc_eq_iff crc hlen, feeds_two_eq_iff _ _ hij (hdiff.symm ▸ hj)]
  · rw [← minimalPeriod_one]
    exact Function.isPeriodicPt_iff_minimalPeriod_dvd
  · intro k _
    have hi : i < 8 * buf.length := Nat.lt_trans hij hj
    have hj' : j < 8 * (flipBit buf i).length := by rwa [flipBit_length]
    rw [getD_zipWith_xor hbits, streamBits_flipBit hj', streamBits_flipBit hi]
    by_cases hki : k = i
    · subst hki
      have hkj : k ≠ j := Nat.ne_of_lt hij
      cases (streamBits buf).getD k false <;> simp [hkj]
    · cases (streamBits buf).getD k false <;> simp [hki]

/-- Source: `crc.c` `our_crc32_inc`. Kind: L -/
theorem crc32_two_bits_apart : ourCrc32Inc (flipBit (flipBit [0x12, 0x34] 3) 12) 7 =
    ourCrc32Inc [0x12, 0x34] 7 ↔ 2 ^ 32 - 1 ∣ 12 - 3 :=
  crc32_two_bits_iff [0x12, 0x34] 7 (by decide) (by decide)

/-! ### Four bytes behind a buffer -/

/-- What four bytes do is to add their word, and turn 32 times.
Source: `crc.c` `our_crc32_inc`
Kind: L -/
theorem ourCrc32Inc_word (buf : List UInt8) (crc x : UInt32) :
    (ourCrc32Inc (buf ++ leBytes 4 x.toNat) crc).toBitVec =
      ~~~ crc32Register.turn^[32] (~~~ (ourCrc32Inc buf crc).toBitVec ^^^ x.toBitVec) := by
  have hlen : (streamBits (leBytes 4 x.toNat)).length = 32 := by
    rw [streamBits_length, leBytes_length]
  have hword : (word (streamBits (leBytes 4 x.toNat)) : BitVec 32) = x.toBitVec := by
    apply BitVec.eq_of_getLsbD_eq
    intro i hi
    rw [getLsbD_word _ hi, streamBits_getD, leValue_leBytes_of_lt x.toNat_lt]
    rfl
  rw [ourCrc32Inc_eq, streamBits_append, feeds_append, feeds_eq_word _ _ _ (Nat.le_of_eq hlen), hlen,
    hword, ourCrc32Inc_eq, BitVec.not_not]

/-- **Behind every buffer each checksum is that of exactly one more word**, and the word that is the
buffer's own checksum always gives the same one. Source: `crc.c` `our_crc32_inc`. Kind: P -/
theorem crc32_suffix (buf : List UInt8) (crc : UInt32) :
    (∀ target, ∃! x : UInt32, ourCrc32Inc (buf ++ leBytes 4 x.toNat) crc = target) ∧
      ourCrc32Inc (buf ++ leBytes 4 (ourCrc32Inc buf crc).toNat) crc = 0x2144df1c := by
  obtain ⟨hinj, hsurj⟩ := crc32Register.iterate_turn_bijective 32
  constructor
  · intro target
    obtain ⟨y, hy⟩ := hsurj (~~~ target.toBitVec)
    refine ⟨UInt32.ofBitVec (y ^^^ ~~~ (ourCrc32Inc buf crc).toBitVec), ?_, ?_⟩
    · apply UInt32.toBitVec_inj.1
      rw [ourCrc32Inc_word, UInt32.toBitVec_ofBitVec, BitVec.xor_comm y, ← BitVec.xor_assoc,
        BitVec.xor_self, BitVec.zero_xor, hy, BitVec.not_not]
    · intro x hx
      have hx' := congrArg UInt32.toBitVec hx
      rw [ourCrc32Inc_word] at hx'
      rw [← BitVec.not_not (b := target.toBitVec), ← hy, BitVec.not_inj] at hx'
      have hxy := hinj hx'
      apply UInt32.toBitVec_inj.1
      rw [UInt32.toBitVec_ofBitVec, ← hxy, BitVec.xor_comm, ← BitVec.xor_assoc, BitVec.xor_self,
        BitVec.zero_xor]
  · apply UInt32.toBitVec_inj.1
    have hones : ∀ y : BitVec 32, ~~~ y ^^^ y = BitVec.allOnes 32 := fun y => by
      rw [BitVec.xor_comm, ← BitVec.xor_allOnes, ← BitVec.xor_assoc, BitVec.xor_self,
        BitVec.zero_xor]
    rw [ourCrc32Inc_word, hones]
    decide +kernel

end Cs140e.Libpi
