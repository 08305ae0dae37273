import Cs140e.Lib.Bytes
import Cs140e.Libpi.Memcpy

/-!
# `memcpy`, word by word

`libpi/libc/memcpy.c` with its two loops, on a little-endian machine: one loads and stores the words
`d[i]` and `s[i]`, the other bytes. This is the level below `Memcpy`, whose loop over units knows
nothing about words.

* `Word.memcpy` — as the code computes it, with the pointer it returns; `Word.memcpy_refines` — it does
  what `memcpy` does, for all arguments.
* `memcpy_copies` — on disjoint blocks both loops copy exactly the source.
-/

namespace Cs140e.Libpi

open Cs140e.Lib

namespace Word

/-- `*(unsigned *)a`. Source: `libpi/libc/memcpy.c` `memcpy`. Kind: D -/
def load (m : Memory) (a : UInt32) : UInt32 := UInt32.ofNat (leValue (m.bytes a 4))

/-- `*(unsigned *)a = w`. Source: `libpi/libc/memcpy.c` `memcpy`. Kind: D -/
def store (m : Memory) (a w : UInt32) : Memory := m.write a (leBytes 4 w.toNat)

/-- `for(unsigned i = 0; i < n; i++) d[i] = s[i]`, over `unsigned`.
Source: `libpi/libc/memcpy.c` `memcpy`
Kind: D -/
def copyWords (d s : UInt32) (m : Memory) : (n : Nat) → Memory
  | 0 => m
  | i + 1 =>
    let m := copyWords d s m i
    store m (d + UInt32.ofNat (4 * i)) (load m (s + UInt32.ofNat (4 * i)))

/-- `for(unsigned i = 0; i < nbytes; i++) d[i] = s[i]`, over `unsigned char`.
Source: `libpi/libc/memcpy.c` `memcpy`
Kind: D -/
def copyBytes (d s : UInt32) (m : Memory) : (n : Nat) → Memory
  | 0 => m
  | i + 1 =>
    let m := copyBytes d s m i
    m.write (d + UInt32.ofNat i) [m (s + UInt32.ofNat i)]

/-- The memory afterwards and the pointer returned. Source: `libpi/libc/memcpy.c` `memcpy`. Kind: D -/
def memcpy (m : Memory) (dst src nbytes : UInt32) : Except Stop (Memory × UInt32) :=
  if aligned4 dst && aligned4 src && aligned4 nbytes then do
    if ¬ (nbytes % 4 == 0) then
      throw (.assert "nbytes % 4 == 0")
    let n := nbytes / 4
    return (copyWords dst src m n.toNat, dst)
  else
    return (copyBytes dst src m nbytes.toNat, dst)

/-! ### The two levels -/

/-- A word that is loaded and stored moves its four bytes. Source: `libpi/libc/memcpy.c` `memcpy`.
Kind: P -/
theorem store_load (m : Memory) (d s : UInt32) : store m d (load m s) = m.write d (m.bytes s 4) := by
  have hlen : (m.bytes s 4).length = 4 := Memory.bytes_length
  have hlt : leValue (m.bytes s 4) < 2 ^ 32 := by
    have h := leValue_lt (m.bytes s 4)
    rwa [hlen] at h
  have hbytes := leBytes_leValue (m.bytes s 4)
  rw [hlen] at hbytes
  unfold store load
  rw [UInt32.toNat_ofNat_of_lt' hlt, hbytes]

/-- Source: `libpi/libc/memcpy.c` `memcpy`. Kind: P -/
theorem copyWords_eq (d s : UInt32) (m : Memory) (n : Nat) :
    copyWords d s m n = copyUnits 4 d s m n := by
  induction n with
  | zero => rfl
  | succ n ih => rw [copyWords, copyUnits, ih, store_load, Nat.mul_comm]

/-- Source: `libpi/libc/memcpy.c` `memcpy`. Kind: P -/
theorem copyBytes_eq (d s : UInt32) (m : Memory) (n : Nat) :
    copyBytes d s m n = copyUnits 1 d s m n := by
  induction n with
  | zero => rfl
  | succ n ih =>
      rw [copyBytes, copyUnits, ih, Nat.mul_one]
      congr 1
      simp [Memory.bytes]

/-- **The code refines the loop over units**, whether the blocks meet or not.
Source: `libpi/libc/memcpy.c` `memcpy`
Kind: P -/
theorem memcpy_refines (m : Memory) (dst src nbytes : UInt32) :
    memcpy m dst src nbytes = (Libpi.memcpy m dst src nbytes).map fun m => (m, dst) := by
  unfold memcpy Libpi.memcpy
  split
  · rename_i haligned
    have hmod : nbytes.toNat % 4 = 0 := by
      simp only [aligned4, Bool.and_eq_true, beq_iff_eq] at haligned
      exact haligned.2
    have hword : nbytes % 4 = 0 := UInt32.toNat_inj.mp hmod
    rw [if_neg (by simpa using hword), if_neg (by simpa using hmod)]
    show Except.ok (copyWords dst src m (nbytes / 4).toNat, dst) = _
    rw [copyWords_eq]
    rfl
  · rw [copyBytes_eq]
    rfl

/-- Source: `libpi/libc/memcpy.c` `memcpy`. Kind: P -/
theorem memcpy_eq {m : Memory} {dst src nbytes : UInt32}
    (h : Disjoint (Memory.block dst nbytes.toNat) (Memory.block src nbytes.toNat)) :
    memcpy m dst src nbytes = .ok (m.copied dst src nbytes.toNat, dst) := by
  rw [memcpy_refines, Libpi.memcpy_eq ((Memory.apart_iff_disjoint (Nat.le_of_lt nbytes.toNat_lt)).mpr h)]
  rfl

end Word

/-- **`memcpy` copies**, whatever the alignments: the destination holds the source as it was, no other
byte changes, and where the loop over words runs it has the effect of the loop over bytes.
Source: `libpi/libc/memcpy.c` `memcpy`
Kind: P -/
theorem memcpy_copies (m : Memory) {dst src nbytes : UInt32}
    (h : Disjoint (Memory.block dst nbytes.toNat) (Memory.block src nbytes.toNat)) :
    ∃ m', Word.memcpy m dst src nbytes = .ok (m', dst) ∧
      m'.bytes dst nbytes.toNat = m.bytes src nbytes.toNat ∧
      (∀ x, x ∉ Memory.block dst nbytes.toNat → m' x = m x) ∧
      (nbytes.toNat % 4 = 0 →
        Word.copyWords dst src m (nbytes / 4).toNat = Word.copyBytes dst src m nbytes.toNat) := by
  have hn := nbytes.toNat_lt
  have hapart := (Memory.apart_iff_disjoint (Nat.le_of_lt hn)).mpr h
  refine ⟨_, Word.memcpy_eq h, Memory.bytes_copied m dst src (Nat.le_of_lt hn), fun x hx => ?_,
    fun hmod => ?_⟩
  · rw [Memory.mem_block_iff (Nat.le_of_lt hn)] at hx
    exact Memory.copied_of_le (Nat.le_of_not_lt hx)
  · have hdiv : (nbytes / 4).toNat = nbytes.toNat / 4 := UInt32.toNat_div nbytes 4
    have hlen : nbytes.toNat / 4 * 4 = nbytes.toNat := by omega
    rw [Word.copyWords_eq, Word.copyBytes_eq, hdiv, copyUnits_eq hapart (by omega) hn, hlen,
      copyUnits_eq hapart (by omega) hn, Nat.mul_one]

/-- Two words, copied by the loop over words. Source: `libpi/libc/memcpy.c` `memcpy`. Kind: L -/
theorem memcpy_copies_words :
    (∃ m', Word.memcpy UInt32.toUInt8 8 0 8 = .ok (m', 8) ∧
      m'.bytes 8 (8 : UInt32).toNat = Memory.bytes UInt32.toUInt8 0 (8 : UInt32).toNat ∧
      (∀ x, x ∉ Memory.block 8 (8 : UInt32).toNat → m' x = x.toUInt8) ∧
      ((8 : UInt32).toNat % 4 = 0 → Word.copyWords 8 0 UInt32.toUInt8 (8 / 4 : UInt32).toNat =
        Word.copyBytes 8 0 UInt32.toUInt8 (8 : UInt32).toNat)) :=
  memcpy_copies UInt32.toUInt8 
    ((Memory.apart_iff_disjoint (by decide)).mp (Memory.apart_of_le (by decide) (by decide)))

end Cs140e.Libpi
