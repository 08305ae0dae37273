import Cs140e.Lib.Memory

/-!
# `memmove`

Copying a block of memory onto one that may meet it (`libpi/libc/memmove.c`).

* `memmove` — as the code computes it: upwards when the source is the higher block, else downwards.
* `memmove_eq` — the spec: what is stored at the destination is the source as it was.
-/

namespace Cs140e.Libpi

open Cs140e.Lib

variable {dst src : UInt32}

/-- Memory after `while (count--) *a++ = *b++`. Source: `libpi/libc/memmove.c` `memmove`. Kind: D -/
def moveUp (m : Memory) (a b : UInt32) : (count : Nat) → Memory
  | 0 => m
  | count + 1 => moveUp (m.write a [m b]) (a + 1) (b + 1) count

/-- Memory after `while (count--) *a-- = *b--`. Source: `libpi/libc/memmove.c` `memmove`. Kind: D -/
def moveDown (m : Memory) (a b : UInt32) : (count : Nat) → Memory
  | 0 => m
  | count + 1 => moveDown (m.write a [m b]) (a - 1) (b - 1) count

/-- The memory afterwards and the pointer returned. Source: `libpi/libc/memmove.c` `memmove`.
Kind: D -/
def memmove (m : Memory) (dst src count : UInt32) : Memory × UInt32 :=
  if src = dst then (m, dst)
  else if src > dst then (moveUp m dst src count.toNat, dst)
  else (moveDown m (dst + (count - 1)) (src + (count - 1)) count.toNat, dst)

/-- Upwards onto a lower block: a byte still to be read is above the one stored to.
Source: `libpi/libc/memmove.c` `memmove`
Kind: P -/
theorem moveUp_eq {n : Nat} (m : Memory) (hlt : dst.toNat < src.toNat)
    (hsrc : src.toNat + n ≤ 2 ^ 32) : moveUp m dst src n = m.copied dst src n := by
  induction n generalizing m dst src with
  | zero => rw [moveUp, Memory.copied_zero]
  | succ n ih =>
      have hdst1 : (dst + 1).toNat = dst.toNat + 1 := Memory.add_ofNat_toNat (k := 1) (by omega)
      rcases n with _ | n
      · rw [moveUp, moveUp, ← Memory.copied_write_first m (by omega) (by omega),
          Memory.copied_zero]
      · have hsrc1 : (src + 1).toNat = src.toNat + 1 := Memory.add_ofNat_toNat (k := 1) (by omega)
        rw [moveUp, ih _ (by omega) (by omega)]
        refine Memory.copied_write_first m (by omega) fun i hi heq => ?_
        have hread : (src + 1 + UInt32.ofNat i).toNat = (src + 1).toNat + i :=
          Memory.add_ofNat_toNat (by omega)
        rw [heq] at hread
        omega

/-- Downwards onto a higher block: a byte still to be read is below the one stored to.
Source: `libpi/libc/memmove.c` `memmove`
Kind: P -/
theorem moveDown_eq {n : Nat} (m : Memory) (hlt : src.toNat < dst.toNat)
    (hdst : dst.toNat + n ≤ 2 ^ 32) :
    moveDown m (dst + (UInt32.ofNat n - 1)) (src + (UInt32.ofNat n - 1)) n = m.copied dst src n := by
  induction n generalizing m with
  | zero => rw [moveDown, Memory.copied_zero]
  | succ n ih =>
      have hlast : ∀ a : UInt32, a + (UInt32.ofNat (n + 1) - 1) = a + UInt32.ofNat n := by
        intro a
        rw [UInt32.ofNat_add]
        have hone : UInt32.ofNat 1 = 1 := rfl
        grind
      have hback : ∀ a : UInt32, a + UInt32.ofNat n - 1 = a + (UInt32.ofNat n - 1) := by grind
      rw [moveDown, hlast, hlast, hback, hback, ih _ (by omega)]
      refine Memory.copied_write_last m (by omega) fun i hi heq => ?_
      have hread : (src + UInt32.ofNat i).toNat = src.toNat + i :=
        Memory.add_ofNat_toNat (by omega)
      have hstore : (dst + UInt32.ofNat n).toNat = dst.toNat + n :=
        Memory.add_ofNat_toNat (by omega)
      rw [heq] at hread
      omega

/-- What the call does. Source: `libpi/libc/memmove.c` `memmove`. Kind: P -/
theorem memmove_eq {count : UInt32} (m : Memory) (hdst : dst.toNat + count.toNat ≤ 2 ^ 32)
    (hsrc : src.toNat + count.toNat ≤ 2 ^ 32) :
    memmove m dst src count = (m.copied dst src count.toNat, dst) := by
  unfold memmove
  by_cases heq : src = dst
  · rw [if_pos heq, heq, Memory.copied_self]
  · have hne : src.toNat ≠ dst.toNat := fun h => heq (UInt32.toNat_inj.mp h)
    rw [if_neg heq]
    by_cases hgt : src > dst
    · rw [if_pos hgt, moveUp_eq m (UInt32.lt_iff_toNat_lt.mp hgt) hsrc]
    · have hlt : src.toNat < dst.toNat := by
        have hle : ¬ dst.toNat < src.toNat := fun h => hgt (UInt32.lt_iff_toNat_lt.mpr h)
        omega
      have hdown := moveDown_eq (n := count.toNat) m hlt hdst
      rw [UInt32.ofNat_toNat] at hdown
      rw [if_neg hgt, hdown]

/-- The destination holds what the source held, wherever the two blocks lie, and no other byte
changes. Source: `libpi/libc/memmove.c` `memmove`. Kind: P -/
theorem memmove_moves (m : Memory) (dst src count : UInt32)
    (hdst : dst.toNat + count.toNat ≤ 2 ^ 32) (hsrc : src.toNat + count.toNat ≤ 2 ^ 32) :
    (memmove m dst src count).1.bytes dst count.toNat = m.bytes src count.toNat ∧
      (∀ x : UInt32, ¬ (dst.toNat ≤ x.toNat ∧ x.toNat < dst.toNat + count.toNat) →
        (memmove m dst src count).1 x = m x) ∧
      (memmove m dst src count).2 = dst := by
  have hcount := count.toNat_lt
  rw [memmove_eq m hdst hsrc]
  refine ⟨Memory.bytes_copied m dst src (by omega), fun x hx => ?_, rfl⟩
  refine Memory.copied_of_le ?_
  by_cases hbelow : x.toNat < dst.toNat
  · rw [Memory.offset_below hbelow]
    omega
  · have hle : dst ≤ x := UInt32.le_iff_toNat_le.mpr (by omega)
    rw [UInt32.toNat_sub_of_le _ _ hle]
    omega

/-- Two blocks that meet, the source below. Source: `libpi/libc/memmove.c` `memmove`. Kind: P -/
theorem memmove_moves_overlap :
    ((memmove UInt32.toUInt8 102 100 4).1.bytes 102 4 = Memory.bytes UInt32.toUInt8 100 4 ∧
      (∀ x : UInt32, ¬ ((102 : UInt32).toNat ≤ x.toNat ∧ x.toNat < (102 : UInt32).toNat + 4) →
        (memmove UInt32.toUInt8 102 100 4).1 x = x.toUInt8) ∧
      (memmove UInt32.toUInt8 102 100 4).2 = 102) ∧
      Memory.bytes UInt32.toUInt8 100 4 = [100, 101, 102, 103] :=
  ⟨memmove_moves UInt32.toUInt8 102 100 4 (by decide) (by decide), by decide⟩

end Cs140e.Libpi
