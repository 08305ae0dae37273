import Cs140e.Lib.Memory
import Cs140e.Stop

/-!
# `memcpy`

Copying a block of memory (`libpi/libc/memcpy.c`). The two loops of the code differ in the size of
the unit they copy; here they are one, `copyUnits`.

* `memcpy` — as the code computes it.
* `memcpy_eq` — the spec: on blocks that do not meet it stores the source at the destination,
  whichever loop runs.
-/

namespace Cs140e.Libpi

open Cs140e.Lib

/-- Memory after `n` turns of the loop `d[i] = s[i]`, over units of `u` bytes.
Source: `libpi/libc/memcpy.c` `memcpy`
Kind: D -/
def copyUnits (u : Nat) (dst src : UInt32) (m : Memory) : (n : Nat) → Memory
  | 0 => m
  | i + 1 =>
    let m := copyUnits u dst src m i
    m.write (dst + UInt32.ofNat (i * u)) (m.bytes (src + UInt32.ofNat (i * u)) u)

/-- Source: `libpi/libc/memcpy.c` `aligned4`. Kind: D -/
def aligned4 (ptr : UInt32) : Bool := ptr.toNat % 4 == 0

/-- Source: `libpi/libc/memcpy.c` `memcpy`. Kind: D -/
def memcpy (m : Memory) (dst src nbytes : UInt32) : Except Stop Memory :=
  if aligned4 dst && aligned4 src && aligned4 nbytes then do
    if ¬ (nbytes.toNat % 4 == 0) then
      throw (.assert "nbytes % 4 == 0")
    return copyUnits 4 dst src m (nbytes.toNat / 4)
  else
    return copyUnits 1 dst src m nbytes.toNat

/-- The loop stores what stood at the source. Source: `libpi/libc/memcpy.c` `memcpy`. Kind: P -/
theorem copyUnits_eq {u n k : Nat} {dst src : UInt32} {m : Memory} (h : Memory.Apart dst src n)
    (hk : k * u ≤ n) (hn : n < 2 ^ 32) : copyUnits u dst src m k = m.copied dst src (k * u) := by
  induction k with
  | zero => rw [copyUnits, Nat.zero_mul, Memory.copied_zero]
  | succ k ih =>
      have hu : (k + 1) * u = k * u + u := Nat.succ_mul k u
      rw [copyUnits, ih (by omega), hu]
      have hstep := Memory.copied_step m
        ((m.copied dst src (k * u)).bytes (src + UInt32.ofNat (k * u)) u) h (k := k * u)
        (by rw [Memory.bytes_length]; omega) hn (by rw [Memory.bytes_length])
      rwa [Memory.bytes_length] at hstep

/-- A copy between blocks that do not meet. Source: `libpi/libc/memcpy.c` `memcpy`. Kind: P -/
theorem memcpy_eq {m : Memory} {dst src nbytes : UInt32}
    (h : Memory.Apart dst src nbytes.toNat) :
    memcpy m dst src nbytes = .ok (m.copied dst src nbytes.toNat) := by
  have hn := nbytes.toNat_lt
  unfold memcpy
  split
  · rename_i haligned
    have hmod : nbytes.toNat % 4 = 0 := by
      simp only [aligned4, Bool.and_eq_true, beq_iff_eq] at haligned
      exact haligned.2
    have hlen : nbytes.toNat / 4 * 4 = nbytes.toNat := by omega
    rw [if_neg (by simpa using hmod), copyUnits_eq h (by omega) hn, hlen]
    rfl
  · rw [copyUnits_eq h (by omega) hn, Nat.mul_one]
    rfl

end Cs140e.Libpi
