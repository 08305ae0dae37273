import Cs140e.Lib.Ring
import Cs140e.Libpi.Circular

/-!
# The circular queue as a FIFO list

The abstract reading of `Cq`: the list `xs` of everything ever stored and the number `lo` of
elements already taken, of which `head` and `tail` are the remainders modulo `CQ_N`. Counting by
subtraction needs `CQ_N` to divide the range of `unsigned` (`RingSize`), as the default does.

* `Fifo N q xs lo` — the queue represents the elements of `xs` from `lo` on.
* `nelem_toNat`, `empty_iff`, `full_iff`, `nspace_toNat` — what the counting functions compute
  from a `head` and a `tail` of that form, also when the two were loaded at different times.
* `Fifo.stage`, `Fifo.publish`, `Fifo.pop`, `Fifo.contents` — the three stores and the elements
  left. `fifo_of_index_lt`: every queue with its indices in range is of that form.
* `Inv N m` — the queue is what was pushed and not yet popped.
-/

namespace Cs140e.Libpi.Circular

open Cs140e.Lib Cs140e.Lib.Prog

variable {α : Type} {N : UInt32}

/-- A capacity with which unsigned subtraction counts. Source: `circular.h` `CQ_N`. Kind: D -/
structure RingSize (N : UInt32) : Prop where
  dvd : N.toNat ∣ 2 ^ 32
  two_le : 2 ≤ N.toNat

/-- The default capacity qualifies. Source: `circular.h` `CQ_N`. Kind: L -/
theorem ringSize_cqN : RingSize cqN := ⟨⟨2 ^ 19, by decide⟩, by decide⟩

/-! ## What the counting functions compute -/

/-- The stored index after `h`. Source: `circular.h` `(head + 1) % (CQ_N)`. Kind: L -/
theorem next_toNat (hN : 2 ≤ N.toNat) {h : UInt32} {a : Nat} (ha : h.toNat = a % N.toNat) :
    ((h + 1) % N).toNat = (a + 1) % N.toNat := by
  have hlt : a % N.toNat < N.toNat := Nat.mod_lt _ (by omega)
  have hw : (h + 1).toNat = a % N.toNat + 1 := by
    rw [UInt32.toNat_add, ha]
    have := N.toNat_lt
    exact Nat.mod_eq_of_lt (by simp; omega)
  rw [UInt32.toNat_mod, hw, Ring.succ_mod]

variable {h t : UInt32} {a b : Nat}

/-- Source: `circular.h` `cq_nelem`. Kind: L -/
theorem nelem_toNat (hN : RingSize N) (ha : h.toNat = a % N.toNat) (hb : t.toNat = b % N.toNat)
    (hba : b ≤ a) (hab : a < b + N.toNat) : ((h - t) % N).toNat = a - b := by
  rw [UInt32.toNat_mod, UInt32.toNat_sub, ha, hb]
  exact Ring.wrap_sub_mod (by have := hN.two_le; omega) hN.dvd hba hab (by decide)

/-- Source: `circular.h` `cq_empty`. Kind: L -/
theorem empty_iff (ha : h.toNat = a % N.toNat) (hb : t.toNat = b % N.toNat)
    (hba : b ≤ a) (hab : a < b + N.toNat) : (h == t) = true ↔ a = b := by
  rw [beq_iff_eq]
  constructor
  · intro he
    exact Ring.eq_of_mod_eq hba hab (by rw [← ha, ← hb, he])
  · intro he
    exact UInt32.toNat_inj.mp (by rw [ha, hb, he])

/-- Source: `circular.h` `cq_full`. Kind: L -/
theorem full_iff (hN : 2 ≤ N.toNat) (ha : h.toNat = a % N.toNat) (hb : t.toNat = b % N.toNat)
    (hba : b ≤ a) (hab : a < b + N.toNat) :
    ((h + 1) % N == t) = true ↔ a + 1 = b + N.toNat := by
  have hnext := next_toNat hN ha
  rw [beq_iff_eq]
  constructor
  · intro he
    have hmod : (a + 1) % N.toNat = (b + N.toNat) % N.toNat := by
      rw [← hnext, he, hb, Nat.add_mod_right]
    by_cases hlast : a + 1 = b + N.toNat
    · exact hlast
    · have := Ring.eq_of_mod_eq (a := b + N.toNat) (b := a + 1) (by omega) (by omega) hmod.symm
      exact this.symm
  · intro he
    exact UInt32.toNat_inj.mp (by rw [hnext, hb, he, Nat.add_mod_right])

/-- Source: `circular.h` `cq_nspace`. Kind: L -/
theorem nspace_toNat (hN : 2 ≤ N.toNat) {n : UInt32} (hn : n.toNat < N.toNat) :
    (N - 1 - n).toNat = N.toNat - 1 - n.toNat := by
  have h1 : (N - 1).toNat = N.toNat - 1 := by
    rw [UInt32.toNat_sub_of_le _ _ (by rw [UInt32.le_iff_toNat_le]; simp; omega)]
    rfl
  rw [UInt32.toNat_sub_of_le _ _ (by rw [UInt32.le_iff_toNat_le, h1]; omega), h1]

/-! ## The queue as a list -/

/-- The queue holds the elements of `xs` from `lo` on, in its ring.
Source: `circular.h` `cq_t` (its purpose: a FIFO)
Kind: D -/
structure Fifo (N : UInt32) (q : Cq α) (xs : List α) (lo : Nat) : Prop where
  holds : Ring.Holds N.toNat q.cBuf xs lo
  head : q.head.toNat = xs.length % N.toNat
  tail : q.tail.toNat = lo % N.toNat

variable {q : Cq α} {xs : List α} {lo : Nat}

/-- The element count. Source: `circular.h` `cq_nelem`. Kind: L -/
theorem Fifo.nelem (hN : RingSize N) (h : Fifo N q xs lo) :
    ((q.head - q.tail) % N).toNat = xs.length - lo :=
  nelem_toNat hN h.head h.tail h.holds.lo_le h.holds.length_lt

/-- Both indices are in range. Source: `circular.h` `c_buf[CQ_N]`. Kind: L -/
theorem Fifo.index_lt (hN : 2 ≤ N.toNat) (h : Fifo N q xs lo) :
    q.head.toNat < N.toNat ∧ q.tail.toNat < N.toNat := by
  have hpos : 0 < N.toNat := by omega
  rw [h.head, h.tail]
  exact ⟨Nat.mod_lt _ hpos, Nat.mod_lt _ hpos⟩

/-- The elements from `tail` to `head` are the rest of `xs`. Source: `circular.h`. Kind: L -/
theorem Fifo.contents (hN : RingSize N) (h : Fifo N q xs lo) : q.contents N = xs.drop lo := by
  rw [Cq.contents, h.nelem hN, h.tail]
  exact h.holds.contents

/-- Storing an element in the free cell. Source: `circular.h` `cq_push`. Kind: L -/
theorem Fifo.stage (h : Fifo N q xs lo) (x : α) (hroom : xs.length + 1 < lo + N.toNat) :
    Fifo N { q with cBuf := Function.update q.cBuf q.head.toNat x } xs lo where
  holds := by
    rw [h.head]
    exact h.holds.stage x hroom
  head := h.head
  tail := h.tail

/-- Publishing what was stored in the free cell. Source: `circular.h` `cq_push`. Kind: L -/
theorem Fifo.publish (hN : 2 ≤ N.toNat) (h : Fifo N q xs lo) {x : α}
    (hx : q.cBuf q.head.toNat = x) (hroom : xs.length + 1 < lo + N.toNat) :
    Fifo N { q with head := (q.head + 1) % N } (xs ++ [x]) lo where
  holds := h.holds.publish (by rwa [h.head] at hx) hroom
  head := by rw [next_toNat hN h.head, List.length_append, List.length_singleton]
  tail := h.tail

/-- Taking the oldest element. Source: `circular.h` `cq_pop_nonblock`. Kind: L -/
theorem Fifo.pop (hN : 2 ≤ N.toNat) (h : Fifo N q xs lo) (hne : lo < xs.length) :
    Fifo N { q with tail := (q.tail + 1) % N } xs (lo + 1) where
  holds := h.holds.pop hne
  head := h.head
  tail := next_toNat hN h.tail

/-- The cell under `tail` holds the oldest element. Source: `circular.h` `cq_pop_nonblock`.
Kind: L -/
theorem Fifo.oldest (h : Fifo N q xs lo) (hne : lo < xs.length) :
    q.cBuf q.tail.toNat = xs[lo] := by
  rw [h.tail]
  exact h.holds.cell lo hne le_rfl

/-- Any queue with both indices in range represents some list.
Source: `circular.h` `cq_t`
Kind: L -/
theorem fifo_of_index_lt (hN : RingSize N) (q : Cq α) (hh : q.head < N) (ht : q.tail < N) :
    ∃ xs lo, Fifo N q xs lo := by
  rw [UInt32.lt_iff_toNat_lt] at hh ht
  have hlt : ((q.head - q.tail) % N).toNat < N.toNat := by
    rw [UInt32.toNat_mod]
    exact Nat.mod_lt _ (by omega)
  let k := ((q.head - q.tail) % N).toNat
  let xs := (List.range (q.tail.toNat + k)).map fun i => q.cBuf (i % N.toNat)
  have hlen : xs.length = q.tail.toNat + k := by simp [xs]
  refine ⟨xs, q.tail.toNat, ⟨by omega, by omega, fun i hi _ => by simp [xs]⟩, ?_, ?_⟩
  · rw [hlen]
    have hk : k = (2 ^ 32 - q.tail.toNat + q.head.toNat) % N.toNat := by
      simp only [k, UInt32.toNat_mod, UInt32.toNat_sub]
      exact Nat.mod_mod_of_dvd _ hN.dvd
    have hle := q.tail.toNat_lt
    have hsum : q.tail.toNat + (2 ^ 32 - q.tail.toNat + q.head.toNat) = 2 ^ 32 + q.head.toNat := by
      omega
    rw [hk, Nat.add_mod_mod, hsum, Nat.add_mod, Nat.mod_eq_zero_of_dvd hN.dvd, Nat.zero_add,
      Nat.mod_mod, Nat.mod_eq_of_lt hh]
  · exact (Nat.mod_eq_of_lt ht).symm

/-- The queue holds what was pushed and not yet popped, and the pops came in push order.
Source: `circular.h` (its purpose: a lock-free FIFO)
Kind: D -/
structure Inv (N : UInt32) (m : Mem α) : Prop where
  fifo : Fifo N m.q m.pushed m.popped.length
  order : m.popped = m.pushed.take m.popped.length

/-! ## A fresh queue -/

/-- The memory after `cq_init` in zeroed storage. Source: `circular.h` `cq_init`. Kind: D -/
def emptyMem : Mem UInt8 where
  q := { cBuf := fun _ => 0, fence := 0x12345678, head := 0, tail := 0, overflow := 0,
         errorsFatalP := true }
  intEnabled := true
  pushed := []
  popped := []

/-- `cq_init` leaves `emptyMem`. Source: `circular.h` `cq_init`. Kind: L -/
theorem cqInit_emptyMem : Runs (cqInit cqN 1) emptyMem (.ok ()) emptyMem :=
  ⟨40, rfl⟩

end Cs140e.Libpi.Circular
