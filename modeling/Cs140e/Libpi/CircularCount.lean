import Cs140e.Libpi.CircularSeq

/-!
# Counting with any capacity

The header lets its client choose `CQ_N`. `cq_full` and the updates of the indices are right for
every capacity, and so a queue stays in order (`Reached.inv`). `cq_nelem` reduces a difference that
was taken modulo the range of `unsigned`.

* `Counts N m` — what the counting functions should say in the state `m`.
* `queued_eq` — the number of elements in terms of the indices; `counts_iff`, the states in which
  the functions are right.
* `exists_wrapped` — with every capacity, `head` can wrap below `tail`.
* `counts_reached_iff` — so the capacities that count in every state are those that divide the range.
-/

namespace Cs140e.Libpi.Circular

open Cs140e.Lib Cs140e.Lib.Prog

variable {N : UInt32} {m : Mem UInt8}

/-- How many elements were pushed and not yet popped. Source: `circular.h` `cq_t`. Kind: D -/
def Mem.queued (m : Mem UInt8) : Nat := m.pushed.length - m.popped.length

/-- The counting functions agree with the queue, and a push succeeds, with its assertion, exactly
when there is room. Source: `circular.h` `cq_nelem`, `cq_nspace`, `cq_push`. Kind: D -/
structure Counts (N : UInt32) (m : Mem UInt8) : Prop where
  nelem : ∃ k, Runs (cqNelem N) m (.ok k) m ∧ k.toNat = m.queued
  nspace : ∃ k, Runs (cqNspace N) m (.ok k) m ∧ k.toNat = N.toNat - 1 - m.queued
  push : ∀ x, ∃ n, Runs (cqPush N x) m (.ok (decide (m.queued < N.toNat - 1))) n

/-! ## One state -/

/-- The number of elements, from the indices. Source: `circular.h` `cq_t`. Kind: L -/
theorem queued_eq (hN : 2 ≤ N.toNat) (h : Inv N m) :
    m.queued = if m.q.tail.toNat ≤ m.q.head.toNat then m.q.head.toNat - m.q.tail.toNat
      else N.toNat - (m.q.tail.toNat - m.q.head.toNat) := by
  obtain ⟨hh, ht⟩ := h.fifo.index_lt hN
  have hle := h.fifo.holds.lo_le
  have hlt := h.fifo.holds.length_lt
  have hsum : m.q.head.toNat = (m.q.tail.toNat + m.queued) % N.toNat := by
    rw [h.fifo.head, h.fifo.tail, Nat.mod_add_mod, Mem.queued]
    congr 1
    omega
  have hq : m.queued < N.toNat := by
    unfold Mem.queued
    omega
  by_cases hwrap : m.q.tail.toNat + m.queued < N.toNat
  · rw [Nat.mod_eq_of_lt hwrap] at hsum
    rw [if_pos (by omega)]
    omega
  · rw [Nat.mod_eq_sub_mod (by omega), Nat.mod_eq_of_lt (by omega)] at hsum
    rw [if_neg (by omega)]
    omega

/-- A difference below zero is reduced to the right number by those `N` only that divide the range.
Source: none: infrastructure. Kind: L -/
theorem wrap_sub_iff {N d W : Nat} (hd : 0 < d) (hdN : d < N) (hNW : N ≤ W) :
    (W - d) % N = N - d ↔ N ∣ W := by
  have hback : (W - d) % N = N - d ↔ W - d ≡ N - d [MOD N] := by
    rw [Nat.ModEq, Nat.mod_eq_of_lt (show N - d < N by omega)]
  rw [hback, ← Nat.modEq_zero_iff_dvd]
  have hW : W - d + d = W := by omega
  have hN : N - d + d = N := by omega
  constructor
  · intro h
    have := h.add_right d
    rw [hW, hN] at this
    exact this.trans (by simp [Nat.ModEq])
  · intro h
    apply Nat.ModEq.add_right_cancel' d
    rw [hW, hN]
    exact h.trans (by simp [Nat.ModEq])

/-- When `cq_nelem` is right. Source: `circular.h` `cq_nelem`. Kind: P -/
theorem nelem_eq_queued_iff (hN : 2 ≤ N.toNat) (h : Inv N m) :
    ((m.q.head - m.q.tail) % N).toNat = m.queued ↔
      N.toNat ∣ 2 ^ 32 ∨ m.q.tail ≤ m.q.head := by
  obtain ⟨hh, ht⟩ := h.fifo.index_lt hN
  have hN32 := N.toNat_lt
  have hqueued := queued_eq hN h
  rw [UInt32.le_iff_toNat_le]
  by_cases hle : m.q.tail.toNat ≤ m.q.head.toNat
  · rw [if_pos hle] at hqueued
    have hsub : (m.q.head - m.q.tail).toNat = m.q.head.toNat - m.q.tail.toNat :=
      UInt32.toNat_sub_of_le _ _ (UInt32.le_iff_toNat_le.mpr hle)
    rw [hqueued, UInt32.toNat_mod, hsub, Nat.mod_eq_of_lt (by omega)]
    simp [hle]
  · rw [if_neg hle] at hqueued
    have hsub : (m.q.head - m.q.tail).toNat = 2 ^ 32 - (m.q.tail.toNat - m.q.head.toNat) := by
      rw [UInt32.toNat_sub, Nat.mod_eq_of_lt (by omega)]
      omega
    rw [hqueued, UInt32.toNat_mod, hsub, wrap_sub_iff (by omega) (by omega) (by omega)]
    simp [hle]

/-- **The states in which the functions count.** Source: `circular.h` `cq_nelem`, `cq_nspace`,
`cq_push`. Kind: P -/
theorem counts_iff (hN : 2 ≤ N.toNat) (h : Inv N m) :
    Counts N m ↔ N.toNat ∣ 2 ^ 32 ∨ m.q.tail ≤ m.q.head := by
  have hlt := h.fifo.holds.length_lt
  have hle := h.fifo.holds.lo_le
  rw [← nelem_eq_queued_iff hN h]
  constructor
  · rintro ⟨⟨k, hk, heq⟩, -, -⟩
    rw [cqNelem_iff] at hk
    rw [← Except.ok.inj hk.1]
    exact heq
  · intro hnelem
    have hq : m.queued < N.toNat := by
      unfold Mem.queued
      omega
    have hspace : (m.q.space N).toNat = N.toNat - 1 - m.queued := by
      rw [Cq.space, nspace_toNat hN (by omega), hnelem]
    have hroom := hasRoom_iff hN h.fifo
    refine ⟨⟨_, cqNelem_iff.mpr ⟨rfl, rfl⟩, hnelem⟩, ⟨_, cqNspace_iff.mpr ⟨rfl, rfl⟩, hspace⟩,
      fun x => ?_⟩
    by_cases hfree : m.queued < N.toNat - 1
    · have hhas : m.q.hasRoom N = true := by
        rw [hroom]
        unfold Mem.queued at hfree
        omega
      have hpos : 0 < m.q.space N := by
        rw [UInt32.lt_iff_toNat_lt, hspace]
        simp only [UInt32.toNat_zero]
        omega
      exact ⟨m.push N x, by simp [cqPush_iff, hhas, hpos, hfree]⟩
    · have hhas : m.q.hasRoom N = false := by
        rw [← Bool.not_eq_true, hroom]
        unfold Mem.queued at hfree
        omega
      exact ⟨m, by simp [cqPush_iff, hhas, hfree]⟩

/-! ## Wrapping -/

/-- A push in a state that counts. Source: `circular.h` `cq_push`. Kind: L -/
theorem Reached.push (hN : 2 ≤ N.toNat) (h : Reached N m) (hord : m.q.tail ≤ m.q.head)
    (hfree : m.queued < N.toNat - 1) :
    ∃ n, Reached N n ∧ n.pushed.length = m.pushed.length + 1 ∧ n.popped = m.popped := by
  obtain ⟨n, hn⟩ := ((counts_iff hN (h.inv hN)).mpr (.inr hord)).push 0
  rw [decide_eq_true hfree] at hn
  have hpush : n = m.push N 0 := by
    have hout := cqPush_iff.mp hn
    split at hout
    · split at hout
      · exact hout.2
      · simp at hout
    · simp at hout
  refine ⟨n, .call (c := .push 0) h hn, ?_, ?_⟩
  · simp [hpush, Mem.push]
  · rw [hpush]
    rfl

/-- A pop of a queue with elements. Source: `circular.h` `cq_pop_nonblock`. Kind: L -/
theorem Reached.pop (hN : 2 ≤ N.toNat) (h : Reached N m) (hne : 0 < m.queued) :
    ∃ n, Reached N n ∧ n.pushed = m.pushed ∧ n.popped.length = m.popped.length + 1 := by
  have hlt : m.popped.length < m.pushed.length := by
    unfold Mem.queued at hne
    omega
  have hrun : Runs (cqPopNonblock N) m (.ok (some (m.q.cBuf m.q.tail.toNat))) (m.pop N) := by
    rw [cqPopNonblock_iff, (nonempty_iff (h.inv hN).fifo).mpr hlt]
    simp
  have hcall : Runs (Call.pop.prog N) m (.ok true) (m.pop N) := hrun.bind (by simp)
  exact ⟨m.pop N, .call h hcall, rfl, by simp [Mem.pop]⟩

/-- With every capacity, filling and emptying the queue and one more push wrap `head` below `tail`.
Source: `circular.h` `cq_push`, `cq_pop_nonblock`
Kind: P -/
theorem exists_wrapped (hN : 2 ≤ N.toNat) : ∃ m, Reached N m ∧ m.q.head < m.q.tail := by
  have hfill : ∀ i < N.toNat, ∃ m, Reached N m ∧ m.pushed.length = i ∧ m.popped = [] := by
    intro i
    induction i with
    | zero =>
        intro _
        exact ⟨emptyMem.fresh 1, .init ((cqInit_iff hN).mpr ⟨rfl, rfl⟩), rfl, rfl⟩
    | succ i ih =>
        intro hi
        obtain ⟨m, hm, hlen, hpop⟩ := ih (by omega)
        have htail := (hm.inv hN).fifo.tail
        have hord : m.q.tail ≤ m.q.head := by
          rw [UInt32.le_iff_toNat_le, htail, hpop]
          simp
        obtain ⟨n, hn, hlen', hpop'⟩ := hm.push hN hord (by simp only [Mem.queued, hpop]; simp; omega)
        exact ⟨n, hn, by omega, hpop'.trans hpop⟩
  have hdrain : ∀ j < N.toNat, ∃ m, Reached N m ∧ m.pushed.length = N.toNat - 1 ∧
      m.popped.length = j := by
    intro j
    induction j with
    | zero =>
        intro _
        obtain ⟨m, hm, hlen, hpop⟩ := hfill (N.toNat - 1) (by omega)
        exact ⟨m, hm, hlen, by simp [hpop]⟩
    | succ j ih =>
        intro hj
        obtain ⟨m, hm, hlen, hpop⟩ := ih (by omega)
        obtain ⟨n, hn, hlen', hpop'⟩ := hm.pop hN (by unfold Mem.queued; omega)
        exact ⟨n, hn, by rw [hlen', hlen], by omega⟩
  obtain ⟨m, hm, hlen, hpop⟩ := hdrain (N.toNat - 1) (by omega)
  have hfifo := (hm.inv hN).fifo
  have hord : m.q.tail ≤ m.q.head := by
    rw [UInt32.le_iff_toNat_le, hfifo.head, hfifo.tail, hlen, hpop]
  obtain ⟨n, hn, hlen', hpop'⟩ := hm.push hN hord (by unfold Mem.queued; omega)
  have hfifo' := (hn.inv hN).fifo
  refine ⟨n, hn, ?_⟩
  rw [UInt32.lt_iff_toNat_lt, hfifo'.head, hfifo'.tail, hlen', hpop', hlen, hpop,
    show N.toNat - 1 + 1 = N.toNat by omega, Nat.mod_self, Nat.mod_eq_of_lt (by omega)]
  omega

/-! ## Every state -/

/-- **The capacities that count** in every state are those that divide the range of `unsigned`; with
the others, the states that count are those in which `head` is not wrapped below `tail`.
Source: `circular.h` `CQ_N`, `cq_nelem`
Kind: P -/
theorem counts_reached_iff (N : UInt32) (hN : 2 ≤ N.toNat) :
    ((∀ m, Reached N m → Counts N m) ↔ N.toNat ∣ 2 ^ 32) ∧
      ∀ m, Reached N m → (Counts N m ↔ N.toNat ∣ 2 ^ 32 ∨ m.q.tail ≤ m.q.head) := by
  have hstate : ∀ m, Reached N m → (Counts N m ↔ N.toNat ∣ 2 ^ 32 ∨ m.q.tail ≤ m.q.head) :=
    fun m hm => counts_iff hN (hm.inv hN)
  refine ⟨⟨fun hall => ?_, fun hdvd m hm => (hstate m hm).mpr (.inl hdvd)⟩, hstate⟩
  obtain ⟨m, hm, hwrap⟩ := exists_wrapped hN
  rcases (hstate m hm).mp (hall m hm) with hdvd | hord
  · exact hdvd
  · rw [UInt32.le_iff_toNat_le] at hord
    rw [UInt32.lt_iff_toNat_lt] at hwrap
    omega

/-- The theorem at the default capacity. Source: `circular.h` `CQ_N`. Kind: L -/
theorem counts_reached_default :
    ((∀ m, Reached cqN m → Counts cqN m) ↔ cqN.toNat ∣ 2 ^ 32) ∧
      ∀ m, Reached cqN m → (Counts cqN m ↔ cqN.toNat ∣ 2 ^ 32 ∨ m.q.tail ≤ m.q.head) :=
  counts_reached_iff cqN (by decide)

/-- **Three cells**: two pushes, two pops and a push leave one element. It is counted as two, and the
next push trips its assertion. Source: `circular.h` `cq_nelem`, `cq_push`. Kind: P -/
theorem counts_three_fails : ∃ m, Reached 3 m ∧ m.queued = 1 ∧ Runs (cqNelem 3) m (.ok 2) m ∧
    Runs (cqPush 3 4) m (.error (.assert "cq_nspace(c) > 0")) m ∧ ¬ Counts 3 m := by
  have h₀ : Reached 3 (emptyMem.fresh 1) := .init ((cqInit_iff (by decide)).mpr ⟨rfl, rfl⟩)
  have h₁ := h₀.call (c := .push 1) (r := true) ⟨20, rfl⟩
  have h₂ := h₁.call (c := .push 2) (r := true) ⟨20, rfl⟩
  have h₃ := h₂.call (c := .pop) (r := true) ⟨20, rfl⟩
  have h₄ := h₃.call (c := .pop) (r := true) ⟨20, rfl⟩
  have h₅ := h₄.call (c := .push 3) (r := true) ⟨20, rfl⟩
  refine ⟨_, h₅, rfl, ⟨20, rfl⟩, ⟨20, rfl⟩, ?_⟩
  rintro ⟨⟨k, hk, heq⟩, -, -⟩
  have hk2 := Except.ok.inj (cqNelem_iff.mp hk).1
  rw [hk2] at heq
  exact absurd heq (by decide)

end Cs140e.Libpi.Circular
