import Cs140e.Lib.Hoare
import Cs140e.Libpi.CircularFifo

/-!
# Uninterrupted queue operations

What each operation does when nothing happens during it, and sequences of calls.

* `Mem.push`, `Mem.pop` — the memory after one element more or less; `cqPush_iff`,
  `cqPopNonblock_iff` and `cqPop_ok` — when an operation gets there, for every capacity.
* `Fifo.push`, `Fifo.take` — the list after it. `cqPush_runs`, `pushLoop_runs`, `popLoop_runs`,
  `cqPushN_runs`, `cqPopNNoblk_runs` — the outcomes, for a capacity with which subtraction counts.
* `Mem.fresh` — the memory after `cq_init`. `Call`, `runCalls` — calls of a client that never blocks;
  `Call.keeps`, what they keep. `Reached` — the states that such calls lead to.
-/

namespace Cs140e.Libpi.Circular

open Cs140e.Lib Cs140e.Lib.Prog

variable {α : Type} {N : UInt32}

/-! ## One element -/

/-- The memory after a push that found room. Source: `circular.h` `cq_push`. Kind: D -/
def Mem.push (N : UInt32) (x : α) (m : Mem α) : Mem α :=
  { m with
    q := { m.q with
      cBuf := Function.update m.q.cBuf m.q.head.toNat x, head := (m.q.head + 1) % N }
    pushed := m.pushed ++ [x] }

/-- The queue has room for one more. Source: `circular.h` `cq_full`. Kind: D -/
def Cq.hasRoom (N : UInt32) (q : Cq α) : Bool := !((q.head + 1) % N == q.tail)

/-- The memory after a pop that found an element. Source: `circular.h` `cq_pop_nonblock`. Kind: D -/
def Mem.pop (N : UInt32) (m : Mem α) : Mem α :=
  { m with
    q := { m.q with tail := (m.q.tail + 1) % N }
    popped := m.popped ++ [m.q.cBuf m.q.tail.toNat] }

/-- The memory once the saved `tail` is stored back. Source: `circular.h` `cq_restore`,
`cq_peek_n`. Kind: D -/
def Mem.rewind (t : UInt32) (m : Mem α) : Mem α := { m with q := { m.q with tail := t } }

/-- The number of free cells that `cq_nspace` computes. Source: `circular.h` `cq_nspace`. Kind: D -/
def Cq.space (N : UInt32) (q : Cq α) : UInt32 := N - 1 - (q.head - q.tail) % N

/-- Every outcome of an uninterrupted push, whatever the capacity. Source: `circular.h` `cq_push`.
Kind: P -/
theorem cqPush_iff {m t : Mem α} {x : α} {o : Except Stop Bool} :
    Runs (cqPush N x) m o t ↔
      if m.q.hasRoom N then
        if 0 < m.q.space N then o = .ok true ∧ t = m.push N x
        else o = .error (.assert "cq_nspace(c) > 0") ∧ t = m
      else o = .ok false ∧ t = m := by
  simp only [cqPush, cqFull, cqNspace, cqNelem, ldHead, ldTail, bind_eq_seq, pure_eq_ret, seq_seq,
    ret_bind, runs_load_bind_iff]
  by_cases hfull : (m.q.head + 1) % N == m.q.tail
  · simp [Cq.hasRoom, hfull]
  · by_cases hspace : 0 < N - 1 - (m.q.head - m.q.tail) % N
    · simp [Cq.hasRoom, hfull, Cq.space, cAssert, check, hspace, stBuf, stHead, Mem.push]
    · simp [Cq.hasRoom, hfull, Cq.space, cAssert, check, hspace]

/-- Every outcome of an uninterrupted pop, whatever the capacity.
Source: `circular.h` `cq_pop_nonblock`
Kind: P -/
theorem cqPopNonblock_iff {m t : Mem α} {o : Except Stop (Option α)} :
    Runs (cqPopNonblock N) m o t ↔
      if m.q.head == m.q.tail then o = .ok none ∧ t = m
      else o = .ok (some (m.q.cBuf m.q.tail.toNat)) ∧ t = m.pop N := by
  simp only [cqPopNonblock, cqEmpty, ldHead, ldTail, ldBuf, bind_eq_seq, pure_eq_ret, seq_seq,
    ret_bind, runs_load_bind_iff]
  by_cases hempty : m.q.head == m.q.tail
  · simp [hempty]
  · simp [hempty, stTail, Mem.pop]

/-- A blocking pop that returns found an element: nobody pushes one while it waits.
Source: `circular.h` `cq_pop`
Kind: P -/
theorem cqPop_ok {m t : Mem α} {e : α} (h : Runs (cqPop N) m (.ok e) t) :
    (m.q.head == m.q.tail) = false ∧ e = m.q.cBuf m.q.tail.toNat ∧ t = m.pop N := by
  have htriple : Triple (fun s => s = m) (cqPop N) fun e t =>
      (m.q.head == m.q.tail) = false ∧ e = m.q.cBuf m.q.tail.toNat ∧ t = m.pop N := by
    refine Triple.loop (fun _ s => s = m) (M := fun e t =>
      (m.q.head == m.q.tail) = false ∧ e = m.q.cBuf m.q.tail.toNat ∧ t = m.pop N)
      (fun _ => ?_) (fun _ => .ret fun _ h => h) ()
    refine Triple.bind (M := fun r s => Runs (cqPopNonblock N) m (.ok r) s)
      (fun s r t hs hr => hs ▸ hr) fun r => ?_
    cases r with
    | some e =>
        refine .ret fun s hs => ?_
        rw [cqPopNonblock_iff] at hs
        split at hs
        · simp at hs
        · rename_i hne
          exact ⟨by simpa using hne, by simpa using hs.1, hs.2⟩
    | none =>
        refine Triple.load fun enabled => ?_
        cases enabled with
        | false => exact .raise
        | true =>
            refine .ret fun s hs => ?_
            have hnone := hs.1
            rw [cqPopNonblock_iff] at hnone
            split at hnone
            · exact hnone.2
            · simp at hnone
  exact htriple m e t rfl h

/-- A blocking pop of an element. Source: `circular.h` `cq_pop`. Kind: L -/
theorem cqPop_runs {m : Mem α} (hne : (m.q.head == m.q.tail) = false) :
    Runs (cqPop N) m (.ok (m.q.cBuf m.q.tail.toNat)) (m.pop N) := by
  have hpop : Runs (cqPopNonblock N) m (.ok (some (m.q.cBuf m.q.tail.toNat))) (m.pop N) := by
    rw [cqPopNonblock_iff, hne]
    simp
  rw [cqPop, runs_loop_iff, again, bind_eq_seq, seq_seq]
  exact hpop.bind (by simp)

section

variable {m : Mem α} {xs : List α} {lo : Nat}

/-- Source: `circular.h` `cq_full`. Kind: L -/
theorem hasRoom_iff (hN : 2 ≤ N.toNat) (h : Fifo N m.q xs lo) :
    m.q.hasRoom N = true ↔ xs.length + 1 < lo + N.toNat := by
  have hlt := h.holds.length_lt
  have hfull := full_iff hN h.head h.tail h.holds.lo_le hlt
  unfold Cq.hasRoom
  rw [Bool.not_eq_true', ← Bool.not_eq_true, hfull]
  omega

/-- Source: `circular.h` `cq_empty`. Kind: L -/
theorem nonempty_iff (h : Fifo N m.q xs lo) :
    (m.q.head == m.q.tail) = false ↔ lo < xs.length := by
  have hle := h.holds.lo_le
  have hempty := empty_iff h.head h.tail hle h.holds.length_lt
  rw [← Bool.not_eq_true, hempty]
  omega

/-- The list after a push. Source: `circular.h` `cq_push`. Kind: L -/
theorem Fifo.push (hN : 2 ≤ N.toNat) (h : Fifo N m.q xs lo) (x : α)
    (hroom : xs.length + 1 < lo + N.toNat) : Fifo N (m.push N x).q (xs ++ [x]) lo :=
  (h.stage x hroom).publish (x := x) hN (by simp) hroom

/-- The list after a pop. Source: `circular.h` `cq_pop_nonblock`. Kind: L -/
theorem Fifo.take (hN : 2 ≤ N.toNat) (h : Fifo N m.q xs lo) (hne : lo < xs.length) :
    Fifo N (m.pop N).q xs (lo + 1) :=
  h.pop hN hne

/-- What was pushed and not popped, after a push. Source: `circular.h` `cq_push`. Kind: L -/
theorem Inv.push (hN : 2 ≤ N.toNat) (h : Inv N m) {x : α} (hroom : m.q.hasRoom N = true) :
    Inv N (m.push N x) where
  fifo := h.fifo.push hN x ((hasRoom_iff hN h.fifo).mp hroom)
  order := by
    have hle := h.fifo.holds.lo_le
    show m.popped = (m.pushed ++ [x]).take m.popped.length
    rw [List.take_append_of_le_length hle]
    exact h.order

/-- What was pushed and not popped, after a pop. Source: `circular.h` `cq_pop_nonblock`. Kind: L -/
theorem Inv.pop (hN : 2 ≤ N.toNat) (h : Inv N m) (hne : (m.q.head == m.q.tail) = false) :
    Inv N (m.pop N) := by
  have hlt := (nonempty_iff h.fifo).mp hne
  have hold := h.fifo.oldest hlt
  refine ⟨?_, ?_⟩
  · show Fifo N (m.pop N).q m.pushed (m.popped ++ [m.q.cBuf m.q.tail.toNat]).length
    rw [List.length_append, List.length_singleton]
    exact h.fifo.take hN hlt
  · show m.popped ++ [m.q.cBuf m.q.tail.toNat] =
      m.pushed.take (m.popped ++ [m.q.cBuf m.q.tail.toNat]).length
    rw [List.length_append, List.length_singleton, List.take_add_one, ← h.order, hold,
      List.getElem?_eq_getElem hlt]
    rfl

/-- An uninterrupted push returns whether there was room, and never trips its assertion.
Source: `circular.h` `cq_push`
Kind: P -/
theorem cqPush_runs (hN : RingSize N) (h : Fifo N m.q xs lo) (x : α) :
    Runs (cqPush N x) m (.ok (m.q.hasRoom N)) (if m.q.hasRoom N then m.push N x else m) := by
  have hlt := h.holds.length_lt
  have hle := h.holds.lo_le
  have hnelem := h.nelem hN
  rw [cqPush_iff]
  by_cases hroom : m.q.hasRoom N = true
  · have hless := (hasRoom_iff hN.two_le h).mp hroom
    have hspace : 0 < m.q.space N := by
      rw [UInt32.lt_iff_toNat_lt, Cq.space, nspace_toNat hN.two_le (by omega), hnelem]
      simp only [UInt32.toNat_zero]
      omega
    simp [hroom, hspace]
  · simp [hroom]

/-! ## Blocks -/

/-- The memory after `data` was pushed. Source: `circular.h` `cq_push_n`. Kind: D -/
def Mem.pushes (N : UInt32) (data : List α) (m : Mem α) : Mem α :=
  data.foldl (fun m x => m.push N x) m

/-- The memory after `k` elements were popped. Source: `circular.h` `cq_pop_n`. Kind: D -/
def Mem.pops (N : UInt32) : Nat → Mem α → Mem α
  | 0, m => m
  | k + 1, m => Mem.pops N k (m.pop N)

/-- The list after a block of pushes. Source: `circular.h` `cq_push_n`. Kind: L -/
theorem Fifo.pushes (hN : 2 ≤ N.toNat) (h : Fifo N m.q xs lo) {data : List α}
    (hroom : xs.length + data.length < lo + N.toNat) :
    Fifo N (m.pushes N data).q (xs ++ data) lo := by
  induction data generalizing m xs with
  | nil => simpa [Mem.pushes] using h
  | cons x data ih =>
      rw [List.length_cons] at hroom
      have hpush := h.push hN x (by omega)
      have hrest := ih hpush (by rw [List.length_append, List.length_singleton]; omega)
      rw [List.append_assoc, List.singleton_append] at hrest
      exact hrest

/-- The list after a block of pops. Source: `circular.h` `cq_pop_n`. Kind: L -/
theorem Fifo.pops (hN : 2 ≤ N.toNat) (h : Fifo N m.q xs lo) {k : Nat} (hk : lo + k ≤ xs.length) :
    Fifo N (m.pops N k).q xs (lo + k) := by
  induction k generalizing m lo with
  | zero => exact h
  | succ k ih =>
      have hrest := ih (h.take hN (by omega)) (by omega)
      rw [show lo + 1 + k = lo + (k + 1) by omega] at hrest
      exact hrest

/-- The histories after a block of pushes. Source: `circular.h` `cq_push_n`. Kind: L -/
theorem Inv.pushes (hN : 2 ≤ N.toNat) (h : Inv N m) {data : List α}
    (hroom : m.pushed.length + data.length < m.popped.length + N.toNat) :
    Inv N (m.pushes N data) ∧ (m.pushes N data).pushed = m.pushed ++ data ∧
      (m.pushes N data).popped = m.popped := by
  induction data generalizing m with
  | nil => exact ⟨h, (List.append_nil _).symm, rfl⟩
  | cons x data ih =>
      rw [List.length_cons] at hroom
      have hhas : m.q.hasRoom N = true := (hasRoom_iff hN h.fifo).mpr (by omega)
      have hlength : (m.push N x).pushed.length = m.pushed.length + 1 := List.length_append
      obtain ⟨hinv, hpushed, hpopped⟩ := ih (h.push hN (x := x) hhas) (by
        rw [hlength]
        show _ < m.popped.length + _
        omega)
      refine ⟨hinv, hpushed.trans ?_, hpopped⟩
      show (m.pushed ++ [x]) ++ data = _
      simp

/-- The histories after a block of pops. Source: `circular.h` `cq_pop_n`. Kind: L -/
theorem Inv.pops (hN : 2 ≤ N.toNat) (h : Inv N m) {k : Nat}
    (hk : m.popped.length + k ≤ m.pushed.length) :
    Inv N (m.pops N k) ∧ (m.pops N k).pushed = m.pushed ∧
      (m.pops N k).popped = m.popped ++ (m.pushed.drop m.popped.length).take k := by
  induction k generalizing m with
  | zero => exact ⟨h, rfl, (List.append_nil _).symm⟩
  | succ k ih =>
      have hlt : m.popped.length < m.pushed.length := by omega
      have hlength : (m.pop N).popped.length = m.popped.length + 1 := List.length_append
      obtain ⟨hinv, hpushed, hpopped⟩ := ih (h.pop hN ((nonempty_iff h.fifo).mpr hlt)) (by
        rw [hlength]
        show _ ≤ m.pushed.length
        omega)
      refine ⟨hinv, hpushed, hpopped.trans ?_⟩
      rw [hlength, List.drop_eq_getElem_cons hlt, List.take_succ_cons, ← h.fifo.oldest hlt]
      show (m.popped ++ [_]) ++ (m.pushed.drop _).take k = _
      rw [List.append_assoc, List.singleton_append]

/-- The loop of a block push never runs out of room. Source: `circular.h` `cq_push_n`. Kind: P -/
theorem pushLoop_runs (hN : RingSize N) (h : Fifo N m.q xs lo) {data : List α}
    (hroom : xs.length + data.length < lo + N.toNat) :
    Runs (pushLoop N data) m (.ok true) (m.pushes N data) := by
  induction data generalizing m xs with
  | nil => simp [pushLoop, Mem.pushes]
  | cons x data ih =>
      rw [List.length_cons] at hroom
      have hhas : m.q.hasRoom N = true := (hasRoom_iff hN.two_le h).mpr (by omega)
      have hpush := cqPush_runs hN h x
      rw [hhas, if_pos rfl] at hpush
      have hrest := ih (h.push hN.two_le x (by omega))
        (by rw [List.length_append, List.length_singleton]; omega)
      exact hpush.bind hrest

/-- The loop of a block pop returns the oldest elements. Source: `circular.h` `cq_pop_n`. Kind: P -/
theorem popLoop_runs (h : Fifo N m.q xs lo) (hN : 2 ≤ N.toNat) {k : Nat}
    (hk : lo + k ≤ xs.length) :
    Runs (popLoop N k) m (.ok ((xs.drop lo).take k)) (m.pops N k) := by
  induction k generalizing m lo with
  | zero => simp [popLoop, Mem.pops]
  | succ k ih =>
      have hlt : lo < xs.length := by omega
      have hpop := cqPop_runs (N := N) ((nonempty_iff h).mpr hlt)
      have hrest := ih (h.take hN hlt) (by omega)
      rw [h.oldest hlt] at hpop
      rw [List.drop_eq_getElem_cons hlt, List.take_succ_cons]
      exact hpop.bind (hrest.bind (by simp [Mem.pops]))

/-- The number of elements that `cq_nelem` returns. Source: `circular.h` `cq_nelem`. Kind: L -/
theorem cqNelem_iff {t : Mem α} {o : Except Stop UInt32} :
    Runs (cqNelem N) m o t ↔ o = .ok ((m.q.head - m.q.tail) % N) ∧ t = m := by
  simp [cqNelem, ldHead, ldTail]

/-- The number of free cells that `cq_nspace` returns. Source: `circular.h` `cq_nspace`. Kind: L -/
theorem cqNspace_iff {t : Mem α} {o : Except Stop UInt32} :
    Runs (cqNspace N) m o t ↔ o = .ok (m.q.space N) ∧ t = m := by
  simp [cqNspace, cqNelem, ldHead, ldTail, seq_seq, Cq.space]

/-- The free cells. Source: `circular.h` `cq_nspace`. Kind: L -/
theorem Fifo.space (hN : RingSize N) (h : Fifo N m.q xs lo) :
    (m.q.space N).toNat = N.toNat - 1 - (xs.length - lo) := by
  have hnelem := h.nelem hN
  have hle := h.holds.lo_le
  have hlt := h.holds.length_lt
  rw [Cq.space, nspace_toNat hN.two_le (by omega), hnelem]

/-- **A block push** is all or nothing. Source: `circular.h` `cq_push_n`. Kind: P -/
theorem cqPushN_runs (hN : RingSize N) (h : Fifo N m.q xs lo) {data : List α} (hne : data ≠ []) :
    Runs (cqPushN N data) m (.ok (decide (xs.length + data.length < lo + N.toNat)))
      (if xs.length + data.length < lo + N.toNat then m.pushes N data else m) := by
  have hspace := h.space hN
  have hlt := h.holds.length_lt
  have hle := h.holds.lo_le
  have h2 := hN.two_le
  have hassert : (data.length != 0) = true := by simpa using hne
  rw [cqPushN, cAssert, check_of_true hassert]
  refine (cqNspace_iff.mpr ⟨rfl, rfl⟩).bind ?_
  by_cases hroom : xs.length + data.length < lo + N.toNat
  · rw [if_neg (by omega), if_pos hroom, decide_eq_true hroom]
    exact pushLoop_runs hN h hroom
  · rw [if_pos (by omega), if_neg hroom, decide_eq_false hroom]
    simp

/-- **A block pop** is all or nothing. Source: `circular.h` `cq_pop_n_noblk`. Kind: P -/
theorem cqPopNNoblk_runs (hN : RingSize N) (h : Fifo N m.q xs lo) (n : UInt32) :
    Runs (cqPopNNoblk N n) m
      (.ok (if lo + n.toNat ≤ xs.length then some ((xs.drop lo).take n.toNat) else none))
      (if lo + n.toNat ≤ xs.length then m.pops N n.toNat else m) := by
  have hnelem := h.nelem hN
  have hle := h.holds.lo_le
  refine (cqNelem_iff.mpr ⟨rfl, rfl⟩).bind ?_
  by_cases hk : lo + n.toNat ≤ xs.length
  · have hnot : ¬ (m.q.head - m.q.tail) % N < n := by
      rw [UInt32.lt_iff_toNat_lt, hnelem]
      omega
    rw [if_neg hnot, if_pos hk, if_pos hk]
    exact (popLoop_runs h hN.two_le hk).bind (by simp)
  · have hless : (m.q.head - m.q.tail) % N < n := by
      rw [UInt32.lt_iff_toNat_lt, hnelem]
      omega
    rw [if_pos hless, if_neg hk, if_neg hk]
    simp

end

/-! ## Initialization -/

/-- The memory after `cq_init`. Source: `circular.h` `cq_init`. Kind: D -/
def Mem.fresh (errorsFatalP : UInt32) (m : Mem UInt8) : Mem UInt8 :=
  { m with
    q := { cBuf := fun _ => 0, fence := 0x12345678, head := 0, tail := 0, overflow := 0,
           errorsFatalP := errorsFatalP &&& 1 == 1 }
    pushed := []
    popped := [] }

/-- Initialization passes its own checks, whatever the capacity. Source: `circular.h` `cq_init`.
Kind: L -/
theorem cqInit_iff (hN : 2 ≤ N.toNat) {f : UInt32} {m n : Mem UInt8} {o : Except Stop Unit} :
    Runs (cqInit N f) m o n ↔ o = .ok () ∧ n = m.fresh f := by
  have h1 : (1 : UInt32) % N ≠ 0 := by
    intro he
    have hz := congrArg UInt32.toNat he
    rw [UInt32.toNat_mod] at hz
    rw [Nat.mod_eq_of_lt (show UInt32.toNat 1 < N.toNat by simpa using by omega)] at hz
    simp at hz
  simp [cqInit, cqEmpty, cqFull, cqNelem, cqPopNonblock, ldHead, ldTail, load, store, access,
    cAssert, check, h1, Mem.fresh]

/-- Initialization leaves the empty queue. Source: `circular.h` `cq_init`. Kind: P -/
theorem cqInit_runs (hN : 2 ≤ N.toNat) {f : UInt32} {m n : Mem UInt8} {o : Except Stop Unit}
    (h : Runs (cqInit N f) m o n) :
    o = .ok () ∧ n.pushed = [] ∧ n.popped = [] ∧ Inv N n := by
  have hpos : 0 < N.toNat := by omega
  obtain ⟨rfl, rfl⟩ := (cqInit_iff hN).mp h
  refine ⟨rfl, rfl, rfl, ⟨⟨?_, by simpa [Mem.fresh] using hpos, ?_⟩, ?_, ?_⟩, rfl⟩ <;>
    simp [Mem.fresh]

/-! ## Sequences of calls -/

/-- A call of a client that never blocks; a block is not empty.
Source: `circular.h` `cq_push`, `cq_push_n`, `cq_pop_nonblock`, `cq_pop_n_noblk`
Kind: D -/
inductive Call (α : Type) where
  | push (x : α)
  | pushN (data : List α) (ne : data ≠ [])
  | pop
  | popN (n : UInt32)

/-- Whether it succeeded. Source: `circular.h` `cq_push`, `cq_push_n`, `cq_pop_nonblock`,
`cq_pop_n_noblk`. Kind: D -/
def Call.prog (N : UInt32) : Call α → Prog (Mem α) Stop Bool
  | push x => cqPush N x
  | pushN data _ => cqPushN N data
  | pop => do
    let r ← cqPopNonblock N
    return r.isSome
  | popN n => do
    let r ← cqPopNNoblk N n
    return r.isSome

/-- One call after the other, and which of them succeeded. Source: `circular.h`. Kind: D -/
def runCalls (N : UInt32) : List (Call α) → Prog (Mem α) Stop (List Bool)
  | [] => return []
  | c :: cs => do
    let r ← c.prog N
    let rs ← runCalls N cs
    return r :: rs

/-! ## What returning calls keep -/

section

/-- Source: `circular.h` `cq_push`. Kind: L -/
theorem cqPush_keeps (hN : 2 ≤ N.toNat) (x : α) : Keeps (Inv N) (cqPush N x) := by
  intro m o n hm hr
  rw [cqPush_iff] at hr
  split at hr
  · rename_i hroom
    split at hr
    · rw [hr.2]
      exact hm.push hN hroom
    · simp at hr
  · rw [hr.2]
    exact hm

/-- Source: `circular.h` `cq_pop_nonblock`. Kind: L -/
theorem cqPopNonblock_keeps (hN : 2 ≤ N.toNat) : Keeps (Inv N : Mem α → Prop) (cqPopNonblock N) := by
  intro m o n hm hr
  rw [cqPopNonblock_iff] at hr
  split at hr
  · rw [hr.2]
    exact hm
  · rename_i hne
    rw [hr.2]
    exact hm.pop hN (by simpa using hne)

/-- Source: `circular.h` `cq_push_n`. Kind: L -/
theorem pushLoop_keeps (hN : 2 ≤ N.toNat) (data : List α) : Keeps (Inv N) (pushLoop N data) := by
  induction data with
  | nil => exact .ret
  | cons x data ih => exact .bind (cqPush_keeps hN x) fun ok => .ite ih .raise

/-- Source: `circular.h` `cq_pop_n`. Kind: L -/
theorem popLoop_keeps (hN : 2 ≤ N.toNat) (k : Nat) :
    Keeps (Inv N : Mem α → Prop) (popLoop N k) := by
  induction k with
  | zero => exact .ret
  | succ k ih =>
      refine .bind ?_ fun e => .bind ih fun _ => .ret
      intro m e n hm hr
      obtain ⟨hne, -, rfl⟩ := cqPop_ok hr
      exact hm.pop hN hne

/-- Source: `circular.h` `cq_nelem`. Kind: L -/
theorem cqNelem_keeps : Keeps (Inv N : Mem α → Prop) (cqNelem N) := by
  intro m o n hm hr
  rw [(cqNelem_iff.mp hr).2]
  exact hm

/-- A call that returns keeps the queue in order, whatever the capacity. Source: `circular.h`.
Kind: P -/
theorem Call.keeps (hN : 2 ≤ N.toNat) (c : Call α) : Keeps (Inv N) (c.prog N) := by
  cases c with
  | push x => exact cqPush_keeps hN x
  | pushN data =>
      refine .bind .check fun _ => .bind (.bind cqNelem_keeps fun _ => .ret) fun space => ?_
      exact .ite .ret (pushLoop_keeps hN data)
  | pop => exact .bind (cqPopNonblock_keeps hN) fun _ => .ret
  | popN n =>
      refine .bind (.bind cqNelem_keeps fun _ => .ite .ret ?_) fun _ => .ret
      exact .bind (popLoop_keeps hN n.toNat) fun _ => .ret

/-- The states of a queue of bytes that initialization and calls that return lead to.
Source: `circular.h` `cq_init`
Kind: D -/
inductive Reached (N : UInt32) : Mem UInt8 → Prop where
  | init {f : UInt32} {m n : Mem UInt8} (h : Runs (cqInit N f) m (.ok ()) n) : Reached N n
  | call {m n : Mem UInt8} {c : Call UInt8} {r : Bool} (hm : Reached N m)
      (h : Runs (c.prog N) m (.ok r) n) : Reached N n

/-- Source: `circular.h`. Kind: L -/
theorem Reached.inv (hN : 2 ≤ N.toNat) {m : Mem UInt8} (h : Reached N m) : Inv N m := by
  induction h with
  | init h => exact (cqInit_runs hN h).2.2.2
  | call _ h ih => exact Call.keeps hN _ _ _ _ ih h

end

end Cs140e.Libpi.Circular
