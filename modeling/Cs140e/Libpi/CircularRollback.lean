import Cs140e.Lib.BoundedQueue
import Cs140e.Libpi.CircularSeq

/-!
# Checkpoint and rollback

`cq_ckpt` saves `tail` and `cq_restore` stores it back. Between the two, pushes test for room against
the `tail` that pops have moved on, and may store over elements that the rollback wants back.

* `Call.op` — a call as an operation of a bounded queue (`BQueue`), which the ring refines:
  `Call.runs`, one call, `runCalls_runs`, a sequence.
* both of them also follow the queue with `tail` left at the checkpoint, as long as it has room.
* `RollsBack` — the rollback yields the old contents and what was pushed since;
  `rollsBack_iff`, it does exactly when both fit together.
-/

namespace Cs140e.Libpi.Circular

open Cs140e.Lib Cs140e.Lib.Prog

variable {α : Type} {N : UInt32} {m : Mem α} {xs : List α} {lo : Nat}

/-! ## Calls as operations of a bounded queue -/

/-- Source: `circular.h` `cq_push`, `cq_push_n`, `cq_pop_nonblock`, `cq_pop_n_noblk`. Kind: D -/
def Call.op : Call α → BQueue.Op α
  | push x => .give [x]
  | pushN data _ => .give data
  | pop => .take 1
  | popN n => .take n.toNat

/-- The elements of a call that pushes. Source: `circular.h` `cq_push`, `cq_push_n`. Kind: D -/
def Call.data : Call α → List α
  | push x => [x]
  | pushN data _ => data
  | pop => []
  | popN _ => []

/-- The elements that the calls with result 1 have pushed. Source: `circular.h` `cq_push`,
`cq_push_n`. Kind: D -/
def pushedBy : List (Call α) → List Bool → List α
  | c :: cs, r :: rs => (if r then c.data else []) ++ pushedBy cs rs
  | _, _ => []

/-- What the bounded queue takes in is what the calls report. Source: `circular.h`. Kind: L -/
theorem pushedBy_results {cap : Nat} (b : BQueue α cap) (calls : List (Call α)) :
    pushedBy calls (b.results (calls.map Call.op)) = b.accepted (calls.map Call.op) := by
  induction calls generalizing b with
  | nil => rfl
  | cons c calls ih =>
      have hhead : (if b.succeeds c.op then c.data else []) = b.given c.op := by
        cases c <;> simp [Call.op, Call.data, BQueue.succeeds, BQueue.given]
      rw [List.map_cons, BQueue.results, BQueue.accepted, pushedBy, hhead, ih]

/-- The queue refines the bounded queue `b`. Source: `circular.h` `cq_t`. Kind: D -/
structure Refines (N : UInt32) (m : Mem α) (xs : List α) (lo : Nat)
    (b : BQueue α (N.toNat - 1)) : Prop where
  fifo : Fifo N m.q xs lo
  items : b.items = xs.drop lo

/-- What happens to the queue whose `tail` is kept back at `t`, where it has the elements of `xs` from
`lo₀` on: `ys` is appended, if they fit. Source: `circular.h` `cq_restore`. Kind: D -/
def Follows (N : UInt32) (m n : Mem α) (xs ys : List α) : Prop :=
  ∀ t lo₀, Fifo N (m.rewind t).q xs lo₀ → xs.length + ys.length < lo₀ + N.toNat →
    Fifo N (n.rewind t).q (xs ++ ys) lo₀

/-- A memory with the same cells and `head`. Source: `circular.h` `cq_pop_nonblock`. Kind: L -/
theorem follows_nil {n : Mem α} (hcells : n.q.cBuf = m.q.cBuf) (hhead : n.q.head = m.q.head) :
    Follows N m n xs [] := by
  intro t lo₀ h _
  rw [List.append_nil]
  exact ⟨by rw [show (n.rewind t).q.cBuf = (m.rewind t).q.cBuf from hcells]; exact h.holds,
    by rw [show (n.rewind t).q.head = (m.rewind t).q.head from hhead]; exact h.head, h.tail⟩

/-- Pushes do not look at `tail`. Source: `circular.h` `cq_push`. Kind: L -/
theorem pushes_rewind (data : List α) (m : Mem α) (t : UInt32) :
    (m.pushes N data).rewind t = (m.rewind t).pushes N data := by
  induction data generalizing m with
  | nil => rfl
  | cons x data ih => exact ih (m.push N x)

/-- Source: `circular.h` `cq_push`. Kind: L -/
theorem follows_pushes (hN : 2 ≤ N.toNat) (data : List α) :
    Follows N m (m.pushes N data) xs data := by
  intro t lo₀ h hroom
  rw [pushes_rewind]
  exact h.pushes hN hroom

/-- Pops leave the cells and `head` alone. Source: `circular.h` `cq_pop_n`. Kind: L -/
theorem pops_cells (k : Nat) (m : Mem α) :
    (m.pops N k).q.cBuf = m.q.cBuf ∧ (m.pops N k).q.head = m.q.head := by
  induction k generalizing m with
  | zero => exact ⟨rfl, rfl⟩
  | succ k ih => exact ih (m.pop N)

/-- What a call does. Source: `circular.h`. Kind: D -/
def CallDoes (N : UInt32) (m : Mem α) (xs : List α) (b : BQueue α (N.toNat - 1)) (c : Call α) :
    Prop :=
  ∃ n lo', Runs (c.prog N) m (.ok (b.succeeds c.op)) n ∧
    Refines N n (xs ++ b.given c.op) lo' (b.step c.op) ∧ Follows N m n xs (b.given c.op)

/-- A block pushed, or refused. Source: `circular.h` `cq_push`, `cq_push_n`. Kind: L -/
theorem pushCall_does (hN : RingSize N) {b : BQueue α (N.toNat - 1)} (h : Refines N m xs lo b)
    {c : Call α} (data : List α) (hop : c.op = .give data)
    (hrun : Runs (c.prog N) m (.ok (decide (xs.length + data.length < lo + N.toNat)))
      (if xs.length + data.length < lo + N.toNat then m.pushes N data else m)) :
    CallDoes N m xs b c := by
  have hle := h.fifo.holds.lo_le
  have hlt := h.fifo.holds.length_lt
  have hitems : b.items.length = xs.length - lo := by rw [h.items, List.length_drop]
  have hiff : b.items.length + data.length ≤ N.toNat - 1 ↔
      xs.length + data.length < lo + N.toNat := by omega
  have hstep := b.step_give_items data
  rw [CallDoes, hop]
  by_cases hroom : xs.length + data.length < lo + N.toNat
  · have hgiven : b.given (.give data) = data := by rw [BQueue.given, if_pos (hiff.mpr hroom)]
    rw [if_pos hroom, decide_eq_true hroom] at hrun
    refine ⟨m.pushes N data, lo, ?_, ⟨?_, ?_⟩, ?_⟩
    · rwa [BQueue.succeeds, decide_eq_true (hiff.mpr hroom)]
    · rw [hgiven]
      exact h.fifo.pushes hN.two_le hroom
    · rw [hstep, hgiven, h.items, List.drop_append_of_le_length hle]
    · rw [hgiven]
      exact follows_pushes hN.two_le data
  · have hgiven : b.given (.give data) = [] := by
      rw [BQueue.given, if_neg (fun h => hroom (hiff.mp h))]
    rw [if_neg hroom, decide_eq_false hroom] at hrun
    refine ⟨m, lo, ?_, ⟨?_, ?_⟩, ?_⟩
    · rwa [BQueue.succeeds, decide_eq_false (fun h => hroom (hiff.mp h))]
    · rw [hgiven, List.append_nil]
      exact h.fifo
    · rw [hstep, hgiven, List.append_nil, List.append_nil]
      exact h.items
    · rw [hgiven]
      exact follows_nil rfl rfl

/-- A block popped, or refused. Source: `circular.h` `cq_pop_nonblock`, `cq_pop_n_noblk`. Kind: L -/
theorem popCall_does (hN : 2 ≤ N.toNat) {b : BQueue α (N.toNat - 1)} (h : Refines N m xs lo b)
    {c : Call α} {k : Nat} (hop : c.op = .take k)
    (hrun : Runs (c.prog N) m (.ok (decide (lo + k ≤ xs.length)))
      (if lo + k ≤ xs.length then m.pops N k else m)) : CallDoes N m xs b c := by
  have hle := h.fifo.holds.lo_le
  have hitems : b.items.length = xs.length - lo := by rw [h.items, List.length_drop]
  have hiff : k ≤ b.items.length ↔ lo + k ≤ xs.length := by omega
  have hstep := b.step_take_items k
  have hgiven : b.given (.take k) = [] := rfl
  rw [CallDoes, hop, hgiven, List.append_nil]
  by_cases hk : lo + k ≤ xs.length
  · rw [if_pos hk, decide_eq_true hk] at hrun
    refine ⟨m.pops N k, lo + k, ?_, ⟨h.fifo.pops hN hk, ?_⟩, ?_⟩
    · rwa [BQueue.succeeds, decide_eq_true (hiff.mpr hk)]
    · rw [hstep, if_pos (hiff.mpr hk), h.items, List.drop_drop]
    · exact follows_nil (pops_cells k m).1 (pops_cells k m).2
  · rw [if_neg hk, decide_eq_false hk] at hrun
    refine ⟨m, lo, ?_, ⟨h.fifo, ?_⟩, follows_nil rfl rfl⟩
    · rwa [BQueue.succeeds, decide_eq_false (fun h => hk (hiff.mp h))]
    · rw [hstep, if_neg (fun h => hk (hiff.mp h)), h.items]

/-- **One call** refines an operation of the bounded queue. Source: `circular.h` `cq_push`,
`cq_push_n`, `cq_pop_nonblock`, `cq_pop_n_noblk`. Kind: P -/
theorem Call.runs (hN : RingSize N) {b : BQueue α (N.toNat - 1)} (h : Refines N m xs lo b)
    (c : Call α) : CallDoes N m xs b c := by
  cases c with
  | push x =>
      refine pushCall_does hN h [x] rfl ?_
      have hrun := cqPush_runs hN h.fifo x
      have hroom := hasRoom_iff hN.two_le h.fifo
      by_cases hr : m.q.hasRoom N = true
      · rw [hr, if_pos rfl] at hrun
        have hlt : xs.length + [x].length < lo + N.toNat := hroom.mp hr
        rw [if_pos hlt, decide_eq_true hlt]
        exact hrun
      · have hlt : ¬ xs.length + [x].length < lo + N.toNat := fun h => hr (hroom.mpr h)
        rw [if_neg hr, Bool.not_eq_true _ |>.mp hr] at hrun
        rw [if_neg hlt, decide_eq_false hlt]
        exact hrun
  | pushN data ne => exact pushCall_does hN h data rfl (cqPushN_runs hN h.fifo ne)
  | pop =>
      refine popCall_does hN.two_le h (k := 1) rfl ?_
      have hne := nonempty_iff h.fifo
      by_cases hk : lo + 1 ≤ xs.length
      · rw [if_pos hk, decide_eq_true hk]
        have hrun : Runs (cqPopNonblock N) m (.ok (some (m.q.cBuf m.q.tail.toNat))) (m.pop N) := by
          rw [cqPopNonblock_iff, hne.mpr hk]
          simp
        exact hrun.bind (by simp [Mem.pops])
      · rw [if_neg hk, decide_eq_false hk]
        have hrun : Runs (cqPopNonblock N) m (.ok none) m := by
          rw [cqPopNonblock_iff, if_pos]
          · exact ⟨rfl, rfl⟩
          · rw [← Bool.not_eq_false]
            exact fun h => hk (hne.mp h)
        exact hrun.bind (by simp)
  | popN k =>
      refine popCall_does hN.two_le h rfl ?_
      have hrun := cqPopNNoblk_runs hN h.fifo k
      by_cases hk : lo + k.toNat ≤ xs.length
      · rw [if_pos hk, if_pos hk] at hrun
        rw [if_pos hk, decide_eq_true hk]
        exact hrun.bind (by simp)
      · rw [if_neg hk, if_neg hk] at hrun
        rw [if_neg hk, decide_eq_false hk]
        exact hrun.bind (by simp)

/-- **A sequence of calls** refines the operations of the bounded queue. Source: `circular.h`.
Kind: P -/
theorem runCalls_runs (hN : RingSize N) {b : BQueue α (N.toNat - 1)} (h : Refines N m xs lo b)
    (calls : List (Call α)) :
    ∃ n, Runs (runCalls N calls) m (.ok (b.results (calls.map Call.op))) n ∧
      Follows N m n xs (b.accepted (calls.map Call.op)) := by
  induction calls generalizing m xs lo b with
  | nil => exact ⟨m, by simp [runCalls, BQueue.results], follows_nil rfl rfl⟩
  | cons c calls ih =>
      obtain ⟨u, lo', hcall, hu, hfollow⟩ := Call.runs hN h c
      obtain ⟨n, hrest, hfollow'⟩ := ih hu
      refine ⟨n, hcall.bind (hrest.bind (by simp [BQueue.results])), ?_⟩
      intro t lo₀ hm hroom
      rw [List.map_cons, BQueue.accepted] at hroom ⊢
      rw [List.length_append] at hroom
      rw [← List.append_assoc]
      refine hfollow' t lo₀ (hfollow t lo₀ hm (by omega)) ?_
      rw [List.length_append]
      omega

/-! ## The rollback -/

/-- Save `tail`, make some calls, store it back. Source: `circular.h` `cq_ckpt`, `cq_restore`.
Kind: D -/
def rollback (N : UInt32) (calls : List (Call α)) : Prog (Mem α) Stop (List Bool) := do
  let ck ← cqCkpt
  let rs ← runCalls N calls
  cqRestore ck
  return rs

/-- The queue has what it had at the checkpoint, and behind it what was pushed since.
Source: `circular.h` `cq_restore`; `16-esp8266/README.md`
Kind: D -/
def RollsBack (N : UInt32) (m : Mem α) (calls : List (Call α)) : Prop :=
  ∃ rs n, Runs (rollback N calls) m (.ok rs) n ∧
    n.q.contents N = m.q.contents N ++ pushedBy calls rs

/-- The elements in the queue are fewer than its cells. Source: `circular.h` `cq_nelem`. Kind: L -/
theorem contents_length_lt (hN : 2 ≤ N.toNat) (q : Cq α) : (q.contents N).length < N.toNat := by
  rw [Cq.contents, Ring.contents, List.length_map, List.length_range, UInt32.toNat_mod]
  exact Nat.mod_lt _ (by omega)

/-- The queue as a bounded queue. Source: `circular.h` `cq_t`. Kind: D -/
def Cq.bounded (hN : 2 ≤ N.toNat) (q : Cq α) : BQueue α (N.toNat - 1) :=
  ⟨q.contents N, by have := contents_length_lt hN q; omega⟩

/-- **When a rollback rolls back**: when the contents and the elements accepted since fit together.
Source: `circular.h` `cq_ckpt`, `cq_restore`, `cq_push`
Kind: P -/
theorem rollsBack_of_ring (hN : RingSize N) (m : Mem α) (calls : List (Call α))
    (hh : m.q.head < N) (ht : m.q.tail < N) :
    RollsBack N m calls ↔ (m.q.contents N).length +
      ((m.q.bounded hN.two_le).accepted (calls.map Call.op)).length ≤ N.toNat - 1 := by
  obtain ⟨xs, lo, h⟩ := fifo_of_index_lt hN m.q hh ht
  have hcontents := h.contents hN
  have hle := h.holds.lo_le
  have h2 := hN.two_le
  obtain ⟨n, hrun, hfollow⟩ := runCalls_runs hN (b := m.q.bounded hN.two_le) ⟨h, hcontents⟩ calls
  have hroll : Runs (rollback N calls) m
      (.ok ((m.q.bounded hN.two_le).results (calls.map Call.op))) (n.rewind m.q.tail) := by
    have hrest : Runs (cqRestore m.q.tail) n (.ok ()) (n.rewind m.q.tail) := by
      simp [cqRestore, rewindTail, store, access, Mem.rewind]
    have hload : Runs (cqCkpt : Prog (Mem α) Stop UInt32) m (.ok m.q.tail) m := by
      simp [cqCkpt, ldTail, load, access]
    exact hload.bind (hrun.bind (hrest.bind (by simp)))
  constructor
  · rintro ⟨rs, n', hrun', hback⟩
    obtain ⟨hrs, rfl⟩ := hroll.det hrun'
    rw [← Except.ok.inj hrs, pushedBy_results] at hback
    have hlt := contents_length_lt h2 (n.rewind m.q.tail).q
    rw [hback, List.length_append] at hlt
    omega
  · intro hfit
    rw [hcontents, List.length_drop] at hfit
    have hback := (hfollow m.q.tail lo h (by omega)).contents hN
    refine ⟨_, _, hroll, ?_⟩
    rw [pushedBy_results, hback, hcontents, List.drop_append_of_le_length hle]

/-- **Rollback of a byte queue**: it yields the contents at the checkpoint and the elements pushed
since exactly when these fit into the queue together.
Source: `circular.h` `cq_ckpt`, `cq_restore`; `16-esp8266/README.md`
Kind: P -/
theorem rollsBack_iff (m : Mem UInt8) (calls : List (Call UInt8)) (hh : m.q.head < cqN)
    (ht : m.q.tail < cqN) :
    RollsBack cqN m calls ↔ (m.q.contents cqN).length +
      ((m.q.bounded ringSize_cqN.two_le).accepted (calls.map Call.op)).length ≤ cqN.toNat - 1 :=
  rollsBack_of_ring ringSize_cqN m calls hh ht

/-- The theorem at the empty queue, for a push and a pop. Source: `circular.h` `cq_ckpt`. Kind: L -/
theorem rollsBack_push_pop : RollsBack cqN emptyMem [.push 1, .pop] :=
  (rollsBack_iff emptyMem [.push 1, .pop] (by decide) (by decide)).mpr (by decide)

/-- Once the queue is full, a pop makes room for a push. Source: `circular.h` `cq_push`. Kind: L -/
theorem rollback_after_filling (data : List UInt8) (hlen : data.length = 8191) :
    ∃ m, Runs (cqPushN cqN data) (emptyMem.fresh 1) (.ok true) m ∧
      ¬ RollsBack cqN m [.pop, .push 1] := by
  have h2 : 2 ≤ cqN.toNat := by decide
  have hinit : Runs (cqInit cqN 1) emptyMem (.ok ()) (emptyMem.fresh 1) :=
    (cqInit_iff h2).mpr ⟨rfl, rfl⟩
  have hfifo : Fifo cqN (emptyMem.fresh 1).q [] 0 := (cqInit_runs h2 hinit).2.2.2.fifo
  have hcq : cqN.toNat = 8192 := rfl
  have hroom : ([] : List UInt8).length + data.length < 0 + cqN.toNat := by
    rw [List.length_nil, hlen, hcq]
    omega
  have hne : data ≠ [] := List.ne_nil_of_length_pos (by omega)
  have hpush := cqPushN_runs ringSize_cqN hfifo hne
  have hfull := hfifo.pushes h2 hroom
  rw [decide_eq_true hroom, if_pos hroom] at hpush
  refine ⟨_, hpush, ?_⟩
  obtain ⟨hh, ht⟩ := hfull.index_lt h2
  rw [rollsBack_of_ring ringSize_cqN _ _ (UInt32.lt_iff_toNat_lt.mpr hh)
    (UInt32.lt_iff_toNat_lt.mpr ht)]
  have hcontents := congrArg List.length (hfull.contents ringSize_cqN)
  rw [List.nil_append, List.drop_zero, hlen] at hcontents
  simp [Call.op, BQueue.accepted, BQueue.given, BQueue.step, Cq.bounded, hcontents, hcq]

/-- **A full queue**: 8191 bytes, a checkpoint, a pop, and a push into the cell that the rollback
needs. Source: `circular.h` `cq_push`, `cq_restore`. Kind: P -/
theorem rollback_full_fails : ∃ m, Runs (cqInit cqN 1) emptyMem (.ok ()) (emptyMem.fresh 1) ∧
    Runs (cqPushN cqN (List.replicate 8191 0)) (emptyMem.fresh 1) (.ok true) m ∧
    ¬ RollsBack cqN m [.pop, .push 1] := by
  obtain ⟨m, hpush, hfails⟩ := rollback_after_filling (List.replicate 8191 0)
    List.length_replicate
  exact ⟨m, (cqInit_iff (by decide)).mpr ⟨rfl, rfl⟩, hpush, hfails⟩

end Cs140e.Libpi.Circular
