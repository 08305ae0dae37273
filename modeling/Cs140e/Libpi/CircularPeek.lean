import Cs140e.Libpi.CircularSeq
import Mathlib.Tactic.Ring

/-!
# `cq_peek_n` with pushes inside it

`cq_peek_n` pops the elements it looks at and then stores the old `tail` back. The interrupt
handler may run complete `cq_push` calls between any two of its accesses: `sched i` is the list of
elements pushed just before the `i`-th access (counting from 0), and the call runs `under` that
environment.

* `pushNow`, `pushAll` — a push run to completion, and a gap of them. `Grew` says what a gap
  did; `pushAll_grew` and `gaps_grew` find it, and when it did nothing.
* `cqPop_under`, `popLoop_under` — the pops inside the call return the oldest elements whatever is
  pushed meanwhile.
* `PeekOk` — what a look-ahead should do; `QuietPeek` — no push finds room between the load of
  `head` that counts the elements and the one that counts them again. `peekOk_iff`: the one holds
  exactly when the other does.
-/

namespace Cs140e.Libpi.Circular

open Cs140e.Lib Cs140e.Lib.Prog

variable {α : Type} {N : UInt32}

/-! ## A gap of complete pushes -/

/-- A push run to completion: what its run leaves. Source: `circular.h` `cq_push`. Kind: D -/
def pushNow (N : UInt32) (m : Mem α) (x : α) : Mem α :=
  match exec 12 (cqPush N x) m with
  | some (_, n) => n
  | none => m

/-- The pushes of one interrupt gap. Source: `circular.h` `cq_push`. Kind: D -/
def pushAll (N : UInt32) (bs : List α) (m : Mem α) : Mem α := bs.foldl (pushNow N) m

/-- Source: `circular.h` `cq_push`. Kind: L -/
theorem exec_cqPush (m : Mem α) (x : α) : (exec 12 (cqPush N x) m).isSome := by
  simp only [cqPush, cqFull, cqNspace, cqNelem, ldHead, ldTail, load, access, stBuf, stHead, store,
    cAssert, check, bind_eq_seq, pure_eq_ret, act_bind, ret_bind, exec_act]
  split
  · rfl
  · simp only [exec_act]
    split <;> rfl

/-- Source: `circular.h` `cq_push`. Kind: L -/
theorem pushNow_eq (hN : RingSize N) {m : Mem α} {xs : List α} {lo : Nat}
    (h : Fifo N m.q xs lo) (x : α) :
    pushNow N m x = if m.q.hasRoom N then m.push N x else m := by
  obtain ⟨⟨o, n⟩, hn⟩ := Option.isSome_iff_exists.mp (exec_cqPush (N := N) m x)
  have hdet := Runs.det ⟨12, hn⟩ (cqPush_runs hN h x)
  unfold pushNow
  rw [hn]
  exact hdet.2

/-- What happened to the queue while nobody popped: `zs` was appended, and if that is nothing then
nothing happened at all. Source: `circular.h` `cq_push`. Kind: D -/
structure Grew (N : UInt32) (xs : List α) (lo : Nat) (m n : Mem α) (zs : List α) : Prop where
  fifo : Fifo N n.q (xs ++ zs) lo
  pushed : n.pushed = m.pushed ++ zs
  popped : n.popped = m.popped
  tail : n.q.tail = m.q.tail
  idle : zs = [] → n = m

/-- Source: none: infrastructure. Kind: L -/
theorem Grew.trans {xs ys zs : List α} {lo : Nat} {m n o : Mem α} (h : Grew N xs lo m n ys)
    (h' : Grew N (xs ++ ys) lo n o zs) : Grew N xs lo m o (ys ++ zs) where
  fifo := by rw [← List.append_assoc]; exact h'.fifo
  pushed := by rw [h'.pushed, h.pushed, List.append_assoc]
  popped := h'.popped.trans h.popped
  tail := h'.tail.trans h.tail
  idle hz := by
    obtain ⟨hy, hz⟩ := List.append_eq_nil_iff.mp hz
    exact (h'.idle hz).trans (h.idle hy)

/-- A gap starting with `r` free cells that pushed `min k r` elements pushed nothing exactly when
`k` or `r` is zero. Source: none: infrastructure. Kind: L -/
theorem grew_nil_iff {bs xs zs : List α} {lo : Nat} {q : Cq α} (h : Fifo N q xs lo)
    (hz : zs.length = min bs.length (lo + N.toNat - 1 - xs.length)) :
    zs = [] ↔ bs = [] ∨ xs.length + 1 = lo + N.toNat := by
  have hlt := h.holds.length_lt
  rw [← List.length_eq_zero_iff, ← List.length_eq_zero_iff, hz]
  omega

/-- One push, as a gap. Source: `circular.h` `cq_push`. Kind: L -/
theorem pushNow_grew (hN : RingSize N) {m : Mem α} {xs : List α} {lo : Nat}
    (h : Fifo N m.q xs lo) (x : α) :
    ∃ zs, Grew N xs lo m (pushNow N m x) zs ∧
      zs.length = min 1 (lo + N.toNat - 1 - xs.length) := by
  have hfull := full_iff hN.two_le h.head h.tail h.holds.lo_le h.holds.length_lt
  rw [pushNow_eq hN h]
  by_cases hroom : (m.q.head + 1) % N == m.q.tail
  · have := hfull.mp hroom
    refine ⟨[], ⟨?_, ?_, ?_, ?_, ?_⟩, by simp; omega⟩ <;> simp [Cq.hasRoom, hroom, h]
  · have hlt : xs.length + 1 < lo + N.toNat := by
      have := h.holds.length_lt
      have : xs.length + 1 ≠ lo + N.toNat := by
        intro he
        apply hroom
        exact hfull.mpr he
      omega
    refine ⟨[x], ⟨?_, ?_, ?_, ?_, ?_⟩, by simp; omega⟩
    · have hp := (h.stage x hlt).publish (x := x) hN.two_le (by simp) hlt
      simpa [Cq.hasRoom, hroom, Mem.push] using hp
    all_goals simp [Cq.hasRoom, hroom, Mem.push]

/-- **A gap of pushes** appends elements until the queue is full.
Source: `circular.h` `cq_push`
Kind: P -/
theorem pushAll_grew (hN : RingSize N) (bs : List α) {m : Mem α} {xs : List α} {lo : Nat}
    (h : Fifo N m.q xs lo) :
    ∃ zs, Grew N xs lo m (pushAll N bs m) zs ∧
      zs.length = min bs.length (lo + N.toNat - 1 - xs.length) := by
  induction bs generalizing m xs with
  | nil =>
      exact ⟨[], ⟨by simpa [pushAll] using h, by simp [pushAll], rfl, rfl, fun _ => rfl⟩, by simp⟩
  | cons b bs ih =>
      obtain ⟨ys, hy, hyn⟩ := pushNow_grew hN h b
      obtain ⟨zs, hz, hzn⟩ := ih hy.fifo
      refine ⟨ys ++ zs, hy.trans hz, ?_⟩
      simp only [List.length_append, List.length_cons] at hyn hzn ⊢
      omega

/-- The gaps before accesses `i`, …, `i + k - 1`, with nothing of the call between them.
Source: `circular.h` `cq_push`. Kind: D -/
def gaps (N : UInt32) (sched : Nat → List α) (i : Nat) : Nat → Mem α → Mem α
  | 0, m => m
  | k + 1, m => pushAll N (sched (i + k)) (gaps N sched i k m)

/-- Several gaps in a row. Source: `circular.h` `cq_push`. Kind: L -/
theorem gaps_grew (hN : RingSize N) (sched : Nat → List α) (i k : Nat) {m : Mem α}
    {xs : List α} {lo : Nat} (h : Fifo N m.q xs lo) :
    ∃ zs, Grew N xs lo m (gaps N sched i k m) zs ∧
      (zs = [] ↔ ∀ j, i ≤ j → j < i + k → sched j = [] ∨ xs.length + 1 = lo + N.toNat) := by
  induction k with
  | zero =>
      refine ⟨[], ⟨by simpa [gaps] using h, by simp [gaps], rfl, rfl, fun _ => rfl⟩, ?_⟩
      simp only [true_iff]
      intro j h₁ h₂
      omega
  | succ k ih =>
      obtain ⟨ys, hy, hyn⟩ := ih
      obtain ⟨zs, hz, hzn⟩ := pushAll_grew hN (sched (i + k)) hy.fifo
      refine ⟨ys ++ zs, hy.trans hz, ?_⟩
      constructor
      · intro he j h₁ h₂
        obtain ⟨hy0, hz0⟩ := List.append_eq_nil_iff.mp he
        rcases Nat.lt_or_ge j (i + k) with hj | hj
        · exact hyn.mp hy0 j h₁ hj
        · obtain rfl : j = i + k := by omega
          subst hy0
          simpa using (grew_nil_iff hy.fifo hzn).mp hz0
      · intro hall
        have hy0 := hyn.mpr fun j h₁ h₂ => hall j h₁ (by omega)
        subst hy0
        have := hall (i + k) (by omega) (by omega)
        simpa using (grew_nil_iff hy.fifo hzn).mpr (by simpa using this)

/-! ## The pops inside the call -/

/-- The interrupt handler as an environment: before access `i` it pushes `sched i`.
Source: `circular.h` `cq_push`
Kind: D -/
def pushEnv (N : UInt32) (sched : Nat → List α) (i : Nat) (m : Mem α) : Mem α :=
  pushAll N (sched i) m

/-- What pops under pushes leave: `k` elements fewer at the front, `zs` more at the back, and only
`tail` changed when `zs` is nothing. Source: `circular.h` `cq_pop_n`. Kind: D -/
structure Popped (N : UInt32) (xs : List α) (lo k : Nat) (m n : Mem α) (zs : List α) : Prop where
  fifo : Fifo N n.q (xs ++ zs) (lo + k)
  pushed : n.pushed = m.pushed ++ zs
  idle : zs = [] → n.q = { m.q with tail := n.q.tail }

/-- A pop from a nonempty queue takes five accesses and returns the oldest element, whatever is
pushed between them. Source: `circular.h` `cq_pop`, `cq_pop_nonblock`. Kind: P -/
theorem cqPop_under (hN : RingSize N) (sched : Nat → List α) (i : Nat) {m : Mem α}
    {xs : List α} {lo : Nat} (h : Fifo N m.q xs lo) (hne : lo < xs.length) :
    ∃ n zs, Runs (under (pushEnv N sched) (cqPop N)) (m, i) (.ok xs[lo]) (n, i + 5) ∧
      Popped N xs lo 1 m n zs ∧
      (zs = [] ↔ ∀ j, i ≤ j → j < i + 5 → sched j = [] ∨ xs.length + 1 = lo + N.toNat) := by
  obtain ⟨z₁, h₁, -⟩ := gaps_grew hN sched i 1 h
  obtain ⟨z₂, h₂, -⟩ := gaps_grew hN sched i 2 h
  obtain ⟨z₃, h₃, -⟩ := gaps_grew hN sched i 3 h
  obtain ⟨z₄, h₄, -⟩ := gaps_grew hN sched i 4 h
  obtain ⟨zs, h₅, hzs⟩ := gaps_grew hN sched i 5 h
  have hhead : ¬ ((gaps N sched i 1 m).q.head == (gaps N sched i 2 m).q.tail) := by
    rw [h₂.tail, ← h₁.tail, empty_iff h₁.fifo.head h₁.fifo.tail h₁.fifo.holds.lo_le
      h₁.fifo.holds.length_lt, List.length_append]
    omega
  have hcell : (gaps N sched i 4 m).q.cBuf (gaps N sched i 3 m).q.tail.toNat = xs[lo] := by
    rw [h₃.tail, ← h₄.tail, h₄.fifo.oldest (by simp; omega), List.getElem_append_left hne]
  have htail : (gaps N sched i 3 m).q.tail = (gaps N sched i 5 m).q.tail := by
    rw [h₃.tail, h₅.tail]
  let n : Mem α := { gaps N sched i 5 m with
    q := { (gaps N sched i 5 m).q with tail := ((gaps N sched i 5 m).q.tail + 1) % N }
    popped := (gaps N sched i 5 m).popped ++ [xs[lo]] }
  have hpop : Runs (under (pushEnv N sched) (cqPopNonblock N)) (m, i) (.ok (some xs[lo]))
      (n, i + 5) := by
    simp only [cqPopNonblock, cqEmpty, ldHead, ldTail, ldBuf, stTail, bind_eq_seq, pure_eq_ret, seq_seq,
      ret_bind, runs_under_load_iff]
    change Runs (under _ (if (gaps N sched i 1 m).q.head == (gaps N sched i 2 m).q.tail then _
      else _)) (gaps N sched i 2 m, i + 2) _ _
    rw [if_neg hhead]
    simp only [runs_under_load_iff, runs_under_store_iff]
    change Runs (ret (some ((gaps N sched i 4 m).q.cBuf (gaps N sched i 3 m).q.tail.toNat))) _ _ _
    rw [hcell, runs_ret_iff]
    refine ⟨rfl, ?_⟩
    change (n, i + 5) = ({ gaps N sched i 5 m with
      q := { (gaps N sched i 5 m).q with tail := ((gaps N sched i 3 m).q.tail + 1) % N }
      popped := (gaps N sched i 5 m).popped ++
        [(gaps N sched i 4 m).q.cBuf (gaps N sched i 3 m).q.tail.toNat] }, i + 5)
    rw [hcell, htail]
  refine ⟨n, zs, ?_, ⟨?_, h₅.pushed, fun hz => ?_⟩, hzs⟩
  · rw [cqPop, under, runs_loop_iff, again, bind_eq_seq, under_bind, seq_seq]
    exact hpop.bind (by simp [under])
  · exact h₅.fifo.pop hN.two_le (by simp; omega)
  · simp only [n, h₅.idle hz]

/-- **A block popped under pushes** is the `k` oldest elements; the queue is undisturbed exactly
when every gap is empty or comes before the first `tail` store of a full queue.
Source: `circular.h` `cq_pop_n`
Kind: P -/
theorem popLoop_under (hN : RingSize N) (sched : Nat → List α) (k : Nat) (i : Nat) {m : Mem α}
    {xs : List α} {lo : Nat} (h : Fifo N m.q xs lo) (hk : lo + k ≤ xs.length) :
    ∃ n zs, Runs (under (pushEnv N sched) (popLoop N k)) (m, i) (.ok ((xs.drop lo).take k))
        (n, i + 5 * k) ∧ Popped N xs lo k m n zs ∧
      (zs = [] ↔ ∀ j, i ≤ j → j < i + 5 * k →
        sched j = [] ∨ (xs.length + 1 = lo + N.toNat ∧ j < i + 5)) := by
  induction k generalizing i m xs lo with
  | zero =>
      refine ⟨m, [], by simp [popLoop, under], ⟨by simpa using h, by simp, fun _ => rfl⟩, ?_⟩
      simp only [true_iff]
      intro j h₁ h₂
      omega
  | succ k ih =>
      obtain ⟨n₁, ys, hr₁, hp₁, hy⟩ := cqPop_under hN sched i h (by omega)
      obtain ⟨n₂, zs, hr₂, hp₂, hz⟩ := ih (i + 5) hp₁.fifo (by simp; omega)
      have hlt := h.holds.length_lt
      refine ⟨n₂, ys ++ zs, ?_, ⟨?_, ?_, ?_⟩, ?_⟩
      · have hdrop : (xs.drop lo).take (k + 1) =
            xs[lo] :: ((xs ++ ys).drop (lo + 1)).take k := by
          rw [List.drop_eq_getElem_cons (by omega), List.take_succ_cons,
            List.drop_append_of_le_length (by omega), List.take_append_of_le_length]
          rw [List.length_drop]
          omega
        have hi : i + 5 * (k + 1) = i + 5 + 5 * k := by ring
        rw [popLoop, bind_eq_seq, under_bind, hdrop, hi]
        refine hr₁.bind ?_
        rw [bind_eq_seq, under_bind]
        exact hr₂.bind (by simp [under])
      · have := hp₂.fifo
        rw [List.append_assoc, show lo + 1 + k = lo + (k + 1) by ring] at this
        exact this
      · rw [hp₂.pushed, hp₁.pushed, List.append_assoc]
      · intro he
        obtain ⟨hy0, hz0⟩ := List.append_eq_nil_iff.mp he
        rw [hp₂.idle hz0, hp₁.idle hy0]
      · constructor
        · intro he j h₁ h₂
          obtain ⟨hy0, hz0⟩ := List.append_eq_nil_iff.mp he
          rcases Nat.lt_or_ge j (i + 5) with hj | hj
          · rcases hy.mp hy0 j h₁ hj with hs | hfull
            · exact .inl hs
            · exact .inr ⟨hfull, hj⟩
          · subst hy0
            rcases hz.mp hz0 j hj (by omega) with hs | ⟨hfull, -⟩
            · exact .inl hs
            · simp only [List.append_nil] at hfull
              omega
        · intro hall
          have hy0 : ys = [] := by
            apply hy.mpr
            intro j h₁ h₂
            rcases hall j h₁ (by omega) with hs | ⟨hfull, -⟩
            · exact .inl hs
            · exact .inr hfull
          have hz0 : zs = [] := by
            apply hz.mpr
            intro j h₁ h₂
            rcases hall j (by omega) (by omega) with hs | ⟨-, hlt⟩
            · exact .inl hs
            · omega
          rw [hy0, hz0, List.append_nil]

/-! ## The whole call -/

/-- What is known of a look-ahead that gets past its length check: `A` is the memory when the
count is read, `C` the one just before `tail` is stored back, `W` what was pushed in between.
Source: `circular.h` `cq_peek_n`
Kind: D -/
structure PeekRun (N : UInt32) (sched : Nat → List α) (n : UInt32) (m : Mem α) (xs : List α)
    (lo : Nat) (A C : Mem α) (W : List α) : Prop where
  fifo : Fifo N A.q xs lo
  pushed : C.pushed = A.pushed ++ W
  head : C.q.head.toNat = (xs.length + W.length) % N.toNat
  idle : W = [] → (C.rewind m.q.tail).q = A.q
  quiet : W = [] ↔ ∀ j, 1 ≤ j → j < 6 + 5 * n.toNat →
    sched j = [] ∨ (xs.length + 1 = lo + N.toNat ∧ (n = 0 ∨ j < 10))
  runs : ∀ D E, D = pushAll N (sched (6 + 5 * n.toNat)) (C.rewind m.q.tail) →
    E = pushAll N (sched (7 + 5 * n.toNat)) D →
    Runs (under (pushEnv N sched) (cqPeekN N n)) (m, 0)
      (if (A.q.head - m.q.tail) % N == (D.q.head - E.q.tail) % N then
        .ok (some ((xs.drop lo).take n.toNat)) else .error (.assert "sz == cq_nelem(c)"))
      (E, 8 + 5 * n.toNat)

/-- A look-ahead at more elements than there are returns `0` after the first count.
Source: `circular.h` `cq_peek_n`
Kind: L -/
theorem cqPeekN_under_short (hN : RingSize N) (sched : Nat → List α) (n : UInt32) {m : Mem α}
    {xs : List α} {lo : Nat} (h : Fifo N m.q xs lo)
    (hn : n > ((gaps N sched 0 1 m).q.head - m.q.tail) % N) :
    Runs (under (pushEnv N sched) (cqPeekN N n)) (m, 0) (.ok none) (gaps N sched 0 2 m, 2) := by
  obtain ⟨z₂, h₂, -⟩ := gaps_grew hN sched 0 2 h
  simp only [cqPeekN, cqNelem, ldHead, ldTail, bind_eq_seq, pure_eq_ret, seq_seq, ret_bind,
    runs_under_load_iff]
  change Runs (under _ (if n > ((gaps N sched 0 1 m).q.head - (gaps N sched 0 2 m).q.tail) % N then
    _ else _)) (gaps N sched 0 2 m, 2) _ _
  rw [h₂.tail, if_pos hn]
  simp [under]

/-- The pushes of the three parts of the window, before, during and after the pops: there are none
exactly when each gap is empty, or comes before the first pop of a full queue, or nothing is popped.
Source: `circular.h` `cq_peek_n`
Kind: L -/
theorem window_iff {sched : Nat → List α} {n : UInt32} {len lo N : Nat} {zA zB zC : List α}
    (hlt : len < lo + N)
    (hA : zA = [] ↔ ∀ j, 1 ≤ j → j < 1 + 4 → sched j = [] ∨ len + 1 = lo + N)
    (hB : zA = [] → (zB = [] ↔ ∀ j, 5 ≤ j → j < 5 + 5 * n.toNat →
      sched j = [] ∨ (len + 1 = lo + N ∧ j < 5 + 5)))
    (hC : zA = [] → zB = [] →
      (zC = [] ↔ sched (5 + 5 * n.toNat) = [] ∨ len + 1 = lo + n.toNat + N)) :
    zA ++ zB ++ zC = [] ↔ ∀ j, 1 ≤ j → j < 6 + 5 * n.toNat →
      sched j = [] ∨ (len + 1 = lo + N ∧ (n = 0 ∨ j < 10)) := by
  have hzero : n.toNat = 0 ↔ n = 0 := by
    rw [← UInt32.toNat_inj]
    rfl
  constructor
  · intro hW j h₁ h₂
    obtain ⟨hAB, hC0⟩ := List.append_eq_nil_iff.mp hW
    obtain ⟨hA0, hB0⟩ := List.append_eq_nil_iff.mp hAB
    rcases Nat.lt_or_ge j 5 with hj | hj
    · rcases hA.mp hA0 j h₁ hj with hs | hfull
      · exact .inl hs
      · exact .inr ⟨hfull, .inr (by omega)⟩
    · rcases Nat.lt_or_ge j (5 + 5 * n.toNat) with hj' | hj'
      · rcases (hB hA0).mp hB0 j hj hj' with hs | ⟨hfull, hj10⟩
        · exact .inl hs
        · exact .inr ⟨hfull, .inr hj10⟩
      · obtain rfl : j = 5 + 5 * n.toNat := by omega
        rcases (hC hA0 hB0).mp hC0 with hs | hfull
        · exact .inl hs
        · have hn0 : n.toNat = 0 := by omega
          exact .inr ⟨by omega, .inl (hzero.mp hn0)⟩
  · intro hall
    have hA0 : zA = [] := by
      apply hA.mpr
      intro j h₁ h₂
      rcases hall j h₁ (by omega) with hs | ⟨hfull, -⟩
      · exact .inl hs
      · exact .inr hfull
    have hB0 : zB = [] := by
      apply (hB hA0).mpr
      intro j h₁ h₂
      rcases hall j (by omega) (by omega) with hs | ⟨hfull, hn0 | hj⟩
      · exact .inl hs
      · rw [hzero.mpr hn0] at h₂
        omega
      · exact .inr ⟨hfull, hj⟩
    have hC0 : zC = [] := by
      apply (hC hA0 hB0).mpr
      rcases hall (5 + 5 * n.toNat) (by omega) (by omega) with hs | ⟨hfull, hn0 | hj⟩
      · exact .inl hs
      · rw [hzero.mpr hn0]
        exact .inr hfull
      · exact .inr (by omega)
    rw [hA0, hB0, hC0]
    rfl

/-- The run of a look-ahead at elements that are there, around its pops: the memory is `A`
when the count is read, `B` before the pops and `P` behind them.
Source: `circular.h` `cq_peek_n`
Kind: L -/
theorem cqPeekN_under_runs (hN : RingSize N) (sched : Nat → List α) (n : UInt32) {m A B P : Mem α}
    {xs zs : List α} {lo : Nat} (hA : A = gaps N sched 0 1 m) (hB : B = gaps N sched 1 4 A)
    (hfifo : Fifo N A.q xs lo) (htail : A.q.tail = m.q.tail)
    (hn : ¬ n > (A.q.head - m.q.tail) % N) (hle : lo + n.toNat ≤ xs.length)
    (hpops : Runs (under (pushEnv N sched) (popLoop N n.toNat)) (B, 5)
      (.ok (((xs ++ zs).drop lo).take n.toNat)) (P, 5 + 5 * n.toNat)) {D E : Mem α}
    (hD : D = pushAll N (sched (6 + 5 * n.toNat))
      (Mem.rewind m.q.tail (pushAll N (sched (5 + 5 * n.toNat)) P)))
    (hE : E = pushAll N (sched (7 + 5 * n.toNat)) D) :
    Runs (under (pushEnv N sched) (cqPeekN N n)) (m, 0)
      (if (A.q.head - m.q.tail) % N == (D.q.head - E.q.tail) % N then
        .ok (some ((xs.drop lo).take n.toNat)) else .error (.assert "sz == cq_nelem(c)"))
      (E, 8 + 5 * n.toNat) := by
  obtain ⟨z₂, h₂, -⟩ := gaps_grew hN sched 1 1 hfifo
  obtain ⟨z₃, h₃, -⟩ := gaps_grew hN sched 1 2 hfifo
  obtain ⟨z₄, h₄, -⟩ := gaps_grew hN sched 1 3 hfifo
  obtain ⟨z₅, h₅, -⟩ := gaps_grew hN sched 1 4 hfifo
  subst hA hB
  -- the first count, the saved `tail`, and the count of the pops
  simp only [cqPeekN, cqNelem, ldHead, ldTail, bind_eq_seq, pure_eq_ret, seq_seq, ret_bind,
    runs_under_load_iff]
  change Runs (under _ (if n > ((gaps N sched 0 1 m).q.head - (gaps N sched 1 1
    (gaps N sched 0 1 m)).q.tail) % N then _ else _)) (gaps N sched 1 1 (gaps N sched 0 1 m), 2) _ _
  rw [h₂.tail, htail, if_neg hn]
  simp only [cqPopNNoblk, cqNelem, ldHead, ldTail, bind_eq_seq, pure_eq_ret, seq_seq, ret_bind,
    runs_under_load_iff]
  change Runs (under _ (Prog.bind (if ((gaps N sched 1 3 (gaps N sched 0 1 m)).q.head -
    (gaps N sched 1 4 (gaps N sched 0 1 m)).q.tail) % N < n then _ else _) _))
    (gaps N sched 1 4 (gaps N sched 0 1 m), 5) _ _
  have hcount : ¬ ((gaps N sched 1 3 (gaps N sched 0 1 m)).q.head -
      (gaps N sched 1 4 (gaps N sched 0 1 m)).q.tail) % N < n := by
    rw [h₅.tail, ← h₄.tail, UInt32.lt_iff_toNat_lt, h₄.fifo.nelem hN, List.length_append]
    omega
  rw [if_neg hcount, cqPopN, seq_seq, under_bind]
  refine hpops.bind ?_
  -- `tail` is stored back, and the second count
  simp only [ret_bind, rewindTail, runs_under_store_iff, runs_under_load_iff]
  have hsaved : (gaps N sched 1 2 (gaps N sched 0 1 m)).q.tail = m.q.tail := by
    rw [h₃.tail, htail]
  have htake : ((xs ++ zs).drop lo).take n.toNat = (xs.drop lo).take n.toNat := by
    rw [List.drop_append_of_le_length (by omega), List.take_append_of_le_length]
    rw [List.length_drop]
    omega
  have hk : 5 + 5 * n.toNat + 3 = 8 + 5 * n.toNat := by omega
  have hD' : pushEnv N sched (5 + 5 * n.toNat + 1) (Mem.rewind
      (gaps N sched 1 2 (gaps N sched 0 1 m)).q.tail
      (pushEnv N sched (5 + 5 * n.toNat) P)) = D := by
    rw [hsaved, show 5 + 5 * n.toNat + 1 = 6 + 5 * n.toNat by omega, hD]
    rfl
  have hE' : pushEnv N sched (5 + 5 * n.toNat + 1 + 1) D = E := by
    rw [show 5 + 5 * n.toNat + 1 + 1 = 7 + 5 * n.toNat by omega, hE]
    rfl
  let R : Mem α := Mem.rewind (gaps N sched 1 2 (gaps N sched 0 1 m)).q.tail
    (pushEnv N sched (5 + 5 * n.toNat) P)
  change Runs (under _ (Prog.bind (cAssert (((gaps N sched 0 1 m).q.head -
    (gaps N sched 1 1 (gaps N sched 0 1 m)).q.tail) % N ==
      ((pushEnv N sched (5 + 5 * n.toNat + 1) R).q.head - (pushEnv N sched
        (5 + 5 * n.toNat + 1 + 1) (pushEnv N sched (5 + 5 * n.toNat + 1) R)).q.tail) % N) _) _))
    (pushEnv N sched (5 + 5 * n.toNat + 1 + 1) (pushEnv N sched (5 + 5 * n.toNat + 1) R),
      5 + 5 * n.toNat + 3) _ _
  rw [hD', hE', h₂.tail, htail, htake, hk]
  split
  · next heq => simp [cAssert, check, heq, under]
  · next hne => simp [cAssert, check, hne, under]

/-- A look-ahead at elements that are there runs to its final check.
Source: `circular.h` `cq_peek_n`
Kind: P -/
theorem cqPeekN_under_long (hN : RingSize N) (sched : Nat → List α) (n : UInt32) {m : Mem α}
    {xs ys : List α} {lo : Nat} (hA : Grew N xs lo m (gaps N sched 0 1 m) ys)
    (hn : ¬ n > ((gaps N sched 0 1 m).q.head - m.q.tail) % N) :
    ∃ C W, PeekRun N sched n m (xs ++ ys) lo (gaps N sched 0 1 m) C W := by
  have hsz := hA.fifo.nelem hN
  have hlt := hA.fifo.holds.length_lt
  have hle := hA.fifo.holds.lo_le
  have hnk : lo + n.toNat ≤ (xs ++ ys).length := by
    rw [hA.tail] at hsz
    rw [gt_iff_lt, UInt32.lt_iff_toNat_lt, hsz] at hn
    omega
  -- the gaps before the pops, then the pops, then the gap before `tail` is stored back
  obtain ⟨zA, hB, hzA⟩ := gaps_grew hN sched 1 4 hA.fifo
  obtain ⟨P, zB, hrP, hP, hzB⟩ := popLoop_under hN sched n.toNat 5 hB.fifo
    (by rw [List.length_append]; omega)
  obtain ⟨zC, hC, hzC⟩ := pushAll_grew hN (sched (5 + 5 * n.toNat)) hP.fifo
  have hzC := grew_nil_iff hP.fifo hzC
  refine ⟨pushAll N (sched (5 + 5 * n.toNat)) P, zA ++ zB ++ zC, hA.fifo, ?_, ?_, ?_, ?_, ?_⟩
  · rw [hC.pushed, hP.pushed, hB.pushed]
    simp
  · rw [hC.fifo.head]
    simp [Nat.add_assoc]
  · intro hW
    obtain ⟨hAB, hC0⟩ := List.append_eq_nil_iff.mp hW
    obtain ⟨hA0, hB0⟩ := List.append_eq_nil_iff.mp hAB
    rw [hC.idle hC0, Mem.rewind, hP.idle hB0, hB.idle hA0, ← hA.tail]
  · refine window_iff hlt hzA ?_ ?_
    · rintro rfl
      simpa using hzB
    · rintro rfl rfl
      simpa using hzC
  · intro D E hD hE
    exact cqPeekN_under_runs hN sched n rfl rfl hA.fifo hA.tail hn hnk hrP hD hE

/-- The look-ahead under `sched` does what a look-ahead should: it returns, with the `n` oldest
elements exactly when there were `n` when it read the count, and the queue is left with what it
held followed by what was pushed meanwhile.
Source: `circular.h` "non-destructively peek ahead"
Kind: D -/
def PeekOk (N : UInt32) (sched : Nat → List α) (n : UInt32) (m : Mem α) : Prop :=
  ∃ r u k, Runs (under (pushEnv N sched) (cqPeekN N n)) (m, 0) (.ok r) (u, k) ∧
    (r.isSome ↔ n.toNat ≤ ((pushAll N (sched 0) m).q.contents N).length) ∧
    (∀ v, r = some v → v = ((pushAll N (sched 0) m).q.contents N).take n.toNat) ∧
    ∃ meanwhile, u.pushed = m.pushed ++ meanwhile ∧
      u.q.contents N = m.q.contents N ++ meanwhile

/-- The element count when `head` is first loaded. Source: `circular.h` `sz = cq_nelem(c)`.
Kind: D -/
def countRead (N : UInt32) (sched : Nat → List α) (m : Mem α) : Nat :=
  min (N.toNat - 1) ((m.q.contents N).length + (sched 0).length)

/-- No push finds room inside the window: the look-ahead stops at its length check, or every gap
between the two counts is empty or comes while the queue is full (before the first pop, or after
`tail` is stored back). Source: `circular.h` `cq_peek_n`. Kind: D -/
def QuietPeek (N : UInt32) (sched : Nat → List α) (n : UInt32) (m : Mem α) : Prop :=
  countRead N sched m < n.toNat ∨
    ∀ i, 1 ≤ i → i ≤ 6 + 5 * n.toNat → sched i = [] ∨
      (countRead N sched m = N.toNat - 1 ∧ (n = 0 ∨ i < 10 ∨ i = 6 + 5 * n.toNat))

/-- The count read. Source: `circular.h` `cq_nelem`. Kind: L -/
theorem countRead_eq (hN : RingSize N) {sched : Nat → List α} {m : Mem α} {xs ys : List α}
    {lo : Nat} (h : Fifo N m.q xs lo) (hA : Grew N xs lo m (pushAll N (sched 0) m) ys)
    (hys : ys.length = min (sched 0).length (lo + N.toNat - 1 - xs.length)) :
    countRead N sched m = (xs ++ ys).length - lo ∧
      (pushAll N (sched 0) m).q.contents N = (xs ++ ys).drop lo := by
  refine ⟨?_, hA.fifo.contents hN⟩
  have := h.holds.length_lt
  have := h.holds.lo_le
  unfold countRead
  rw [h.contents hN, List.length_drop, List.length_append, hys]
  omega

/-- The second count agrees with the first exactly when nothing went in between them.
Source: `circular.h` `assert(sz == cq_nelem(c))`
Kind: L -/
theorem recount_iff (hN : RingSize N) {R D : Mem α} {xs zs : List α} {lo k : Nat} {sz : UInt32}
    (hR : Fifo N R.q xs lo) (hD : Grew N xs lo R D zs) (hsz : sz.toNat + k = xs.length - lo) :
    sz = (D.q.head - D.q.tail) % N ↔ k = 0 ∧ zs = [] := by
  have hle := hR.holds.lo_le
  have hn := hD.fifo.nelem hN
  rw [List.length_append] at hn
  rw [← UInt32.toNat_inj, hn, ← List.length_eq_zero_iff]
  omega

/-- A look-ahead that passes its assertion and keeps every element was undisturbed.
Source: `circular.h` `cq_peek_n`
Kind: L -/
theorem PeekRun.undisturbed (hN : RingSize N) {sched : Nat → List α} {n : UInt32}
    {m A C D E : Mem α} {xs W : List α} {lo : Nat} (h : PeekRun N sched n m xs lo A C W)
    (hA : A.q.tail = m.q.tail) (ht : m.q.tail < N)
    (hD : D = pushAll N (sched (6 + 5 * n.toNat)) (C.rewind m.q.tail))
    (hE : E = pushAll N (sched (7 + 5 * n.toNat)) D)
    (hkept : (E.q.contents N).length + A.pushed.length = xs.length - lo + E.pushed.length)
    (hassert : (A.q.head - m.q.tail) % N = (D.q.head - E.q.tail) % N) :
    W = [] ∧ (sched (6 + 5 * n.toNat) = [] ∨ xs.length + 1 = lo + N.toNat) := by
  -- whatever was pushed inside, the rewound queue is one with indices in range
  have hRh : (C.rewind m.q.tail).q.head < N := by
    rw [UInt32.lt_iff_toNat_lt]
    exact h.head ▸ Nat.mod_lt _ (by have := hN.two_le; omega)
  obtain ⟨xs', lo', hR⟩ := fifo_of_index_lt hN (C.rewind m.q.tail).q hRh ht
  obtain ⟨zD, hgD, hzD⟩ := pushAll_grew hN (sched (6 + 5 * n.toNat)) hR
  rw [← hD] at hgD
  obtain ⟨zE, hgE, -⟩ := pushAll_grew hN (sched (7 + 5 * n.toNat)) hgD.fifo
  rw [← hE] at hgE
  have hle := h.fifo.holds.lo_le
  have hle' := hR.holds.lo_le
  have hpushed : E.pushed.length = A.pushed.length + W.length + zD.length + zE.length := by
    rw [hgE.pushed, hgD.pushed, show (C.rewind m.q.tail).pushed = C.pushed from rfl, h.pushed]
    simp only [List.length_append]
  -- so it holds the elements of `A` and those of `W`
  have hcount : ((A.q.head - m.q.tail) % N).toNat + W.length = xs'.length - lo' := by
    have hsz := h.fifo.nelem hN
    rw [hA] at hsz
    rw [hgE.fifo.contents hN, List.length_drop] at hkept
    simp only [List.length_append] at hkept
    omega
  rw [hgE.tail] at hassert
  obtain ⟨hW, hzD0⟩ := (recount_iff hN hR hgD hcount).mp hassert
  refine ⟨List.length_eq_zero_iff.mp hW, ?_⟩
  rcases (grew_nil_iff hR hzD).mp hzD0 with hs | hfull
  · exact .inl hs
  · right
    have hsz := h.fifo.nelem hN
    rw [hA] at hsz
    omega

section

variable {sched : Nat → List α} {n : UInt32} {m A C : Mem α} {xs ys W : List α} {lo : Nat}

/-- A look-ahead that returns and keeps every element had no push with room in its window.
Source: `circular.h` `cq_peek_n`
Kind: L -/
theorem PeekRun.quiet_of_kept (hN : RingSize N) (hC : PeekRun N sched n m (xs ++ ys) lo A C W)
    (hA : Grew N xs lo m A ys) (hlo : lo ≤ xs.length) (ht : m.q.tail < N) {r : Option (List α)}
    {u : Mem α} {k : Nat} {meanwhile : List α}
    (hr : Runs (under (pushEnv N sched) (cqPeekN N n)) (m, 0) (.ok r) (u, k))
    (hpushed : u.pushed = m.pushed ++ meanwhile)
    (hleft : u.q.contents N = xs.drop lo ++ meanwhile) {i : Nat} (h₁ : 1 ≤ i)
    (h₂ : i ≤ 6 + 5 * n.toNat) :
    sched i = [] ∨ ((xs ++ ys).length + 1 = lo + N.toNat ∧
      (n = 0 ∨ i < 10 ∨ i = 6 + 5 * n.toNat)) := by
  obtain ⟨hout, hu⟩ := (hC.runs _ _ rfl rfl).det hr
  obtain ⟨rfl, rfl⟩ := Prod.mk.injEq .. ▸ hu
  split at hout
  · next hassert =>
    have hkept := congrArg List.length hleft
    have hgrown := congrArg List.length hpushed
    have hbefore := congrArg List.length hA.pushed
    simp only [List.length_append, List.length_drop] at hkept hgrown hbefore
    obtain ⟨hW, hlast⟩ := hC.undisturbed hN hA.tail ht rfl rfl
      (by simp only [List.length_append]; omega) (beq_iff_eq.mp hassert)
    rcases Nat.lt_or_eq_of_le h₂ with hi | rfl
    · rcases hC.quiet.mp hW i h₁ hi with hs | ⟨hf, hn | hj⟩
      · exact .inl hs
      · exact .inr ⟨hf, .inl hn⟩
      · exact .inr ⟨hf, .inr (.inl hj)⟩
    · rcases hlast with hs | hf
      · exact .inl hs
      · exact .inr ⟨hf, .inr (.inr rfl)⟩
  · exact absurd hout (by simp)

/-- A look-ahead without such a push returns what was asked for and keeps every element.
Source: `circular.h` `cq_peek_n`
Kind: L -/
theorem PeekRun.kept_of_quiet (hN : RingSize N) (hC : PeekRun N sched n m (xs ++ ys) lo A C W)
    (hA : Grew N xs lo m A ys) (hlo : lo ≤ xs.length)
    (hcount : ((A.q.head - m.q.tail) % N).toNat = (xs ++ ys).length - lo)
    (hquiet : ∀ i, 1 ≤ i → i ≤ 6 + 5 * n.toNat → sched i = [] ∨
      ((xs ++ ys).length + 1 = lo + N.toNat ∧ (n = 0 ∨ i < 10 ∨ i = 6 + 5 * n.toNat))) :
    ∃ u k meanwhile, Runs (under (pushEnv N sched) (cqPeekN N n)) (m, 0)
        (.ok (some (((xs ++ ys).drop lo).take n.toNat))) (u, k) ∧
      u.pushed = m.pushed ++ meanwhile ∧ u.q.contents N = xs.drop lo ++ meanwhile := by
  have hW : W = [] := hC.quiet.mpr fun j h₁ h₂ => by
    rcases hquiet j h₁ (by omega) with hs | ⟨hf, hn | hj | rfl⟩
    · exact .inl hs
    · exact .inr ⟨hf, .inl hn⟩
    · exact .inr ⟨hf, .inr hj⟩
    · omega
  -- the rewound queue is the one that was counted
  have hR : Fifo N (C.rewind m.q.tail).q (xs ++ ys) lo := by
    rw [hC.idle hW]
    exact hC.fifo
  obtain ⟨zD, hD, hzD⟩ := pushAll_grew hN (sched (6 + 5 * n.toNat)) hR
  have hzD0 : zD = [] := by
    apply (grew_nil_iff hR hzD).mpr
    rcases hquiet (6 + 5 * n.toNat) (by omega) le_rfl with hs | ⟨hf, -⟩
    · exact .inl hs
    · exact .inr hf
  obtain ⟨zE, hE, -⟩ := pushAll_grew hN (sched (7 + 5 * n.toNat)) hD.fifo
  have hassert := (recount_iff (k := 0) hN hR hD (by rw [Nat.add_zero]; exact hcount)).mpr
    ⟨rfl, hzD0⟩
  rw [← hE.tail] at hassert
  have hrun := hC.runs _ _ rfl rfl
  rw [if_pos (beq_iff_eq.mpr hassert)] at hrun
  refine ⟨_, _, ys ++ zE, hrun, ?_, ?_⟩
  · rw [hE.pushed, hD.pushed, show (C.rewind m.q.tail).pushed = C.pushed from rfl, hC.pushed,
      hA.pushed, hW, hzD0]
    simp
  · rw [hE.fifo.contents hN, hzD0, List.append_nil, List.append_assoc,
      List.drop_append_of_le_length hlo]

end

/-- **What a look-ahead does**: it behaves exactly when no push finds room inside its window.
Source: `circular.h` `cq_peek_n`
Kind: P -/
theorem peekOk_iff (hN : RingSize N) (sched : Nat → List α) (n : UInt32) (m : Mem α)
    (hh : m.q.head < N) (ht : m.q.tail < N) : PeekOk N sched n m ↔ QuietPeek N sched n m := by
  obtain ⟨xs, lo, h⟩ := fifo_of_index_lt hN m.q hh ht
  obtain ⟨ys, hA, hys⟩ := pushAll_grew hN (sched 0) h
  obtain ⟨hcount, hcont⟩ := countRead_eq hN h hA hys
  have hm : m.q.contents N = xs.drop lo := h.contents hN
  have hlo := h.holds.lo_le
  have hsz := hA.fifo.nelem hN
  rw [hA.tail, ← hcount] at hsz
  unfold PeekOk QuietPeek
  rw [hcont, hm, List.length_drop, ← hcount]
  by_cases hshort : n > ((pushAll N (sched 0) m).q.head - m.q.tail) % N
  · -- the call returns after its first count
    have hlt : countRead N sched m < n.toNat := by
      rwa [gt_iff_lt, UInt32.lt_iff_toNat_lt, hsz] at hshort
    obtain ⟨zs, hz, -⟩ := gaps_grew hN sched 0 2 h
    refine ⟨fun _ => .inl hlt, fun _ => ⟨none, _, _, cqPeekN_under_short hN sched n h hshort,
      by simp [hlt], by simp, zs, hz.pushed, ?_⟩⟩
    rw [hz.fifo.contents hN, List.drop_append_of_le_length hlo]
  · have hge : ¬ countRead N sched m < n.toNat := by
      rwa [gt_iff_lt, UInt32.lt_iff_toNat_lt, hsz] at hshort
    have hfull : countRead N sched m = N.toNat - 1 ↔ (xs ++ ys).length + 1 = lo + N.toNat := by
      have := hA.fifo.holds.length_lt
      have := hA.fifo.holds.lo_le
      have := hN.two_le
      omega
    obtain ⟨C, W, hC⟩ := cqPeekN_under_long hN sched n hA hshort
    change PeekRun N sched n m (xs ++ ys) lo (pushAll N (sched 0) m) C W at hC
    rw [hfull]
    constructor
    · rintro ⟨r, u, k, hr, -, -, meanwhile, hpushed, hleft⟩
      exact .inr fun i => hC.quiet_of_kept hN hA hlo ht hr hpushed hleft
    · rintro (hlt | hquiet)
      · exact absurd hlt hge
      · obtain ⟨u, k, meanwhile, hrun, hpushed, hleft⟩ :=
          hC.kept_of_quiet hN hA hlo (hsz.trans hcount) hquiet
        exact ⟨_, u, k, hrun, by simp [Nat.le_of_not_lt hge], by simp, meanwhile, hpushed, hleft⟩

/-- **`cq_peek_n` is a non-destructive look-ahead exactly when no push finds room between its two
counts**, for every byte queue with its indices in range, as every reachable one has.
Source: `circular.h` `cq_peek_n`
Kind: P -/
theorem cqPeekN_nondestructive_iff (sched : Nat → List UInt8) (n : UInt32) (m : Mem UInt8)
    (hh : m.q.head < cqN) (ht : m.q.tail < cqN) :
    PeekOk cqN sched n m ↔ QuietPeek cqN sched n m :=
  peekOk_iff ringSize_cqN sched n m hh ht

/-- A handler that pushes only before the count. Source: `circular.h` `cq_peek_n`. Kind: L -/
theorem cqPeekN_nondestructive_before :
    PeekOk cqN (fun i => if i = 0 then [7, 8] else []) 2 emptyMem := by
  refine (cqPeekN_nondestructive_iff _ 2 emptyMem (by decide) (by decide)).mpr (.inr ?_)
  intro i h₁ _
  left
  show (if i = 0 then [7, 8] else []) = []
  rw [if_neg (by omega)]

/-- One byte pushed before `tail` is stored back trips the assertion: the queue held one byte, and
the look-ahead was at one.
Source: `circular.h` `assert(sz == cq_nelem(c))`
Kind: L -/
theorem cqPeekN_push_asserts :
    Runs (cqInit cqN 1) emptyMem (.ok ()) emptyMem ∧
      Runs (cqPush cqN 7) emptyMem (.ok true) (emptyMem.push cqN 7) ∧
      (∃ t, Runs (under (pushEnv cqN fun i => if i = 10 then [9] else []) (cqPeekN cqN 1))
        (emptyMem.push cqN 7, 0) (.error (.assert "sz == cq_nelem(c)")) t) ∧
      ¬ PeekOk cqN (fun i => if i = 10 then [9] else []) 1 (emptyMem.push cqN 7) := by
  have hrun : ∃ t, Runs (under (pushEnv cqN fun i => if i = 10 then [9] else []) (cqPeekN cqN 1))
      (emptyMem.push cqN 7, 0) (.error (.assert "sz == cq_nelem(c)")) t := ⟨_, 40, rfl⟩
  refine ⟨cqInit_emptyMem, ⟨20, rfl⟩, hrun, ?_⟩
  obtain ⟨t, ht⟩ := hrun
  rintro ⟨r, u, k, hr, -⟩
  have := (ht.det hr).1
  simp at this

end Cs140e.Libpi.Circular
