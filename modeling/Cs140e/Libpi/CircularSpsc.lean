import Cs140e.Lib.Par
import Cs140e.Libpi.CircularSeq

/-!
# The circular queue between an interrupt handler and its client

One party pushes, the other pops, and every load and store of either may be interleaved with the
other's (`Par.Reach`).

* `PopMoves`, `PushMoves` — what the accesses of one party may do, as the other one sees it: the
  consumer only advances `tail` along the pushed elements, the producer only appends.
* `cqPush_safe`, `pushLoop_safe`, `cqPushN_safe`, `cqPopNonblock_safe`, `cqPop_safe`,
  `popLoop_safe` — each operation keeps its side of the contract from any state the other party
  may have brought about.
* `producer`, `consumer` — any sequence of calls, and `spsc_reach`, the invariant in every
  reachable state of the two together.
-/

namespace Cs140e.Libpi.Circular

open Cs140e.Lib Cs140e.Lib.Prog

variable {α : Type} {N : UInt32}

/-! ## The contract -/

/-- What the consumer's accesses do. Source: `circular.h` "single mutator of tail". Kind: D -/
structure PopMoves (m n : Mem α) : Prop where
  head : n.q.head = m.q.head
  cBuf : n.q.cBuf = m.q.cBuf
  pushed : n.pushed = m.pushed
  popped : m.popped.length ≤ n.popped.length

/-- What the producer's accesses do. Source: `circular.h` "single mutator of head". Kind: D -/
structure PushMoves (m n : Mem α) : Prop where
  tail : n.q.tail = m.q.tail
  popped : n.popped = m.popped
  pushed : m.pushed <+: n.pushed

/-- Source: none: infrastructure. Kind: L -/
theorem PopMoves.refl (m : Mem α) : PopMoves m m := ⟨rfl, rfl, rfl, le_rfl⟩

/-- Source: none: infrastructure. Kind: L -/
theorem PopMoves.trans {m n o : Mem α} (h : PopMoves m n) (h' : PopMoves n o) : PopMoves m o :=
  ⟨h'.head.trans h.head, h'.cBuf.trans h.cBuf, h'.pushed.trans h.pushed,
    h.popped.trans h'.popped⟩

/-- Source: none: infrastructure. Kind: L -/
theorem PushMoves.refl (m : Mem α) : PushMoves m m := ⟨rfl, rfl, List.prefix_refl _⟩

/-- Source: none: infrastructure. Kind: L -/
theorem PushMoves.trans {m n o : Mem α} (h : PushMoves m n) (h' : PushMoves n o) :
    PushMoves m o :=
  ⟨h'.tail.trans h.tail, h'.popped.trans h.popped, h.pushed.trans h'.pushed⟩

/-- The producer's contract; `bad` are the stops its calls may make.
Source: `circular.h` "single mutator of head, single mutator of tail = lock free"
Kind: D -/
def pushContract (N : UInt32) (bad : Stop → Prop) : Contract (Mem α) Stop where
  inv := Inv N
  rely := PopMoves
  guar := PushMoves
  stop e _ := bad e
  rely_refl := PopMoves.refl
  rely_trans := PopMoves.trans
  guar_refl := PushMoves.refl

/-- The consumer's contract. Source: as `pushContract`. Kind: D -/
def popContract (N : UInt32) (bad : Stop → Prop) : Contract (Mem α) Stop where
  inv := Inv N
  rely := PushMoves
  guar := PopMoves
  stop e _ := bad e
  rely_refl := PushMoves.refl
  rely_trans := PushMoves.trans
  guar_refl := PopMoves.refl

/-! ## The producer's operations -/

variable {bad : Stop → Prop}

/-- What a push of `data` leaves: all of it is in, or nothing is and there was no room for it.
Source: `circular.h` `cq_push`, `cq_push_n`
Kind: D -/
structure PushPost (N : UInt32) (m : Mem α) (data : List α) (r : Bool) (n : Mem α) : Prop where
  popped : m.popped.length ≤ n.popped.length
  pushed : n.pushed = if r then m.pushed ++ data else m.pushed
  full : r = false → m.popped.length + N.toNat ≤ m.pushed.length + data.length

/-- **A push under interleaved pops** neither trips its assertion nor disturbs the queue, and
fails only on a full queue. Source: `circular.h` `cq_push`. Kind: P -/
theorem cqPush_safe (hN : RingSize N) (x : α) {m : Mem α} :
    Safe (pushContract N bad) (cqPush N x) (PushPost N m [x]) m := by
  simp only [cqPush, cqFull, cqNspace, cqNelem, ldHead, ldTail, bind_eq_seq, pure_eq_ret, seq_seq,
    ret_bind]
  refine Safe.load_bind fun m₁ h₁ _ => Safe.load_bind fun m₂ h₂ i₂ => Safe.load_bind fun m₃ h₃ i₃ =>
    ?_
  have hhead : m₁.q.head = m₃.q.head := by rw [h₃.head, h₂.head]
  have hfull := full_iff hN.two_le (h := m₂.q.head) (h₃.head ▸ i₃.fifo.head) i₃.fifo.tail
    i₃.fifo.holds.lo_le i₃.fifo.holds.length_lt
  have h13 := (h₁.trans h₂).trans h₃
  split
  · next hb =>
    have := hfull.mp hb
    intro m₄ h₄ _
    have h14 := h13.trans h₄
    exact ⟨h14.popped, by simpa using h14.pushed, fun _ => by
      rw [← h13.pushed]
      have := h13.popped
      simp only [List.length_singleton]
      omega⟩
  · next hb =>
    have hroom : m₃.pushed.length + 1 < m₃.popped.length + N.toNat := by
      have := i₃.fifo.holds.length_lt
      have : m₃.pushed.length + 1 ≠ m₃.popped.length + N.toNat := by
        intro he
        apply hb
        exact hfull.mpr he
      omega
    refine Safe.load_bind fun m₄ h₄ i₄ => Safe.load_bind fun m₅ h₅ i₅ => ?_
    have hnelem := nelem_toNat hN (h := m₄.q.head) (h₅.head ▸ i₅.fifo.head) i₅.fifo.tail
      i₅.fifo.holds.lo_le i₅.fifo.holds.length_lt
    have h15 := (h13.trans h₄).trans h₅
    have hlt := i₅.fifo.holds.length_lt
    have hle := i₅.fifo.holds.lo_le
    have hlen : m₅.pushed.length = m₃.pushed.length := by rw [(h₄.trans h₅).pushed]
    have hassert : 0 < N - 1 - (m₄.q.head - m₅.q.tail) % N := by
      rw [UInt32.lt_iff_toNat_lt, nspace_toNat hN.two_le (by omega), hnelem]
      have := (h₄.trans h₅).popped
      simp only [UInt32.toNat_zero]
      omega
    simp only [cAssert, check, hassert, decide_true, if_true, ret_bind]
    intro m₆ h₆ i₆
    have h16 := h15.trans h₆
    have hroom₆ : m₆.pushed.length + 1 < m₆.popped.length + N.toNat := by
      have := ((h₄.trans h₅).trans h₆).popped
      have : m₆.pushed.length = m₅.pushed.length := by rw [h₆.pushed]
      omega
    have hhead₆ : m₁.q.head = m₆.q.head := by
      rw [hhead, ((h₄.trans h₅).trans h₆).head]
    refine ⟨⟨rfl, rfl, List.prefix_refl _⟩, ⟨hhead₆ ▸ i₆.fifo.stage x hroom₆, i₆.order⟩, ?_⟩
    intro m₇ h₇ i₇
    have hroom₇ : m₇.pushed.length + 1 < m₇.popped.length + N.toNat := by
      have : m₆.popped.length ≤ m₇.popped.length := h₇.popped
      have : m₇.pushed.length = m₆.pushed.length := by rw [h₇.pushed]
      omega
    have hcell : m₇.q.cBuf m₇.q.head.toNat = x := by
      rw [h₇.cBuf, h₇.head, ← hhead₆]
      simp
    have hhead₇ : m₁.q.head = m₇.q.head := by rw [hhead₆, h₇.head]
    refine ⟨⟨rfl, rfl, List.prefix_append _ _⟩, ⟨hhead₇ ▸ i₇.fifo.publish hN.two_le hcell hroom₇, ?_⟩, ?_⟩
    · have := i₇.fifo.holds.lo_le
      simpa [List.take_append_of_le_length this] using i₇.order
    · intro m₈ h₈ _
      refine ⟨?_, ?_, by simp⟩
      · exact h16.popped.trans (h₇.popped.trans h₈.popped)
      · rw [h₈.pushed]
        simpa using (h₇.pushed.trans h16.pushed)

/-- The copying loop of `cq_push_n`, entered with room for what is left, pushes all of it and
never reaches its panic. Source: `circular.h` `cq_push_n`. Kind: P -/
theorem pushLoop_safe (hN : RingSize N) (xs : List α) {m : Mem α} (hm : Inv N m)
    (hroom : m.pushed.length + xs.length < m.popped.length + N.toNat) :
    Safe (pushContract N bad) (pushLoop N xs) (fun r n => r = true ∧ PushPost N m xs r n) m := by
  induction xs generalizing m with
  | nil =>
      intro n hn _
      exact ⟨rfl, hn.popped, by simpa using hn.pushed, by simp⟩
  | cons x xs ih =>
      simp only [List.length_cons] at hroom
      refine Safe.bind hm ((cqPush_safe hN x).mono fun r m₁ i₁ h₁ => ?_)
      cases r with
      | false =>
          have := h₁.full rfl
          simp only [List.length_singleton] at this
          omega
      | true =>
          have hp : m₁.pushed = m.pushed ++ [x] := h₁.pushed
          have hle := h₁.popped
          apply (ih i₁ (by rw [hp]; simp; omega)).mono
          intro r n _ hr
          obtain ⟨rfl, hn⟩ := hr
          have hpn : n.pushed = m₁.pushed ++ xs := hn.pushed
          exact ⟨rfl, hle.trans hn.popped, by simp [hpn, hp], by simp⟩

/-- **A block goes in whole or not at all**, under interleaved pops; the only assertion that can
fail is the one on the length, for an empty block. Source: `circular.h` `cq_push_n`. Kind: P -/
theorem cqPushN_safe (hN : RingSize N) (data : List α) (hbad : data = [] → bad (.assert "n"))
    {m : Mem α} : Safe (pushContract N bad) (cqPushN N data) (PushPost N m data) m := by
  by_cases hd : data = []
  · subst hd
    exact fun _ _ _ => hbad rfl
  · have hne : (data.length != 0) = true := by simpa using hd
    simp only [cqPushN, cqNspace, cqNelem, ldHead, ldTail, bind_eq_seq, pure_eq_ret, seq_seq, ret_bind,
      cAssert, check, hne, if_true]
    refine Safe.load_bind fun m₁ h₁ i₁ => Safe.load_bind fun m₂ h₂ i₂ => ?_
    have h12 := h₁.trans h₂
    have hlt := i₂.fifo.holds.length_lt
    have hle := i₂.fifo.holds.lo_le
    have hnelem := nelem_toNat hN (h := m₁.q.head) (h₂.head ▸ i₂.fifo.head) i₂.fifo.tail hle hlt
    have hspace := nspace_toNat hN.two_le (n := (m₁.q.head - m₂.q.tail) % N) (by omega)
    rw [hnelem] at hspace
    split
    · next hsmall =>
      intro n hn _
      have h1n := h12.trans hn
      refine ⟨h1n.popped, by simpa using h1n.pushed, fun _ => ?_⟩
      rw [← h12.pushed]
      have := h12.popped
      omega
    · next hbig =>
      apply (pushLoop_safe hN data i₂ (by omega)).mono
      intro r n _ hr
      obtain ⟨rfl, hn⟩ := hr
      exact ⟨h12.popped.trans hn.popped, by rw [hn.pushed, h12.pushed], by simp⟩

/-! ## The consumer's operations -/

/-- What a pop of at most one element leaves. Source: `circular.h` `cq_pop_nonblock`. Kind: D -/
structure PopPost (m : Mem α) (r : List α) (n : Mem α) : Prop where
  pushed : m.pushed <+: n.pushed
  popped : n.popped = m.popped ++ r

/-- **A pop under interleaved pushes** takes the oldest element, or finds the queue empty.
Source: `circular.h` `cq_pop_nonblock`
Kind: P -/
theorem cqPopNonblock_safe (hN : RingSize N) {m : Mem α} :
    Safe (popContract N bad) (cqPopNonblock N) (fun r n => PopPost m r.toList n) m := by
  simp only [cqPopNonblock, cqEmpty, ldHead, ldTail, ldBuf, bind_eq_seq, pure_eq_ret, seq_seq, ret_bind]
  refine Safe.load_bind fun m₁ h₁ i₁ => Safe.load_bind fun m₂ h₂ i₂ => ?_
  have h12 := h₁.trans h₂
  have hlt := i₁.fifo.holds.length_lt
  have hempty := empty_iff i₁.fifo.head (t := m₂.q.tail) (h₂.tail ▸ i₁.fifo.tail)
    i₁.fifo.holds.lo_le hlt
  split
  · intro n hn _
    exact ⟨(h12.trans hn).pushed, by simpa using (h12.trans hn).popped⟩
  · next hb =>
    have hne : m₁.popped.length < m₁.pushed.length := by
      have := i₁.fifo.holds.lo_le
      have : m₁.pushed.length ≠ m₁.popped.length := by
        intro he
        apply hb
        exact hempty.mpr he
      omega
    refine Safe.load_bind fun m₃ h₃ _ => Safe.load_bind fun m₄ h₄ i₄ => ?_
    have h14 := (h₂.trans h₃).trans h₄
    have hne₄ : m₄.popped.length < m₄.pushed.length := by
      rw [h14.popped]
      exact hne.trans_le h14.pushed.length_le
    have htail : m₃.q.tail = m₄.q.tail := h₄.tail.symm
    have hcell : m₄.q.cBuf m₃.q.tail.toNat = m₄.pushed[m₄.popped.length] := by
      rw [htail, i₄.fifo.oldest hne₄]
    intro m₅ h₅ i₅
    have hne₅ : m₅.popped.length < m₅.pushed.length := by
      rw [h₅.popped]
      exact hne₄.trans_le h₅.pushed.length_le
    have helem : m₄.q.cBuf m₃.q.tail.toNat = m₅.pushed[m₅.popped.length] := by
      rw [hcell]
      simp only [h₅.popped]
      exact List.IsPrefix.getElem h₅.pushed hne₄
    have htail₅ : m₃.q.tail = m₅.q.tail := by rw [htail, h₅.tail]
    refine ⟨⟨rfl, rfl, rfl, by simp⟩, ⟨?_, ?_⟩, ?_⟩
    · simpa [htail₅] using i₅.fifo.pop hN.two_le hne₅
    · simp only [List.length_append, List.length_singleton]
      rw [List.take_add_one, ← i₅.order, List.getElem?_eq_getElem hne₅, helem]
      rfl
    · intro n hn _
      have h15 := (h₁.trans h14).trans h₅
      exact ⟨h15.pushed.trans hn.pushed, by rw [hn.popped]; simp [h15.popped]⟩

/-- The blocking pop takes one element; its only stop is the deadlock panic.
Source: `circular.h` `cq_pop`
Kind: P -/
theorem cqPop_safe (hN : RingSize N)
    (hbad : bad (.panic "will deadlock: interrupts not enabled [FIXME]\n" [])) {m : Mem α} :
    Safe (popContract N bad) (cqPop N) (fun e n => PopPost m [e] n) m := by
  refine Safe.loop (fun _ n => m.pushed <+: n.pushed ∧ n.popped = m.popped)
    ⟨List.prefix_refl _, rfl⟩ ?_ ?_
  · intro _ t u ht hr _
    exact ⟨ht.1.trans hr.pushed, hr.popped.trans ht.2⟩
  · intro _ t ht hi
    refine Safe.bind hi ((cqPopNonblock_safe hN).mono fun r u _ hu => ?_)
    cases r with
    | some e =>
        intro v hv _ w hw _
        have hvw := hv.trans hw
        refine ⟨ht.1.trans (hu.pushed.trans hvw.pushed), ?_⟩
        rw [hvw.popped, hu.popped, ht.2]
        rfl
    | none =>
        apply Safe.load_bind
        intro v hv _
        have hpop : v.popped = m.popped := by
          rw [hv.popped, hu.popped, ht.2]
          simp
        have hpush := (ht.1.trans hu.pushed).trans hv.pushed
        split
        · intro w hw _
          exact ⟨hpush.trans hw.pushed, hw.popped.trans hpop⟩
        · exact fun _ _ _ => hbad

/-- A block is popped element by element. Source: `circular.h` `cq_pop_n`. Kind: P -/
theorem popLoop_safe (hN : RingSize N)
    (hbad : bad (.panic "will deadlock: interrupts not enabled [FIXME]\n" [])) (k : Nat)
    {m : Mem α} (hm : Inv N m) :
    Safe (popContract N bad) (popLoop N k) (fun v n => v.length = k ∧ PopPost m v n) m := by
  induction k generalizing m with
  | zero =>
      intro n hn _
      exact ⟨rfl, hn.pushed, by simpa using hn.popped⟩
  | succ k ih =>
      refine Safe.bind hm ((cqPop_safe hN hbad).mono fun e m₁ i₁ h₁ => ?_)
      refine Safe.bind i₁ ((ih i₁).mono fun v m₂ _ hv => ?_)
      obtain ⟨hlen, h₂⟩ := hv
      intro n hn _
      refine ⟨by rw [List.length_cons, hlen], h₁.pushed.trans (h₂.pushed.trans hn.pushed), ?_⟩
      rw [hn.popped, h₂.popped, h₁.popped, List.append_assoc]
      rfl

/-- Source: `circular.h` `cq_pop_n_noblk`. Kind: L -/
theorem cqPopNNoblk_safe (hN : RingSize N)
    (hbad : bad (.panic "will deadlock: interrupts not enabled [FIXME]\n" [])) (n : UInt32)
    {m : Mem α} :
    Safe (popContract N bad) (cqPopNNoblk N n) (fun r u => PopPost m (r.getD []) u) m := by
  simp only [cqPopNNoblk, cqNelem, ldHead, ldTail, bind_eq_seq, pure_eq_ret, seq_seq, ret_bind]
  refine Safe.load_bind fun m₁ h₁ _ => Safe.load_bind fun m₂ h₂ i₂ => ?_
  have h12 := h₁.trans h₂
  split
  · intro u hu _
    exact ⟨(h12.trans hu).pushed, by simpa using (h12.trans hu).popped⟩
  · refine Safe.bind i₂ ((popLoop_safe hN hbad n.toNat i₂).mono fun v m₃ _ hv => ?_)
    have h₃ := hv.2
    intro u hu _
    refine ⟨(h12.pushed.trans h₃.pushed).trans hu.pushed, ?_⟩
    rw [hu.popped, h₃.popped, h12.popped]
    rfl

/-! ## Any sequence of calls -/

/-- A call of the producer. Source: `circular.h` `cq_push`, `cq_push_n`, `cq_push32`. Kind: D -/
inductive PushCall where
  | push (x : UInt8)
  | pushN (data : List UInt8)
  | push32 (x : UInt32)

/-- A call of the consumer.
Source: `circular.h` `cq_pop_nonblock`, `cq_pop`, `cq_pop_n`, `cq_pop_n_noblk`, `cq_pop32`
Kind: D -/
inductive PopCall where
  | popNonblock
  | pop
  | popN (n : UInt32)
  | popNNoblk (n : UInt32)
  | pop32

/-- Source: as `PushCall`. Kind: D -/
def PushCall.prog (N : UInt32) : PushCall → Prog (Mem UInt8) Stop Bool
  | push x => cqPush N x
  | pushN data => cqPushN N data
  | push32 x => cqPush32 N x

/-- What the call pushes. Source: as `PushCall`. Kind: D -/
def PushCall.data : PushCall → List UInt8
  | push x => [x]
  | pushN data => data
  | push32 x => leBytes 4 x.toNat

/-- The elements that the call returns. Source: as `PopCall`. Kind: D -/
def PopCall.prog (N : UInt32) : PopCall → Prog (Mem UInt8) Stop (List UInt8)
  | popNonblock => do
    let e ← cqPopNonblock N
    return e.toList
  | pop => do
    let e ← cqPop N
    return [e]
  | popN n => cqPopN N n
  | popNNoblk n => do
    let v ← cqPopNNoblk N n
    return v.getD []
  | pop32 => do
    let x ← cqPop32 N
    return leBytes 4 x.toNat

/-- The producing party: one call after the other, and what each of them returned.
Source: `1-circular-example32.c` `interrupt_vector`. Kind: D -/
def producer (N : UInt32) : List PushCall → Prog (Mem UInt8) Stop (List Bool)
  | [] => return []
  | c :: cs => do
    let r ← c.prog N
    let rs ← producer N cs
    return r :: rs

/-- The consuming party: one call after the other, and what each of them returned.
Source: `1-circular-example32.c` `notmain`. Kind: D -/
def consumer (N : UInt32) : List PopCall → Prog (Mem UInt8) Stop (List (List UInt8))
  | [] => return []
  | c :: cs => do
    let v ← c.prog N
    let vs ← consumer N cs
    return v :: vs

/-- The data of the calls that returned true. Source: `circular.h` `cq_push`, `cq_push_n`. Kind: D -/
def accepted : List PushCall → List Bool → List UInt8
  | c :: cs, r :: rs => (if r then c.data else []) ++ accepted cs rs
  | [], _ => []
  | _ :: _, [] => []

/-- The only stop of a producer: the assertion on the length, when an empty block is among its
calls. Source: `circular.h` `cq_push_n` `assert(n)`. Kind: D -/
def EmptyBlock (calls : List PushCall) (e : Stop) : Prop :=
  e = .assert "n" ∧ .pushN [] ∈ calls

/-- Source: `circular.h`. Kind: L -/
theorem PushCall.safe (hN : RingSize N) (c : PushCall)
    (hbad : c = .pushN [] → bad (.assert "n")) {m : Mem UInt8} :
    Safe (pushContract N bad) (c.prog N) (PushPost N m c.data) m := by
  cases c with
  | push x => exact cqPush_safe hN x
  | pushN data => exact cqPushN_safe hN data fun hd => hbad (by rw [hd])
  | push32 x =>
      refine cqPushN_safe hN (leBytes 4 x.toNat) fun hd => ?_
      simp [leBytes] at hd

/-- A producer pushes the data of the calls that return true. Source: `circular.h`. Kind: L -/
theorem producer_safe (hN : RingSize N) (calls cs : List PushCall) (hcs : cs ⊆ calls)
    {m : Mem UInt8} (hm : Inv N m) :
    Safe (pushContract N (EmptyBlock calls)) (producer N cs)
      (fun rs n => rs.length = cs.length ∧ n.pushed = m.pushed ++ accepted cs rs) m := by
  induction cs generalizing m with
  | nil => exact fun n hn _ => ⟨rfl, hn.pushed.trans (List.append_nil _).symm⟩
  | cons c cs ih =>
      refine Safe.bind hm ((PushCall.safe hN c fun hc => ?_).mono fun r m₁ i₁ h₁ => ?_)
      · exact ⟨rfl, hc ▸ hcs List.mem_cons_self⟩
      · have hrest := ih (fun d hd => hcs (List.mem_cons_of_mem _ hd)) i₁
        refine Safe.bind i₁ (hrest.mono fun rs m₂ _ h₂ n hn _ => ?_)
        refine ⟨by rw [List.length_cons, List.length_cons, h₂.1], ?_⟩
        rw [hn.pushed, h₂.2, h₁.pushed, accepted]
        cases r <;> simp

/-- The only stop of a consumer: waiting with interrupts off.
Source: `circular.h` `cq_pop`
Kind: D -/
def Deadlock (e : Stop) : Prop :=
  e = .panic "will deadlock: interrupts not enabled [FIXME]\n" []

/-- Source: `circular.h`. Kind: L -/
theorem PopCall.safe (hN : RingSize N) (c : PopCall) {m : Mem UInt8} (hm : Inv N m) :
    Safe (popContract N Deadlock) (c.prog N) (PopPost m) m := by
  have hd : Deadlock (.panic "will deadlock: interrupts not enabled [FIXME]\n" []) := rfl
  -- the other party's accesses behind the call
  have hret : ∀ {v : List UInt8} {m₁ : Mem UInt8}, PopPost m v m₁ →
      Safe (popContract N Deadlock) (ret v) (PopPost m) m₁ := by
    intro v m₁ h n hn _
    exact ⟨h.pushed.trans hn.pushed, by rw [hn.popped, h.popped]⟩
  cases c with
  | popNonblock => exact Safe.bind hm ((cqPopNonblock_safe hN).mono fun _ _ _ h => hret h)
  | pop => exact Safe.bind hm ((cqPop_safe hN hd).mono fun _ _ _ h => hret h)
  | popN n => exact (popLoop_safe hN hd n.toNat hm).mono fun _ _ _ h => h.2
  | popNNoblk n => exact Safe.bind hm ((cqPopNNoblk_safe hN hd n).mono fun _ _ _ h => hret h)
  | pop32 =>
      refine Safe.bind hm (Safe.bind hm ((popLoop_safe hN hd 4 hm).mono fun v m₁ i₁ h₁ => ?_))
      intro m₂ h₂ i₂
      rw [leBytes_ofNat h₁.1]
      exact (hret h₁.2).env h₂ i₂

/-- What a consumer's calls return is what is popped. Source: `circular.h`. Kind: L -/
theorem consumer_safe (hN : RingSize N) (cs : List PopCall) {m : Mem UInt8} (hm : Inv N m) :
    Safe (popContract N Deadlock) (consumer N cs)
      (fun vs n => n.popped = m.popped ++ vs.flatten) m := by
  induction cs generalizing m with
  | nil => exact fun n hn _ => hn.popped.trans (List.append_nil _).symm
  | cons c cs ih =>
      refine Safe.bind hm ((PopCall.safe hN c hm).mono fun v m₁ i₁ h₁ => ?_)
      refine Safe.bind i₁ ((ih i₁).mono fun vs m₂ _ h₂ n hn _ => ?_)
      show n.popped = m.popped ++ (v ++ vs.flatten)
      rw [hn.popped, h₂, h₁.popped, List.append_assoc]

/-! ## Every reachable state -/

/-- Source: `circular.h`. Kind: P -/
theorem spsc_reach (hN : RingSize N) (calls : List PushCall) (pops : List PopCall)
    {m : Mem UInt8} (hm : Inv N m) {c : Par.Config (Mem UInt8) Stop (List Bool) (List (List UInt8))}
    (hr : Par.Reach ⟨producer N calls, consumer N pops, m⟩ c) :
    Par.Ok (pushContract N (EmptyBlock calls)) (popContract N Deadlock)
      (fun rs n => rs.length = calls.length ∧ n.pushed = m.pushed ++ accepted calls rs)
      (fun vs n => n.popped = m.popped ++ vs.flatten) c := by
  have hok : Par.Ok (pushContract N (EmptyBlock calls)) (popContract N Deadlock)
      (fun rs n => rs.length = calls.length ∧ n.pushed = m.pushed ++ accepted calls rs)
      (fun vs n => n.popped = m.popped ++ vs.flatten) ⟨producer N calls, consumer N pops, m⟩ :=
    ⟨hm, producer_safe hN calls calls (List.Subset.refl _) hm, consumer_safe hN pops hm⟩
  refine Par.safe_of_reach ?_ ?_ ?_ hok hr
  · exact fun _ => Iff.rfl
  · exact fun _ _ h => h
  · exact fun _ _ h => h

/-- **The queue is a FIFO between the two parties.** In every reachable state both indices are in
range, one cell is free, and what was popped followed by what is stored is what was pushed. The
producer stops only at the length assertion of `cq_push_n`, and only if it is given an empty
block. Where the producer has made its calls, what was pushed are the data of those that returned
true; where the consumer has made its calls, what was popped is what they returned.
Source: `circular.h` "lock-free circular queue"; `1-circular-example32.c`
Kind: P
Fidelity: exact
Hyps: the queue starts as `cq_init` leaves it -/
theorem spsc_fifo (calls : List PushCall) (pops : List PopCall) (f : UInt32) (m₀ m : Mem UInt8)
    (hinit : Runs (cqInit cqN f) m₀ (.ok ()) m)
    (c : Par.Config (Mem UInt8) Stop (List Bool) (List (List UInt8)))
    (hr : Par.Reach ⟨producer cqN calls, consumer cqN pops, m⟩ c) :
    c.state.q.head < cqN ∧ c.state.q.tail < cqN ∧
      (c.state.q.contents cqN).length ≤ cqN.toNat - 1 ∧
      c.state.popped ++ c.state.q.contents cqN = c.state.pushed ∧
      (∀ e, c.left = raise e → e = .assert "n" ∧ .pushN [] ∈ calls) ∧
      (∀ rs, c.left = ret rs → rs.length = calls.length ∧ c.state.pushed = accepted calls rs) ∧
      ∀ vs, c.right = ret vs → c.state.popped = vs.flatten := by
  obtain ⟨-, hpushed, hpopped, hm⟩ := cqInit_runs ringSize_cqN.two_le hinit
  have hok := spsc_reach ringSize_cqN calls pops hm hr
  have hinv : Inv cqN c.state := hok.inv
  have hidx := hinv.fifo.index_lt ringSize_cqN.two_le
  have hcont := hinv.fifo.contents ringSize_cqN
  refine ⟨hidx.1, hidx.2, ?_, ?_, fun e he => ?_, fun rs hrs => ?_, fun vs hvs => ?_⟩
  · have := hinv.fifo.holds.length_lt
    rw [hcont, List.length_drop]
    omega
  · rw [hcont]
    calc c.state.popped ++ c.state.pushed.drop c.state.popped.length
        = c.state.pushed.take c.state.popped.length ++
            c.state.pushed.drop c.state.popped.length := by rw [← hinv.order]
      _ = c.state.pushed := List.take_append_drop _ _
  · have hs := hok.left
    rw [he] at hs
    exact hs c.state (PopMoves.refl _) hinv
  · have hs := hok.left
    rw [hrs] at hs
    obtain ⟨hlen, hdata⟩ := hs c.state (PopMoves.refl _) hinv
    rw [hpushed, List.nil_append] at hdata
    exact ⟨hlen, hdata⟩
  · have hs := hok.right
    rw [hvs] at hs
    have hdata := hs c.state (PushMoves.refl _) hinv
    rwa [hpopped, List.nil_append] at hdata

/-- A handler that pushes a byte between two accesses of a waiting `cq_pop`: both calls return.
Source: `0-circular-example.c`
Kind: L -/
theorem spsc_fifo_handover : ∃ c : Par.Config (Mem UInt8) Stop (List Bool) (List (List UInt8)),
    Par.Reach ⟨producer cqN [.push 7], consumer cqN [.pop], emptyMem⟩ c ∧
      c.left = ret [true] ∧ c.right = ret [[7]] ∧
      c.state.pushed = [7] ∧ c.state.popped = [7] ∧
      c.state.popped ++ c.state.q.contents cqN = c.state.pushed := by
  let c₀ : Par.Config (Mem UInt8) Stop (List Bool) (List (List UInt8)) :=
    ⟨producer cqN [.push 7], consumer cqN [.pop], emptyMem⟩
  let bs : List Bool := [false, false] ++ List.replicate 8 true ++ List.replicate 9 false
  have hr : Par.Reach c₀ (Par.schedule bs c₀) := Par.reach_schedule bs c₀
  have hleft : (Par.schedule bs c₀).left = ret [true] := eq_ret_of_value? (by decide +kernel)
  have hright : (Par.schedule bs c₀).right = ret [[7]] := eq_ret_of_value? (by decide +kernel)
  obtain ⟨-, -, -, horder, -, hpushed, hpopped⟩ :=
    spsc_fifo [.push 7] [.pop] 1 emptyMem emptyMem cqInit_emptyMem _ hr
  exact ⟨_, hr, hleft, hright, (hpushed _ hleft).2, hpopped _ hright, horder⟩

/-- An empty block trips `cq_push_n`'s assertion on its length.
Source: `circular.h` `cq_push_n` `assert(n)`
Kind: L -/
theorem cqPushN_empty_asserts : Runs (cqInit cqN 1) emptyMem (.ok ()) emptyMem ∧
    ∃ c : Par.Config (Mem UInt8) Stop (List Bool) (List (List UInt8)),
      Par.Reach ⟨producer cqN [.pushN []], consumer cqN [], emptyMem⟩ c ∧
        c.left = raise (.assert "n") :=
  ⟨cqInit_emptyMem, _, Relation.ReflTransGen.refl, rfl⟩

end Cs140e.Libpi.Circular
