import Cs140e.Libpi.CircularSeq

/-!
# Blocks and words in the queue

What `cq_push_n`, `cq_pop_n_noblk` and the 32-bit operations on top of them do to the contents of a
byte queue of the default capacity, in every state whose indices are in range.

* `PushesBlock`, `PopsBlock`, `PopsWord` — all or nothing; `pushesBlock`, `popsBlock`, `popsWord`.
* `push32s`, `pop32s` — words pushed one after the other, and as many popped.
* `pop32s_runs` — the words that are popped have the oldest bytes; `words_unique`, so words pushed
  into an empty queue come back.
-/

namespace Cs140e.Libpi.Circular

open Cs140e.Lib Cs140e.Lib.Prog

variable {N : UInt32} {m : Mem UInt8}

/-- The queue's contents. Source: `circular.h` `cq_t`. Kind: D -/
def Mem.bytes (m : Mem UInt8) : List UInt8 := m.q.contents cqN

/-- The indices of a reachable state are in range. Source: `circular.h` `c_buf[CQ_N]`. Kind: L -/
theorem Reached.index_lt (h : Reached cqN m) : m.q.head < cqN ∧ m.q.tail < cqN := by
  obtain ⟨hh, ht⟩ := (h.inv ringSize_cqN.two_le).fifo.index_lt ringSize_cqN.two_le
  exact ⟨UInt32.lt_iff_toNat_lt.mpr hh, UInt32.lt_iff_toNat_lt.mpr ht⟩

/-! ## All or nothing -/

/-- Pushing `data` succeeds iff `cq_nspace` is enough, and appends it; else nothing changes.
Source: `circular.h` `cq_push_n`
Kind: D -/
def PushesBlock (m : Mem UInt8) (data : List UInt8) : Prop :=
  ∃ space, Runs (cqNspace cqN) m (.ok space) m ∧
    if data.length ≤ space.toNat then
      ∃ n, Runs (cqPushN cqN data) m (.ok true) n ∧ n.bytes = m.bytes ++ data
    else Runs (cqPushN cqN data) m (.ok false) m

/-- Popping `k` bytes succeeds iff `cq_nelem` is enough, and takes the oldest; else nothing changes.
Source: `circular.h` `cq_pop_n_noblk`
Kind: D -/
def PopsBlock (m : Mem UInt8) (k : UInt32) : Prop :=
  ∃ nelem, Runs (cqNelem cqN) m (.ok nelem) m ∧
    if k.toNat ≤ nelem.toNat then
      ∃ n, Runs (cqPopNNoblk cqN k) m (.ok (some (m.bytes.take k.toNat))) n ∧
        n.bytes = m.bytes.drop k.toNat
    else Runs (cqPopNNoblk cqN k) m (.ok none) m

/-- Popping a word succeeds iff there are four bytes, and takes the oldest; else nothing changes.
Source: `circular.h` `cq_pop32_noblk`
Kind: D -/
def PopsWord (m : Mem UInt8) : Prop :=
  ∃ nelem, Runs (cqNelem cqN) m (.ok nelem) m ∧
    if 4 ≤ nelem.toNat then
      ∃ w n, Runs (cqPop32Noblk cqN) m (.ok (some w)) n ∧ leBytes 4 w.toNat = m.bytes.take 4 ∧
        n.bytes = m.bytes.drop 4
    else Runs (cqPop32Noblk cqN) m (.ok none) m

section

variable {xs : List UInt8} {lo : Nat}

/-- Source: `circular.h` `cq_push_n`. Kind: L -/
theorem pushesBlock (h : Fifo cqN m.q xs lo) {data : List UInt8} (hne : data ≠ []) :
    PushesBlock m data := by
  have hlt := h.holds.length_lt
  have hle := h.holds.lo_le
  have hspace := h.space ringSize_cqN
  have hrun := cqPushN_runs ringSize_cqN h hne
  have h2 := ringSize_cqN.two_le
  refine ⟨m.q.space cqN, cqNspace_iff.mpr ⟨rfl, rfl⟩, ?_⟩
  by_cases hroom : xs.length + data.length < lo + cqN.toNat
  · rw [decide_eq_true hroom, if_pos hroom] at hrun
    rw [if_pos (by omega)]
    refine ⟨_, hrun, ?_⟩
    rw [Mem.bytes, Mem.bytes, (h.pushes h2 hroom).contents ringSize_cqN, h.contents ringSize_cqN,
      List.drop_append_of_le_length hle]
  · rw [decide_eq_false hroom, if_neg hroom] at hrun
    rw [if_neg (by omega)]
    exact hrun

/-- Source: `circular.h` `cq_pop_n_noblk`. Kind: L -/
theorem popsBlock (h : Fifo cqN m.q xs lo) (k : UInt32) : PopsBlock m k := by
  have hle := h.holds.lo_le
  have hnelem := h.nelem ringSize_cqN
  have hrun := cqPopNNoblk_runs ringSize_cqN h k
  refine ⟨_, cqNelem_iff.mpr ⟨rfl, rfl⟩, ?_⟩
  by_cases hk : lo + k.toNat ≤ xs.length
  · rw [if_pos hk, if_pos hk] at hrun
    rw [if_pos (by omega)]
    refine ⟨m.pops cqN k.toNat, ?_, ?_⟩
    · rwa [Mem.bytes, h.contents ringSize_cqN]
    · rw [Mem.bytes, Mem.bytes, (h.pops ringSize_cqN.two_le hk).contents ringSize_cqN,
        h.contents ringSize_cqN, List.drop_drop]
  · rw [if_neg hk, if_neg hk] at hrun
    rw [if_neg (by omega)]
    exact hrun

/-- A pop of a word with enough bytes. Source: `circular.h` `cq_pop32_noblk`. Kind: L -/
theorem cqPop32Noblk_runs (h : Fifo cqN m.q xs lo) (hk : lo + 4 ≤ xs.length) :
    ∃ w, Runs (cqPop32Noblk cqN) m (.ok (some w)) (m.pops cqN 4) ∧
      leBytes 4 w.toNat = (xs.drop lo).take 4 := by
  have h4 : (4 : UInt32).toNat = 4 := rfl
  have hrun := cqPopNNoblk_runs ringSize_cqN h 4
  rw [h4, if_pos hk, if_pos hk] at hrun
  refine ⟨UInt32.ofNat (leValue ((xs.drop lo).take 4)), hrun.bind (by simp), ?_⟩
  apply leBytes_ofNat
  rw [List.length_take, List.length_drop]
  omega

/-- Source: `circular.h` `cq_pop32_noblk`. Kind: L -/
theorem popsWord (h : Fifo cqN m.q xs lo) : PopsWord m := by
  have h4 : (4 : UInt32).toNat = 4 := rfl
  obtain ⟨nelem, hnelem, hpop⟩ := popsBlock h 4
  have hcount := h.nelem ringSize_cqN
  have heq := Except.ok.inj (cqNelem_iff.mp hnelem).1
  refine ⟨nelem, hnelem, ?_⟩
  rw [h4] at hpop
  by_cases hk : 4 ≤ nelem.toNat
  · rw [if_pos hk] at hpop ⊢
    rw [heq, hcount] at hk
    obtain ⟨n, hn, hbytes⟩ := hpop
    refine ⟨UInt32.ofNat (leValue (m.bytes.take 4)), n, hn.bind (by simp), ?_, hbytes⟩
    apply leBytes_ofNat
    rw [Mem.bytes, h.contents ringSize_cqN, List.length_take, List.length_drop]
    omega
  · rw [if_neg hk] at hpop ⊢
    exact hpop.bind (by simp)

end

/-! ## Words -/

/-- Push words one after the other. Source: `circular.h` `cq_push32`. Kind: D -/
def push32s (N : UInt32) : List UInt32 → Prog (Mem UInt8) Stop (List Bool)
  | [] => return []
  | w :: ws => do
    let r ← cqPush32 N w
    let rs ← push32s N ws
    return r :: rs

/-- Pop `k` words. Source: `circular.h` `cq_pop32_noblk`. Kind: D -/
def pop32s (N : UInt32) : Nat → Prog (Mem UInt8) Stop (List (Option UInt32))
  | 0 => return []
  | k + 1 => do
    let r ← cqPop32Noblk N
    let rs ← pop32s N k
    return r :: rs

/-- The bytes of some words. Source: `circular.h` `cq_push32`. Kind: D -/
def wordBytes (ws : List UInt32) : List UInt8 := ws.flatMap fun w => leBytes 4 w.toNat

/-- Source: `circular.h` `cq_push32`. Kind: L -/
@[simp] theorem wordBytes_length (ws : List UInt32) : (wordBytes ws).length = 4 * ws.length := by
  induction ws with
  | nil => rfl
  | cons w ws ih =>
      rw [wordBytes, List.flatMap_cons, List.length_append, leBytes_length, List.length_cons]
      rw [wordBytes] at ih
      omega

/-- Words are told apart by their bytes. Source: `circular.h` `cq_push32`. Kind: L -/
theorem words_unique {vs ws : List UInt32} (h : wordBytes vs = wordBytes ws) : vs = ws := by
  have hlen : vs.length = ws.length := by
    have := congrArg List.length h
    rw [wordBytes_length, wordBytes_length] at this
    omega
  induction vs generalizing ws with
  | nil => exact (List.length_eq_zero_iff.mp hlen.symm).symm
  | cons v vs ih =>
      obtain ⟨w, ws, rfl⟩ : ∃ w ws', ws = w :: ws' := by
        cases ws with
        | nil => simp at hlen
        | cons w ws => exact ⟨w, ws, rfl⟩
      rw [wordBytes, List.flatMap_cons, wordBytes, List.flatMap_cons] at h
      obtain ⟨hw, hws⟩ := List.append_inj h (by rw [leBytes_length, leBytes_length])
      have hvw : v.toNat = w.toNat := by
        rw [← leValue_leBytes_of_lt (n := 4) v.toNat_lt, hw, leValue_leBytes_of_lt w.toNat_lt]
      rw [UInt32.toNat_inj.mp hvw, ih hws (by simpa using hlen)]

section

variable {xs : List UInt8} {lo : Nat}

/-- Pushes that all succeed append their bytes. Source: `circular.h` `cq_push32`. Kind: L -/
theorem push32s_fifo {ws : List UInt32} {rs : List Bool} {n : Mem UInt8} (h : Fifo cqN m.q xs lo)
    (hrun : Runs (push32s cqN ws) m (.ok rs) n) (hall : ∀ r ∈ rs, r = true) :
    Fifo cqN n.q (xs ++ wordBytes ws) lo := by
  induction ws generalizing m xs rs with
  | nil =>
      obtain ⟨-, rfl⟩ := runs_ret_iff.mp hrun
      simpa [wordBytes] using h
  | cons w ws ih =>
      rcases runs_bind_iff.mp hrun with ⟨r, u, hpush, hmore⟩ | ⟨e, he, -⟩
      · rcases runs_bind_iff.mp hmore with ⟨rs', u', hrest, hret⟩ | ⟨e, he, -⟩
        · obtain ⟨hrs, rfl⟩ := runs_ret_iff.mp hret
          obtain rfl := Except.ok.inj hrs
          have hr := hall r List.mem_cons_self
          have hdet := (cqPushN_runs ringSize_cqN h
            (show leBytes 4 w.toNat ≠ [] by simp [leBytes])).det hpush
          rw [hr] at hdet
          have hroom := of_decide_eq_true (Except.ok.inj hdet.1)
          rw [if_pos hroom] at hdet
          have hu : Fifo cqN u.q (xs ++ leBytes 4 w.toNat) lo :=
            hdet.2 ▸ h.pushes ringSize_cqN.two_le hroom
          have hn := ih hu hrest fun r hr => hall r (List.mem_cons_of_mem _ hr)
          rw [List.append_assoc] at hn
          exact hn
        · simp at he
      · simp at he

/-- **The words popped** have the oldest bytes. Source: `circular.h` `cq_pop32_noblk`. Kind: P -/
theorem pop32s_runs (h : Fifo cqN m.q xs lo) {k : Nat} (hk : lo + 4 * k ≤ xs.length) :
    ∃ vs n, Runs (pop32s cqN k) m (.ok (vs.map some)) n ∧
      wordBytes vs = (xs.drop lo).take (4 * k) := by
  induction k generalizing m lo with
  | zero => exact ⟨[], m, by simp [pop32s], by simp [wordBytes]⟩
  | succ k ih =>
      obtain ⟨w, hw, hbytes⟩ := cqPop32Noblk_runs h (by omega)
      obtain ⟨vs, n, hvs, hrest⟩ := ih (h.pops ringSize_cqN.two_le (k := 4) (by omega)) (by omega)
      refine ⟨w :: vs, n, hw.bind (hvs.bind (by simp)), ?_⟩
      rw [wordBytes] at hrest
      rw [wordBytes, List.flatMap_cons, hbytes, hrest, show 4 * (k + 1) = 4 + 4 * k by omega,
        List.take_add, List.drop_drop]

end

/-- The queue after `ws` were pushed: as many words popped have the oldest bytes; if there were none
before, they are `ws`. Source: `circular.h` `cq_push32`, `cq_pop32_noblk`. Kind: D -/
def WordsReturn (m : Mem UInt8) (ws : List UInt32) : Prop :=
  ∀ rs n, Runs (push32s cqN ws) m (.ok rs) n → (∀ r ∈ rs, r = true) →
    ∃ vs o, Runs (pop32s cqN ws.length) n (.ok (vs.map some)) o ∧
      wordBytes vs = (m.bytes ++ wordBytes ws).take (4 * ws.length) ∧ (m.bytes = [] → vs = ws)

/-- **Blocks and words** are pushed and popped as a whole, in order, in every state whose indices are
in range. Source: `circular.h` `cq_push_n`, `cq_pop_n_noblk`, `cq_push32`, `cq_pop32_noblk`. Kind: P -/
theorem bulk_ops (m : Mem UInt8) (hh : m.q.head < cqN) (ht : m.q.tail < cqN) :
    (∀ data, data ≠ [] → PushesBlock m data) ∧ (∀ k, PopsBlock m k) ∧ PopsWord m ∧
      ∀ ws, WordsReturn m ws := by
  obtain ⟨xs, lo, h⟩ := fifo_of_index_lt ringSize_cqN m.q hh ht
  refine ⟨fun data hne => pushesBlock h hne, popsBlock h, popsWord h, ?_⟩
  intro ws rs n hrun hall
  have hn := push32s_fifo h hrun hall
  have hle := h.holds.lo_le
  have hbytes : m.bytes = xs.drop lo := h.contents ringSize_cqN
  obtain ⟨vs, o, hpop, hvs⟩ := pop32s_runs hn (k := ws.length)
    (by rw [List.length_append, wordBytes_length]; omega)
  rw [List.drop_append_of_le_length hle, ← hbytes] at hvs
  refine ⟨vs, o, hpop, hvs, ?_⟩
  intro hempty
  rw [hempty, List.nil_append, List.take_of_length_le (by rw [wordBytes_length])] at hvs
  exact words_unique hvs

/-- A queue of four elements, the last two behind the end of the buffer. Source: `circular.h` `cq_t`.
Kind: D -/
def wrappedMem : Mem UInt8 :=
  { emptyMem with
    q := { emptyMem.q with
      cBuf := fun i => if i = 8190 then 5 else if i = 8191 then 6 else if i = 0 then 7 else 8
      head := 2
      tail := 8190 } }

/-- The theorem where the block straddles the end of the buffer. Source: `circular.h` `cq_push_n`.
Kind: L -/
theorem bulk_ops_wrapped : wrappedMem.bytes = [5, 6, 7, 8] ∧
    (∀ data, data ≠ [] → PushesBlock wrappedMem data) ∧ (∀ k, PopsBlock wrappedMem k) ∧
      PopsWord wrappedMem ∧ ∀ ws, WordsReturn wrappedMem ws :=
  ⟨by decide, bulk_ops wrappedMem (by decide) (by decide)⟩

/-- **An older byte** in front of the word comes out first: the word read is not the word pushed.
Source: `circular.h` `cq_push32`, `cq_pop32_noblk`
Kind: P -/
theorem word_behind_byte : ∃ m n o, Reached cqN m ∧
    Runs (push32s cqN [0x01020304]) m (.ok [true]) n ∧
    Runs (pop32s cqN 1) n (.ok [some 0x02030407]) o := by
  have h₀ : Reached cqN (emptyMem.fresh 1) := .init ((cqInit_iff (by decide)).mpr ⟨rfl, rfl⟩)
  exact ⟨_, _, _, h₀.call (c := .push 7) (r := true) ⟨20, rfl⟩, ⟨100, rfl⟩, ⟨100, rfl⟩⟩

end Cs140e.Libpi.Circular
