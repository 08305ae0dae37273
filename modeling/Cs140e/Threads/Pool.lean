import Cs140e.Libpi.Q

/-!
# The pool of thread blocks

`th_alloc` and `th_free` of `labs/8-threads/code/rpi-thread.c`: freed blocks wait on the queue
`freeq`, and `kmalloc_aligned` is called when there are none. `kmalloc heap` is its answer when it
has returned the blocks `heap` so far.

* `thAlloc`, `thFree` — as the code computes them; `thAlloc_pop`, `thAlloc_kmalloc` — the two ways.
* `Reaches kmalloc n s` — a state after `n` allocations, with any frees of live blocks between them;
  who holds a block may link it elsewhere.
* `Inv` — what holds of every such state; `pool_safe`.
-/

namespace Cs140e.Threads

open Cs140e.Lib Cs140e.Libpi.Queue

variable {B : Type} [DecidableEq B] [Element B]

/-! ## The code -/

/-- The fields of all blocks that the pool uses, its queue and its counters, and the blocks that
`kmalloc_aligned` has returned.
Source: `rpi-thread.c` `freeq`, `tid`, `nalloced`; `rpi-thread.h` `rpi_thread_t`
Kind: D -/
structure Pool (B : Type) where
  next : Links B
  tidOf : B → UInt32
  freeq : Q B
  tid : UInt32
  nalloced : UInt32
  /-- History, the last one first. -/
  heap : List B

/-- Six words stand in front of the stack. Source: `libpi/include/rpi-thread.h` `rpi_thread_t`,
`stack`. Kind: D -/
def stackOffset : UInt32 := 24

/-- Source: `rpi-thread.c` `is_aligned`. Kind: D -/
def isAligned (p n : UInt32) : Bool := p % n == 0

/-- Source: `rpi-thread.c` `th_alloc` "stack must be 8-byte aligned!". Kind: D -/
def stackAligned (t : B) : Bool := isAligned (Element.addr t + stackOffset) 8

/-- The block, and the pool afterwards. Source: `rpi-thread.c` `th_alloc`. Kind: D -/
def thAlloc (kmalloc : List B → Except Stop B) (p : Pool B) : Except Stop (B × Pool B) := do
  let (t, freeq) ← qPop p.next (some p.freeq)
  let p := { p with freeq := freeq }
  let (t, p) ← match t with
    | some t => Except.ok (t, p)
    | none => do
      let t ← kmalloc p.heap
      Except.ok (t, { p with heap := t :: p.heap, nalloced := p.nalloced + 1 })
  if ¬ stackAligned t then
    throw (.panic "stack must be 8-byte aligned!" [])
  let p := { p with tidOf := Function.update p.tidOf t p.tid }
  return (t, { p with tid := p.tid + 1 })

/-- Source: `rpi-thread.c` `th_free`. Kind: D -/
def thFree (p : Pool B) (th : B) : Pool B :=
  let (next, freeq) := qPush p.next p.freeq th
  { p with next := next, freeq := freeq }

variable {kmalloc : List B → Except Stop B} {p : Pool B} {t b : B} {fs : List B}

/-- A block from the queue. Source: `rpi-thread.c` `th_alloc`. Kind: P -/
theorem thAlloc_pop (kmalloc : List B → Except Stop B) (hq : Holds p.next p.freeq (t :: fs))
    (ht : stackAligned t = true) :
    ∃ freeq, thAlloc kmalloc p = .ok (t, { p with
        freeq := freeq, tidOf := Function.update p.tidOf t p.tid, tid := p.tid + 1 }) ∧
      Holds p.next freeq fs := by
  obtain ⟨freeq, hpop, hfreeq⟩ := hq.pop
  refine ⟨freeq, ?_, hfreeq⟩
  simp [thAlloc, hpop, ht]

/-- A new block. Source: `rpi-thread.c` `th_alloc`. Kind: P -/
theorem thAlloc_kmalloc (kmalloc : List B → Except Stop B) (hq : Holds p.next p.freeq []) :
    ∃ freeq, Holds p.next freeq [] ∧
      thAlloc kmalloc p = do
        let t ← kmalloc p.heap
        if ¬ stackAligned t then
          throw (.panic "stack must be 8-byte aligned!" [])
        return (t, { p with
          freeq := freeq, heap := t :: p.heap, nalloced := p.nalloced + 1,
          tidOf := Function.update p.tidOf t p.tid, tid := p.tid + 1 }) := by
  obtain ⟨freeq, hpop, hfreeq⟩ := hq.pop
  refine ⟨freeq, hfreeq, ?_⟩
  cases hk : kmalloc p.heap with
  | error e => simp [thAlloc, hpop, hk]
  | ok t => simp [thAlloc, hpop, hk]

/-! ## Runs -/

/-- The pool, the blocks that are allocated, and how many there were at most.
Source: `rpi-thread.c` "total number of thread blocks we have allocated"
Kind: D -/
structure Usage (B : Type) where
  pool : Pool B
  live : List B
  peak : Nat

/-- Before the first call. Source: `rpi-thread.c` `freeq`, `tid`, `nalloced`. Kind: D -/
def Usage.boot (next : Links B) (tidOf : B → UInt32) : Usage B where
  pool := { next := next, tidOf := tidOf, freeq := qInit, tid := 1, nalloced := 0, heap := [] }
  live := []
  peak := 0

/-- The states after `n` calls of `th_alloc`, calls of `th_free` on blocks that are allocated, and
links that are set in such blocks.
Source: `rpi-thread.c` `th_alloc`, `th_free`
Kind: D -/
inductive Reaches (kmalloc : List B → Except Stop B) : Nat → Usage B → Prop
  | boot (next : Links B) (tidOf : B → UInt32) : Reaches kmalloc 0 (Usage.boot next tidOf)
  | alloc {n : Nat} {s : Usage B} {t : B} {p : Pool B} (h : Reaches kmalloc n s)
      (halloc : thAlloc kmalloc s.pool = .ok (t, p)) :
      Reaches kmalloc (n + 1)
        { pool := p, live := t :: s.live, peak := max s.peak (s.live.length + 1) }
  | free {n : Nat} {s : Usage B} {th : B} (h : Reaches kmalloc n s) (hlive : th ∈ s.live) :
      Reaches kmalloc n { s with pool := thFree s.pool th, live := s.live.erase th }
  | link {n : Nat} {s : Usage B} {th : B} (h : Reaches kmalloc n s) (hlive : th ∈ s.live)
      (next : Option B) : Reaches kmalloc n
        { s with pool := { s.pool with next := Function.update s.pool.next th next } }

/-- `kmalloc_aligned` returns blocks that it has not returned before.
Source: `rpi-thread.c` "our kmalloc doesn't have free"
Kind: D -/
def Fresh (kmalloc : List B → Except Stop B) : Prop := ∀ heap t, kmalloc heap = .ok t → t ∉ heap

/-- What holds after `n` allocations, with the blocks `fs` on the queue.
Source: `rpi-thread.c` `freeq`, `tid`, `nalloced`
Kind: D -/
structure Inv (n : Nat) (s : Usage B) (fs : List B) : Prop where
  freeq : Holds s.pool.next s.pool.freeq fs
  /-- Every block is allocated or on the queue. -/
  blocks : s.pool.heap.Perm (s.live ++ fs)
  nodup : s.pool.heap.Nodup
  aligned : ∀ b ∈ s.pool.heap, stackAligned b = true
  nalloced : s.pool.nalloced = UInt32.ofNat s.pool.heap.length
  peak : s.peak = s.pool.heap.length
  tid : s.pool.tid = UInt32.ofNat (n + 1)
  used : ∀ b ∈ s.live, (s.pool.tidOf b).toNat ≤ n
  tids : (s.live.map s.pool.tidOf).Nodup

variable {n : Nat} {s : Usage B}

omit [DecidableEq B] in
/-- A free block is not allocated. Source: `rpi-thread.c` `th_alloc`. Kind: L -/
theorem Inv.disjoint (h : Inv n s fs) : s.live.Nodup ∧ fs.Nodup ∧ s.live.Disjoint fs := by
  obtain ⟨hlive, hfs, hne⟩ := List.nodup_append.mp (h.blocks.nodup_iff.mp h.nodup)
  exact ⟨hlive, hfs, fun b hb hb' => hne b hb b hb' rfl⟩

/-- The new thread has an id of its own. Source: `rpi-thread.c` `tid`. Kind: L -/
theorem Inv.tids_update (h : Inv n s fs) (hn : n + 1 < 2 ^ 32) (ht : t ∉ s.live) :
    (∀ b ∈ t :: s.live, (Function.update s.pool.tidOf t s.pool.tid b).toNat ≤ n + 1) ∧
      ((t :: s.live).map (Function.update s.pool.tidOf t s.pool.tid)).Nodup := by
  have htid : s.pool.tid.toNat = n + 1 := by rw [h.tid, UInt32.toNat_ofNat_of_lt' hn]
  have hother : ∀ b ∈ s.live, Function.update s.pool.tidOf t s.pool.tid b = s.pool.tidOf b := by
    intro b hb
    refine Function.update_of_ne ?_ _ _
    rintro rfl
    exact ht hb
  have hmap := List.map_congr_left hother
  constructor
  · intro b hb
    rcases List.mem_cons.mp hb with rfl | hb
    · rw [Function.update_self, htid]
    · rw [hother b hb]
      exact Nat.le_succ_of_le (h.used b hb)
  · rw [List.map_cons, Function.update_self, hmap]
    refine List.nodup_cons.mpr ⟨fun hmem => ?_, h.tids⟩
    obtain ⟨b, hb, hbt⟩ := List.mem_map.mp hmem
    have hused := h.used b hb
    rw [hbt, htid] at hused
    omega

/-- An allocation. Source: `rpi-thread.c` `th_alloc`. Kind: P -/
theorem Inv.alloc (hfresh : Fresh kmalloc) (h : Inv n s fs) (hn : n + 1 < 2 ^ 32)
    (halloc : thAlloc kmalloc s.pool = .ok (t, p)) :
    ∃ fs', Inv (n + 1)
      { pool := p, live := t :: s.live, peak := max s.peak (s.live.length + 1) } fs' := by
  have htid : s.pool.tid + 1 = UInt32.ofNat (n + 1 + 1) := by
    rw [h.tid, UInt32.ofNat_add (n + 1)]
    rfl
  have hlen := h.blocks.length_eq
  rw [List.length_append] at hlen
  obtain ⟨-, hfs, hdisj⟩ := h.disjoint
  cases fs with
  | cons b fs =>
      -- a block that was freed
      have hb : b ∈ s.pool.heap := h.blocks.mem_iff.mpr (by simp)
      obtain ⟨freeq, hrun, hfreeq⟩ := thAlloc_pop kmalloc h.freeq (h.aligned b hb)
      obtain ⟨rfl, rfl⟩ := Prod.mk.inj (Except.ok.inj (hrun.symm.trans halloc))
      have hnot : b ∉ s.live := fun hmem => hdisj hmem List.mem_cons_self
      obtain ⟨hused, htids⟩ := h.tids_update hn hnot
      refine ⟨fs, hfreeq, ?_, h.nodup, h.aligned, h.nalloced, ?_, htid, hused, htids⟩
      · exact h.blocks.trans List.perm_middle
      · have hpeak := h.peak
        rw [List.length_cons] at hlen
        dsimp only
        omega
  | nil =>
      obtain ⟨freeq, hfreeq, hrun⟩ := thAlloc_kmalloc kmalloc h.freeq
      rw [hrun] at halloc
      obtain ⟨t', hk, halloc⟩ := bind_eq_ok_iff.mp halloc
      split at halloc
      · simp at halloc
      · rename_i haligned
        obtain ⟨rfl, rfl⟩ := Prod.mk.inj (Except.ok.inj halloc)
        have hnew := hfresh _ _ hk
        have hnot : t' ∉ s.live := fun hmem => hnew (h.blocks.mem_iff.mpr (by simp [hmem]))
        obtain ⟨hused, htids⟩ := h.tids_update hn hnot
        refine ⟨[], hfreeq, h.blocks.cons t', List.nodup_cons.mpr ⟨hnew, h.nodup⟩, ?_, ?_, ?_,
          htid, hused, htids⟩
        · intro b hb
          rcases List.mem_cons.mp hb with rfl | hb
          · simpa using haligned
          · exact h.aligned b hb
        · dsimp only
          rw [h.nalloced, List.length_cons, UInt32.ofNat_add]
          rfl
        · have hpeak := h.peak
          simp only [List.length_nil, List.length_cons] at hlen ⊢
          omega

/-- A block is given back. Source: `rpi-thread.c` `th_free`. Kind: P -/
theorem Inv.free (h : Inv n s fs) (hb : b ∈ s.live) :
    Inv n { s with pool := thFree s.pool b, live := s.live.erase b } (b :: fs) := by
  obtain ⟨-, -, hdisj⟩ := h.disjoint
  refine ⟨(h.freeq.push (hdisj hb)).1, ?_, h.nodup, h.aligned, h.nalloced, h.peak, h.tid, ?_, ?_⟩
  · refine h.blocks.trans (((List.perm_cons_erase hb).append_right fs).trans ?_)
    exact List.perm_middle.symm
  · exact fun c hc => h.used c (List.mem_of_mem_erase hc)
  · exact h.tids.sublist (List.erase_sublist.map _)

/-- The holder of a block links it elsewhere. Source: `rpi-thread.h` `next`. Kind: L -/
theorem Inv.link (h : Inv n s fs) (hb : b ∈ s.live) (next : Option B) :
    Inv n { s with pool := { s.pool with next := Function.update s.pool.next b next } } fs := by
  obtain ⟨-, -, hdisj⟩ := h.disjoint
  refine { h with freeq := h.freeq.congr fun x hx => Function.update_of_ne ?_ _ _ }
  rintro rfl
  exact hdisj hb hx

/-- **Every state that is reached.** Source: `rpi-thread.c` `th_alloc`, `th_free`. Kind: P -/
theorem Reaches.inv (hfresh : Fresh kmalloc) (h : Reaches kmalloc n s) (hn : n < 2 ^ 32) :
    ∃ fs, Inv n s fs := by
  induction h with
  | boot next tidOf =>
      refine ⟨[], holds_qInit next, List.Perm.refl _, List.nodup_nil, ?_, rfl, rfl, rfl, ?_,
        List.nodup_nil⟩
      · intro b hb
        cases hb
      · intro b hb
        cases hb
  | alloc _ halloc ih =>
      obtain ⟨fs, hfs⟩ := ih (by omega)
      exact hfs.alloc hfresh hn halloc
  | free _ hlive ih =>
      obtain ⟨fs, hfs⟩ := ih hn
      exact ⟨_, hfs.free hlive⟩
  | link _ hlive next ih =>
      obtain ⟨fs, hfs⟩ := ih hn
      exact ⟨fs, hfs.link hlive next⟩

/-- **The pool is safe**: no block is allocated twice or has another one's id, none that waits on the
queue is allocated, and `nalloced` counts them all, which is as many as ever were allocated at once.
Source: `rpi-thread.c` `th_alloc`, `th_free`, `nalloced`
Kind: P -/
theorem pool_safe (kmalloc : List B → Except Stop B) (hfresh : Fresh kmalloc) (n : Nat)
    (s : Usage B) (hs : Reaches kmalloc n s) (hn : n < 2 ^ 32 - 1) :
    s.live.Pairwise (fun a b => a ≠ b ∧ s.pool.tidOf a ≠ s.pool.tidOf b) ∧
      ∃ fs, Chain s.pool.next s.pool.freeq.head fs ∧ s.pool.freeq.cnt.toNat = fs.length ∧
        (∀ b ∈ fs, b ∉ s.live) ∧
        s.pool.nalloced.toNat = s.live.length + fs.length ∧
        s.pool.nalloced.toNat = s.peak := by
  obtain ⟨fs, h⟩ := hs.inv hfresh (by omega)
  obtain ⟨hlive, hfs, hdisj⟩ := h.disjoint
  have hlen := h.blocks.length_eq
  rw [List.length_append] at hlen
  have hnalloced : s.pool.nalloced.toNat = s.pool.heap.length := by
    rw [h.nalloced, UInt32.toNat_ofNat_of_lt' (length_lt_of_nodup h.nodup)]
  refine ⟨hlive.and (List.pairwise_map.mp h.tids), fs, h.freeq.chain, ?_,
    fun b hb hb' => hdisj hb' hb, by omega, by rw [hnalloced, h.peak]⟩
  rw [h.freeq.cnt, UInt32.toNat_ofNat_of_lt' (length_lt_of_nodup hfs)]

/-- Blocks one behind the other, as long as there are addresses. Source: `rpi-thread.c` `sizeof *t`;
`0-kmalloc/kmalloc.c` "address of returned pointer should be a multiple of alignment". Kind: D -/
def bump (heap : List Address) : Except Stop Address :=
  let t : UInt32 := 0x100000 + 8216 * UInt32.ofNat heap.length
  if h : t ≠ 0 then
    if ⟨t, h⟩ ∈ heap then throw (.panic "out of memory" []) else return ⟨t, h⟩
  else throw (.panic "out of memory" [])

/-- Source: `0-kmalloc/kmalloc.c` `kmalloc_aligned`. Kind: L -/
theorem bump_fresh : Fresh bump := by
  intro heap t ht
  unfold bump at ht
  dsimp only at ht
  split at ht
  · split at ht
    · cases ht
    · rename_i hmem
      rw [← Except.ok.inj ht]
      exact hmem
  · cases ht

/-- Two blocks, the first of which is given back and allocated again. Source: `rpi-thread.c`
`th_alloc`, `th_free`. Kind: P -/
theorem pool_safe_reuse :
    ∃ s : Usage Address, Reaches bump 3 s ∧
      s.live = [⟨0x100000, by decide⟩, ⟨0x102018, by decide⟩] ∧
      s.live.Pairwise (fun a b => a ≠ b ∧ s.pool.tidOf a ≠ s.pool.tidOf b) ∧
      ∃ fs, Chain s.pool.next s.pool.freeq.head fs ∧ s.pool.freeq.cnt.toNat = fs.length ∧
        (∀ b ∈ fs, b ∉ s.live) ∧
        s.pool.nalloced.toNat = s.live.length + fs.length ∧
        s.pool.nalloced.toNat = s.peak := by
  have hreach : ∃ s, Reaches bump 3 s ∧
      s.live = [⟨0x100000, by decide⟩, ⟨0x102018, by decide⟩] := by
    have hlive : (⟨0x100000, by decide⟩ : Address) ∈
        ([⟨0x102018, by decide⟩, ⟨0x100000, by decide⟩] : List Address) := by decide
    exact ⟨_, .alloc (.free (.alloc (.alloc (.boot (fun _ => none) fun _ => 0) rfl) rfl) hlive) rfl,
      rfl⟩
  obtain ⟨s, hs, hlive⟩ := hreach
  exact ⟨s, hs, hlive, pool_safe bump bump_fresh 3 s hs (by decide)⟩

end Cs140e.Threads
