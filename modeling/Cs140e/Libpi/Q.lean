import Cs140e.Lib.Chain
import Cs140e.Stop
import Mathlib.Algebra.Group.Nat.Defs
import Mathlib.Data.Fintype.Card

/-!
# Intrusive queues

`libpi/libc/Q.h`: a queue is a record of a head, a tail and a count, and its elements carry the link
to the next one. The elements' type `E` is the client's; `Links E` is the `next` field of all of
them, the part of memory that queues share.

* `qEmpty`, `qPop`, `qAppend`, `qPush`, `qInit`, `qInsertAfter` — as the code computes them.
* `Holds next q xs` — the record and the links spell `xs`; one lemma for each operation.
* `Op`, `Heap.step` — the operations on a memory with any number of queues; `Op.on` — the same on
  lists. `Refines` — the memory holds the lists.
* `run_refines` — it does so after every run.
-/

namespace Cs140e.Libpi.Queue

open Cs140e.Lib

/-- The elements of queues lie at addresses of their own, none of which is null.
Source: `libpi/libc/Q.h` `E`
Kind: D -/
class Element (E : Type) where
  addr : E → UInt32
  addr_injective : Function.Injective addr
  addr_ne_null : ∀ e, addr e ≠ 0

/-- The links of all elements. Source: `libpi/libc/Q.h` `Q_next`. Kind: D -/
abbrev Links (E : Type) := E → Option E

/-- Source: `libpi/libc/Q.h` `Q_t`. Kind: D -/
structure Q (E : Type) where
  head : Option E
  tail : Option E
  cnt : UInt32
  deriving DecidableEq, Repr

variable {E : Type}

/-! ## The operations -/

/-- Source: `libpi/libc/Q.h` `Q_nelem`. Kind: D -/
def qNelem (q : Q E) : UInt32 := q.cnt

/-- Source: `libpi/libc/Q.h` `Q_empty`. Kind: D -/
def qEmpty (q : Q E) : Except Stop Bool :=
  if q.head.isSome then return false
  else do
    if ¬ qNelem q = 0 then
      throw (.assert "Q_nelem(q) == 0")
    if q.tail.isSome then
      throw (.panic "invalid Q" [])
    return true

/-- The element, and the queue afterwards; `none` is the null pointer.
Source: `libpi/libc/Q.h` `Q_pop`
Kind: D -/
def qPop (next : Links E) : Option (Q E) → Except Stop (Option E × Q E)
  | none => throw (.panic "bad input" [])
  | some q => do
    match q.head with
    | none =>
      let empty ← qEmpty q
      if ¬ empty then
        throw (.assert "Q_empty(q)")
      return (none, q)
    | some e =>
      let q := { q with cnt := q.cnt - 1 }
      let q := { q with head := next e }
      let q := if q.head.isNone then { q with tail := none } else q
      return (some e, q)

/-- Source: `libpi/libc/Q.h` `Q_append`. Kind: D -/
def qAppend [DecidableEq E] (next : Links E) (q : Q E) (e : E) : Links E × Q E :=
  let next := Function.update next e none
  let q := { q with cnt := q.cnt + 1 }
  match q.tail with
  | none => (next, { q with head := some e, tail := some e })
  | some tail => (Function.update next tail (some e), { q with tail := some e })

/-- Source: `libpi/libc/Q.h` `Q_push`. Kind: D -/
def qPush [DecidableEq E] (next : Links E) (q : Q E) (e : E) : Links E × Q E :=
  let q := { q with cnt := q.cnt + 1 }
  let next := Function.update next e q.head
  let q := { q with head := some e }
  (next, if q.tail.isNone then { q with tail := some e } else q)

/-- Source: `libpi/libc/Q.h` `Q_init`. Kind: D -/
def qInit : Q E := { head := none, tail := none, cnt := 0 }

/-- Source: `libpi/libc/Q.h` `Q_insert_after`. Kind: D -/
def qInsertAfter [DecidableEq E] (next : Links E) (q : Q E) :
    (e : Option E) → (eNew : E) → Links E × Q E
  | none, eNew => qPush next q eNew
  | some e, eNew =>
    if q.tail = some e then qAppend next q eNew
    else
      let q := { q with cnt := q.cnt + 1 }
      let next := Function.update next eNew (next e)
      (Function.update next e (some eNew), q)

/-! ## What a queue holds -/

/-- The record and the links spell `xs`. Source: `libpi/libc/Q.h` `Q_t`. Kind: D -/
structure Holds (next : Links E) (q : Q E) (xs : List E) : Prop where
  chain : Chain next q.head xs
  cnt : q.cnt = UInt32.ofNat xs.length
  tail : q.tail = xs.getLast?

variable {next : Links E} {q : Q E} {xs ys : List E} {e eNew : E}

/-- `eNew` behind `e`. Source: `libpi/libc/Q.h` `Q_insert_after`. Kind: D -/
def insertAfter [DecidableEq E] (e eNew : E) : List E → List E
  | [] => []
  | x :: xs => if x = e then x :: eNew :: xs else x :: insertAfter e eNew xs

/-- Source: `libpi/libc/Q.h` `Q_insert_after`. Kind: L -/
theorem insertAfter_append [DecidableEq E] (h : e ∉ xs) :
    insertAfter e eNew (xs ++ e :: ys) = xs ++ e :: eNew :: ys := by
  induction xs with
  | nil => simp [insertAfter]
  | cons x xs ih =>
      obtain ⟨hx, hxs⟩ : e ≠ x ∧ e ∉ xs := by simpa using h
      simp only [List.cons_append, insertAfter, if_neg (Ne.symm hx), ih hxs]

/-- Source: `libpi/libc/Q.h` `Q_insert_after`. Kind: L -/
theorem mem_insertAfter [DecidableEq E] (h : e ∈ xs) {x : E} :
    x ∈ insertAfter e eNew xs ↔ x = eNew ∨ x ∈ xs := by
  induction xs with
  | nil => simp at h
  | cons y xs ih =>
      unfold insertAfter
      split
      · simp only [List.mem_cons]
        tauto
      · rename_i hne
        have hmem : e ∈ xs := by
          rcases List.mem_cons.mp h with rfl | hmem
          · exact absurd rfl hne
          · exact hmem
        simp only [List.mem_cons, ih hmem]
        tauto

/-- Source: `libpi/libc/Q.h` `Q_init`. Kind: L -/
theorem holds_qInit (next : Links E) : Holds next (qInit : Q E) [] := ⟨rfl, rfl, rfl⟩

/-- Only the links of its elements count. Source: `libpi/libc/Q.h` `Q_t`. Kind: L -/
theorem Holds.congr {next' : Links E} (h : Holds next q xs) (heq : ∀ x ∈ xs, next' x = next x) :
    Holds next' q xs :=
  ⟨h.chain.congr heq, h.cnt, h.tail⟩

/-- The checks pass. Source: `libpi/libc/Q.h` `Q_empty`. Kind: P -/
theorem Holds.qEmpty_eq (h : Holds next q xs) : qEmpty q = .ok xs.isEmpty := by
  have hhead := h.chain.head
  unfold qEmpty qNelem
  cases xs with
  | nil =>
      have hhead : q.head = none := hhead
      have htail : q.tail = none := h.tail
      have hcnt : q.cnt = 0 := h.cnt
      simp [hhead, htail, hcnt]
  | cons x xs =>
      have hhead : q.head = some x := hhead
      simp [hhead]

/-- Source: `libpi/libc/Q.h` `Q_pop`. Kind: P -/
theorem Holds.pop (h : Holds next q xs) :
    ∃ q', qPop next (some q) = .ok (xs.head?, q') ∧ Holds next q' xs.tail := by
  have hhead := h.chain.head
  cases xs with
  | nil =>
      have hempty := h.qEmpty_eq
      have hhead : q.head = none := hhead
      refine ⟨q, ?_, h⟩
      simp [qPop, hhead, hempty]
  | cons x xs =>
      have hhead : q.head = some x := hhead
      have hrest : Chain next (next x) xs := h.chain.2
      have hcnt : q.cnt - 1 = UInt32.ofNat xs.length := by
        rw [h.cnt, List.length_cons, UInt32.ofNat_add]
        exact UInt32.add_sub_cancel _ _
      cases xs with
      | nil =>
          have hnull : next x = none := hrest
          refine ⟨{ head := none, tail := none, cnt := q.cnt - 1 }, ?_, rfl, hcnt, rfl⟩
          simp [qPop, hhead, hnull]
      | cons y xs =>
          have hnext : next x = some y := hrest.1
          refine ⟨{ q with head := next x, cnt := q.cnt - 1 }, ?_, hrest, hcnt, ?_⟩
          · simp [qPop, hhead, hnext]
          · rw [List.tail_cons, ← List.getLast?_cons_cons (a := x)]
            exact h.tail

/-- One more element. Source: `libpi/libc/Q.h` `Q_push`. Kind: L -/
theorem Holds.cnt_succ (h : Holds next q xs) : q.cnt + 1 = UInt32.ofNat (xs.length + 1) := by
  rw [h.cnt, UInt32.ofNat_add]
  rfl

section

variable [DecidableEq E]

/-- Source: `libpi/libc/Q.h` `Q_push`. Kind: P -/
theorem Holds.push (h : Holds next q xs) (he : e ∉ xs) :
    Holds (qPush next q e).1 (qPush next q e).2 (e :: xs) ∧
      ∀ y, y ≠ e → y ∉ xs → (qPush next q e).1 y = next y := by
  refine ⟨?_, fun y hy _ => Function.update_of_ne hy _ _⟩
  have hchain := h.chain.push he
  cases xs with
  | nil =>
      have htail : q.tail = none := h.tail
      have hpush : qPush next q e = (Function.update next e q.head,
          { head := some e, tail := some e, cnt := q.cnt + 1 }) := by simp [qPush, htail]
      rw [hpush]
      exact ⟨hchain, h.cnt_succ, rfl⟩
  | cons x xs =>
      have htail : q.tail ≠ none := by
        rw [h.tail]
        simp
      have hpush : qPush next q e = (Function.update next e q.head,
          { q with head := some e, cnt := q.cnt + 1 }) := by simp [qPush, htail]
      rw [hpush]
      refine ⟨hchain, h.cnt_succ, ?_⟩
      rw [List.getLast?_cons_cons]
      exact h.tail

/-- Source: `libpi/libc/Q.h` `Q_append`. Kind: P -/
theorem Holds.append (h : Holds next q xs) (he : e ∉ xs) :
    Holds (qAppend next q e).1 (qAppend next q e).2 (xs ++ [e]) ∧
      ∀ y, y ≠ e → y ∉ xs → (qAppend next q e).1 y = next y := by
  have hcnt : q.cnt + 1 = UInt32.ofNat (xs ++ [e]).length := by
    rw [List.length_append]
    exact h.cnt_succ
  rcases List.eq_nil_or_concat xs with rfl | ⟨as, last, rfl⟩
  · have htail : q.tail = none := h.tail
    have happend : qAppend next q e = (Function.update next e none,
        { head := some e, tail := some e, cnt := q.cnt + 1 }) := by simp [qAppend, htail]
    rw [happend]
    refine ⟨⟨⟨rfl, Function.update_self _ _ _⟩, hcnt, rfl⟩, fun y hy _ => ?_⟩
    exact Function.update_of_ne hy _ _
  · rw [List.concat_eq_append] at h he hcnt ⊢
    have htail : q.tail = some last := by
      rw [h.tail]
      simp
    have happend : qAppend next q e =
        (Function.update (Function.update next e none) last (some e),
          { q with cnt := q.cnt + 1, tail := some e }) := by simp [qAppend, htail]
    have hchain := h.chain.snoc he
    rw [happend]
    refine ⟨⟨by simpa using hchain, hcnt, by simp⟩, fun y hy hmem => ?_⟩
    have hlast : y ≠ last := by
      rintro rfl
      simp at hmem
    dsimp only
    rw [Function.update_of_ne hlast, Function.update_of_ne hy]

/-- Source: `libpi/libc/Q.h` `Q_insert_after`. Kind: P -/
theorem Holds.insertAfter (h : Holds next q xs) (he : e ∈ xs) (hnew : eNew ∉ xs) :
    Holds (qInsertAfter next q (some e) eNew).1 (qInsertAfter next q (some e) eNew).2
        (insertAfter e eNew xs) ∧
      ∀ y, y ≠ eNew → y ∉ xs → (qInsertAfter next q (some e) eNew).1 y = next y := by
  obtain ⟨as, bs, rfl⟩ := List.append_of_mem he
  have hnodup := List.nodup_append.mp h.chain.nodup
  have has : e ∉ as := fun hmem => hnodup.2.2 e hmem e List.mem_cons_self rfl
  rw [insertAfter_append has]
  by_cases hlast : q.tail = some e
  · -- the last element: nothing follows it
    have hbs : bs = [] := by
      rw [h.tail] at hlast
      rcases List.eq_nil_or_concat bs with rfl | ⟨cs, c, rfl⟩
      · rfl
      · have hassoc : as ++ e :: cs.concat c = (as ++ e :: cs) ++ [c] := by simp
        rw [hassoc, List.getLast?_concat] at hlast
        obtain rfl : c = e := by simpa using hlast
        exact absurd (List.nodup_cons.mp hnodup.2.1).1 (by simp)
    subst hbs
    have happend := h.append hnew
    simp only [qInsertAfter, if_pos hlast]
    simpa using happend
  · have hbs : bs ≠ [] := by
      rintro rfl
      exact hlast (by rw [h.tail]; simp)
    have hinsert : qInsertAfter next q (some e) eNew =
        (Function.update (Function.update next eNew (next e)) e (some eNew),
          { q with cnt := q.cnt + 1 }) := by simp [qInsertAfter, hlast]
    rw [hinsert]
    refine ⟨⟨h.chain.splice hnew, ?_, ?_⟩, fun y hy hmem => ?_⟩
    · have hcnt := h.cnt_succ
      simp only [List.length_append, List.length_cons] at hcnt ⊢
      exact hcnt
    · obtain ⟨b, bs, rfl⟩ := List.exists_cons_of_ne_nil hbs
      have htail := h.tail
      simp only [List.getLast?_append, List.getLast?_cons_cons] at htail ⊢
      exact htail
    · have hye : y ≠ e := by
        rintro rfl
        simp at hmem
      dsimp only
      rw [Function.update_of_ne hye, Function.update_of_ne hy]

end

/-! ## Any number of queues -/

/-- The queues `K` and the links of the elements. Source: `libpi/libc/Q.h`. Kind: D -/
structure Heap (K E : Type) where
  next : Links E
  queue : K → Q E

/-- The operations that change a queue. Source: `libpi/libc/Q.h`. Kind: D -/
inductive Op (K E : Type) where
  | init (q : K)
  | append (q : K) (e : E)
  | push (q : K) (e : E)
  | pop (q : K)
  | insertAfter (q : K) (e : Option E) (eNew : E)
  deriving DecidableEq, Repr

/-- What the queues are to hold; `none` for one that is not initialised. Source: `libpi/libc/Q.h`.
Kind: D -/
abbrev Lists (K E : Type) := K → Option (List E)

variable {K : Type}

/-- `e` is in no queue. Source: `libpi/libc/Q.h` `Q_append`. Kind: D -/
def Lists.Free (L : Lists K E) (e : E) : Prop := ∀ k xs, L k = some xs → e ∉ xs

/-- An element is inserted while it is in no queue, behind one of the queue it goes into.
Source: `libpi/libc/Q.h` `Q_insert_after`
Kind: D -/
def Op.Legal (L : Lists K E) : Op K E → Prop
  | init _ => True
  | append q e => (∃ xs, L q = some xs) ∧ L.Free e
  | push q e => (∃ xs, L q = some xs) ∧ L.Free e
  | pop q => ∃ xs, L q = some xs
  | insertAfter q e eNew => (∃ xs, L q = some xs ∧ ∀ x ∈ e, x ∈ xs) ∧ L.Free eNew

section

variable [DecidableEq K] [DecidableEq E]

/-- Write back a queue and the links. Source: `libpi/libc/Q.h`. Kind: D -/
def Heap.set (m : Heap K E) (k : K) (r : Links E × Q E) : Heap K E :=
  { next := r.1, queue := Function.update m.queue k r.2 }

/-- The element that is returned, and the memory afterwards. Source: `libpi/libc/Q.h`. Kind: D -/
def Heap.step (m : Heap K E) : Op K E → Except Stop (Option E × Heap K E)
  | .init q => return (none, m.set q (m.next, qInit))
  | .append q e => return (none, m.set q (qAppend m.next (m.queue q) e))
  | .push q e => return (none, m.set q (qPush m.next (m.queue q) e))
  | .pop q => do
    let (e, r) ← qPop m.next (some (m.queue q))
    return (e, m.set q (m.next, r))
  | .insertAfter q e eNew => return (none, m.set q (qInsertAfter m.next (m.queue q) e eNew))

/-- The elements returned, and the memory afterwards. Source: `libpi/libc/Q.h`. Kind: D -/
def Heap.run (m : Heap K E) : List (Op K E) → Except Stop (List (Option E) × Heap K E)
  | [] => return ([], m)
  | op :: ops => do
    let (e, m) ← m.step op
    let (es, m) ← m.run ops
    return (e :: es, m)

/-- The operation on the lists. Source: `libpi/libc/Q.h` "insert at tail", "insert at head", "remove
from front of list", "insert <e_new> after <e>". Kind: D -/
def Op.on (L : Lists K E) : Op K E → Lists K E
  | init q => Function.update L q (some [])
  | append q e => Function.update L q ((L q).map (· ++ [e]))
  | push q e => Function.update L q ((L q).map (e :: ·))
  | pop q => Function.update L q ((L q).map List.tail)
  | insertAfter q none eNew => Function.update L q ((L q).map (eNew :: ·))
  | insertAfter q (some e) eNew => Function.update L q ((L q).map (Queue.insertAfter e eNew))

/-- The element that comes off. Source: `libpi/libc/Q.h` `Q_pop`. Kind: D -/
def Op.result (L : Lists K E) : Op K E → Option E
  | pop q => (L q).bind List.head?
  | _ => none

/-- The lists after a run. Source: `libpi/libc/Q.h`. Kind: D -/
def Lists.run (L : Lists K E) : List (Op K E) → Lists K E
  | [] => L
  | op :: ops => (op.on L).run ops

/-- The elements that come off. Source: `libpi/libc/Q.h` `Q_pop`. Kind: D -/
def Lists.results (L : Lists K E) : List (Op K E) → List (Option E)
  | [] => []
  | op :: ops => op.result L :: (op.on L).results ops

/-- Every operation is used as it may be. Source: `libpi/libc/Q.h`. Kind: D -/
def Lists.Legal (L : Lists K E) : List (Op K E) → Prop
  | [] => True
  | op :: ops => op.Legal L ∧ (op.on L).Legal ops

/-- Static queues are zero, which is empty; the others wait for `Q_init`.
Source: `libpi/libc/Q.h` `Q_init`
Kind: D -/
def Lists.Initial (L : Lists K E) (m : Heap K E) : Prop :=
  ∀ k, L k = none ∨ L k = some [] ∧ m.queue k = qInit

end

/-- The memory holds the lists. Source: `libpi/libc/Q.h`. Kind: D -/
structure Refines (m : Heap K E) (L : Lists K E) : Prop where
  holds : ∀ k xs, L k = some xs → Holds m.next (m.queue k) xs
  disjoint : ∀ k l xs ys, k ≠ l → L k = some xs → L l = some ys → xs.Disjoint ys

section

variable [DecidableEq K] {m : Heap K E} {L : Lists K E} {k : K}

/-- One queue has changed, and no link of an element of another one.
Source: `libpi/libc/Q.h`
Kind: P -/
theorem Refines.set (h : Refines m L) {r : Links E × Q E} (hr : Holds r.1 r.2 ys)
    (hother : ∀ l zs, l ≠ k → L l = some zs → (∀ z ∈ zs, r.1 z = m.next z) ∧ ys.Disjoint zs) :
    Refines (m.set k r) (Function.update L k (some ys)) := by
  constructor
  · intro l zs hl
    by_cases hlk : l = k
    · subst hlk
      obtain rfl : ys = zs := by simpa using hl
      simpa [Heap.set] using hr
    · rw [Function.update_of_ne hlk] at hl
      have hholds := (h.holds l zs hl).congr (hother l zs hlk hl).1
      simpa [Heap.set, Function.update_of_ne hlk] using hholds
  · intro l l' zs zs' hne hl hl'
    by_cases hlk : l = k
    · subst hlk
      obtain rfl : ys = zs := by simpa using hl
      rw [Function.update_of_ne (Ne.symm hne)] at hl'
      exact (hother l' zs' (Ne.symm hne) hl').2
    · rw [Function.update_of_ne hlk] at hl
      by_cases hlk' : l' = k
      · subst hlk'
        obtain rfl : ys = zs' := by simpa using hl'
        exact fun z hz hy => (hother l zs hlk hl).2 hy hz
      · rw [Function.update_of_ne hlk'] at hl'
        exact h.disjoint l l' zs zs' hne hl hl'

/-- A new element went into one queue. Source: `libpi/libc/Q.h` `Q_append`, `Q_push`. Kind: L -/
theorem Refines.insert (h : Refines m L) (hk : L k = some xs) (hfree : L.Free e)
    {r : Links E × Q E} (hr : Holds r.1 r.2 ys ∧ ∀ y, y ≠ e → y ∉ xs → r.1 y = m.next y)
    (hys : ∀ y, y ∈ ys → y = e ∨ y ∈ xs) :
    Refines (m.set k r) (Function.update L k (some ys)) := by
  refine h.set hr.1 fun l zs hlk hl => ⟨fun z hz => hr.2 z ?_ ?_, fun y hy hz => ?_⟩
  · rintro rfl
    exact hfree l zs hl hz
  · exact fun hx => h.disjoint l k zs xs hlk hl hk hz hx
  · rcases hys y hy with rfl | hx
    · exact hfree l zs hl hz
    · exact h.disjoint l k zs xs hlk hl hk hz hx

/-- Elements left one queue. Source: `libpi/libc/Q.h` `Q_pop`, `Q_init`. Kind: L -/
theorem Refines.remove (h : Refines m L) {r : Q E} (hr : Holds m.next r ys)
    (hys : ys = [] ∨ ∃ xs, L k = some xs ∧ ys ⊆ xs) :
    Refines (m.set k (m.next, r)) (Function.update L k (some ys)) := by
  refine h.set hr fun l zs hlk hl => ⟨fun _ _ => rfl, fun y hy hz => ?_⟩
  rcases hys with rfl | ⟨xs, hk, hsub⟩
  · simp at hy
  · exact h.disjoint l k zs xs hlk hl hk hz (hsub hy)

variable [DecidableEq E]

/-- **One operation.** Source: `libpi/libc/Q.h`. Kind: P -/
theorem Refines.step (h : Refines m L) {op : Op K E} (hop : op.Legal L) :
    ∃ m', m.step op = .ok (op.result L, m') ∧ Refines m' (op.on L) := by
  cases op with
  | init q => exact ⟨_, rfl, h.remove (holds_qInit m.next) (.inl rfl)⟩
  | append q e =>
      obtain ⟨⟨xs, hq⟩, hfree⟩ := hop
      refine ⟨_, rfl, ?_⟩
      rw [Op.on, hq, Option.map_some]
      refine h.insert hq hfree ((h.holds q xs hq).append (hfree q xs hq)) fun y hy => ?_
      simpa [or_comm] using hy
  | push q e =>
      obtain ⟨⟨xs, hq⟩, hfree⟩ := hop
      refine ⟨_, rfl, ?_⟩
      rw [Op.on, hq, Option.map_some]
      exact h.insert hq hfree ((h.holds q xs hq).push (hfree q xs hq)) fun y => List.mem_cons.mp
  | pop q =>
      obtain ⟨xs, hq⟩ := hop
      obtain ⟨r, hpop, hr⟩ := (h.holds q xs hq).pop
      refine ⟨m.set q (m.next, r), by simp [Heap.step, Op.result, hpop, hq], ?_⟩
      rw [Op.on, hq, Option.map_some]
      exact h.remove hr (.inr ⟨xs, hq, fun _ => List.mem_of_mem_tail⟩)
  | insertAfter q e eNew =>
      obtain ⟨⟨xs, hq, he⟩, hfree⟩ := hop
      have hnew := hfree q xs hq
      refine ⟨_, rfl, ?_⟩
      cases e with
      | none =>
          rw [Op.on, hq, Option.map_some]
          exact h.insert hq hfree ((h.holds q xs hq).push hnew) fun y => List.mem_cons.mp
      | some e =>
          have hmem : e ∈ xs := he e rfl
          rw [Op.on, hq, Option.map_some]
          exact h.insert hq hfree ((h.holds q xs hq).insertAfter hmem hnew)
            fun y => (mem_insertAfter hmem).mp

/-- **A run.** Source: `libpi/libc/Q.h`. Kind: P -/
theorem Refines.run (h : Refines m L) {ops : List (Op K E)} (hops : L.Legal ops) :
    ∃ m', m.run ops = .ok (L.results ops, m') ∧ Refines m' (L.run ops) := by
  induction ops generalizing m L with
  | nil => exact ⟨m, rfl, h⟩
  | cons op ops ih =>
      obtain ⟨m₁, hstep, h₁⟩ := h.step hops.1
      obtain ⟨m₂, hrun, h₂⟩ := ih h₁ hops.2
      refine ⟨m₂, ?_, h₂⟩
      rw [Heap.run, hstep, ok_bind]
      dsimp only
      rw [hrun]
      rfl

/-- A chain of elements at addresses of their own is shorter than the count can tell.
Source: `libpi/libc/Q.h` `Q_nelem`
Kind: L -/
theorem length_lt_of_nodup {E : Type} [Element E] {xs : List E} (h : xs.Nodup) :
    xs.length < 2 ^ 32 := by
  let at' : E → Fin (2 ^ 32) := fun e => (Element.addr e).toFin
  have hinj : Function.Injective at' :=
    fun a b hab => Element.addr_injective (UInt32.toFin_inj.mp hab)
  have hnull : (0 : Fin (2 ^ 32)) ∉ xs.map at' := by
    intro hmem
    obtain ⟨e, -, he⟩ := List.mem_map.mp hmem
    exact Element.addr_ne_null e (UInt32.toFin_inj.mp he)
  have hlen := (List.nodup_cons.mpr ⟨hnull, h.map hinj⟩).length_le_card
  rw [List.length_cons, List.length_map, Fintype.card_fin] at hlen
  omega

/-- **Queues are lists.** Whatever is done to them, no check of the code fails, what comes off is
what comes off the lists, and the chains, tails and counts are those of the lists.
Source: `libpi/libc/Q.h` `Q_empty`, `Q_pop`, `Q_append`, `Q_push`, `Q_init`, `Q_insert_after`
Kind: P -/
theorem queues_refine_lists [Element E] (m : Heap K E) (L : Lists K E) (ops : List (Op K E))
    (hstart : L.Initial m) (hops : L.Legal ops) :
    ∃ m', m.run ops = .ok (L.results ops, m') ∧
      (∀ k xs, L.run ops k = some xs →
        Chain m'.next (m'.queue k).head xs ∧
        (m'.queue k).cnt.toNat = xs.length ∧
        (m'.queue k).tail = xs.getLast? ∧
        ((m'.queue k).tail = none ↔ xs = []) ∧
        qEmpty (m'.queue k) = .ok xs.isEmpty) ∧
      ∀ k l xs ys, k ≠ l → L.run ops k = some xs → L.run ops l = some ys → xs.Disjoint ys := by
  have hrefines : Refines m L := by
    constructor
    · intro k xs hk
      rcases hstart k with hnone | ⟨hsome, hq⟩
      · rw [hnone] at hk
        cases hk
      · obtain rfl : [] = xs := by simpa [hsome] using hk
        rw [hq]
        exact holds_qInit m.next
    · intro k l xs ys _ hk _ x hx
      rcases hstart k with hnone | ⟨hsome, -⟩
      · rw [hnone] at hk
        cases hk
      · obtain rfl : [] = xs := by simpa [hsome] using hk
        simp at hx
  obtain ⟨m', hrun, hm'⟩ := hrefines.run hops
  refine ⟨m', hrun, fun k xs hk => ?_, hm'.disjoint⟩
  have hholds := hm'.holds k xs hk
  refine ⟨hholds.chain, ?_, hholds.tail, ?_, hholds.qEmpty_eq⟩
  · rw [hholds.cnt, UInt32.toNat_ofNat_of_lt' (length_lt_of_nodup hholds.chain.nodup)]
  · rw [hholds.tail, List.getLast?_eq_none_iff]

end

/-- The addresses but null. Source: `libpi/libc/Q.h` `E`. Kind: D -/
abbrev Address := { p : UInt32 // p ≠ 0 }

instance : Element Address where
  addr := Subtype.val
  addr_injective := Subtype.val_injective
  addr_ne_null := Subtype.property

/-- An element goes through two queues and gets a successor. Source: `libpi/libc/Q.h`. Kind: P -/
theorem queues_refine_lists_two :
    ∃ m', (⟨fun _ => none, fun _ => qInit⟩ : Heap Bool Address).run
        [.init false, .push false ⟨16, by decide⟩, .pop false, .append true ⟨16, by decide⟩,
          .insertAfter true (some ⟨16, by decide⟩) ⟨32, by decide⟩] =
        .ok ([none, none, some ⟨16, by decide⟩, none, none], m') ∧
      (∀ k xs, (fun k => some (if k then [⟨16, by decide⟩, ⟨32, by decide⟩] else []) :
          Lists Bool Address) k = some xs →
        Chain m'.next (m'.queue k).head xs ∧
        (m'.queue k).cnt.toNat = xs.length ∧
        (m'.queue k).tail = xs.getLast? ∧
        ((m'.queue k).tail = none ↔ xs = []) ∧
        qEmpty (m'.queue k) = .ok xs.isEmpty) := by
  have hlegal : Lists.Legal (fun k => if k then some [] else none : Lists Bool Address)
      [.init false, .push false ⟨16, by decide⟩, .pop false, .append true ⟨16, by decide⟩,
        .insertAfter true (some ⟨16, by decide⟩) ⟨32, by decide⟩] := by
    simp [Lists.Legal, Op.Legal, Op.on, Lists.Free]
  obtain ⟨m', hrun, hspelled, -⟩ := queues_refine_lists
    (⟨fun _ => none, fun _ => qInit⟩ : Heap Bool Address) _ _
    (fun k => by cases k <;> simp) hlegal
  refine ⟨m', hrun, fun k xs hk => hspelled k xs ?_⟩
  rw [← hk]
  cases k <;> rfl

end Cs140e.Libpi.Queue
