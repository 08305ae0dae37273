import Cs140e.Stop
import Mathlib.Data.Finset.Card
import Mathlib.Data.List.Basic

/-!
# Fake device memory

`libpi-fake` runs a driver on Unix: `PUT32` and `GET32` act on a table of addresses and values, and
print a trace that is compared between programs. Reading an address that the table does not have
draws a random value for it.

* `MemT`, `memLookup`, `memInsert` — the table of `fake-mem.h`, of at most `memMax` entries.
* `PUT32`, `GET32` — the accesses, for any source of random numbers; `put32` and `get32` take them from
  a stream `rnd` and keep the trace, in the state `Fake`.
* `contents h a` — what a memory with sticky initial contents holds at `a` after the accesses `h`.
* `Sticky s` — the table is that memory, for the accesses traced so far. `put32_sticky` and
  `get32_sticky` are the steps; `run_sticky` is the run.
-/

namespace Cs140e.LibpiFake

/-! ## The table -/

/-- Source: `fake-mem.h` `mem_ent_t`. Kind: D -/
structure MemEnt where
  addr : UInt32
  val : UInt32
  deriving DecidableEq, Repr

/-- Source: `fake-mem.h` `MEM_MAX`. Kind: D -/
def memMax : Nat := 128

/-- The first `n` entries of the array. Source: `fake-mem.h` `mem_t`. Kind: D -/
structure MemT where
  ents : List MemEnt
  le : ents.length ≤ memMax

/-- The first entry of `addr`. Source: `fake-mem.h` `mem_lookup`. Kind: D -/
def memLookup (m : MemT) (addr : UInt32) : Option (Fin m.ents.length) :=
  m.ents.findFinIdx? (·.addr == addr)

/-- Source: `fake-mem.h` `mem_insert`. Kind: D -/
def memInsert (m : MemT) (addr val : UInt32) : Except Stop MemT :=
  if h : m.ents.length < memMax then
    if (memLookup m addr).isNone then
      return ⟨m.ents ++ [⟨addr, val⟩], by rw [List.length_append]; exact h⟩
    else
      throw (.assert "!mem_lookup(m, addr)")
  else
    throw (.assert "m->n < MEM_MAX")

/-- `m->val = v` for the entry at `i`. Source: `fake-put-get.c` `PUT32`. Kind: D -/
def MemT.setVal (m : MemT) (i : Fin m.ents.length) (v : UInt32) : MemT :=
  ⟨m.ents.set i { m.ents[i] with val := v }, by rw [List.length_set]; exact m.le⟩

/-- The value that the table has for an address. Source: `fake-mem.h` `mem_lookup`. Kind: D -/
def MemT.val? (m : MemT) (addr : UInt32) : Option UInt32 :=
  (m.ents.find? (·.addr == addr)).map (·.val)

/-- The addresses of the table. Source: `fake-mem.h` `mem_t`. Kind: D -/
def MemT.addrs (m : MemT) : List UInt32 := m.ents.map (·.addr)

section

variable {m : MemT} {a b v : UInt32}

/-- Source: `fake-mem.h` `mem_lookup`. Kind: L -/
theorem memLookup_none_iff : memLookup m a = none ↔ a ∉ m.addrs := by
  simp [memLookup, MemT.addrs]

/-- An address that is not in the table has no value. Source: `fake-mem.h` `mem_lookup`. Kind: L -/
theorem val?_of_none (h : memLookup m a = none) : m.val? a = none := by
  rw [MemT.val?, List.find?_eq_map_findFinIdx?_getElem, ← memLookup, h]
  rfl

/-- What a lookup points at. Source: `fake-mem.h` `mem_lookup`. Kind: L -/
theorem val?_of_some {i : Fin m.ents.length} (h : memLookup m a = some i) :
    m.val? a = some m.ents[i].val ∧ m.ents[i].addr = a := by
  constructor
  · rw [MemT.val?, List.find?_eq_map_findFinIdx?_getElem, ← memLookup, h]
    rfl
  · simpa using (List.findFinIdx?_eq_some_iff.mp h).1

/-- Changing the value of the first entry of `a` changes what is found for `a`.
Source: `fake-put-get.c` `PUT32`. Kind: L -/
theorem find?_set_first {l : List MemEnt} {i : Fin l.length}
    (h : l.findFinIdx? (·.addr == a) = some i) :
    (l.set i { l[i] with val := v }).find? (·.addr == b) =
      if b = a then some ⟨a, v⟩ else l.find? (·.addr == b) := by
  induction l with
  | nil => exact i.elim0
  | cons e l ih =>
      rw [List.findFinIdx?_cons] at h
      by_cases he : e.addr = a
      · obtain rfl : 0 = i := by simpa [he] using h
        by_cases hab : b = a
        · simp [he, hab]
        · simp [he, hab, Ne.symm hab]
      · obtain ⟨j, hj, rfl⟩ : ∃ j, l.findFinIdx? (·.addr == a) = some j ∧ Fin.succ j = i := by
          simpa [he] using h
        have hrest := ih hj
        by_cases heb : e.addr = b
        · have hab : b ≠ a := fun h => he (heb.trans h)
          simp [heb, hab]
        · simpa [heb] using hrest

/-- The values after a store to an entry. Source: `fake-put-get.c` `PUT32`. Kind: L -/
theorem val?_setVal {i : Fin m.ents.length} (h : memLookup m a = some i) :
    (m.setVal i v).val? b = if b = a then some v else m.val? b := by
  unfold MemT.val? MemT.setVal
  rw [find?_set_first h]
  split <;> rfl

/-- A store to an entry keeps the addresses. Source: `fake-put-get.c` `PUT32`. Kind: L -/
theorem addrs_setVal (i : Fin m.ents.length) : (m.setVal i v).addrs = m.addrs := by
  unfold MemT.addrs MemT.setVal
  have hi : i.val < (m.ents.map (·.addr)).length := by simp
  have hget : m.ents[i].addr = (m.ents.map (·.addr))[i.val] := by simp
  rw [List.map_set]
  show (m.ents.map (·.addr)).set i.val m.ents[i].addr = _
  rw [hget, List.set_getElem_self]

/-- An insertion of a new address into a table with room passes both assertions.
Source: `fake-mem.h` `mem_insert`
Kind: P -/
theorem memInsert_eq (hroom : m.ents.length < memMax) (hnew : a ∉ m.addrs) :
    ∃ m', memInsert m a v = .ok m' ∧ m'.addrs = m.addrs ++ [a] ∧
      ∀ b, m'.val? b = if b = a then some v else m.val? b := by
  have hlook := memLookup_none_iff.mpr hnew
  refine ⟨⟨m.ents ++ [⟨a, v⟩], by rw [List.length_append]; exact hroom⟩, ?_, ?_, fun b => ?_⟩
  · rw [memInsert, dif_pos hroom, hlook]
    rfl
  · simp [MemT.addrs]
  · have hval := val?_of_none hlook
    unfold MemT.val? at hval ⊢
    rw [List.find?_append]
    by_cases hab : b = a
    · subst hab
      rw [Option.map_eq_none_iff] at hval
      simp [hval]
    · simp [hab, Ne.symm hab]

end

/-! ## The accesses -/

/-- Source: `fake-put-get.c` `gpio_lev0`. Kind: D -/
def gpioLev0 : UInt32 := 0x20200034

/-- Source: `fake-put-get.c` `uart_mu_stat_reg`. Kind: D -/
def uartMuStatReg : UInt32 := 0x20215064

/-- Source: `fake-put-get.c` `uart_lsr_reg`. Kind: D -/
def uartLsrReg : UInt32 := 0x20215054

/-- The cases of the switch that bypass the table. Source: `fake-put-get.c` `GET32`. Kind: D -/
def changing (addr : UInt32) : Bool :=
  addr == uartMuStatReg || addr == uartLsrReg || addr == gpioLev0

/-- A line of the trace. Source: `fake-put-get.c` `trace("PUT32:%x:%x\n", addr,v)`. Kind: D -/
inductive Access where
  | put (addr v : UInt32)
  | get (addr v : UInt32)
  deriving DecidableEq, Repr

/-- The device memory, and a source of random numbers.
Source: `fake-put-get.c` `fake_mem`; `fake-random.c`
Kind: D -/
structure Statics (σ : Type) where
  mem : MemT
  random : σ

/-- The device memory after the call. Source: `fake-put-get.c` `PUT32`. Kind: D -/
def PUT32 (addr v : UInt32) (m : MemT) : Except Stop MemT := do
  if addr == gpioLev0 then throw (.panic "illegal write to gpio_lev0!\n" [])
  match memLookup m addr with
  | some i => return m.setVal i v
  | none => memInsert m addr v

/-- `draw` is a call of `fake_random`. Source: `fake-put-get.c` `GET32`. Kind: D -/
def GET32 {σ : Type} (draw : σ → Except Stop (UInt32 × σ)) (addr : UInt32) (s : Statics σ) :
    Except Stop (UInt32 × Statics σ) := do
  if changing addr then
    let r ← draw s.random
    return (r.1, { s with random := r.2 })
  else match memLookup s.mem addr with
    | some i => return (s.mem.ents[i].val, s)
    | none =>
      let r ← draw s.random
      let mem ← memInsert s.mem addr r.1
      return (r.1, ⟨mem, r.2⟩)

/-- The state of the fake system. Source: `fake-put-get.c` `fake_mem`, `trace`; `fake-random.c`.
Kind: D -/
structure Fake where
  mem : MemT
  /-- How many values `fake_random` has returned. -/
  drawn : Nat
  /-- The trace printed so far. -/
  trace : List Access

/-- Source: `fake-put-get.c` `fake_mem`. Kind: D -/
def Fake.init : Fake := { mem := ⟨[], Nat.zero_le _⟩, drawn := 0, trace := [] }

/-- Source: `fake-put-get.c` `PUT32`. Kind: D -/
def put32 (addr v : UInt32) (s : Fake) : Except Stop Fake := do
  let mem ← PUT32 addr v s.mem
  return { s with mem, trace := s.trace ++ [.put addr v] }

section

variable (rnd : Nat → UInt32)

/-- The next value of the stream. Source: `fake-random.c` `fake_random`. Kind: D -/
def fakeRandom (drawn : Nat) : Except Stop (UInt32 × Nat) := .ok (rnd drawn, drawn + 1)

/-- Source: `fake-put-get.c` `GET32`. Kind: D -/
def get32 (addr : UInt32) (s : Fake) : Except Stop (UInt32 × Fake) := do
  let r ← GET32 (fakeRandom rnd) addr ⟨s.mem, s.drawn⟩
  return (r.1, ⟨r.2.mem, r.2.random, s.trace ++ [.get addr r.1]⟩)

/-- A call of the driver under test. Source: `fake-put-get.c` `PUT32`, `GET32`. Kind: D -/
inductive Call where
  | put (addr v : UInt32)
  | get (addr : UInt32)
  deriving DecidableEq, Repr

/-- Source: `fake-put-get.c` `PUT32`, `GET32`. Kind: D -/
def Call.addr : Call → UInt32
  | .put a _ => a
  | .get a => a

/-- One call. Source: `fake-put-get.c` `PUT32`, `GET32`. Kind: D -/
def step (s : Fake) : Call → Except Stop Fake
  | .put a v => put32 a v s
  | .get a => do
    let (_, s) ← get32 rnd a s
    return s

/-- A sequence of calls, from the start. Source: `fake-put-get.c` `PUT32`, `GET32`. Kind: D -/
def run (calls : List Call) : Except Stop Fake := calls.foldlM (step rnd) Fake.init

end

/-! ## A memory with sticky initial contents -/

/-- The value a line of the trace put to `a`. Source: `fake-put-get.c` `PUT32`. Kind: D -/
def Access.putTo? (a : UInt32) : Access → Option UInt32
  | .put b v => if b = a then some v else none
  | .get _ _ => none

/-- The value a line of the trace got from `a`. Source: `fake-put-get.c` `GET32`. Kind: D -/
def Access.gotFrom? (a : UInt32) : Access → Option UInt32
  | .put _ _ => none
  | .get b v => if b = a then some v else none

/-- The call behind a line of the trace. Source: `fake-put-get.c` `trace`. Kind: D -/
def Access.call : Access → Call
  | .put a v => .put a v
  | .get a _ => .get a

/-- The value of the last `PUT32` to `a`. Source: `fake-put-get.c` "return the value of the last
write". Kind: D -/
def lastPut (h : List Access) (a : UInt32) : Option UInt32 := (h.filterMap (·.putTo? a)).getLast?

/-- The value that the first `GET32` of `a` returned. Source: `fake-put-get.c` `GET32`. Kind: D -/
def firstGet (h : List Access) (a : UInt32) : Option UInt32 := (h.filterMap (·.gotFrom? a)).head?

/-- What the memory holds at `a` after the accesses `h`, if that is determined: the last value put,
else the value the first read came up with.
Source: `fake-put-get.c` "most <addr> we treat as normal memory"
Kind: D -/
def contents (h : List Access) (a : UInt32) : Option UInt32 :=
  (lastPut h a).or (if changing a then none else firstGet h a)

variable {h : List Access} {a b v : UInt32}

/-- Source: `fake-put-get.c` `PUT32`. Kind: L -/
theorem lastPut_concat (x : Access) : lastPut (h ++ [x]) a = (x.putTo? a).or (lastPut h a) := by
  unfold lastPut
  rw [List.filterMap_append, List.getLast?_append]
  cases hx : x.putTo? a <;> simp [hx]

/-- Source: `fake-put-get.c` `GET32`. Kind: L -/
theorem firstGet_concat (x : Access) : firstGet (h ++ [x]) a = (firstGet h a).or (x.gotFrom? a) := by
  unfold firstGet
  rw [List.filterMap_append, List.head?_append]
  cases hx : x.gotFrom? a <;> simp [hx]

/-- A put determines its address only. Source: `fake-put-get.c` `PUT32`. Kind: L -/
theorem contents_put : contents (h ++ [.put a v]) b = if b = a then some v else contents h b := by
  rw [contents, lastPut_concat, firstGet_concat]
  by_cases hab : b = a
  · simp [Access.putTo?, hab]
  · simp [Access.putTo?, Access.gotFrom?, Ne.symm hab, hab, contents]

/-- Reading what is determined changes nothing. Source: `fake-put-get.c` `GET32`. Kind: L -/
theorem contents_get_of_some (hc : contents h a = some v) :
    contents (h ++ [.get a v]) b = contents h b := by
  rw [contents, lastPut_concat, firstGet_concat]
  by_cases hab : b = a
  · subst hab
    unfold contents at hc ⊢
    cases hp : lastPut h b with
    | some w => simp [Access.putTo?]
    | none =>
        rw [hp] at hc
        by_cases hch : changing b = true
        · simp [hch] at hc
        · simp only [hch] at hc
          simp_all [Access.putTo?]
  · simp [Access.putTo?, Access.gotFrom?, Ne.symm hab, contents]

/-- The first read determines its address. Source: `fake-put-get.c` `GET32`. Kind: L -/
theorem contents_get_of_none (hch : changing a = false) (hc : contents h a = none) :
    contents (h ++ [.get a v]) b = if b = a then some v else contents h b := by
  rw [contents, lastPut_concat, firstGet_concat]
  by_cases hab : b = a
  · subst hab
    rw [contents, hch] at hc
    simp only [Bool.false_eq_true, if_false, Option.or_eq_none_iff] at hc
    simp [Access.putTo?, Access.gotFrom?, hch, hc]
  · simp [Access.putTo?, Access.gotFrom?, Ne.symm hab, hab, contents]

/-- Reading a changing register determines nothing. Source: `fake-put-get.c` `GET32`. Kind: L -/
theorem contents_get_changing (hch : changing a = true) :
    contents (h ++ [.get a v]) b = contents h b := by
  rw [contents, lastPut_concat, firstGet_concat]
  by_cases hab : b = a
  · subst hab
    simp [Access.putTo?, hch, contents]
  · simp [Access.putTo?, Access.gotFrom?, Ne.symm hab, contents]

/-- Only what was accessed is determined. Source: `fake-put-get.c` `PUT32`, `GET32`. Kind: L -/
theorem mem_of_contents (hc : contents h a ≠ none) : a ∈ h.map (·.call.addr) := by
  induction h using List.reverseRecOn with
  | nil => simp [contents, lastPut, firstGet] at hc
  | append_singleton h x ih =>
      rw [List.map_append, List.mem_append]
      by_cases hx : x.call.addr = a
      · exact .inr (by simp [hx])
      · refine .inl (ih ?_)
        cases x with
        | put b v =>
            rw [contents_put] at hc
            rwa [if_neg (fun h => hx h.symm)] at hc
        | get b v =>
            have hb : b ≠ a := hx
            rw [contents, lastPut_concat, firstGet_concat] at hc
            simpa [Access.putTo?, Access.gotFrom?, hb, contents] using hc

/-! ## The steps -/

/-- The table has what the memory holds after the accesses traced so far, once.
Source: `fake-mem.h` `mem_t`; `fake-put-get.c` `fake_mem`
Kind: D -/
structure Sticky (s : Fake) : Prop where
  nodup : s.mem.addrs.Nodup
  holds : ∀ a, s.mem.val? a = contents s.trace a

/-- Source: `fake-put-get.c` `fake_mem`. Kind: L -/
theorem sticky_init : Sticky Fake.init where
  nodup := List.nodup_nil
  holds _ := by simp [Fake.init, MemT.val?, contents, lastPut, firstGet]

variable {s : Fake}

/-- An entry was accessed. Source: `fake-mem.h` `mem_insert`. Kind: L -/
theorem Sticky.addrs_subset (h : Sticky s) : s.mem.addrs ⊆ s.trace.map (·.call.addr) := by
  intro a ha
  apply mem_of_contents
  rw [← h.holds a]
  intro hnone
  rw [MemT.val?, Option.map_eq_none_iff, List.find?_eq_none] at hnone
  obtain ⟨e, he, rfl⟩ := List.mem_map.mp ha
  exact hnone e he (by simp)

/-- More addresses, more distinct ones. Source: none: infrastructure. Kind: L -/
theorem toFinset_subset_of_subset {l l' : List UInt32} (h : l ⊆ l') : l.toFinset ⊆ l'.toFinset :=
  fun _ ha => List.mem_toFinset.mpr (h (List.mem_toFinset.mp ha))

/-- The table has room for a new address, while no more than `memMax` are accessed.
Source: `fake-mem.h` `mem_insert`. Kind: L -/
theorem Sticky.room (h : Sticky s) {a : UInt32} (hnew : a ∉ s.mem.addrs)
    (hcard : (a :: s.trace.map (·.call.addr)).toFinset.card ≤ memMax) :
    s.mem.ents.length < memMax := by
  have hnodup : (a :: s.mem.addrs).Nodup := List.nodup_cons.mpr ⟨hnew, h.nodup⟩
  have hsub : (a :: s.mem.addrs).toFinset ⊆ (a :: s.trace.map (·.call.addr)).toFinset :=
    toFinset_subset_of_subset (List.cons_subset_cons a h.addrs_subset)
  have hle := (Finset.card_le_card hsub).trans hcard
  rw [List.toFinset_card_of_nodup hnodup, List.length_cons, MemT.addrs, List.length_map] at hle
  exact hle

/-- **A `PUT32`.** Source: `fake-put-get.c` `PUT32`. Kind: P -/
theorem put32_sticky (h : Sticky s) (a v : UInt32) (ha : a ≠ gpioLev0)
    (hcard : (a :: s.trace.map (·.call.addr)).toFinset.card ≤ memMax) :
    ∃ s', put32 a v s = .ok s' ∧ Sticky s' ∧ s'.trace = s.trace ++ [.put a v] := by
  have hlev : (a == gpioLev0) = false := by simpa using ha
  cases hlook : memLookup s.mem a with
  | some i =>
      refine ⟨{ s with mem := s.mem.setVal i v, trace := s.trace ++ [.put a v] }, ?_, ⟨?_, ?_⟩, rfl⟩
      · simp [put32, PUT32, hlev, hlook]
      · rw [addrs_setVal]
        exact h.nodup
      · intro b
        rw [val?_setVal hlook, contents_put, h.holds]
  | none =>
      have hnew := memLookup_none_iff.mp hlook
      obtain ⟨m', hm', haddrs, hval⟩ := memInsert_eq (v := v) (h.room hnew hcard) hnew
      refine ⟨{ s with mem := m', trace := s.trace ++ [.put a v] }, ?_, ⟨?_, ?_⟩, rfl⟩
      · simp [put32, PUT32, hlev, hlook, hm']
      · rw [haddrs]
        exact List.concat_eq_append ▸ h.nodup.concat hnew
      · intro b
        rw [hval, contents_put, h.holds]

/-- A `GET32` of a changing register returns the next random value, and leaves the table.
Source: `fake-put-get.c` `GET32`
Kind: L -/
theorem get32_changing (rnd : Nat → UInt32) (s : Fake) {a : UInt32} (ha : changing a = true) :
    get32 rnd a s = .ok (rnd s.drawn,
      { s with drawn := s.drawn + 1, trace := s.trace ++ [.get a (rnd s.drawn)] }) := by
  simp [get32, GET32, ha, fakeRandom]

/-- **A `GET32`** of any other address returns what the memory holds there from now on.
Source: `fake-put-get.c` `GET32`
Kind: P -/
theorem get32_sticky (rnd : Nat → UInt32) (h : Sticky s) {a : UInt32} (ha : changing a = false)
    (hcard : (a :: s.trace.map (·.call.addr)).toFinset.card ≤ memMax) :
    ∃ v s', get32 rnd a s = .ok (v, s') ∧ Sticky s' ∧ s'.trace = s.trace ++ [.get a v] ∧
      contents s'.trace a = some v := by
  cases hlook : memLookup s.mem a with
  | some i =>
      have hval := (val?_of_some hlook).1
      rw [h.holds] at hval
      refine ⟨s.mem.ents[i].val, { s with trace := s.trace ++ [.get a s.mem.ents[i].val] }, ?_,
        ⟨h.nodup, ?_⟩, rfl, ?_⟩
      · simp [get32, GET32, ha, hlook]
      · intro b
        rw [contents_get_of_some hval]
        exact h.holds b
      · rw [contents_get_of_some hval, hval]
  | none =>
      have hnew := memLookup_none_iff.mp hlook
      have hval := val?_of_none hlook
      rw [h.holds] at hval
      obtain ⟨m', hm', haddrs, hmval⟩ :=
        memInsert_eq (v := rnd s.drawn) (h.room hnew hcard) hnew
      refine ⟨rnd s.drawn, ⟨m', s.drawn + 1, s.trace ++ [.get a (rnd s.drawn)]⟩, ?_, ⟨?_, ?_⟩, rfl,
        ?_⟩
      · simp [get32, GET32, ha, hlook, fakeRandom, hm']
      · rw [haddrs]
        exact List.concat_eq_append ▸ h.nodup.concat hnew
      · intro b
        rw [hmval, contents_get_of_none ha hval, h.holds]
      · rw [contents_get_of_none ha hval, if_pos rfl]

/-! ## Whole runs -/

/-- The addresses that a sequence of calls touches. Source: none: infrastructure. Kind: D -/
def touched (calls : List Call) : Finset UInt32 := (calls.map Call.addr).toFinset

/-- What the call `c` does in the state `s`, the trace line `x` that it prints and the state `s'`
that it leaves. The value in the line of a `GET32` is the one that it returns.
Source: `fake-put-get.c` `PUT32`, `GET32`. Kind: D -/
structure StepOk (rnd : Nat → UInt32) (s : Fake) (c : Call) (x : Access) (s' : Fake) : Prop where
  runs : step rnd s c = .ok s'
  trace : s'.trace = s.trace ++ [x]
  call : x.call = c
  nodup : s'.mem.addrs.Nodup
  returns : ∀ a v, x = .get a v → get32 rnd a s = .ok (v, s')
  /-- A normal read returns the last value put, or else what the first read returned. -/
  normal : ∀ a v, x = .get a v → changing a = false →
    (lastPut s.trace a).or (firstGet s'.trace a) = some v
  /-- The three changing registers return the next value of the stream. -/
  fresh : ∀ a v, x = .get a v → changing a = true →
    v = rnd s.drawn ∧ s'.drawn = s.drawn + 1 ∧ s'.mem = s.mem

/-- One call of a run. Source: `fake-put-get.c` `PUT32`, `GET32`. Kind: L -/
theorem step_ok (rnd : Nat → UInt32) (h : Sticky s) {c : Call} (hc : ∀ v, c ≠ .put gpioLev0 v)
    (hcard : (c.addr :: s.trace.map (·.call.addr)).toFinset.card ≤ memMax) :
    ∃ x s', StepOk rnd s c x s' ∧ Sticky s' := by
  cases c with
  | put a v =>
      have ha : a ≠ gpioLev0 := by
        rintro rfl
        exact hc v rfl
      obtain ⟨s', hrun, hs', htrace⟩ := put32_sticky h a v ha hcard
      exact ⟨.put a v, s', ⟨hrun, htrace, rfl, hs'.nodup, nofun, nofun, nofun⟩, hs'⟩
  | get a =>
      cases ha : changing a with
      | true =>
          have hrun := get32_changing rnd s ha
          have hs' : Sticky { s with
              drawn := s.drawn + 1, trace := s.trace ++ [.get a (rnd s.drawn)] } :=
            ⟨h.nodup, fun b => by rw [contents_get_changing ha]; exact h.holds b⟩
          refine ⟨.get a (rnd s.drawn), _, ⟨?_, rfl, rfl, hs'.nodup, ?_, ?_, ?_⟩, hs'⟩
          · simp [step, hrun]
          · rintro b v ⟨⟩
            exact hrun
          · rintro b v ⟨⟩ hb
            simp [ha] at hb
          · rintro b v ⟨⟩ -
            exact ⟨rfl, rfl, rfl⟩
      | false =>
          obtain ⟨v, s', hrun, hs', htrace, hv⟩ := get32_sticky rnd h ha hcard
          refine ⟨.get a v, s', ⟨?_, htrace, rfl, hs'.nodup, ?_, ?_, ?_⟩, hs'⟩
          · simp [step, hrun]
          · rintro b w ⟨⟩
            exact hrun
          · rintro b w ⟨⟩ -
            rw [contents, htrace, lastPut_concat, ha] at hv
            rw [htrace]
            simpa [Access.putTo?] using hv
          · rintro b w ⟨⟩ hb
            simp [ha] at hb

/-- The state after a run that touches few addresses. Source: `fake-put-get.c`. Kind: L -/
theorem run_ok (rnd : Nat → UInt32) {calls : List Call}
    (hlev : ∀ v, Call.put gpioLev0 v ∉ calls) (hcard : (touched calls).card ≤ memMax) :
    ∃ s, run rnd calls = .ok s ∧ Sticky s ∧ s.trace.map (·.call) = calls := by
  induction calls using List.reverseRecOn with
  | nil => exact ⟨Fake.init, rfl, sticky_init, rfl⟩
  | append_singleton calls c ih =>
      have hsub : touched calls ⊆ touched (calls ++ [c]) :=
        toFinset_subset_of_subset (List.map_subset _ (List.subset_append_left _ _))
      obtain ⟨s, hrun, hs, htrace⟩ := ih (fun v hv => hlev v (List.mem_append_left _ hv))
        ((Finset.card_le_card hsub).trans hcard)
      have haddr : (c.addr :: s.trace.map (·.call.addr)).toFinset = touched (calls ++ [c]) := by
        rw [touched, List.map_append, ← htrace, List.map_map]
        ext a
        simp
      obtain ⟨x, s', hstep, hs'⟩ := step_ok rnd hs (c := c)
        (fun v hv => hlev v (by simp [hv])) (by rwa [haddr])
      refine ⟨s', ?_, hs', ?_⟩
      · rw [run, List.foldlM_append]
        rw [run] at hrun
        rw [hrun]
        simp [hstep.runs]
      · rw [hstep.trace, List.map_append, htrace]
        simp [hstep.call]

/-- **A run** that touches at most `memMax` addresses and never writes `gpio_lev0` completes, and
each of its calls does what it does on a memory with sticky initial contents.
Source: `fake-put-get.c` `PUT32`, `GET32`; `fake-mem.h` `mem_insert`
Kind: P -/
theorem run_sticky (rnd : Nat → UInt32) (calls : List Call)
    (hlev : ∀ v, Call.put gpioLev0 v ∉ calls) (hcard : (touched calls).card ≤ memMax) :
    (∃ s, run rnd calls = .ok s) ∧ ∀ pre c post, calls = pre ++ c :: post →
      ∃ s x s', run rnd pre = .ok s ∧ s.trace.map (·.call) = pre ∧ s.mem.addrs.Nodup ∧
        StepOk rnd s c x s' := by
  constructor
  · obtain ⟨s, hrun, -, -⟩ := run_ok rnd hlev hcard
    exact ⟨s, hrun⟩
  · rintro pre c post rfl
    have hpre : touched pre ⊆ touched (pre ++ c :: post) :=
      toFinset_subset_of_subset (List.map_subset _ (List.subset_append_left _ _))
    obtain ⟨s, hrun, hs, htrace⟩ := run_ok rnd (fun v hv => hlev v (List.mem_append_left _ hv))
      ((Finset.card_le_card hpre).trans hcard)
    have hmem : (c.addr :: s.trace.map (·.call.addr)).toFinset ⊆ touched (pre ++ c :: post) := by
      rw [touched, List.map_append, ← htrace, List.map_map]
      intro a ha
      simp only [List.toFinset_cons, Finset.mem_insert, List.mem_toFinset, List.toFinset_append,
        Finset.mem_union, List.map_cons] at ha ⊢
      rcases ha with rfl | ha
      · exact .inr (.inl rfl)
      · exact .inl ha
    obtain ⟨x, s', hstep, -⟩ := step_ok rnd hs (c := c) (fun v hv => hlev v (by simp [hv]))
      ((Finset.card_le_card hmem).trans hcard)
    exact ⟨s, x, s', hrun, htrace, hs.nodup, hstep⟩

/-- The theorem at a write, a read of it, a first read and a read of a changing register.
Source: `fake-put-get.c` `PUT32`, `GET32`. Kind: L -/
theorem run_sticky_four :
    (∃ s, run (fun i => UInt32.ofNat i) [.put 4 7, .get 4, .get 8, .get gpioLev0] = .ok s) ∧
      ∀ pre c post, [Call.put 4 7, .get 4, .get 8, .get gpioLev0] = pre ++ c :: post →
        ∃ s x s', run (fun i => UInt32.ofNat i) pre = .ok s ∧ s.trace.map (·.call) = pre ∧
          s.mem.addrs.Nodup ∧ StepOk (fun i => UInt32.ofNat i) s c x s' :=
  run_sticky _ _ (fun v => by simp [gpioLev0]) (by decide)

end Cs140e.LibpiFake
