import Cs140e.Lib.Lagged
import Mathlib.Data.Int.Basic

/-!
# The random numbers of the fake pi

`libpi-fake/pi-random.c`: additive generators over tables in arrays that the caller gives, and a linear
congruential one for small arrays.

* `Random` — the caller's `struct pi_random_data` and the arrays; `piRandomR`, `piSrandomR`,
  `piInitstateR`, `piSetstateR` as the code computes them.
* `Gen` — one generator on its own: its kind, its table, and the front place.
* `Current a g s` — the generator `g` is in the array `a`. `piRandomR_current`: a call is a step of it.
* `random_sequence` — the results are those of the recurrence.

A pointer is an array and a place in it, and pointers that are compared point into the same array.
Signed overflow of an `int32_t` is taken as wrapping, and a `long int` as 64 bits, which none of the values
leaves. The arguments are not `NULL`.
-/

namespace Cs140e.LibpiFake.PiRandom

open Cs140e.Lib Function

/-! ## The code -/

/-- Source: `pi-random.c` `int32_t *`. Kind: D -/
structure WordPtr where
  base : Nat
  place : Nat
  deriving DecidableEq

/-- `p + n`. Source: C, pointer arithmetic. Kind: D -/
def WordPtr.add (p : WordPtr) (n : Nat) : WordPtr := { p with place := p.place + n }

/-- Source: `pi-random.c` `MAX_TYPES`. Kind: D -/
def maxTypes : Nat := 5

/-- Source: `pi-random.c` `TYPE_0`. Kind: D -/
def type0 : Nat := 0

/-- Source: `pi-random.c` `random_poly_info.seps`. Kind: D -/
def seps (type : Nat) : Nat := [0, 3, 1, 3, 1].getD type 0

/-- Source: `pi-random.c` `random_poly_info.degrees`. Kind: D -/
def degrees (type : Nat) : Nat := [0, 7, 15, 31, 63].getD type 0

/-- The words of the table. Source: `pi-random.c` `state`. Kind: D -/
def tableSize (type : Nat) : Nat := max 1 (degrees type)

/-- Source: `pi-random.h` `struct pi_random_data`. Kind: D -/
structure RandomData where
  fptr : WordPtr
  rptr : WordPtr
  state : WordPtr
  randType : Nat
  randDeg : Nat
  randSep : Nat
  endPtr : WordPtr

/-- The data and the words of the arrays. Source: `pi-random.h` `struct pi_random_data`;
`pi-random.c` `arg_state`. Kind: D -/
structure Random where
  buf : RandomData
  words : Nat → Nat → Int32

namespace Random

/-- Source: C, `*p`. Kind: D -/
def load (s : Random) (p : WordPtr) : Int32 := s.words p.base p.place

/-- Source: C, `*p = x`. Kind: D -/
def store (s : Random) (p : WordPtr) (x : Int32) : Random :=
  { s with words := update s.words p.base (update (s.words p.base) p.place x) }

/-- Moves the two pointers. Source: `pi-random.c` `buf->fptr = fptr`, `buf->rptr = rptr`. Kind: D -/
def point (s : Random) (fptr rptr : WordPtr) : Random := { s with buf := { s.buf with fptr, rptr } }

end Random

/-- The result, and the state behind the call. Source: `pi-random.c` `pi_random_r`. Kind: D -/
def piRandomR (s : Random) : Int32 × Random :=
  let state := s.buf.state
  if s.buf.randType = type0 then
    let val := ((s.load state * 1103515245) + 12345) &&& 0x7fffffff
    (val, s.store state val)
  else
    let fptr := s.buf.fptr
    let rptr := s.buf.rptr
    let endPtr := s.buf.endPtr
    let val := s.load fptr + s.load rptr
    let s := s.store fptr val
    -- chucking least random bit
    let result := (val >>> 1) &&& 0x7fffffff
    let fptr := fptr.add 1
    if fptr.place ≥ endPtr.place then
      (result, s.point state (rptr.add 1))
    else
      let rptr := rptr.add 1
      let rptr := if rptr.place ≥ endPtr.place then state else rptr
      (result, s.point fptr rptr)

/-- `state[i] = (16807 * state[i - 1]) % 2147483647`, without overflow.
Source: `pi-random.c` `pi_srandom_r`
Kind: D -/
def nextWord (word : Int) : Int :=
  let hi := word.tdiv 127773
  let lo := word.tmod 127773
  let word := 16807 * lo - 2836 * hi
  if word < 0 then word + 2147483647 else word

/-- The loop that fills the table, with so many turns to go.
Source: `pi-random.c` `pi_srandom_r`
Kind: D -/
def seedLoop : Nat → Int → WordPtr → Random → Random
  | 0, _, _, s => s
  | n + 1, word, dst, s =>
    let word := nextWord word
    let dst := dst.add 1
    seedLoop n word dst (s.store dst (Int32.ofInt word))

/-- The loop that discards numbers. Source: `pi-random.c` `pi_srandom_r`. Kind: D -/
def discardLoop : Nat → Random → Random
  | 0, s => s
  | n + 1, s => discardLoop n (piRandomR s).2

/-- Whether the call returns 0, and the state behind it.
Source: `pi-random.c` `pi_srandom_r`
Kind: D -/
def piSrandomR (seed : UInt32) (s : Random) : Bool × Random :=
  let type := s.buf.randType
  if type ≥ maxTypes then
    (false, s)
  else
    let state := s.buf.state
    let seed := if seed = 0 then 1 else seed
    let s := s.store state seed.toInt32
    if type = type0 then
      (true, s)
    else
      let kc := s.buf.randDeg
      let s := seedLoop (kc - 1) seed.toNat state s
      let s := s.point (state.add s.buf.randSep) state
      (true, discardLoop (kc * 10) s)

/-- The constants are `BREAK_0` to `BREAK_4`.
Source: `pi-random.c` `pi_initstate_r` "we choose the best (largest) one we can"
Kind: D -/
def typeFor (n : Nat) : Nat :=
  if n ≥ 128 then (if n < 256 then 3 else 4)
  else if n < 32 then 0
  else if n < 64 then 1 else 2

/-- The array `argState` has `n` bytes. Source: `pi-random.c` `pi_initstate_r`. Kind: D -/
def piInitstateR (seed : UInt32) (argState : Nat) (n : Nat) (s : Random) : Bool × Random :=
  if n < 8 then
    (false, s)
  else
    let type := typeFor n
    let degree := degrees type
    let separation := seps type
    let state : WordPtr := ⟨argState, 1⟩
    let s := { s with
      buf := { s.buf with
        randType := type, randSep := separation, randDeg := degree
        endPtr := state.add degree, state } }
    let s := (piSrandomR seed s).2
    let s := s.store ⟨argState, 0⟩ 0
    if type ≠ type0 then
      (true, s.store ⟨argState, 0⟩
        (Int32.ofInt (((s.buf.rptr.place : Int) - state.place) * maxTypes + type)))
    else
      (true, s)

/-- Source: `pi-random.c` `pi_setstate_r`. Kind: D -/
def piSetstateR (argState : Nat) (s : Random) : Bool × Random :=
  let newState : WordPtr := ⟨argState, 1⟩
  let oldType := s.buf.randType
  let oldState := s.buf.state
  let old : WordPtr := { oldState with place := oldState.place - 1 }
  let s :=
    if oldType = type0 then s.store old 0
    else s.store old
      (Int32.ofInt (maxTypes * ((s.buf.rptr.place : Int) - oldState.place) + oldType))
  let word := (s.load ⟨argState, 0⟩).toInt
  let type := word.tmod maxTypes
  if type < 0 ∨ type > 4 then
    (false, s)
  else
    let type := type.toNat
    let degree := degrees type
    let separation := seps type
    let s := { s with buf := { s.buf with
      randDeg := degree, randSep := separation, randType := type } }
    let s :=
      if type ≠ type0 then
        let rear := (word.tdiv maxTypes).toNat
        s.point (newState.add ((rear + separation) % degree)) (newState.add rear)
      else s
    (true, { s with buf := { s.buf with state := newState, endPtr := newState.add degree } })

/-! ## One generator -/

/-- A generator on its own. Source: `pi-random.c` `pi_random_r`. Kind: D -/
@[ext] structure Gen where
  type : Nat
  table : Nat → Int32
  /-- Where the next value is written. -/
  front : Nat
  type_lt : type < maxTypes
  front_lt : type ≠ type0 → front < degrees type

/-- The upper 31 bits. Source: `pi-random.c` `pi_random_r` "the least random low bit". Kind: D -/
def upper (val : Int32) : Int32 := (val >>> 1) &&& 0x7fffffff

/-- The step of the linear congruential generator. Source: `pi-random.c` `pi_random_r`. Kind: D -/
def congruential (val : Int32) : Int32 := ((val * 1103515245) + 12345) &&& 0x7fffffff

/-- Source: `pi-random.c` `SEP_1`, `DEG_1`. Kind: L -/
theorem seps_lt {type : Nat} (hlt : type < maxTypes) (hne : type ≠ type0) :
    0 < seps type ∧ seps type < degrees type := by
  have hall : ∀ t < maxTypes, t ≠ type0 → 0 < seps t ∧ seps t < degrees t := by decide
  exact hall type hlt hne

namespace Gen

variable (g : Gen)

/-- `seps` places behind the front. Source: `pi-random.c` `rptr`. Kind: D -/
def rear : Nat := rearPlace (degrees g.type) (seps g.type) g.front

/-- The value that the next call writes. Source: `pi-random.c` `pi_random_r`. Kind: D -/
def value : Int32 :=
  if g.type = type0 then congruential (g.table 0) else g.table g.front + g.table g.rear

/-- The result of the next call. Source: `pi-random.c` `pi_random_r`. Kind: D -/
def result : Int32 := if g.type = type0 then g.value else upper g.value

/-- The generator behind the call. Source: `pi-random.c` `pi_random_r`. Kind: D -/
def next : Gen where
  type := g.type
  table := update g.table (if g.type = type0 then 0 else g.front) g.value
  front := if g.type = type0 then g.front else (g.front + 1) % degrees g.type
  type_lt := g.type_lt
  front_lt hne := by
    rw [if_neg hne]
    exact Nat.mod_lt _ (Nat.lt_of_le_of_lt (Nat.zero_le _) (g.front_lt hne))

end Gen

/-! ## The generator in its array -/

/-- The data are for a generator of some type in the array `a`.
Source: `pi-random.h` `struct pi_random_data`
Kind: D -/
structure SetTo (a t : Nat) (s : Random) : Prop where
  type : s.buf.randType = t
  deg : s.buf.randDeg = degrees t
  sep : s.buf.randSep = seps t
  state : s.buf.state = ⟨a, 1⟩
  endPtr : s.buf.endPtr = ⟨a, 1 + degrees t⟩

/-- The generator `g` is in the array `a`, and the next call is for it.
Source: `pi-random.h` `struct pi_random_data`
Kind: D -/
structure Current (a : Nat) (g : Gen) (s : Random) : Prop extends SetTo a g.type s where
  table : ∀ i < tableSize g.type, s.words a (1 + i) = g.table i
  fptr : g.type ≠ type0 → s.buf.fptr = ⟨a, 1 + g.front⟩
  rptr : g.type ≠ type0 → s.buf.rptr = ⟨a, 1 + g.rear⟩

/-- Only the `m` words of a table in the array `a` have changed.
Source: `pi-random.c` `arg_state`
Kind: D -/
def Apart (a m : Nat) (s s' : Random) : Prop :=
  ∀ b i, b ≠ a ∨ i = 0 ∨ m < i → s'.words b i = s.words b i

section

variable {a : Nat} {g : Gen} {s : Random}

/-- Source: none: infrastructure. Kind: L -/
theorem apart_store (s : Random) (a : Nat) {i m : Nat} (hi : i < m) (x : Int32) :
    Apart a m s (s.store ⟨a, 1 + i⟩ x) := by
  intro b j h
  unfold Random.store
  by_cases hb : b = a
  · subst hb
    have hj : j ≠ 1 + i := by
      rcases h with h | h | h
      · exact absurd rfl h
      · omega
      · omega
    simp only [update_self]
    rw [update_of_ne hj]
  · simp only
    rw [update_of_ne hb]

/-- Source: none: infrastructure. Kind: L -/
theorem words_store (s : Random) (a i : Nat) (x : Int32) (j : Nat) :
    (s.store ⟨a, 1 + i⟩ x).words a (1 + j) = if j = i then x else s.words a (1 + j) := by
  unfold Random.store
  simp only [update_self]
  by_cases hj : j = i
  · rw [if_pos hj, hj, update_self]
  · rw [if_neg hj, update_of_ne]
    omega

/-- Storing a value of the table. Source: none: infrastructure. Kind: L -/
theorem words_store_table {t : Nat → Int32} {n : Nat} (h : ∀ i < n, s.words a (1 + i) = t i) (i : Nat)
    (x : Int32) : ∀ j < n, (s.store ⟨a, 1 + i⟩ x).words a (1 + j) = update t i x j := by
  intro j hj
  rw [words_store, update_apply, h j hj]

/-- Source: `pi-random.c` `state`. Kind: L -/
theorem tableSize_pos (type : Nat) : 0 < tableSize type :=
  Nat.lt_of_lt_of_le Nat.one_pos (Nat.le_max_left _ _)

/-- Source: `pi-random.c` `state`. Kind: L -/
theorem lt_tableSize {type i : Nat} (h : i < degrees type) : i < tableSize type :=
  Nat.lt_of_lt_of_le h (Nat.le_max_right _ _)

/-- Source: `pi-random.c` `rptr`. Kind: L -/
theorem Gen.rear_lt (hne : g.type ≠ type0) : g.rear < degrees g.type :=
  Nat.mod_lt _ (Nat.lt_of_le_of_lt (Nat.zero_le _) (g.front_lt hne))

/-- Source: `pi-random.c` `++fptr`, `++rptr`. Kind: L -/
theorem front_next (hne : g.type ≠ type0) :
    g.next.front = if g.front + 1 = degrees g.type then 0 else g.front + 1 := by
  unfold Gen.next
  simp only
  rw [if_neg hne, next_place (g.front_lt hne)]

/-- Source: `pi-random.c` `++fptr`, `++rptr`. Kind: L -/
theorem rear_next (hne : g.type ≠ type0) :
    g.next.rear = if g.rear + 1 = degrees g.type then 0 else g.rear + 1 := by
  have hlt : g.rear < degrees g.type := g.rear_lt hne
  unfold Gen.rear Gen.next
  simp only
  rw [if_neg hne, rearPlace_next]
  exact next_place hlt

/-- Both pointers cannot wrap on the same call. Source: `pi-random.c` `pi_random_r`. Kind: L -/
theorem rear_of_front (hne : g.type ≠ type0) (hf : g.front + 1 = degrees g.type) :
    g.rear + 1 < degrees g.type := by
  obtain ⟨hpos, hlt⟩ := seps_lt g.type_lt hne
  exact rearPlace_of_last hpos hlt hf

/-- Source: `pi-random.c` `pi_random_r`. Kind: L -/
theorem piRandomR_type0 (h : Current a g s) (h0 : g.type = type0) :
    piRandomR s = (g.result, s.store ⟨a, 1 + 0⟩ g.value) := by
  have hload : s.load ⟨a, 1⟩ = g.table 0 := h.table 0 (tableSize_pos g.type)
  unfold piRandomR Gen.result Gen.value
  simp only [h.type, h.state]
  rw [if_pos h0, if_pos h0, if_pos h0, hload]
  rfl

/-- The pointers move on to the generator's next places.
Source: `pi-random.c` `pi_random_r`
Kind: L -/
theorem piRandomR_additive (h : Current a g s) (hne : g.type ≠ type0) :
    piRandomR s = (g.result,
      (s.store ⟨a, 1 + g.front⟩ g.value).point ⟨a, 1 + g.next.front⟩ ⟨a, 1 + g.next.rear⟩) := by
  have hfront := g.front_lt hne
  have hload : s.load ⟨a, 1 + g.front⟩ + s.load ⟨a, 1 + g.rear⟩ = g.value := by
    unfold Gen.value
    rw [if_neg hne, ← h.table _ (lt_tableSize hfront), ← h.table _ (lt_tableSize (g.rear_lt hne))]
    rfl
  have hresult : g.result = upper g.value := if_neg hne
  unfold piRandomR
  simp only [h.type, h.state, h.fptr hne, h.rptr hne, h.endPtr]
  rw [if_neg hne, hload, hresult, front_next hne, rear_next hne]
  by_cases hwrap : g.front + 1 = degrees g.type
  · have hrear := rear_of_front hne hwrap
    rw [if_pos hwrap, if_neg (Nat.ne_of_lt hrear), if_pos]
    · rfl
    · show 1 + g.front + 1 ≥ 1 + degrees g.type
      omega
  · rw [if_neg hwrap, if_neg]
    · have hplace : (WordPtr.add ⟨a, 1 + g.rear⟩ 1).place = 1 + g.rear + 1 := rfl
      by_cases hrear : g.rear + 1 = degrees g.type
      · have hge : (WordPtr.add ⟨a, 1 + g.rear⟩ 1).place ≥ 1 + degrees g.type := by omega
        rw [if_pos hge, if_pos hrear]
        rfl
      · have hlt : g.rear < degrees g.type := g.rear_lt hne
        have hge : ¬ (WordPtr.add ⟨a, 1 + g.rear⟩ 1).place ≥ 1 + degrees g.type := by omega
        rw [if_neg hge, if_neg hrear]
        rfl
    · show ¬ 1 + g.front + 1 ≥ 1 + degrees g.type
      omega

/-- Source: none: infrastructure. Kind: L -/
theorem words_store_head (s : Random) (a i : Nat) (x : Int32) :
    (s.store ⟨a, 0⟩ x).words a (1 + i) = s.words a (1 + i) := by
  unfold Random.store
  simp only [update_self]
  rw [update_of_ne]
  omega

/-- The word in front of the table is not part of the generator. Source: `pi-random.c` `state[-1]`.
Kind: L -/
theorem Current.store_head (h : Current a g s) (x : Int32) : Current a g (s.store ⟨a, 0⟩ x) where
  type := h.type
  deg := h.deg
  sep := h.sep
  state := h.state
  endPtr := h.endPtr
  table i hi := (words_store_head s a i x).trans (h.table i hi)
  fptr := h.fptr
  rptr := h.rptr

/-- **A call is a step of the generator**, and it stays in its table. Source: `pi-random.c` `pi_random_r`.
Kind: P -/
theorem piRandomR_current (h : Current a g s) :
    (piRandomR s).1 = g.result ∧ Current a g.next (piRandomR s).2 ∧
      Apart a (tableSize g.type) s (piRandomR s).2 := by
  by_cases h0 : g.type = type0
  · rw [piRandomR_type0 h h0]
    refine ⟨rfl, ⟨⟨h.type, h.deg, h.sep, h.state, h.endPtr⟩, ?_, ?_, ?_⟩,
      apart_store s a (tableSize_pos g.type) _⟩
    · have htable := words_store_table h.table 0 g.value
      unfold Gen.next
      simp only
      rw [if_pos h0]
      exact htable
    · exact fun hne => absurd h0 hne
    · exact fun hne => absurd h0 hne
  · rw [piRandomR_additive h h0]
    refine ⟨rfl, ⟨⟨h.type, h.deg, h.sep, h.state, h.endPtr⟩, ?_, fun _ => rfl, fun _ => rfl⟩,
      apart_store s a (lt_tableSize (g.front_lt h0)) g.value⟩
    have htable : g.next.table = update g.table g.front g.value := by
      unfold Gen.next
      simp only
      rw [if_neg h0]
    rw [htable]
    exact words_store_table h.table g.front g.value

/-- Source: none: infrastructure. Kind: L -/
theorem Apart.trans {m : Nat} {s s' s'' : Random} (h : Apart a m s s') (h' : Apart a m s' s'') :
    Apart a m s s'' :=
  fun b i hb => (h' b i hb).trans (h b i hb)

/-! ## The sequence -/

/-- `n` calls: the results, and the state behind them. Source: `pi-random.c` `pi_random_r`. Kind: D -/
def randoms : Nat → Random → List Int32 × Random
  | 0, s => ([], s)
  | n + 1, s =>
    let (x, s) := piRandomR s
    let (xs, s) := randoms n s
    (x :: xs, s)

namespace Gen

/-- The generator behind `n` calls. Source: `pi-random.c` `pi_random_r`. Kind: D -/
def after (g : Gen) (n : Nat) : Gen := next^[n] g

/-- Source: none: infrastructure. Kind: L -/
theorem after_zero (g : Gen) : g.after 0 = g := rfl

/-- Source: none: infrastructure. Kind: L -/
theorem after_succ (g : Gen) (n : Nat) : g.after (n + 1) = g.next.after n := iterate_succ_apply next n g

/-- Source: none: infrastructure. Kind: L -/
theorem after_next (g : Gen) (n : Nat) : g.after (n + 1) = (g.after n).next :=
  iterate_succ_apply' next n g

/-- Source: none: infrastructure. Kind: L -/
theorem after_add (g : Gen) (m n : Nat) : g.after (m + n) = (g.after m).after n := by
  unfold after
  rw [Nat.add_comm, iterate_add_apply]

/-- Source: `pi-random.c` `rand_type`. Kind: L -/
@[simp] theorem after_type (g : Gen) (n : Nat) : (g.after n).type = g.type := by
  induction n with
  | zero => rfl
  | succ n ih => rw [after_next, ← ih]; rfl

/-- Source: `pi-random.c` `++fptr`. Kind: L -/
theorem after_front (g : Gen) (hne : g.type ≠ type0) (n : Nat) :
    (g.after n).front = (g.front + n) % degrees g.type := by
  induction n with
  | zero => exact (Nat.mod_eq_of_lt (g.front_lt hne)).symm
  | succ n ih =>
      have hne' : (g.after n).type ≠ type0 := by rwa [after_type]
      rw [after_next]
      unfold next
      simp only
      rw [if_neg hne', ih, after_type, Nat.mod_add_mod, Nat.add_assoc]

/-- Source: `pi-random.c` `TYPE_0`. Kind: L -/
theorem after_front_type0 (g : Gen) (h0 : g.type = type0) (n : Nat) : (g.after n).front = g.front := by
  induction n with
  | zero => rfl
  | succ n ih =>
      have h0' : (g.after n).type = type0 := by rwa [after_type]
      rw [after_next, ← ih]
      unfold next
      simp only
      rw [if_pos h0']

/-- What the table holds from the front on, and what is written then.
Source: `pi-random.c` "add the number at the rear pointer into the one at the front pointer"
Kind: D -/
def seq (g : Gen) : Nat → Int32 :=
  lagged (· + ·) (degrees g.type) (seps g.type) fun j => g.table ((g.front + j) % degrees g.type)

variable (g)

/-- Source: `pi-random.c` `pi_random_r`. Kind: L -/
theorem seq_lags (hne : g.type ≠ type0) : Lags (· + ·) (degrees g.type) (seps g.type) g.seq := by
  obtain ⟨hpos, hlt⟩ := seps_lt g.type_lt hne
  exact lagged_lags hpos (Nat.le_of_lt hlt) _

/-- **The table goes along the sequence.** Source: `pi-random.c` `pi_random_r`. Kind: P -/
theorem window_after (hne : g.type ≠ type0) (n : Nat) :
    Window (degrees g.type) g.seq (g.after n).table (g.after n).front n := by
  induction n with
  | zero => exact window_lagged g.table g.front
  | succ n ih =>
      have hne' : (g.after n).type ≠ type0 := by rwa [after_type]
      have hfront : (g.after n).front < degrees g.type := by
        have h := (g.after n).front_lt hne'
        rwa [after_type] at h
      obtain ⟨hpos, -⟩ := seps_lt g.type_lt hne
      have hstep := ih.step (g.seq_lags hne) hfront hpos
      rw [after_next]
      unfold next value rear
      simp only
      rw [if_neg hne', if_neg hne', if_neg hne', after_type]
      exact hstep

/-- The value that call `n` writes. Source: `pi-random.c` `pi_random_r`. Kind: L -/
theorem value_after (hne : g.type ≠ type0) (n : Nat) :
    (g.after n).value = g.seq (degrees g.type + n) := by
  have hne' : (g.after n).type ≠ type0 := by rwa [after_type]
  have hfront : (g.after n).front < degrees g.type := by
    have h := (g.after n).front_lt hne'
    rwa [after_type] at h
  obtain ⟨hpos, -⟩ := seps_lt g.type_lt hne
  have hwindow := g.window_after hne n
  unfold value rear rearPlace
  rw [if_neg hne', after_type, hwindow.front hfront, hwindow _ (by omega), Nat.add_comm _ n]
  exact (g.seq_lags hne n).symm

end Gen

/-- Source: `pi-random.c` `pi_random_r`. Kind: P -/
theorem randoms_current (h : Current a g s) (n : Nat) :
    (randoms n s).1 = (List.range n).map (fun k => (g.after k).result) ∧
      Current a (g.after n) (randoms n s).2 ∧ Apart a (tableSize g.type) s (randoms n s).2 := by
  induction n generalizing g s with
  | zero => exact ⟨rfl, h, fun _ _ _ => rfl⟩
  | succ n ih =>
      obtain ⟨hresult, hnext, hapart⟩ := piRandomR_current h
      obtain ⟨hresults, hlast, hapart'⟩ := ih hnext
      refine ⟨?_, ?_, hapart.trans hapart'⟩
      · rw [List.range_succ_eq_map, List.map_cons, List.map_map]
        show (piRandomR s).1 :: (randoms n (piRandomR s).2).1 = _
        rw [hresult, hresults]
        rfl
      · rw [g.after_succ]
        exact hlast

/-- **The results are the upper bits of the recurrence** `y (n + deg) = y n + y (n + deg - sep)` that
starts with the table, from the front place on; and the calls stay in the table.
Source: `pi-random.c` `pi_random_r`
Kind: P -/
theorem random_sequence (h : Current a g s) (hne : g.type ≠ type0) (n : Nat) :
    (randoms n s).1 = (List.range n).map (fun k => upper (g.seq (degrees g.type + k))) ∧
      (∀ k, g.seq (k + degrees g.type) =
        g.seq k + g.seq (k + (degrees g.type - seps g.type))) ∧
      (∀ j < degrees g.type, g.seq j = s.words a (1 + (g.front + j) % degrees g.type)) ∧
      Apart a (tableSize g.type) s (randoms n s).2 := by
  obtain ⟨hresults, -, hapart⟩ := randoms_current h n
  refine ⟨?_, g.seq_lags hne, fun j hj => ?_, hapart⟩
  · rw [hresults]
    apply List.map_congr_left
    intro k _
    have hne' : (g.after k).type ≠ type0 := by rwa [Gen.after_type]
    unfold Gen.result
    rw [if_neg hne', g.value_after hne]
  · have hlt : (g.front + j) % degrees g.type < degrees g.type := Nat.mod_lt _ (by omega)
    rw [h.table _ (lt_tableSize hlt)]
    exact lagged_of_lt hj

end

/-- A table of seven words. Source: `pi-random.c` `pi_random_r`. Kind: L -/
theorem random_sequence_seven :
    let g : Gen := ⟨1, fun i => Int32.ofNat i, 3, by decide, by decide⟩
    let s : Random := ⟨⟨⟨0, 4⟩, ⟨0, 1⟩, ⟨0, 1⟩, 1, 7, 3, ⟨0, 8⟩⟩, fun _ i => Int32.ofNat (i - 1)⟩
    (randoms 9 s).1 = (List.range 9).map (fun k => upper (g.seq (degrees g.type + k))) ∧
      (∀ k, g.seq (k + degrees g.type) =
        g.seq k + g.seq (k + (degrees g.type - seps g.type))) ∧
      (∀ j < degrees g.type, g.seq j = s.words 0 (1 + (g.front + j) % degrees g.type)) ∧
      Apart 0 (tableSize g.type) s (randoms 9 s).2 := by
  refine random_sequence ⟨⟨rfl, rfl, rfl, rfl, rfl⟩, fun i _ => ?_, fun _ => rfl, fun _ => rfl⟩
    (by decide) 9
  exact congrArg Int32.ofNat (Nat.add_sub_cancel_left 1 i)

end Cs140e.LibpiFake.PiRandom
