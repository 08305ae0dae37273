import Cs140e.LibpiFake.PiRandomSeed

/-!
# The random numbers of the fake pi: several arrays

`pi_setstate_r` goes from one array to another, and the word in front of a table keeps the place of the
rear pointer for the way back.

* `Idle`, `Holds` — a generator that waits in its array; a generator for each array that the caller has
  set up, one of them chosen.
* `piSetstateR_holds` — `pi_setstate_r` changes which one is chosen, and no generator.
* `arrays_independent` — over any interleaving, an array gives the numbers that its own calls give alone.
* `initstate_forgets` — `pi_initstate_r` does not do what its comment says: it leaves the old array with
  the place that was kept before.
-/

namespace Cs140e.LibpiFake.PiRandom

open Cs140e.Lib Function

/-! ## The word in front of the table -/

/-- The generator `g` waits in the array `b`. Source: `pi-random.c` `state[-1]`. Kind: D -/
structure Idle (b : Nat) (g : Gen) (s : Random) : Prop where
  head : s.words b 0 = g.head
  table : ∀ i < tableSize g.type, s.words b (1 + i) = g.table i

section

variable {a b : Nat} {g g' : Gen} {s : Random}

/-- Source: `pi-random.c` `MAX_TYPES * (buf->rptr - old_state) + old_type`. Kind: L -/
theorem toInt_head (g : Gen) :
    g.head.toInt = if g.type = type0 then 0 else (g.rear * maxTypes + g.type : Int) := by
  unfold Gen.head
  by_cases h0 : g.type = type0
  · rw [if_pos h0, if_pos h0]
    rfl
  · have hrear := g.rear_lt h0
    have htype := g.type_lt
    have hdeg : degrees g.type ≤ 63 := by
      have hall : ∀ t < maxTypes, degrees t ≤ 63 := by decide
      exact hall g.type htype
    unfold maxTypes at htype ⊢
    rw [if_neg h0, if_neg h0]
    apply Int32.toInt_ofInt_of_le <;> omega

/-- Source: `pi-random.c` `new_state[-1] % MAX_TYPES`. Kind: L -/
theorem head_type (g : Gen) : g.head.toInt.tmod maxTypes = g.type := by
  have htype := g.type_lt
  rw [toInt_head]
  by_cases h0 : g.type = type0
  · rw [if_pos h0, h0]
    rfl
  · unfold maxTypes at htype ⊢
    rw [if_neg h0, Int.tmod_eq_emod_of_nonneg (by omega)]
    omega

/-- Source: `pi-random.c` `new_state[-1] / MAX_TYPES`. Kind: L -/
theorem head_rear (h0 : g.type ≠ type0) : (g.head.toInt.tdiv maxTypes).toNat = g.rear := by
  have htype := g.type_lt
  rw [toInt_head, if_neg h0]
  unfold maxTypes at htype ⊢
  rw [Int.tdiv_eq_ediv_of_nonneg (by omega)]
  omega

/-- The front place, from the rear place.
Source: `pi-random.c` `(rear + separation) % degree`
Kind: L -/
theorem rear_front (h0 : g.type ≠ type0) : (g.rear + seps g.type) % degrees g.type = g.front := by
  obtain ⟨-, hlt⟩ := seps_lt g.type_lt h0
  have hsum : g.front + (degrees g.type - seps g.type) + seps g.type = g.front + degrees g.type := by
    omega
  unfold Gen.rear rearPlace
  rw [Nat.mod_add_mod, hsum, Nat.add_mod_right, Nat.mod_eq_of_lt (g.front_lt h0)]

/-- Source: `pi-random.c` `state[-1]`. Kind: L -/
theorem words_store_place (s : Random) (a p b q : Nat) (x : Int32) :
    (s.store ⟨a, p⟩ x).words b q = if b = a ∧ q = p then x else s.words b q := by
  unfold Random.store
  simp only
  by_cases hb : b = a
  · subst hb
    rw [update_self, update_apply]
    simp
  · rw [update_of_ne hb, if_neg (fun h => hb h.1)]

/-- Once its place is kept, a generator can wait. Source: `pi-random.c` `pi_setstate_r`. Kind: L -/
theorem Current.idle (h : Current a g s) : Idle a g (s.store ⟨a, 0⟩ g.head) where
  head := by rw [words_store_place, if_pos ⟨rfl, rfl⟩]
  table := (h.store_head g.head).table

/-- Source: none: infrastructure. Kind: L -/
theorem Idle.of_words {s' : Random} (h : Idle b g s) (hhead : s'.words b 0 = s.words b 0)
    (htable : ∀ i < tableSize g.type, s'.words b (1 + i) = s.words b (1 + i)) : Idle b g s' where
  head := hhead.trans h.head
  table i hi := (htable i hi).trans (h.table i hi)

/-- Source: none: infrastructure. Kind: L -/
theorem Idle.store (h : Idle b g s) (hne : b ≠ a) (p : Nat) (x : Int32) : Idle b g (s.store ⟨a, p⟩ x) :=
  h.of_words (by rw [words_store_place, if_neg (fun hp => hne hp.1)])
    fun i _ => by rw [words_store_place, if_neg (fun hp => hne hp.1)]

/-- **`pi_setstate_r`** keeps the place of the old generator, and goes on with the one that waits in the
new array; the two arrays may be the same. Source: `pi-random.c` `pi_setstate_r`. Kind: P -/
theorem piSetstateR_current (h : Current a g s) (hb : Idle b g' (s.store ⟨a, 0⟩ g.head)) :
    (piSetstateR b s).1 = true ∧ Current b g' (piSetstateR b s).2 ∧
      (piSetstateR b s).2.words = (s.store ⟨a, 0⟩ g.head).words := by
  have hstore : (if s.buf.randType = type0 then s.store ⟨a, 0⟩ 0
      else s.store ⟨a, 0⟩
        (Int32.ofInt (maxTypes * ((s.buf.rptr.place : Int) - (1 : Nat)) + s.buf.randType))) =
      s.store ⟨a, 0⟩ g.head := by
    unfold Gen.head
    rw [h.type]
    by_cases h0 : g.type = type0
    · rw [if_pos h0, if_pos h0]
    · have hplace : ((1 + g.rear : Nat) : Int) - (1 : Nat) = g.rear := by omega
      rw [if_neg h0, if_neg h0, h.rptr h0]
      simp only
      rw [hplace, mul_comm]
  have hword : (s.store ⟨a, 0⟩ g.head).load ⟨b, 0⟩ = g'.head := hb.head
  have htype : (g'.type : Int) < 5 := by exact_mod_cast g'.type_lt
  unfold piSetstateR
  simp only [h.state, Nat.sub_self]
  rw [hstore, hword, head_type, if_neg (by omega), Int.toNat_natCast]
  by_cases h0 : g'.type = type0
  · rw [if_neg (not_not_intro h0)]
    exact ⟨rfl, ⟨⟨rfl, rfl, rfl, rfl, rfl⟩, hb.table, fun hne => absurd h0 hne, fun hne => absurd h0 hne⟩,
      rfl⟩
  · rw [if_pos h0, head_rear h0, rear_front h0]
    exact ⟨rfl, ⟨⟨rfl, rfl, rfl, rfl, rfl⟩, hb.table, fun _ => rfl, fun _ => rfl⟩, rfl⟩

end

/-! ## Any number of arrays -/

/-- What a caller does. Source: `pi-random.h`. Kind: D -/
inductive Call where
  | random
  | srandom (seed : UInt32)
  | setstate (b : Nat)

/-- The calls, one after another: the numbers, each with the array that was chosen last. The result is
`none` when a call returns -1. Source: `pi-random.c` `pi_random_r`, `pi_srandom_r`, `pi_setstate_r`.
Kind: D -/
def runCalls : Nat → List Call → Random → Option (List (Nat × Int32) × Random)
  | _, [], s => some ([], s)
  | c, .random :: cs, s =>
    let (x, s) := piRandomR s
    (runCalls c cs s).map fun (xs, s) => ((c, x) :: xs, s)
  | c, .srandom seed :: cs, s =>
    let (ok, s) := piSrandomR seed s
    if ok then runCalls c cs s else none
  | _, .setstate b :: cs, s =>
    let (ok, s) := piSetstateR b s
    if ok then runCalls b cs s else none

/-- Source: none: infrastructure. Kind: L -/
theorem runCalls_random {c : Nat} {cs : List Call} {s s' : Random} {xs : List (Nat × Int32)}
    (h : runCalls c cs (piRandomR s).2 = some (xs, s')) :
    runCalls c (.random :: cs) s = some ((c, (piRandomR s).1) :: xs, s') := by
  show (runCalls c cs (piRandomR s).2).map _ = _
  rw [h]
  rfl

/-- Source: none: infrastructure. Kind: L -/
theorem runCalls_srandom {c : Nat} {cs : List Call} {s : Random} {seed : UInt32}
    (h : (piSrandomR seed s).1 = true) :
    runCalls c (.srandom seed :: cs) s = runCalls c cs (piSrandomR seed s).2 := by
  simp only [runCalls, h, if_true]

/-- Source: none: infrastructure. Kind: L -/
theorem runCalls_setstate {b c : Nat} {cs : List Call} {s : Random} (h : (piSetstateR b s).1 = true) :
    runCalls c (.setstate b :: cs) s = runCalls b cs (piSetstateR b s).2 := by
  simp only [runCalls, h, if_true]

/-- The numbers from the array `a`. Source: none: infrastructure. Kind: D -/
def numbersOf (a : Nat) (xs : List (Nat × Int32)) : List Int32 :=
  (xs.filter fun x => x.1 = a).map Prod.snd

/-- The calls for the array `a`; the first argument after it is the array that is chosen.
Source: none: infrastructure
Kind: D -/
def ownCalls (a : Nat) : Nat → List Call → List Call
  | _, [] => []
  | c, .random :: cs => if c = a then .random :: ownCalls a c cs else ownCalls a c cs
  | c, .srandom seed :: cs => if c = a then .srandom seed :: ownCalls a c cs else ownCalls a c cs
  | _, .setstate b :: cs => ownCalls a b cs

/-- Among the own calls there is no other array. Source: none: infrastructure. Kind: L -/
theorem ownCalls_ownCalls (a c : Nat) (cs : List Call) :
    ownCalls a a (ownCalls a c cs) = ownCalls a c cs := by
  induction cs generalizing c with
  | nil => rfl
  | cons call cs ih =>
      cases call with
      | random =>
          by_cases hc : c = a
          · rw [ownCalls, if_pos hc, ownCalls, if_pos rfl, ih]
          · rw [ownCalls, if_neg hc, ih]
      | srandom seed =>
          by_cases hc : c = a
          · rw [ownCalls, if_pos hc, ownCalls, if_pos rfl, ih]
          · rw [ownCalls, if_neg hc, ih]
      | setstate b => exact ih b

/-- Source: none: infrastructure. Kind: L -/
theorem setstate_notMem_ownCalls (a c b : Nat) (cs : List Call) : .setstate b ∉ ownCalls a c cs := by
  induction cs generalizing c with
  | nil => exact List.not_mem_nil
  | cons call cs ih =>
      cases call with
      | random =>
          rw [ownCalls]
          split_ifs
          · simpa using ih c
          · exact ih c
      | srandom seed =>
          rw [ownCalls]
          split_ifs
          · simpa using ih c
          · exact ih c
      | setstate b' => exact ih b'

namespace Gen

/-- The generator behind the seeding. Source: `pi-random.c` `pi_srandom_r`. Kind: D -/
def reseed (seed : UInt32) (g : Gen) : Gen := (seeded g.type g.type_lt seed).after (discards g.type)

/-- The numbers of one generator. Source: `pi-random.c` `pi_random_r`, `pi_srandom_r`. Kind: D -/
def numbers : List Call → Gen → List Int32
  | [], _ => []
  | .random :: cs, g => g.result :: numbers cs g.next
  | .srandom seed :: cs, g => numbers cs (g.reseed seed)
  | .setstate _ :: cs, g => numbers cs g

end Gen

/-- Each array that is set up has its generator, and `c` is chosen. Source: `pi-random.c` `arg_state`.
Kind: D -/
structure Holds (live : Nat → Prop) (gens : Nat → Gen) (c : Nat) (s : Random) : Prop where
  chosen : live c
  current : Current c (gens c) s
  idle : ∀ b, live b → b ≠ c → Idle b (gens b) s

section

variable {live : Nat → Prop} {gens : Nat → Gen} {c : Nat} {s : Random}

/-- Another generator for the chosen array, the others left alone.
Source: none: infrastructure
Kind: L -/
theorem Holds.update (h : Holds live gens c s) {g : Gen} {s' : Random} {m : Nat} (hcurrent : Current c g s')
    (hapart : Apart c m s s') : Holds live (update gens c g) c s' where
  chosen := h.chosen
  current := by rwa [update_self]
  idle b hb hne := by
    rw [update_of_ne hne]
    exact (h.idle b hb hne).of_words (hapart b 0 (.inl hne)) fun i _ => hapart b (1 + i) (.inl hne)

/-- **A call for a number.** Source: `pi-random.c` `pi_random_r`. Kind: P -/
theorem piRandomR_holds (h : Holds live gens c s) :
    (piRandomR s).1 = (gens c).result ∧ Holds live (update gens c (gens c).next) c (piRandomR s).2 := by
  obtain ⟨hresult, hnext, hapart⟩ := piRandomR_current h.current
  exact ⟨hresult, h.update hnext hapart⟩

/-- **A call with a seed.** Source: `pi-random.c` `pi_srandom_r`. Kind: P -/
theorem piSrandomR_holds (h : Holds live gens c s) (seed : UInt32) :
    (piSrandomR seed s).1 = true ∧
      Holds live (update gens c ((gens c).reseed seed)) c (piSrandomR seed s).2 := by
  obtain ⟨hok, hcurrent, hapart⟩ := piSrandomR_current h.current.toSetTo (gens c).type_lt seed
  exact ⟨hok, h.update hcurrent hapart⟩

/-- **A call for another array** changes no generator.
Source: `pi-random.c` `pi_setstate_r`
Kind: P -/
theorem piSetstateR_holds (h : Holds live gens c s) {b : Nat} (hb : live b) :
    (piSetstateR b s).1 = true ∧ Holds live gens b (piSetstateR b s).2 := by
  have hidle : ∀ d, live d → Idle d (gens d) (s.store ⟨c, 0⟩ (gens c).head) := by
    intro d hd
    by_cases hdc : d = c
    · subst hdc
      exact h.current.idle
    · exact (h.idle d hd hdc).store hdc 0 _
  obtain ⟨hok, hcurrent, hwords⟩ := piSetstateR_current h.current (hidle b hb)
  refine ⟨hok, hb, hcurrent, fun d hd _ => (hidle d hd).of_words ?_ fun i _ => ?_⟩
  · rw [hwords]
  · rw [hwords]

/-- **A run**: each array gives the numbers of its generator.
Source: `pi-random.c` `pi_random_r`, `pi_srandom_r`, `pi_setstate_r`
Kind: P -/
theorem runCalls_holds (h : Holds live gens c s) (cs : List Call)
    (hlive : ∀ b, .setstate b ∈ cs → live b) :
    ∃ xs s', runCalls c cs s = some (xs, s') ∧
      ∀ a, numbersOf a xs = Gen.numbers (ownCalls a c cs) (gens a) := by
  induction cs generalizing gens c s with
  | nil => exact ⟨[], s, rfl, fun _ => rfl⟩
  | cons call cs ih =>
      have hrest : ∀ b, .setstate b ∈ cs → live b := fun b hb => hlive b (List.mem_cons_of_mem _ hb)
      cases call with
      | random =>
          obtain ⟨hresult, hnext⟩ := piRandomR_holds h
          obtain ⟨xs, s', hrun, hnumbers⟩ := ih hnext hrest
          refine ⟨(c, (gens c).result) :: xs, s', ?_, fun a => ?_⟩
          · rw [runCalls_random hrun, hresult]
          · have hxs := hnumbers a
            by_cases hc : c = a
            · subst hc
              rw [update_self] at hxs
              rw [ownCalls, if_pos rfl, Gen.numbers, ← hxs]
              unfold numbersOf
              simp
            · rw [update_of_ne (Ne.symm hc)] at hxs
              rw [ownCalls, if_neg hc, ← hxs]
              unfold numbersOf
              simp [hc]
      | srandom seed =>
          obtain ⟨hok, hnext⟩ := piSrandomR_holds h seed
          obtain ⟨xs, s', hrun, hnumbers⟩ := ih hnext hrest
          refine ⟨xs, s', (runCalls_srandom hok).trans hrun, fun a => ?_⟩
          rw [hnumbers a]
          by_cases hc : c = a
          · subst hc
            rw [update_self, ownCalls, if_pos rfl, Gen.numbers]
          · rw [update_of_ne (Ne.symm hc), ownCalls, if_neg hc]
      | setstate b =>
          obtain ⟨hok, hnext⟩ := piSetstateR_holds h (hlive b List.mem_cons_self)
          obtain ⟨xs, s', hrun, hnumbers⟩ := ih hnext hrest
          exact ⟨xs, s', (runCalls_setstate hok).trans hrun, hnumbers⟩

/-- **The arrays are independent**: over any interleaving of the calls, with the arrays that are set up,
no call fails, and an array gives the numbers that it gives when only its own calls are made.
Source: `pi-random.c` `pi_random_r`, `pi_srandom_r`, `pi_setstate_r`
Kind: P -/
theorem arrays_independent (h : Holds live gens c s) (cs : List Call)
    (hlive : ∀ b, .setstate b ∈ cs → live b) {a : Nat} (ha : live a) :
    ∃ xs s' ys s'', runCalls c cs s = some (xs, s') ∧
      runCalls c (.setstate a :: ownCalls a c cs) s = some (ys, s'') ∧
      numbersOf a xs = numbersOf a ys := by
  have hown : ∀ b, .setstate b ∈ Call.setstate a :: ownCalls a c cs → live b := by
    intro b hb
    rcases List.mem_cons.mp hb with heq | hmem
    · cases heq
      exact ha
    · exact absurd hmem (setstate_notMem_ownCalls a c b cs)
  obtain ⟨xs, s', hrun, hnumbers⟩ := runCalls_holds h cs hlive
  obtain ⟨ys, s'', halone, hnumbers'⟩ := runCalls_holds h _ hown
  refine ⟨xs, s', ys, s'', hrun, halone, ?_⟩
  rw [hnumbers a, hnumbers' a, ownCalls, ownCalls_ownCalls]

end

/-- The words behind the start: two arrays, the one with a table of seven words, the other with a type 0.
Source: `pi-random.c` `arg_state`
Kind: D -/
def twoArrays : Random :=
  ⟨⟨⟨0, 4⟩, ⟨0, 1⟩, ⟨0, 1⟩, 1, 7, 3, ⟨0, 8⟩⟩, fun b i => if b = 0 then Int32.ofNat i else 0⟩

/-- Source: `pi-random.c` `arg_state`. Kind: D -/
def twoGens (b : Nat) : Gen :=
  if b = 0 then ⟨1, fun i => Int32.ofNat (1 + i), 3, by decide, by decide⟩
  else ⟨0, fun _ => 0, 0, by decide, by decide⟩

/-- Source: `pi-random.c` `arg_state`. Kind: L -/
theorem twoArrays_holds : Holds (fun b => b < 2) twoGens 0 twoArrays where
  chosen := by decide
  current := ⟨⟨rfl, rfl, rfl, rfl, rfl⟩, fun _ _ => rfl, fun _ => rfl, fun _ => rfl⟩
  idle b hb hne := by
    obtain rfl : b = 1 := by omega
    exact ⟨rfl, fun _ _ => rfl⟩

/-- Source: `pi-random.c` `pi_setstate_r`. Kind: L -/
theorem arrays_independent_two :
    let cs : List Call := [.random, .setstate 1, .random, .srandom 5, .random, .setstate 0, .random]
    ∃ xs s' ys s'', runCalls 0 cs twoArrays = some (xs, s') ∧
      runCalls 0 (.setstate 0 :: ownCalls 0 0 cs) twoArrays = some (ys, s'') ∧
      numbersOf 0 xs = numbersOf 0 ys := by
  refine arrays_independent twoArrays_holds _ (fun b hb => ?_) (by decide)
  have hmem : b = 1 ∨ b = 0 := by simpa using hb
  omega

/-! ## What `pi_initstate_r` forgets -/

namespace Gen

/-- The generator behind `k` calls, with the front place where it was. Source: `pi-random.c` `state[-1]`.
Kind: D -/
def rewound (g : Gen) (k : Nat) : Gen where
  type := g.type
  table := (g.after k).table
  front := g.front
  type_lt := g.type_lt
  front_lt := g.front_lt

/-- Source: `pi-random.c` `++fptr`. Kind: L -/
theorem rewound_eq_iff (g : Gen) (k : Nat) :
    g.rewound k = g.after k ↔ g.type = type0 ∨ degrees g.type ∣ k := by
  have hfront : g.rewound k = g.after k ↔ g.front = (g.after k).front := by
    constructor
    · intro h
      have hplace : (g.rewound k).front = (g.after k).front := by rw [h]
      exact hplace
    · exact fun h => Gen.ext (g.after_type k).symm rfl h
  rw [hfront]
  by_cases h0 : g.type = type0
  · rw [g.after_front_type0 h0]
    exact iff_of_true rfl (.inl h0)
  · have hlt := g.front_lt h0
    rw [g.after_front h0, or_iff_right h0]
    constructor
    · intro h
      have hmod : g.front + 0 ≡ g.front + k [MOD degrees g.type] :=
        (Nat.mod_eq_of_lt hlt).trans h
      exact Nat.modEq_zero_iff_dvd.mp (Nat.ModEq.add_left_cancel' g.front hmod).symm
    · rintro ⟨d, rfl⟩
      rw [Nat.add_mul_mod_self_left, Nat.mod_eq_of_lt hlt]

end Gen

section

variable {a b : Nat} {g : Gen} {s : Random}

/-- **`pi_initstate_r` forgets where the old array was.** Its comment says that it saves the current state
just like `pi_setstate_r`; it does not. After `k` numbers from `a` since its place was kept, and
`pi_initstate_r` for another array, `pi_setstate_r` goes on with the place that was kept, which is the
right one just when `k` is a multiple of the degree.
Source: `pi-random.c` `pi_initstate_r` "The first thing we do is save the current state"
Kind: P -/
theorem initstate_forgets (h : Current a g s) (hhead : s.words a 0 = g.head) (hb : b ≠ a) (seed : UInt32)
    {n : Nat} (hn : 8 ≤ n) (k m i : Nat) :
    let s₁ := (randoms m (piInitstateR seed b n (randoms k s).2).2).2
    (piSetstateR a s₁).1 = true ∧
      (randoms i (piSetstateR a s₁).2).1 =
        (List.range i).map (fun j => ((g.rewound k).after j).result) ∧
      (g.rewound k = g.after k ↔ g.type = type0 ∨ degrees g.type ∣ k) := by
  intro s₁
  obtain ⟨-, hkth, hcalls⟩ := randoms_current h k
  obtain ⟨-, hcurrent, -, hinit⟩ := piInitstateR_current seed b hn (randoms k s).2
  obtain ⟨-, hlast, hcalls'⟩ := randoms_current hcurrent m
  have hwords : ∀ p, s₁.words a p = (randoms k s).2.words a p := fun p =>
    (hcalls' a p (.inl hb.symm)).trans (hinit a p (.inl hb.symm))
  have hidle : Idle a (g.rewound k) s₁ := by
    constructor
    · exact (hwords 0).trans ((hcalls a 0 (.inr (.inl rfl))).trans hhead)
    · intro i hi
      rw [hwords]
      exact hkth.table i (by rwa [g.after_type])
  obtain ⟨hok, hback, -⟩ := piSetstateR_current hlast (hidle.store hb.symm 0 _)
  exact ⟨hok, (randoms_current hback i).1, g.rewound_eq_iff k⟩

/-- One number too many. Source: `pi-random.c` `pi_initstate_r`. Kind: L -/
theorem initstate_forgets_one :
    let g : Gen := ⟨1, fun i => Int32.ofNat (1 + i), 3, by decide, by decide⟩
    let s : Random := ⟨⟨⟨0, 4⟩, ⟨0, 1⟩, ⟨0, 1⟩, 1, 7, 3, ⟨0, 8⟩⟩,
      fun _ i => if i = 0 then 1 else Int32.ofNat i⟩
    let s₁ := (randoms 2 (piInitstateR 9 1 32 (randoms 1 s).2).2).2
    (piSetstateR 0 s₁).1 = true ∧
      (randoms 5 (piSetstateR 0 s₁).2).1 =
        (List.range 5).map (fun j => ((g.rewound 1).after j).result) ∧
      (g.rewound 1 = g.after 1 ↔ g.type = type0 ∨ degrees g.type ∣ 1) := by
  refine initstate_forgets ⟨⟨rfl, rfl, rfl, rfl, rfl⟩, fun i _ => ?_, fun _ => rfl, fun _ => rfl⟩
    (by decide) (by decide) 9 (by decide) 1 2 5
  exact if_neg (by omega)

/-- The numbers are not the ones that come without it. -/
example :
    let g : Gen := ⟨1, fun i => Int32.ofNat (1 + i), 3, by decide, by decide⟩
    ((g.rewound 1).after 1).result ≠ ((g.after 1).after 1).result := by decide

end

end Cs140e.LibpiFake.PiRandom
