import Cs140e.LibpiFake.PiRandom
import Cs140e.Stop
import Mathlib.Data.Int.ModEq
import Mathlib.Tactic.Ring

/-!
# The random numbers of the fake pi: seeds

* `nextWord_eq` — the words of the table are powers of 16807 times the seed, modulo `2 ^ 31 - 1`: what
  the comment says, for every seed, without overflow.
* `initstate_results` — the results behind `pi_initstate_r`, from the seed alone.
* `fakeRandom_seed` — `fake_random_seed` ignores the seed that it is given.
-/

namespace Cs140e.LibpiFake.PiRandom

open Cs140e.Lib Function

/-! ## The words of the table -/

/-- `2 ^ 31 - 1`. Source: `pi-random.c` `pi_srandom_r`. Kind: D -/
def seedModulus : Int := 2147483647

/-- **The word that comes next**, as the comment has it.
Source: `pi-random.c` `pi_srandom_r`
Kind: P -/
theorem nextWord_eq {word : Int} (h0 : 0 ≤ word) (hlt : word < 2 ^ 32) :
    nextWord word = 16807 * word % seedModulus := by
  -- 2147483647 is 16807 * 127773 + 2836
  have hhi : word.tdiv 127773 = word / 127773 := Int.tdiv_eq_ediv_of_nonneg h0
  have hlo : word.tmod 127773 = word % 127773 := Int.tmod_eq_emod_of_nonneg h0
  unfold nextWord seedModulus
  simp only [hhi, hlo]
  split <;> omega

/-- Source: `pi-random.c` `pi_srandom_r`. Kind: L -/
theorem nextWord_iterate {word : Int} (h0 : 0 ≤ word) (hlt : word < 2 ^ 32) (i : Nat) :
    nextWord^[i + 1] word = 16807 ^ (i + 1) * word % seedModulus := by
  induction i with
  | zero => rw [iterate_one, nextWord_eq h0 hlt, Nat.zero_add, pow_one]
  | succ i ih =>
      have hpos : 0 ≤ 16807 ^ (i + 1) * word % seedModulus := Int.emod_nonneg _ (by decide)
      have hmod : 16807 ^ (i + 1) * word % seedModulus < seedModulus := Int.emod_lt_of_pos _ (by decide)
      have hmul : 16807 * (16807 ^ (i + 1) * word % seedModulus) % seedModulus =
          16807 * (16807 ^ (i + 1) * word) % seedModulus := (Int.mod_modEq _ _).mul_left 16807
      rw [iterate_succ_apply', ih, nextWord_eq hpos (Int.lt_trans hmod (by decide)), hmul,
        ← Int.mul_assoc, ← pow_succ']

/-- The table behind the first loop; the seed itself is not reduced. Source: `pi-random.c`
`pi_srandom_r`. Kind: D -/
def seedTable (seed : UInt32) (i : Nat) : Int32 :=
  if i = 0 then seed.toInt32 else Int32.ofInt (16807 ^ i * seed.toNat % seedModulus)

section

variable {a t : Nat} {s : Random}

/-- The loop writes the places behind `i`. Source: `pi-random.c` `pi_srandom_r`. Kind: L -/
theorem seedLoop_eq (n : Nat) (word : Int) (i : Nat) (s : Random) :
    (seedLoop n word ⟨a, 1 + i⟩ s).buf = s.buf ∧ Apart a (i + 1 + n) s (seedLoop n word ⟨a, 1 + i⟩ s) ∧
      (∀ k < n, (seedLoop n word ⟨a, 1 + i⟩ s).words a (1 + (i + 1 + k)) =
        Int32.ofInt (nextWord^[k + 1] word)) ∧
      ∀ j ≤ i, (seedLoop n word ⟨a, 1 + i⟩ s).words a (1 + j) = s.words a (1 + j) := by
  induction n generalizing word i s with
  | zero => exact ⟨rfl, fun _ _ _ => rfl, fun k hk => absurd hk (Nat.not_lt_zero k), fun _ _ => rfl⟩
  | succ n ih =>
      obtain ⟨hbuf, hapart, hnew, hold⟩ :=
        ih (nextWord word) (i + 1) (s.store ⟨a, 1 + (i + 1)⟩ (Int32.ofInt (nextWord word)))
      have hstep : seedLoop (n + 1) word ⟨a, 1 + i⟩ s = seedLoop n (nextWord word) ⟨a, 1 + (i + 1)⟩
          (s.store ⟨a, 1 + (i + 1)⟩ (Int32.ofInt (nextWord word))) := rfl
      rw [hstep]
      rw [show i + 1 + (n + 1) = i + 1 + 1 + n by omega]
      refine ⟨hbuf, (apart_store s a (by omega) _).trans hapart, fun k hk => ?_, fun j hj => ?_⟩
      · cases k with
        | zero =>
            rw [Nat.add_zero, hold (i + 1) (Nat.le_refl _), words_store, if_pos rfl]
            rfl
        | succ k =>
            rw [show i + 1 + (k + 1) = i + 1 + 1 + k by omega, hnew k (by omega), ← iterate_succ_apply]
      · rw [hold j (by omega), words_store, if_neg (by omega)]

/-- Discarding is calling. Source: `pi-random.c` `pi_srandom_r`. Kind: L -/
theorem discardLoop_eq (n : Nat) (s : Random) : discardLoop n s = (randoms n s).2 := by
  induction n generalizing s with
  | zero => rfl
  | succ n ih => exact ih (piRandomR s).2

/-- The seed that is taken. Source: `pi-random.c` "We must make sure the seed is not 0". Kind: D -/
def takenSeed (seed : UInt32) : UInt32 := if seed = 0 then 1 else seed

/-- The generator in front of the discarded calls. Source: `pi-random.c` `pi_srandom_r`. Kind: D -/
def seeded (t : Nat) (ht : t < maxTypes) (seed : UInt32) : Gen where
  type := t
  table := seedTable (takenSeed seed)
  front := seps t
  type_lt := ht
  front_lt hne := (seps_lt ht hne).2

/-- Source: `pi-random.c` `pi_srandom_r`. Kind: L -/
theorem seeded_rear (ht : t < maxTypes) (seed : UInt32) (hne : t ≠ type0) :
    (seeded t ht seed).rear = 0 := by
  obtain ⟨-, hlt⟩ := seps_lt ht hne
  show (seps t + (degrees t - seps t)) % degrees t = 0
  rw [Nat.add_sub_cancel' (Nat.le_of_lt hlt), Nat.mod_self]

/-- The number of results that are discarded. Source: `pi-random.c` `kc *= 10`. Kind: D -/
def discards (t : Nat) : Nat := degrees t * 10

/-- The table behind the loop. Source: `pi-random.c` `pi_srandom_r`. Kind: L -/
theorem seedLoop_table (seed : UInt32) (n : Nat) (s : Random) (i : Nat) (hi : i < n + 1) :
    (seedLoop n seed.toNat ⟨a, 1 + 0⟩ (s.store ⟨a, 1 + 0⟩ seed.toInt32)).words a (1 + i) =
      seedTable seed i := by
  obtain ⟨-, -, hnew, hold⟩ := seedLoop_eq (a := a) n seed.toNat 0 (s.store ⟨a, 1 + 0⟩ seed.toInt32)
  unfold seedTable
  cases i with
  | zero => rw [hold 0 (Nat.le_refl 0), words_store, if_pos rfl, if_pos rfl]
  | succ k =>
      have hlt : (seed.toNat : Int) < 2 ^ 32 := by exact_mod_cast seed.toNat_lt
      rw [if_neg (Nat.succ_ne_zero k), ← nextWord_iterate (Int.natCast_nonneg _) hlt,
        ← hnew k (by omega), Nat.zero_add, Nat.add_comm 1 k]

/-- The generator in front of the discarded calls. Source: `pi-random.c` `pi_srandom_r`. Kind: L -/
theorem seedLoop_current (h : SetTo a t s) (ht : t < maxTypes) (hne : t ≠ type0) (seed : UInt32) :
    Current a (seeded t ht seed) ((seedLoop (degrees t - 1) (takenSeed seed).toNat ⟨a, 1 + 0⟩
      (s.store ⟨a, 1 + 0⟩ (takenSeed seed).toInt32)).point ⟨a, 1 + seps t⟩ ⟨a, 1 + 0⟩) := by
  have hbuf := (seedLoop_eq (a := a) (degrees t - 1) (takenSeed seed).toNat 0
    (s.store ⟨a, 1 + 0⟩ (takenSeed seed).toInt32)).1
  have hdeg : 0 < degrees t := Nat.lt_of_le_of_lt (Nat.zero_le _) (seps_lt ht hne).2
  have hset : SetTo a t ((seedLoop (degrees t - 1) (takenSeed seed).toNat ⟨a, 1 + 0⟩
      (s.store ⟨a, 1 + 0⟩ (takenSeed seed).toInt32)).point ⟨a, 1 + seps t⟩ ⟨a, 1 + 0⟩) := by
    unfold Random.point
    constructor
    all_goals simp only [hbuf]
    · exact h.type
    · exact h.deg
    · exact h.sep
    · exact h.state
    · exact h.endPtr
  refine ⟨hset, fun i hi => ?_, fun _ => rfl, fun _ => ?_⟩
  · have hsize : tableSize t = degrees t := Nat.max_eq_right hdeg
    refine seedLoop_table _ _ _ _ ?_
    have hi' : i < tableSize t := hi
    omega
  · rw [seeded_rear ht seed hne]
    rfl

/-- Source: `pi-random.c` `pi_srandom_r`. Kind: L -/
theorem piSrandomR_additive (h : SetTo a t s) (ht : t < maxTypes) (hne : t ≠ type0) (seed : UInt32) :
    piSrandomR seed s = (true, discardLoop (discards t)
      ((seedLoop (degrees t - 1) (takenSeed seed).toNat ⟨a, 1 + 0⟩
        (s.store ⟨a, 1 + 0⟩ (takenSeed seed).toInt32)).point ⟨a, 1 + seps t⟩ ⟨a, 1 + 0⟩)) := by
  have hbuf := (seedLoop_eq (a := a) (degrees t - 1) (takenSeed seed).toNat 0
    (s.store ⟨a, 1 + 0⟩ (takenSeed seed).toInt32)).1
  have hdeg : (s.store ⟨a, 1 + 0⟩ (takenSeed seed).toInt32).buf.randDeg = degrees t := h.deg
  have hsep : (s.store ⟨a, 1 + 0⟩ (takenSeed seed).toInt32).buf.randSep = seps t := h.sep
  unfold piSrandomR
  simp only [h.type, h.state]
  rw [if_neg (Nat.not_le.mpr ht), if_neg hne]
  unfold takenSeed at hbuf hdeg hsep ⊢
  rw [hdeg, hbuf, hsep]
  rfl

/-- **Seeding makes a generator** from the seed and the type alone. Source: `pi-random.c` `pi_srandom_r`.
Kind: P -/
theorem piSrandomR_current (h : SetTo a t s) (ht : t < maxTypes) (seed : UInt32) :
    (piSrandomR seed s).1 = true ∧
      Current a ((seeded t ht seed).after (discards t)) (piSrandomR seed s).2 ∧
      Apart a (tableSize t) s (piSrandomR seed s).2 := by
  have hstore := apart_store s a (tableSize_pos t) (takenSeed seed).toInt32
  by_cases h0 : t = type0
  · subst h0
    unfold piSrandomR
    simp only [h.type, h.state]
    rw [if_neg (Nat.not_le.mpr ht), if_pos trivial]
    refine ⟨rfl, ⟨⟨h.type, h.deg, h.sep, h.state, h.endPtr⟩, fun i hi => ?_, ?_, ?_⟩, hstore⟩
    · obtain rfl : i = 0 := Nat.lt_one_iff.mp hi
      exact (words_store s a 0 _ 0).trans (if_pos rfl)
    · exact fun hne => absurd rfl hne
    · exact fun hne => absurd rfl hne
  · obtain ⟨-, hloop, -, -⟩ := seedLoop_eq (a := a) (degrees t - 1) (takenSeed seed).toNat 0
      (s.store ⟨a, 1 + 0⟩ (takenSeed seed).toInt32)
    obtain ⟨-, hcurrent, hrest⟩ := randoms_current (seedLoop_current h ht h0 seed) (discards t)
    have hsize : 0 + 1 + (degrees t - 1) = tableSize t := by
      have hdeg : 0 < degrees t := Nat.lt_of_le_of_lt (Nat.zero_le _) (seps_lt ht h0).2
      have hmax : tableSize t = degrees t := Nat.max_eq_right hdeg
      omega
    rw [hsize] at hloop
    rw [piSrandomR_additive h ht h0, discardLoop_eq]
    exact ⟨rfl, hcurrent, (hstore.trans hloop).trans hrest⟩

/-- What the table would hold, from the front place on, if nothing were discarded.
Source: `pi-random.c` `pi_srandom_r`
Kind: D -/
def seedSeq (t : Nat) (seed : UInt32) : Nat → Int32 :=
  lagged (· + ·) (degrees t) (seps t) fun j => seedTable (takenSeed seed) ((seps t + j) % degrees t)

/-- Source: `pi-random.c` `pi_srandom_r`. Kind: L -/
theorem seeded_result (ht : t < maxTypes) (hne : t ≠ type0) (seed : UInt32) (k : Nat) :
    (((seeded t ht seed).after (discards t)).after k).result =
      upper (seedSeq t seed (11 * degrees t + k)) := by
  have hplace : degrees t + (discards t + k) = 11 * degrees t + k := by
    unfold discards
    omega
  have hne' : ((seeded t ht seed).after (discards t + k)).type ≠ type0 := by rwa [Gen.after_type]
  rw [← Gen.after_add]
  unfold Gen.result
  rw [if_neg hne', (seeded t ht seed).value_after hne, ← hplace]
  rfl

/-! ## `pi_initstate_r` -/

/-- Source: `pi-random.c` `pi_initstate_r`. Kind: L -/
theorem typeFor_lt (n : Nat) : typeFor n < maxTypes := by
  unfold typeFor maxTypes
  split_ifs <;> decide

/-- The table fits the array. Source: `pi-random.c` `BREAK_0`, `DEG_0`. Kind: L -/
theorem tableSize_typeFor {n : Nat} (hn : 8 ≤ n) : tableSize (typeFor n) < n / 4 := by
  have hsizes : tableSize 0 = 1 ∧ tableSize 1 = 7 ∧ tableSize 2 = 15 ∧ tableSize 3 = 31 ∧
      tableSize 4 = 63 := by decide
  obtain ⟨h0, h1, h2, h3, h4⟩ := hsizes
  unfold typeFor
  split_ifs <;> omega

/-- The word in front of the table. Source: `pi-random.c` `state[-1]`. Kind: D -/
def Gen.head (g : Gen) : Int32 :=
  if g.type = type0 then 0 else Int32.ofInt (g.rear * maxTypes + g.type)

/-- The data set for a type, in front of the seeding.
Source: `pi-random.c` `pi_initstate_r`
Kind: D -/
def Random.prepare (s : Random) (a t : Nat) : Random :=
  { s with
    buf := { s.buf with
      randType := t, randSep := seps t, randDeg := degrees t
      endPtr := ⟨a, 1 + degrees t⟩, state := ⟨a, 1⟩ } }

/-- Source: `pi-random.c` `pi_initstate_r`. Kind: L -/
theorem setTo_prepare (s : Random) (a t : Nat) : SetTo a t (s.prepare a t) := ⟨rfl, rfl, rfl, rfl, rfl⟩

/-- Source: none: infrastructure. Kind: L -/
theorem store_store (s : Random) (p : WordPtr) (x y : Int32) : (s.store p x).store p y = s.store p y := by
  unfold Random.store
  simp

/-- The word in front of the table is written last. Source: `pi-random.c` `pi_initstate_r`. Kind: L -/
theorem piInitstateR_eq {g : Gen} (seed : UInt32) (a : Nat) {n : Nat} (hn : 8 ≤ n) (s : Random)
    (hg : Current a g (piSrandomR seed (s.prepare a (typeFor n))).2) (ht : g.type = typeFor n) :
    piInitstateR seed a n s =
      (true, (piSrandomR seed (s.prepare a (typeFor n))).2.store ⟨a, 0⟩ g.head) := by
  unfold piInitstateR
  rw [if_neg (Nat.not_lt.mpr hn)]
  simp only [WordPtr.add]
  unfold Random.prepare at hg ⊢
  unfold Gen.head
  rw [ht]
  by_cases h0 : typeFor n = type0
  · rw [if_neg (not_not_intro h0), if_pos h0]
  · have hrear : (((piSrandomR seed (s.prepare a (typeFor n))).2.store ⟨a, 0⟩ 0).buf.rptr.place : Int) -
        (1 : Nat) = g.rear := by
      have hrptr := hg.rptr (by rwa [ht])
      show ((piSrandomR seed (s.prepare a (typeFor n))).2.buf.rptr.place : Int) - 1 = g.rear
      unfold Random.prepare
      rw [hrptr]
      show ((1 + g.rear : Nat) : Int) - 1 = g.rear
      omega
    unfold Random.prepare at hrear
    rw [if_pos h0, if_neg h0, store_store, hrear]

/-- **`pi_initstate_r`** makes a generator, saves where its rear pointer is, and stays in the array.
Source: `pi-random.c` `pi_initstate_r`
Kind: P -/
theorem piInitstateR_current (seed : UInt32) (a : Nat) {n : Nat} (hn : 8 ≤ n) (s : Random) :
    (piInitstateR seed a n s).1 = true ∧
      Current a ((seeded (typeFor n) (typeFor_lt n) seed).after (discards (typeFor n)))
        (piInitstateR seed a n s).2 ∧
      (piInitstateR seed a n s).2.words a 0 =
        ((seeded (typeFor n) (typeFor_lt n) seed).after (discards (typeFor n))).head ∧
      ∀ b i, b ≠ a ∨ n / 4 ≤ i → (piInitstateR seed a n s).2.words b i = s.words b i := by
  obtain ⟨-, hcurrent, hapart⟩ :=
    piSrandomR_current (setTo_prepare s a (typeFor n)) (typeFor_lt n) seed
  have hsize := tableSize_typeFor hn
  rw [piInitstateR_eq seed a hn s hcurrent (Gen.after_type _ _)]
  refine ⟨rfl, hcurrent.store_head _, ?_, fun b i hb => ?_⟩
  · unfold Random.store
    simp
  · have hrest : (piSrandomR seed (s.prepare a (typeFor n))).2.words b i = s.words b i := by
      refine hapart b i ?_
      rcases hb with hb | hi
      · exact .inl hb
      · exact .inr (.inr (by omega))
    refine Eq.trans ?_ hrest
    unfold Random.store
    by_cases hba : b = a
    · subst hba
      have hi : i ≠ 0 := by
        rcases hb with hb | hi
        · exact absurd rfl hb
        · omega
      simp only [update_self]
      rw [update_of_ne hi]
    · simp only
      rw [update_of_ne hba]

/-- **The numbers behind `pi_initstate_r`** are the upper bits of the recurrence that starts from the
front place of the seeded table: word 0 is the seed itself (1 for 0), which is not reduced, and word `i`
behind it is `16807 ^ i` times the seed modulo `2 ^ 31 - 1`. The calls stay in the array.
Source: `pi-random.c` `pi_initstate_r`, `pi_srandom_r`, `pi_random_r`
Kind: P -/
theorem initstate_results (seed : UInt32) (a : Nat) {n : Nat} (hn : 32 ≤ n) (s : Random) (m : Nat) :
    (piInitstateR seed a n s).1 = true ∧
      (randoms m (piInitstateR seed a n s).2).1 = (List.range m).map (fun k =>
        upper (seedSeq (typeFor n) seed (11 * degrees (typeFor n) + k))) ∧
      ∀ b i, b ≠ a ∨ n / 4 ≤ i → (randoms m (piInitstateR seed a n s).2).2.words b i = s.words b i := by
  have hn8 : 8 ≤ n := by omega
  have hne : typeFor n ≠ type0 := by
    unfold typeFor type0
    split_ifs <;> omega
  obtain ⟨hok, hcurrent, -, hrest⟩ := piInitstateR_current seed a hn8 s
  obtain ⟨hresults, -, hapart⟩ := randoms_current hcurrent m
  refine ⟨hok, ?_, fun b i hb => ?_⟩
  · rw [hresults]
    apply List.map_congr_left
    intro k _
    exact seeded_result (typeFor_lt n) hne seed k
  · have hsize := tableSize_typeFor hn8
    refine (hapart b i ?_).trans (hrest b i hb)
    rw [Gen.after_type]
    show b ≠ a ∨ i = 0 ∨ tableSize (typeFor n) < i
    rcases hb with hb | hi
    · exact .inl hb
    · exact .inr (.inr (by omega))

/-- `memset` to 0. Source: `fake-random.c` `fake_random_seed`. Kind: D -/
def RandomData.zero : RandomData := ⟨⟨0, 0⟩, ⟨0, 0⟩, ⟨0, 0⟩, 0, 0, 0, ⟨0, 0⟩⟩

/-- A table of 31 words. Source: `fake-random.c` `STATESIZE`. Kind: L -/
theorem initstate_results_128 :
    let s : Random := ⟨RandomData.zero, fun _ _ => 0⟩
    (piInitstateR 7 0 128 s).1 = true ∧
      (randoms 5 (piInitstateR 7 0 128 s).2).1 = (List.range 5).map (fun k =>
        upper (seedSeq (typeFor 128) 7 (11 * degrees (typeFor 128) + k))) ∧
      ∀ b i, b ≠ 0 ∨ 128 / 4 ≤ i → (randoms 5 (piInitstateR 7 0 128 s).2).2.words b i = s.words b i :=
  initstate_results 7 0 (by decide) _ 5

end

/-! ## The random numbers of the fake pi -/

/-- The static variables; the array `statebuf` is array 0. Source: `fake-random.c`. Kind: D -/
structure FakeRandom where
  r : Random
  initP : Bool
  nrandomCalls : UInt32

/-- The static variable `seed`. Source: `fake-random.c` `seed`. Kind: D -/
def fakeSeed : UInt32 := 0

/-- The argument is not used. Source: `fake-random.c` `fake_random_seed`. Kind: D -/
def fakeRandomSeed (_x : UInt32) (f : FakeRandom) : Except Stop FakeRandom := do
  let r : Random := { f.r with buf := RandomData.zero }
  let (ok, r) := piInitstateR fakeSeed 0 128 r
  if !ok then throw (.assert "0")
  let (ok, r) := piSrandomR fakeSeed r
  if !ok then throw (.assert "0")
  return { f with r }

/-- Source: `fake-random.c` `fake_random`. Kind: D -/
def fakeRandom (f : FakeRandom) : Except Stop (UInt32 × FakeRandom) := do
  if !f.initP then throw (.assert "init_p")
  let (x, r) := piRandomR f.r
  return (x.toUInt32, { f with r, nrandomCalls := f.nrandomCalls + 1 })

/-- Source: `fake-random.c` `fake_random_init`. Kind: D -/
def fakeRandomInit (f : FakeRandom) : Except Stop FakeRandom := do
  let f ← fakeRandomSeed 0 { f with initP := true }
  let (u, f) ← fakeRandom f
  if 0x6b8b4567 != u then throw (.assert "0x6b8b4567 == u")
  return f

/-- `n` calls. Source: `fake-random.c` `fake_random`. Kind: D -/
def fakeRandoms : Nat → FakeRandom → Except Stop (List UInt32 × FakeRandom)
  | 0, f => return ([], f)
  | n + 1, f => do
    let (u, f) ← fakeRandom f
    let (us, f) ← fakeRandoms n f
    return (u :: us, f)

/-- The numbers that everyone gets. Source: `fake-random.c` `fake_random`. Kind: D -/
def fakeNumber (k : Nat) : UInt32 := (upper (seedSeq 3 fakeSeed (341 + k))).toUInt32

/-- The generator that everyone has. Source: `fake-random.c` `fake_random_seed`. Kind: D -/
def fakeGen : Gen := (seeded 3 (by decide) fakeSeed).after (discards 3)

section

variable {f : FakeRandom} {g : Gen}

/-- Source: `fake-random.c` `fake_random`. Kind: L -/
theorem fakeRandom_current (h : Current 0 g f.r) (hinit : f.initP = true) :
    ∃ f', fakeRandom f = .ok (g.result.toUInt32, f') ∧ Current 0 g.next f'.r ∧ f'.initP = true ∧
      f'.nrandomCalls = f.nrandomCalls + 1 := by
  obtain ⟨hresult, hnext, -⟩ := piRandomR_current h
  refine ⟨{ f with r := (piRandomR f.r).2, nrandomCalls := f.nrandomCalls + 1 }, ?_, hnext, hinit, rfl⟩
  unfold fakeRandom
  rw [hinit, ← hresult]
  rfl

/-- Source: `fake-random.c` `fake_random`. Kind: L -/
theorem fakeRandoms_current (h : Current 0 g f.r) (hinit : f.initP = true) (n : Nat) :
    ∃ f', fakeRandoms n f = .ok ((List.range n).map fun k => (g.after k).result.toUInt32, f') := by
  induction n generalizing f g with
  | zero => exact ⟨f, rfl⟩
  | succ n ih =>
      obtain ⟨f₁, hcall, hnext, hinit₁, -⟩ := fakeRandom_current h hinit
      obtain ⟨f₂, hcalls⟩ := ih hnext hinit₁
      refine ⟨f₂, ?_⟩
      rw [fakeRandoms, hcall, List.range_succ_eq_map, List.map_cons, List.map_map]
      show (fakeRandoms n f₁ >>= fun p => pure (g.result.toUInt32 :: p.1, p.2)) = _
      rw [hcalls]
      rfl

/-- **Seeding always makes the same generator.** Source: `fake-random.c` `fake_random_seed`. Kind: P -/
theorem fakeRandomSeed_current (x : UInt32) (f : FakeRandom) :
    ∃ f', fakeRandomSeed x f = .ok f' ∧ Current 0 fakeGen f'.r ∧ f'.initP = f.initP ∧
      f'.nrandomCalls = f.nrandomCalls := by
  obtain ⟨hok, hcurrent, -⟩ := piInitstateR_current fakeSeed 0 (show 8 ≤ 128 by decide)
    { f.r with buf := RandomData.zero }
  have hset : SetTo 0 3 (piInitstateR fakeSeed 0 128 { f.r with buf := RandomData.zero }).2 := by
    have h := hcurrent.toSetTo
    rwa [Gen.after_type] at h
  obtain ⟨hok', hcurrent', -⟩ := piSrandomR_current hset (by decide) fakeSeed
  have hrun : fakeRandomSeed x f = .ok { f with r := (piSrandomR fakeSeed
      (piInitstateR fakeSeed 0 128 { f.r with buf := RandomData.zero }).2).2 } := by
    unfold fakeRandomSeed
    simp only [hok, hok']
    rfl
  have hgen : Current 0 fakeGen (piSrandomR fakeSeed
      (piInitstateR fakeSeed 0 128 { f.r with buf := RandomData.zero }).2).2 := by
    unfold fakeGen
    exact hcurrent'
  refine ⟨_, hrun, ?_, rfl, rfl⟩
  dsimp only
  exact hgen

/-- Source: `fake-random.c` `fake_random`. Kind: L -/
theorem fakeGen_result (k : Nat) : (fakeGen.after k).result.toUInt32 = fakeNumber k := by
  unfold fakeGen fakeNumber
  rw [seeded_result (by decide) (by decide)]
  rfl

/-- The number in the assertion is the first one.
Source: `fake-random.c` `fake_random_init`
Kind: L -/
theorem fakeNumber_zero : fakeNumber 0 = 0x6b8b4567 := by
  have hlags : Lags (· + ·) 31 3 (seedSeq 3 fakeSeed) := lagged_lags (by decide) (by decide) _
  have hstart : (List.range 31).map (seedSeq 3 fakeSeed) =
      (List.range 31).map fun j => seedTable (takenSeed fakeSeed) ((3 + j) % 31) := by
    apply List.map_congr_left
    intro j hj
    exact lagged_of_lt (List.mem_range.mp hj)
  have hhead := head_lagList hlags (by decide) (by decide) 341 0
  rw [hstart] at hhead
  unfold fakeNumber
  rw [Nat.add_zero, ← hhead]
  decide +kernel

/-- The assertion holds. Source: `fake-random.c` `fake_random_init`. Kind: P -/
theorem fakeRandomInit_current (f : FakeRandom) :
    ∃ f', fakeRandomInit f = .ok f' ∧ Current 0 fakeGen.next f'.r ∧ f'.initP = true ∧
      f'.nrandomCalls = f.nrandomCalls + 1 := by
  obtain ⟨f₁, hseed, hcurrent, hinit, hcalls⟩ := fakeRandomSeed_current 0 { f with initP := true }
  obtain ⟨f₂, hcall, hnext, hinit₂, hcalls₂⟩ := fakeRandom_current hcurrent hinit
  have hfirst := (fakeGen_result 0).trans fakeNumber_zero
  rw [Gen.after_zero] at hfirst
  rw [hfirst] at hcall
  refine ⟨f₂, ?_, hnext, hinit₂, by rw [hcalls₂, hcalls]⟩
  unfold fakeRandomInit
  rw [hseed]
  show (fakeRandom f₁ >>= _) = _
  rw [hcall]
  rfl

end

/-- **Everyone has the same random numbers**: `fake_random_init` never fails, and the numbers behind it
are always the same ones; `fake_random_seed` starts them again, whatever seed it is given.
Source: `fake-random.c` `fake_random_init`, `fake_random_seed`, `fake_random`
Kind: P -/
theorem fakeRandom_same (n : Nat) :
    (∀ f, ∃ f' f'', fakeRandomInit f = .ok f' ∧ f'.initP = true ∧
      fakeRandoms n f' = .ok ((List.range n).map fun k => fakeNumber (k + 1), f'')) ∧
    (∀ f x, f.initP = true → ∃ f' f'', fakeRandomSeed x f = .ok f' ∧ f'.initP = true ∧
      fakeRandoms n f' = .ok ((List.range n).map fakeNumber, f'')) := by
  constructor
  · intro f
    obtain ⟨f₁, hrun, hcurrent, hinit, -⟩ := fakeRandomInit_current f
    obtain ⟨f₂, hcalls⟩ := fakeRandoms_current hcurrent hinit n
    refine ⟨f₁, f₂, hrun, hinit, ?_⟩
    have hnumbers : ∀ k, (fakeGen.next.after k).result.toUInt32 = fakeNumber (k + 1) := fun k => by
      rw [← Gen.after_succ, fakeGen_result]
    simp only [hnumbers] at hcalls
    exact hcalls
  · intro f x hf
    obtain ⟨f₁, hseed, hcurrent, hinit, -⟩ := fakeRandomSeed_current x f
    obtain ⟨f₂, hcalls⟩ := fakeRandoms_current hcurrent (hinit.trans hf) n
    refine ⟨f₁, f₂, hseed, hinit.trans hf, ?_⟩
    simp only [fakeGen_result] at hcalls
    exact hcalls

/-- Another seed, the same numbers. Source: `fake-random.c` `fake_random_seed`. Kind: L -/
theorem fakeRandom_same_three :
    let f : FakeRandom := ⟨⟨RandomData.zero, fun _ _ => 0⟩, true, 0⟩
    ∃ f' f'', fakeRandomSeed 77 f = .ok f' ∧ f'.initP = true ∧
      fakeRandoms 3 f' = .ok ((List.range 3).map fakeNumber, f'') :=
  (fakeRandom_same 3).2 _ 77 rfl

end Cs140e.LibpiFake.PiRandom
