import Cs140e.LibpiFake.PiRandomSeed
import Cs140e.LibpiFake.PutGet

/-!
# The fake pi

`fake-driver.c` starts the random numbers and calls `notmain`, with the device memory of
`fake-put-get.c` and the generator of `fake-random.c` and `pi-random.c` below it.

* `Driver` — a program under test: what it does next may depend on what it has read.
* `notmain` — the lines of the trace and how the process ends, over any source of random numbers;
  `notmain_agree` for two sources that give the same numbers.
* `fakeMain` — the whole program, with the static variables as the process finds them.
* `expected` — the trace over the fixed stream of random numbers.
* `fakeMain_same` — they agree, whatever the static variables of the generator are: everyone gets the
  same trace.
-/

namespace Cs140e.LibpiFake.FakePi

open Cs140e.LibpiFake.PiRandom (FakeRandom Current Gen fakeRandomInit fakeGen fakeNumber)

/-! ## The code -/

/-- A program that is called from `notmain`, by what it calls. Source: `fake-pi.h`; `fake-put-get.c`,
`fake-delay.c`, `fake-usec-delay.c`, `fake-dev-barrier.c`, `fake-reboot.c`. Kind: D -/
inductive Driver where
  | done
  | put (addr v : UInt32) (next : Driver)
  | get (addr : UInt32) (next : UInt32 → Driver)
  | delayCycles (ncycles : UInt32) (next : Driver)
  | delayUs (usec : UInt32) (next : Driver)
  | devBarrier (next : Driver)
  | rpiReboot
  | cleanReboot

/-- A line of the trace. Source: `fake-pi.h` `trace`. Kind: D -/
inductive Line where
  | access (a : Access)
  | delayCycles (ncycles : UInt32)
  | delayUs (usec : UInt32)
  | devBarrier
  | rawReboot
  | cleanReboot
  | calls (n : UInt32)
  deriving DecidableEq, Repr

/-- How the process ended. Source: `fake-pi.h` `panic`; `fake-reboot.c` `exit`. Kind: D -/
inductive End where
  | returned
  | rebooted
  | stopped (e : Stop)
  deriving DecidableEq

/-- The lines that are printed from here on, and how the process ends. `draw` is a call of `fake_random`,
and `calls` is `fake_random_calls`.
Source: `fake-driver.c` `main`
Kind: D -/
def notmain {σ : Type} (draw : σ → Except Stop (UInt32 × σ)) (calls : σ → UInt32) :
    Driver → Statics σ → List Line × End
  | .done, s => ([.calls (calls s.random)], .returned)
  | .put addr v next, s =>
    match PUT32 addr v s.mem with
    | .error e => ([], .stopped e)
    | .ok mem =>
      let (ls, e) := notmain draw calls next { s with mem }
      (.access (.put addr v) :: ls, e)
  | .get addr next, s =>
    match GET32 draw addr s with
    | .error e => ([], .stopped e)
    | .ok r =>
      let (ls, e) := notmain draw calls (next r.1) r.2
      (.access (.get addr r.1) :: ls, e)
  | .delayCycles n next, s =>
    let (ls, e) := notmain draw calls next s
    (.delayCycles n :: ls, e)
  | .delayUs n next, s =>
    let (ls, e) := notmain draw calls next s
    (.delayUs n :: ls, e)
  | .devBarrier next, s =>
    let (ls, e) := notmain draw calls next s
    (.devBarrier :: ls, e)
  | .rpiReboot, _ => ([.rawReboot], .rebooted)
  | .cleanReboot, _ => ([.cleanReboot], .rebooted)

/-- The process; the device memory is empty at its start.
Source: `fake-driver.c` `main`; `fake-pi.h` `fake_init`
Kind: D -/
def fakeMain (d : Driver) (f : FakeRandom) : List Line × End :=
  match fakeRandomInit f with
  | .error e => ([], .stopped e)
  | .ok random => notmain PiRandom.fakeRandom (·.nrandomCalls) d ⟨Fake.init.mem, random⟩

/-! ## The fixed stream -/

/-- The numbers behind the one that `fake_random_init` has looked at.
Source: `fake-random.c` `fake_random_init`
Kind: D -/
def stream (k : Nat) : UInt32 := fakeNumber (k + 1)

/-- The lines and the end, over the fixed stream. Source: `fake-driver.c` `main`. Kind: D -/
def expected (d : Driver) (s : Fake) : List Line × End :=
  notmain (fakeRandom stream) (fun drawn => UInt32.ofNat (drawn + 1)) d ⟨s.mem, s.drawn⟩

/-! ## Two sources of random numbers -/

section

variable {σ τ : Type} {draw : σ → Except Stop (UInt32 × σ)} {draw' : τ → Except Stop (UInt32 × τ)}
  {calls : σ → UInt32} {calls' : τ → UInt32} {R : σ → τ → Prop}

/-- Two sources of random numbers give the same numbers in related states.
Source: `fake-random.c` `fake_random`. Kind: D -/
def Agree (draw : σ → Except Stop (UInt32 × σ)) (draw' : τ → Except Stop (UInt32 × τ))
    (R : σ → τ → Prop) : Prop :=
  ∀ r r', R r r' → ∃ v s s', draw r = .ok (v, s) ∧ draw' r' = .ok (v, s') ∧ R s s'

/-- Source: `fake-put-get.c` `GET32`. Kind: L -/
theorem GET32_agree (hdraw : Agree draw draw' R) {r : σ} {r' : τ} (hr : R r r') (mem : MemT)
    (addr : UInt32) :
    (∃ e, GET32 draw addr ⟨mem, r⟩ = .error e ∧ GET32 draw' addr ⟨mem, r'⟩ = .error e) ∨
      ∃ v m s s', GET32 draw addr ⟨mem, r⟩ = .ok (v, ⟨m, s⟩) ∧
        GET32 draw' addr ⟨mem, r'⟩ = .ok (v, ⟨m, s'⟩) ∧ R s s' := by
  obtain ⟨v, s, s', hs, hs', hrel⟩ := hdraw r r' hr
  unfold GET32
  by_cases hchanging : changing addr = true
  · refine .inr ⟨v, mem, s, s', ?_, ?_, hrel⟩
    · simp [hchanging, hs]
    · simp [hchanging, hs']
  · cases hlook : memLookup mem addr with
    | some i =>
        refine .inr ⟨mem.ents[i].val, mem, r, r', ?_, ?_, hr⟩
        · simp [hchanging]
        · simp [hchanging]
    | none =>
        cases hinsert : memInsert mem addr v with
        | error e =>
            refine .inl ⟨e, ?_, ?_⟩
            · simp [hchanging, hs, hinsert]
            · simp [hchanging, hs', hinsert]
        | ok m =>
            refine .inr ⟨v, m, s, s', ?_, ?_, hrel⟩
            · simp [hchanging, hs, hinsert]
            · simp [hchanging, hs', hinsert]

/-- **The program under test** sees the numbers only. Source: `fake-driver.c` `main`. Kind: P -/
theorem notmain_agree (hdraw : Agree draw draw' R) (hcalls : ∀ r r', R r r' → calls r = calls' r')
    (d : Driver) {mem : MemT} {r : σ} {r' : τ} (hr : R r r') :
    notmain draw calls d ⟨mem, r⟩ = notmain draw' calls' d ⟨mem, r'⟩ := by
  induction d generalizing mem r r' with
  | done => exact congrArg (fun n => ([Line.calls n], End.returned)) (hcalls r r' hr)
  | put addr v next ih =>
      cases hput : PUT32 addr v mem with
      | error e => simp only [notmain, hput]
      | ok m => simp only [notmain, hput, ih hr]
  | get addr next ih =>
      rcases GET32_agree hdraw hr mem addr with ⟨e, hs, ht⟩ | ⟨v, m, s, s', hs, ht, hrel⟩
      · simp only [notmain, hs, ht]
      · simp only [notmain, hs, ht, ih v hrel]
  | delayCycles n next ih => simp only [notmain, ih hr]
  | delayUs n next ih => simp only [notmain, ih hr]
  | devBarrier next ih => simp only [notmain, ih hr]
  | rpiReboot => rfl
  | cleanReboot => rfl

end

/-! ## They agree -/

/-- The generator is at some place of the fixed stream. Source: `fake-random.c` `r`, `nrandom_calls`.
Kind: D -/
structure AtPlace (f : FakeRandom) (drawn : Nat) : Prop where
  generator : Current 0 (fakeGen.after (drawn + 1)) f.r
  initialised : f.initP = true
  calls : f.nrandomCalls = UInt32.ofNat (drawn + 1)

/-- Source: `fake-random.c` `fake_random`. Kind: L -/
theorem fakeRandom_agree : Agree PiRandom.fakeRandom (fakeRandom stream) AtPlace := by
  intro f drawn h
  obtain ⟨f', hcall, hnext, hinit, hcalls⟩ := PiRandom.fakeRandom_current h.generator h.initialised
  rw [PiRandom.fakeGen_result] at hcall
  refine ⟨stream drawn, f', drawn + 1, hcall, rfl, ?_, hinit, ?_⟩
  · rw [← Gen.after_next] at hnext
    exact hnext
  · rw [hcalls, h.calls, UInt32.ofNat_add (drawn + 1) 1]
    rfl

/-- **Everyone gets the same trace**: whatever the generator's static variables are when the process
starts, `fake_init` does not fail, and every program under test prints the lines, and ends in the way,
that it does over the fixed stream of random numbers. Source: `fake-driver.c` `main`. Kind: P -/
theorem fakeMain_same (d : Driver) (f : FakeRandom) (hcalls : f.nrandomCalls = 0) :
    fakeMain d f = expected d Fake.init := by
  obtain ⟨random, hinit, hcurrent, hinitP, hcalls'⟩ := PiRandom.fakeRandomInit_current f
  have hplace : AtPlace random 0 := by
    refine ⟨?_, hinitP, ?_⟩
    · rw [Gen.after_next, Gen.after_zero]
      exact hcurrent
    · rw [hcalls', hcalls]
      rfl
  unfold fakeMain
  rw [hinit]
  exact notmain_agree fakeRandom_agree (fun _ _ h => h.calls) d hplace

/-- A program that writes back what it has read. Source: `fake-pi.h` `notmain`. Kind: L -/
theorem fakeMain_same_copy :
    let d : Driver := .get gpioLev0 fun v =>
      .put 0x20200000 v (.delayUs 10 (.get 0x20200000 fun _ => .done))
    fakeMain d ⟨⟨PiRandom.RandomData.zero, fun _ _ => 7⟩, false, 0⟩ = expected d Fake.init :=
  fakeMain_same _ _ rfl

end Cs140e.LibpiFake.FakePi
