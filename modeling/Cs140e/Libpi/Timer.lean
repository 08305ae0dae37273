import Cs140e.Lib.Disturb
import Cs140e.Stop
import Mathlib.Algebra.Group.Nat.Defs

/-!
# Delays and timeouts

The busy waits of `libpi/staff-src/timer.c` and the timeouts of `libpi/include/timeout.h`, on a clock
that keeps the real time in microseconds. What the code sees of it is the free-running counter, its
low 32 bits; `passing gap` lets `gap i` microseconds go by before the `i`-th reading.

* `delayUs`, `delayMs`, `delaySec`, `timeoutStart`, `timeoutGetUsec`, `timeoutUsec`, `timeoutMsec`,
  `timeoutSec` — as the code computes them.
* `Waits p n` — `p` returns after `n` microseconds or later, whatever the clock does.
  `delay_waits_iff` — how long the delays wait.
* `session_counts` — a timeout that is polled often enough counts the time that has passed.

The memory barriers around a reading of the counter change no data and are left out.
-/

namespace Cs140e.Libpi

open Cs140e.Lib Cs140e.Lib.Prog

/-! ## The counter -/

/-- The real time, in microseconds. Source: `libpi/staff-src/timer.c` "in usec". Kind: D -/
structure Clock where
  now : Nat
  deriving DecidableEq, Repr

/-- The counter that the code reads wraps. Source: `timer.c` `timer_get_usec`,
`timer_get_usec_raw`. Kind: D -/
def timerGetUsec : Prog Clock Stop UInt32 := load fun c => UInt32.ofNat c.now

/-- Time goes by in front of the `i`-th reading. Source: `timeout.h` "you must keep checking".
Kind: D -/
def passing (gap : Nat → Nat) (i : Nat) (c : Clock) : Clock := { now := c.now + gap i }

/-- The difference of two readings. Source: `timer.c` `delay_us`. Kind: L -/
theorem counter_sub {a b : Nat} (h : a ≤ b) :
    (UInt32.ofNat b - UInt32.ofNat a).toNat = (b - a) % 2 ^ 32 := by
  obtain ⟨d, rfl⟩ := Nat.le.dest h
  rw [UInt32.ofNat_add, UInt32.add_comm, UInt32.add_sub_cancel, UInt32.toNat_ofNat',
    Nat.add_sub_cancel_left]

/-! ## Delays -/

/-- Source: `libpi/staff-src/timer.c` `delay_us`. Kind: D -/
def delayUs (us : UInt32) : Prog Clock Stop Unit := do
  let rb ← timerGetUsec
  loop (fun _ : Unit => do
    let ra ← timerGetUsec
    if ra - rb ≥ us then return .inr () else return .inl ()) () ret

/-- Source: `libpi/staff-src/timer.c` `delay_ms`. Kind: D -/
def delayMs (ms : UInt32) : Prog Clock Stop Unit := delayUs (ms * 1000)

/-- Source: `libpi/staff-src/timer.c` `delay_sec`. Kind: D -/
def delaySec (sec : UInt32) : Prog Clock Stop Unit := delayMs (sec * 1000)

/-- `p` returns after `usecs` real microseconds at the earliest, however the time goes by between
its readings of the counter. Source: `timer.c` `delay_us`. Kind: D -/
def Waits (p : Prog Clock Stop Unit) (usecs : Nat) : Prop :=
  ∀ gap start t, (∀ i, gap i < 2 ^ 32) →
    Runs (under (passing gap) p) (start, 0) (.ok ()) t → start.now + usecs ≤ t.1.now

/-- The delay is over when so much time has passed. Source: `timer.c` `delay_us`. Kind: P -/
theorem delayUs_meets (gap : Nat → Nat) (us : UInt32) (begun : Nat) :
    Meets (passing gap) (fun c => begun ≤ c.now) (delayUs us)
      (fun _ c => begun + us.toNat ≤ c.now) fun _ => False := by
  have hstable : ∀ b, Stable (passing gap) fun c => b ≤ c.now :=
    fun b i c h => Nat.le_trans h (Nat.le_add_right _ _)
  refine Meets.bind (M := fun rb c => ∃ b, (begun ≤ b ∧ rb = UInt32.ofNat b) ∧ b ≤ Clock.now c)
    (Meets.access (hstable begun) fun c h => ⟨Clock.now c, ⟨h, rfl⟩, Nat.le_refl _⟩) fun rb => ?_
  refine Meets.exists fun b => Meets.fact ?_
  rintro ⟨hb, rfl⟩
  refine Meets.loop (fun _ (c : Clock) => b ≤ c.now) (M := fun _ c => begun + us.toNat ≤ c.now)
    (fun _ => ?_) (fun _ => Meets.ret fun _ h => h) ()
  refine Meets.bind (M := fun ra c => ra = UInt32.ofNat c.now ∧ b ≤ c.now)
    (Meets.access (hstable b) fun c h => ⟨rfl, h⟩) fun ra => ?_
  refine Meets.ite (fun hge => Meets.ret ?_) fun _ => Meets.ret fun c h => h.2
  rintro c ⟨rfl, hle⟩
  have hpassed : us.toNat ≤ (c.now - b) % 2 ^ 32 := by
    rw [← counter_sub hle]
    exact UInt32.le_iff_toNat_le.mp hge
  have hmod := Nat.mod_le (c.now - b) (2 ^ 32)
  show begun + us.toNat ≤ c.now
  omega

/-- The delay can be over as soon as so much time has passed. Source: `timer.c` `delay_us`.
Kind: P -/
theorem delayUs_ends (us : UInt32) (c : Clock) :
    Runs (under (passing fun i => if i = 1 then us.toNat else 0) (delayUs us)) (c, 0) (.ok ())
      ({ now := c.now + us.toNat }, 2) := by
  have hfirst : passing (fun i => if i = 1 then us.toNat else 0) 0 c = c := rfl
  have hsecond : passing (fun i => if i = 1 then us.toNat else 0) 1 c =
      { now := c.now + us.toNat } := rfl
  have hpassed : UInt32.ofNat (c.now + us.toNat) - UInt32.ofNat c.now = us := by
    rw [UInt32.ofNat_add, UInt32.add_comm, UInt32.add_sub_cancel, UInt32.ofNat_toNat]
  unfold delayUs timerGetUsec
  rw [bind_eq_seq, runs_under_load_iff, hfirst]
  refine runs_loop_iff.mpr (runs_bind_iff.mpr (.inl
    ⟨.inr (), ({ now := c.now + us.toNat }, 2), runs_under_load_iff.mpr ?_, Runs.ret⟩))
  rw [hsecond, hpassed, if_pos (UInt32.le_refl us)]
  exact Runs.ret

/-- What a delay by `us` waits for, for sure. Source: `timer.c` `delay_us`. Kind: P -/
theorem delayUs_waits_iff (us : UInt32) (usecs : Nat) :
    Waits (delayUs us) usecs ↔ usecs ≤ us.toNat := by
  constructor
  · intro h
    have hend := h _ { now := 0 } _ (fun i => ?_) (delayUs_ends us { now := 0 })
    · simpa using hend
    · have hlt := us.toNat_lt
      split <;> omega
  · intro hle gap start t _ hrun
    have hlong := (delayUs_meets gap us start.now start 0 (Nat.le_refl _)).1 () t hrun
    omega

/-- A product wraps below itself or not at all. Source: `timer.c` `delay_ms`. Kind: L -/
theorem le_mod_iff {n : Nat} : n ≤ n % 2 ^ 32 ↔ n < 2 ^ 32 := by
  have hlt := Nat.mod_lt n (show 2 ^ 32 > 0 by decide)
  constructor
  · intro h
    omega
  · intro h
    exact Nat.le_of_eq (Nat.mod_eq_of_lt h).symm

/-- **Delays in milliseconds and in seconds** are long enough exactly when the microseconds fit in
32 bits. Source: `timer.c` `delay_ms`, `delay_sec`. Kind: P -/
theorem delay_waits_iff (n : UInt32) :
    (Waits (delayMs n) (n.toNat * 1000) ↔ n.toNat * 1000 < 2 ^ 32) ∧
      (Waits (delaySec n) (n.toNat * 1000000) ↔ n.toNat * 1000000 < 2 ^ 32) := by
  have hms : (n * 1000).toNat = n.toNat * 1000 % 2 ^ 32 := UInt32.toNat_mul n 1000
  have hsec : (n * 1000 * 1000).toNat = n.toNat * 1000000 % 2 ^ 32 := by
    rw [UInt32.toNat_mul, hms, show (1000 : UInt32).toNat = 1000 from rfl, Nat.mod_mul_mod,
      Nat.mul_assoc]
  constructor
  · rw [delayMs, delayUs_waits_iff, hms, le_mod_iff]
  · rw [delaySec, delayMs, delayUs_waits_iff, hsec, le_mod_iff]

/-- 4294968 milliseconds can be over after 704 microseconds, 4295 seconds after 32704.
Source: `timer.c` `delay_ms`, `delay_sec`. Kind: P -/
theorem delay_too_short :
    ¬ Waits (delayMs 4294968) (4294968 * 1000) ∧ ¬ Waits (delaySec 4295) (4295 * 1000000) := by
  constructor
  · rw [delayMs, delayUs_waits_iff]
    decide
  · rw [delaySec, delayMs, delayUs_waits_iff]
    decide

/-! ## Timeouts -/

/-- Source: `libpi/include/timeout.h` `timeout_t`. Kind: D -/
structure Timeout where
  timeLast : UInt32
  timeUsecs : UInt64
  deriving DecidableEq, Repr

/-- Source: `libpi/include/timeout.h` `timeout_start`. Kind: D -/
def timeoutStart : Prog Clock Stop Timeout := do
  let now ← timerGetUsec
  return { timeUsecs := 0, timeLast := now }

/-- The time counted, and the timeout afterwards. Source: `timeout.h` `timeout_get_usec`. Kind: D -/
def timeoutGetUsec (t : Timeout) : Prog Clock Stop (UInt64 × Timeout) := do
  let now ← timerGetUsec
  let t := { t with timeUsecs := t.timeUsecs + (now - t.timeLast).toUInt64 }
  let t := { t with timeLast := now }
  return (t.timeUsecs, t)

/-- Source: `timeout.h` `timeout_usec`. Kind: D -/
def timeoutUsec (t : Timeout) (maxUsec : UInt64) : Prog Clock Stop (Bool × Timeout) := do
  let (usecs, t) ← timeoutGetUsec t
  return (decide (usecs ≥ maxUsec), t)

/-- Source: `timeout.h` `timeout_msec`. Kind: D -/
def timeoutMsec (t : Timeout) (maxMsec : UInt64) : Prog Clock Stop (Bool × Timeout) :=
  timeoutUsec t (maxMsec * 1000)

/-- Source: `timeout.h` `timeout_sec`. Kind: D -/
def timeoutSec (t : Timeout) (maxSec : UInt64) : Prog Clock Stop (Bool × Timeout) :=
  timeoutMsec t (maxSec * 1000)

/-- The ways to ask whether the time is up.
Source: `timeout.h` `timeout_usec`, `timeout_msec`, `timeout_sec`
Kind: D -/
inductive Poll where
  | usec (maxUsec : UInt64)
  | msec (maxMsec : UInt64)
  | sec (maxSec : UInt64)
  deriving DecidableEq, Repr

namespace Poll

/-- Source: `timeout.h` `timeout_usec`, `timeout_msec`, `timeout_sec`. Kind: D -/
def ask : Poll → Timeout → Prog Clock Stop (Bool × Timeout)
  | usec maxUsec, t => timeoutUsec t maxUsec
  | msec maxMsec, t => timeoutMsec t maxMsec
  | sec maxSec, t => timeoutSec t maxSec

/-- The maximum in microseconds, taken in the integers. Source: `timeout.h` `timeout_usec`,
`timeout_msec`, `timeout_sec`. Kind: D -/
def usecs : Poll → Nat
  | usec maxUsec => maxUsec.toNat
  | msec maxMsec => maxMsec.toNat * 1000
  | sec maxSec => maxSec.toNat * 1000000

end Poll

/-- The answer of every poll, and the timeout after it.
Source: `timeout.h` `timeout_usec`, `timeout_msec`, `timeout_sec`
Kind: D -/
def polls : List Poll → Timeout → Prog Clock Stop (List (Bool × Timeout))
  | [], _ => return []
  | p :: ps, t => do
    let (up, t) ← p.ask t
    let answers ← polls ps t
    return (up, t) :: answers

/-- "call this first". Source: `timeout.h` `timeout_start`. Kind: D -/
def session (ps : List Poll) : Prog Clock Stop (List (Bool × Timeout)) := do
  let t ← timeoutStart
  polls ps t

/-- The real time between the first reading of the counter and the `n`-th one after it.
Source: `timeout.h` "the number of usecs since we started tracking time"
Kind: D -/
def elapsed (gap : Nat → Nat) : Nat → Nat
  | 0 => 0
  | n + 1 => elapsed gap n + gap (n + 1)

/-- Time does not go back. Source: `timeout.h` `timeout_get_usec`. Kind: L -/
theorem elapsed_mono (gap : Nat → Nat) {n m : Nat} (h : n ≤ m) : elapsed gap n ≤ elapsed gap m := by
  induction h with
  | refl => exact Nat.le_refl _
  | step _ ih => exact Nat.le_trans ih (Nat.le_add_right _ _)

/-- What the code compares with: the maximum in 64 bits. Source: `timeout.h` `timeout_usec`,
`timeout_msec`, `timeout_sec`. Kind: P -/
theorem Poll.ask_eq (p : Poll) (t : Timeout) :
    p.ask t = timeoutUsec t (UInt64.ofNat p.usecs) := by
  cases p with
  | usec maxUsec => rw [ask, usecs, UInt64.ofNat_toNat]
  | msec maxMsec => rw [ask, timeoutMsec, usecs, UInt64.ofNat_mul, UInt64.ofNat_toNat]; rfl
  | sec maxSec =>
      have hprod : UInt64.ofNat (maxSec.toNat * 1000000) = maxSec * 1000 * 1000 := by
        rw [show maxSec.toNat * 1000000 = maxSec.toNat * 1000 * 1000 by omega,
          UInt64.ofNat_mul, UInt64.ofNat_mul, UInt64.ofNat_toNat]
        rfl
      rw [ask, timeoutSec, timeoutMsec, usecs, hprod]

/-- The timeout `t` was last polled at the time `c`, `n` microseconds after its start.
Source: `timeout.h` `timeout_t`
Kind: D -/
structure Timeout.Counts (t : Timeout) (c : Clock) (n : Nat) : Prop where
  last : t.timeLast = UInt32.ofNat c.now
  usecs : t.timeUsecs.toNat = n

/-- One poll. Source: `timeout.h` `timeout_get_usec`, `timeout_usec`. Kind: P -/
theorem timeoutUsec_counts {gap : Nat → Nat} {t : Timeout} {c : Clock} {n i : Nat}
    (h : t.Counts c n) (hgap : gap i < 2 ^ 32) (hn : n + gap i < 2 ^ 64) (maxUsec : UInt64) :
    ∃ t' : Timeout, Runs (under (passing gap) (timeoutUsec t maxUsec)) (c, i)
        (.ok (decide (maxUsec.toNat ≤ n + gap i), t')) (passing gap i c, i + 1) ∧
      t'.Counts (passing gap i c) (n + gap i) := by
  have hstep : (UInt32.ofNat (passing gap i c).now - t.timeLast).toNat = gap i := by
    rw [h.last, passing, counter_sub (Nat.le_add_right _ _), Nat.add_sub_cancel_left,
      Nat.mod_eq_of_lt hgap]
  have hsum : (t.timeUsecs + (UInt32.ofNat (passing gap i c).now - t.timeLast).toUInt64).toNat =
      n + gap i := by
    rw [UInt64.toNat_add, UInt32.toNat_toUInt64, hstep, h.usecs, Nat.mod_eq_of_lt hn]
  refine ⟨{ timeLast := UInt32.ofNat (passing gap i c).now, timeUsecs := _ }, ?_, rfl, hsum⟩
  unfold timeoutUsec timeoutGetUsec timerGetUsec
  simp only [bind_eq_seq, seq_seq, runs_under_load_iff, pure_eq_ret, ret_bind, ge_iff_le,
    UInt64.le_iff_toNat_le, hsum]
  exact Runs.ret

/-- The polls that follow the `i`-th reading. Source: `timeout.h` `timeout_get_usec`. Kind: P -/
theorem polls_counts {gap : Nat → Nat} {ps : List Poll} {t : Timeout} {c : Clock} {i : Nat}
    (h : t.Counts c (elapsed gap i)) (hgap : ∀ k < ps.length, gap (i + k + 1) < 2 ^ 32)
    (htotal : elapsed gap (i + ps.length) < 2 ^ 64) :
    ∃ answers u, Runs (under (passing gap) (polls ps t)) (c, i + 1) (.ok answers) u ∧
      ∀ (k : Nat) p, ps[k]? = some p → ∃ up t', answers[k]? = some (up, t') ∧
        t'.timeUsecs.toNat = elapsed gap (i + k + 1) ∧
        (up = true ↔ (UInt64.ofNat p.usecs).toNat ≤ elapsed gap (i + k + 1)) := by
  induction ps generalizing t c i with
  | nil =>
      refine ⟨[], (c, i + 1), Runs.ret, ?_⟩
      intro k p hk
      simp at hk
  | cons p ps ih =>
      rw [List.length_cons] at hgap htotal
      have hnow := elapsed_mono gap (show i + 1 ≤ i + (ps.length + 1) by omega)
      have hgap1 : gap (i + 1) < 2 ^ 32 := hgap 0 (Nat.succ_pos _)
      obtain ⟨t', hrun, ht'⟩ := timeoutUsec_counts h hgap1
        (show elapsed gap i + gap (i + 1) < 2 ^ 64 from Nat.lt_of_le_of_lt hnow htotal)
        (UInt64.ofNat p.usecs)
      obtain ⟨answers, u, hrest, hanswers⟩ := ih (i := i + 1) ht'
        (fun k hk => by
          have hk' := hgap (k + 1) (by omega)
          rwa [show i + (k + 1) + 1 = i + 1 + k + 1 by omega] at hk')
        (by rwa [show i + 1 + ps.length = i + (ps.length + 1) by omega])
      refine ⟨(decide ((UInt64.ofNat p.usecs).toNat ≤ elapsed gap (i + 1)), t') :: answers, u,
        ?_, ?_⟩
      · unfold polls
        rw [Poll.ask_eq, bind_eq_seq, under_bind]
        refine Runs.bind hrun ?_
        dsimp only
        rw [bind_eq_seq, under_bind]
        exact Runs.bind hrest Runs.ret
      · rintro (_ | k) q hk
        · obtain rfl : p = q := by simpa using hk
          exact ⟨_, t', rfl, ht'.usecs, decide_eq_true_iff⟩
        · have hq := hanswers k q (by simpa using hk)
          rwa [show i + 1 + k + 1 = i + (k + 1) + 1 by omega] at hq

/-- **A timeout counts real time**, past every wrap of the counter, as long as it is polled before
the counter comes round; the answers say whether the maximum is reached, and one that did stays so.
Source: `timeout.h` `timeout_start`, `timeout_usec`, `timeout_msec`, `timeout_sec`
Kind: P -/
theorem session_counts (gap : Nat → Nat) (ps : List Poll) (start : Clock)
    (hgap : ∀ k < ps.length, gap (k + 1) < 2 ^ 32) (htotal : elapsed gap ps.length < 2 ^ 64) :
    ∃ answers u, Runs (under (passing gap) (session ps)) (start, 0) (.ok answers) u ∧
      (∀ (k : Nat) p, ps[k]? = some p → ∃ up t, answers[k]? = some (up, t) ∧
        t.timeUsecs.toNat = elapsed gap (k + 1) ∧
        (p.usecs < 2 ^ 64 → (up = true ↔ p.usecs ≤ elapsed gap (k + 1)))) ∧
      ∀ (k l : Nat) p q t, k ≤ l → ps[k]? = some p → ps[l]? = some q → q.usecs = p.usecs →
        answers[k]? = some (true, t) → ∃ t', answers[l]? = some (true, t') := by
  have hstart : ({ timeLast := UInt32.ofNat (passing gap 0 start).now, timeUsecs := 0 } :
      Timeout).Counts (passing gap 0 start) (elapsed gap 0) := ⟨rfl, rfl⟩
  obtain ⟨answers, u, hrun, hanswers⟩ := polls_counts (i := 0) hstart
    (fun k hk => by simpa using hgap k hk) (by simpa using htotal)
  simp only [Nat.zero_add] at hanswers
  refine ⟨answers, u, ?_, ?_, ?_⟩
  · unfold session timeoutStart timerGetUsec
    rw [bind_eq_seq, bind_eq_seq, seq_seq, runs_under_load_iff]
    exact hrun
  · intro k p hk
    obtain ⟨up, t, ht, hcount, hup⟩ := hanswers k p hk
    refine ⟨up, t, ht, hcount, fun hmax => ?_⟩
    rwa [UInt64.toNat_ofNat_of_lt' hmax] at hup
  · intro k l p q t hkl hk hl hmax ht
    obtain ⟨up, t₁, ht₁, -, hup⟩ := hanswers k p hk
    obtain ⟨up', t₂, ht₂, -, hup'⟩ := hanswers l q hl
    obtain ⟨rfl, rfl⟩ : up = true ∧ t₁ = t := by simpa [ht] using ht₁.symm
    have hreached := hup.mp rfl
    have hlater := elapsed_mono gap (show k + 1 ≤ l + 1 by omega)
    rw [hmax] at hup'
    obtain rfl := hup'.mpr (Nat.le_trans hreached hlater)
    exact ⟨t₂, ht₂⟩

/-- Polls 50 minutes apart, over two wraps. Source: `timeout.h` `timeout_start`. Kind: P -/
theorem session_counts_wraps :
    ∃ answers u, Runs (under (passing fun _ => 3000000000)
        (session [.usec 2000000000, .msec 6000001, .sec 8])) ({ now := 5 }, 0) (.ok answers) u ∧
      (∀ (k : Nat) p, [Poll.usec 2000000000, .msec 6000001, .sec 8][k]? = some p →
        ∃ up t, answers[k]? = some (up, t) ∧
        t.timeUsecs.toNat = elapsed (fun _ => 3000000000) (k + 1) ∧
        (p.usecs < 2 ^ 64 → (up = true ↔ p.usecs ≤ elapsed (fun _ => 3000000000) (k + 1)))) ∧
      ∀ (k l : Nat) p q t, k ≤ l → [Poll.usec 2000000000, .msec 6000001, .sec 8][k]? = some p →
        [Poll.usec 2000000000, .msec 6000001, .sec 8][l]? = some q → q.usecs = p.usecs →
        answers[k]? = some (true, t) → ∃ t', answers[l]? = some (true, t') :=
  session_counts (fun _ => 3000000000) [.usec 2000000000, .msec 6000001, .sec 8] { now := 5 }
    (fun _ _ => by decide) (by decide)

end Cs140e.Libpi
