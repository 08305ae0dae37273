import Mathlib.Tactic.Ring
import Cs140e.Stop

/-!
# Estimating a timeout by bisection

`estimate_t` of the radio tests (`tests/rf-support.h`): an interval `(lo, hi]` and a value to try, moved
down when it works and up when it does not.

* `estBsearch` — as the code computes it. The words are unsigned and wrap.
* `Halves lo hi l h` — repeated halving of `(lo, hi]` produces `(l, h]`. `Clear` — the condition on a
  threshold that the calls depend on.
* `Spans` — what holds between two calls, and `estCall_at`, all that a call can do there.
* `bisects_iff` — the searches that find the threshold without tripping an assert.
-/

namespace Cs140e.Nrf

/-- Source: `rf-support.h` `estimate_t`. Kind: D -/
structure Estimate where
  hi : UInt32
  lo : UInt32
  cur : UInt32
  deriving DecidableEq

/-- Source: `rf-support.h` `est_mk`. Kind: D -/
def estMk (hi lo : UInt32) : Estimate := ⟨hi, lo, hi⟩

/-- Source: `rf-support.h` `est_decrease`. Kind: D -/
def estDecrease (e : Estimate) : Except Stop (UInt32 × Estimate) := do
  let e := { e with hi := e.cur }
  let x := (e.hi + e.lo) / 2
  if x ≤ e.lo then return (0, e)
  if !(x > e.lo) then throw (.assert "x > e->lo")
  if !(x < e.hi) then throw (.assert "x < e->hi")
  return (1, { e with cur := x })

/-- Source: `rf-support.h` `est_increase`. Kind: D -/
def estIncrease (e : Estimate) : Except Stop (UInt32 × Estimate) := do
  let e := { e with lo := e.cur }
  let x := (e.hi + e.lo) / 2
  if x ≥ e.hi then return (0, e)
  if !(x > e.lo) then throw (.assert "x > e->lo")
  return (1, { e with cur := x })

/-- Source: `rf-support.h` `est_get`. Kind: D -/
def estGet (e : Estimate) : UInt32 := e.cur

/-- Source: `rf-support.h` `est_bsearch`. Kind: D -/
def estBsearch (e : Estimate) (increaseP : Bool) : Except Stop (UInt32 × Estimate) :=
  if increaseP then estIncrease e else estDecrease e

/-! ## Searching for a threshold -/

/-- A call with `increase_p = (est_get < T)`. Source: `rf-support.h` `est_bsearch`. Kind: D -/
def estCall (T : UInt32) (e : Estimate) : Except Stop (UInt32 × Estimate) :=
  estBsearch e (decide (estGet e < T))

/-- `n` calls that return 1. Source: `rf-support.h` `est_bsearch`. Kind: D -/
inductive EstCalls (T : UInt32) : Nat → Estimate → Estimate → Prop
  | nil {e : Estimate} : EstCalls T 0 e e
  | cons {n : Nat} {e e₁ e₂ : Estimate} (first : estCall T e = .ok (1, e₁))
      (rest : EstCalls T n e₁ e₂) : EstCalls T (n + 1) e e₂

/-- The value to try and the threshold are in the interval. Source: `rf-support.h` `estimate_t`.
Kind: D -/
structure Bracketed (T : UInt32) (e : Estimate) : Prop where
  lo_lt_cur : e.lo < e.cur
  cur_le_hi : e.cur ≤ e.hi
  lo_lt : e.lo < T
  le_hi : T ≤ e.hi

/-- No call trips an assert, and `Bracketed` holds before each of them.
Source: `rf-support.h` `est_bsearch`
Kind: D -/
def StaysBracketed (T : UInt32) (e : Estimate) : Prop :=
  ∀ n e', EstCalls T n e e' → Bracketed T e' ∧ ∃ r, estCall T e' = .ok r

/-- One of the first `k` calls returns 0, with `hi` at the threshold.
Source: `rf-support.h` `est_bsearch`
Kind: D -/
def Finds (T : UInt32) (e : Estimate) (k : Nat) : Prop :=
  ∃ n e₁ e₂, EstCalls T n e e₁ ∧ estCall T e₁ = .ok (0, e₂) ∧ n + 1 ≤ k ∧ Bracketed T e₂ ∧ e₂.hi = T

/-- The search from `est_mk(hi, lo)` does what it should. Source: `rf-support.h` `est_bsearch`.
Kind: D -/
def Bisects (lo hi T : UInt32) : Prop :=
  StaysBracketed T (estMk hi lo) ∧ Finds T (estMk hi lo) (Nat.log2 (hi.toNat - lo.toNat) + 2)

/-- After some calls one trips an assert. Source: `rf-support.h` `est_bsearch`. Kind: D -/
def Trips (T : UInt32) (e : Estimate) : Prop :=
  ∃ n e' expr, EstCalls T n e e' ∧ estCall T e' = .error (.assert expr)

/-! ## Halving -/

/-- Halving `(lo, hi]`, the middle rounded down, again and again produces `(l, h]`.
Source: `rf-support.h` `est_increase`, `est_decrease`
Kind: D -/
inductive Halves (lo hi : Nat) : Nat → Nat → Prop
  | whole : Halves lo hi lo hi
  | lower {l h : Nat} (of : Halves lo hi l h) (wide : 2 ≤ h - l) : Halves lo hi l ((l + h) / 2)
  | upper {l h : Nat} (of : Halves lo hi l h) (wide : 2 ≤ h - l) : Halves lo hi ((l + h) / 2) h

/-- No interval around `t` that can still be halved ends at `t`, or has ends whose sum is too large.
Source: `rf-support.h` `est_increase`, `est_decrease`
Kind: D -/
def Clear (lo hi t : Nat) : Prop :=
  ∀ l h, Halves lo hi l h → l < t → t ≤ h → 2 ≤ h - l → h ≠ t ∧ l + h < 2 ^ 32

section halving

variable {lo hi l h t : Nat}

/-- Source: none: infrastructure. Kind: L -/
theorem Halves.trans {l' h' : Nat} (h₁ : Halves lo hi l h) (h₂ : Halves l h l' h') :
    Halves lo hi l' h' := by
  induction h₂ with
  | whole => exact h₁
  | lower _ wide ih => exact ih.lower wide
  | upper _ wide ih => exact ih.upper wide

/-- Source: none: infrastructure. Kind: L -/
theorem Halves.bounds (hlt : lo < hi) (hh : Halves lo hi l h) : lo ≤ l ∧ l < h ∧ h ≤ hi := by
  induction hh with
  | whole => exact ⟨Nat.le_refl lo, hlt, Nat.le_refl hi⟩
  | lower _ wide ih => omega
  | upper _ wide ih => omega

/-- The first halving. Source: none: infrastructure. Kind: L -/
theorem Halves.first (hh : Halves lo hi l h) : (l = lo ∧ h = hi) ∨
    2 ≤ hi - lo ∧ (Halves lo ((lo + hi) / 2) l h ∨ Halves ((lo + hi) / 2) hi l h) := by
  induction hh with
  | whole => exact .inl ⟨rfl, rfl⟩
  | lower _ wide ih =>
      rcases ih with ⟨rfl, rfl⟩ | ⟨hwide, hl | hu⟩
      · exact .inr ⟨wide, .inl .whole⟩
      · exact .inr ⟨hwide, .inl (hl.lower wide)⟩
      · exact .inr ⟨hwide, .inr (hu.lower wide)⟩
  | upper _ wide ih =>
      rcases ih with ⟨rfl, rfl⟩ | ⟨hwide, hl | hu⟩
      · exact .inr ⟨wide, .inr .whole⟩
      · exact .inr ⟨hwide, .inl (hl.upper wide)⟩
      · exact .inr ⟨hwide, .inr (hu.upper wide)⟩

/-- Source: none: infrastructure. Kind: L -/
theorem clear_of_narrow (h : hi - lo < 2) : Clear lo hi t := by
  intro l h' hh _ _ hwide
  rcases hh.first with ⟨rfl, rfl⟩ | ⟨hwide', -⟩
  · omega
  · omega

/-- The threshold is in the lower half. Source: none: infrastructure. Kind: L -/
theorem clear_lower_iff (hlo : lo < t) (hle : t ≤ (lo + hi) / 2) (hwide : 2 ≤ hi - lo)
    (hsum : lo + hi < 2 ^ 32) : Clear lo hi t ↔ Clear lo ((lo + hi) / 2) t := by
  constructor
  · exact fun hc l h hh => hc l h ((Halves.whole.lower hwide).trans hh)
  · intro hc l h hh hl ht hw
    rcases hh.first with ⟨rfl, rfl⟩ | ⟨-, hlower | hupper⟩
    · exact ⟨by omega, hsum⟩
    · exact hc l h hlower hl ht hw
    · have hbounds := hupper.bounds (by omega)
      omega

/-- The threshold is in the upper half, and not the end of it. Source: none: infrastructure.
Kind: L -/
theorem clear_upper_iff (hlt : (lo + hi) / 2 < t) (hle : t ≤ hi) (hne : hi ≠ t) (hwide : 2 ≤ hi - lo)
    (hsum : lo + hi < 2 ^ 32) : Clear lo hi t ↔ Clear ((lo + hi) / 2) hi t := by
  constructor
  · exact fun hc l h hh => hc l h ((Halves.whole.upper hwide).trans hh)
  · intro hc l h hh hl ht hw
    rcases hh.first with ⟨rfl, rfl⟩ | ⟨-, hlower | hupper⟩
    · exact ⟨hne, hsum⟩
    · have hbounds := hlower.bounds (by omega)
      omega
    · exact hc l h hupper hl ht hw

end halving

/-! ## One call -/

variable {T : UInt32} {e : Estimate} {l h : Nat}

/-- Between two calls: the interval around the threshold can be halved, and its middle is tried next.
Source: `rf-support.h` `estimate_t`
Kind: D -/
structure Spans (T : UInt32) (l h : Nat) (e : Estimate) : Prop where
  lo : e.lo.toNat = l
  hi : e.hi.toNat = h
  cur : e.cur.toNat = (l + h) / 2
  wide : 2 ≤ h - l
  sum_lt : l + h < 2 ^ 32
  lt : l < T.toNat
  le : T.toNat ≤ h

/-- Source: `rf-support.h` `estimate_t`. Kind: L -/
theorem Spans.bracketed (hat : Spans T l h e) : Bracketed T e := by
  obtain ⟨hlo, hhi, hcur, hwide, -, hlt, hle⟩ := hat
  refine ⟨?_, ?_, ?_, ?_⟩
  · rw [UInt32.lt_iff_toNat_lt]
    omega
  · rw [UInt32.le_iff_toNat_le]
    omega
  · rw [UInt32.lt_iff_toNat_lt]
    omega
  · rw [UInt32.le_iff_toNat_le]
    omega

/-- The middle, when the sum does not wrap. Source: `rf-support.h` `est_decrease`. Kind: L -/
theorem middle_toNat {a b : UInt32} (h : a.toNat + b.toNat < 2 ^ 32) :
    ((a + b) / 2).toNat = (a.toNat + b.toNat) / 2 := by
  rw [UInt32.toNat_div, UInt32.toNat_add, Nat.mod_eq_of_lt h]
  rfl

/-- The middle, when it does. Source: `rf-support.h` `est_increase`. Kind: L -/
theorem middle_wraps {a b : UInt32} (h : 2 ^ 32 ≤ a.toNat + b.toNat) :
    ((a + b) / 2).toNat = (a.toNat + b.toNat - 2 ^ 32) / 2 := by
  have ha := a.toNat_lt
  have hb := b.toNat_lt
  have hmod : (a.toNat + b.toNat) % 2 ^ 32 = a.toNat + b.toNat - 2 ^ 32 := by
    rw [Nat.mod_eq_sub_mod h, Nat.mod_eq_of_lt (by omega)]
  rw [UInt32.toNat_div, UInt32.toNat_add, hmod]
  rfl

/-- Moving down to `(lo, cur]`. Source: `rf-support.h` `est_decrease`. Kind: P -/
theorem estDecrease_eq (hlt : e.lo < e.cur) (hsum : e.cur.toNat + e.lo.toNat < 2 ^ 32) :
    estDecrease e = if e.cur.toNat - e.lo.toNat < 2 then .ok (0, { e with hi := e.cur })
      else .ok (1, { e with hi := e.cur, cur := (e.cur + e.lo) / 2 }) := by
  have hmid := middle_toNat hsum
  have hlt' : e.lo.toNat < e.cur.toNat := hlt
  unfold estDecrease
  by_cases hnarrow : e.cur.toNat - e.lo.toNat < 2
  · have hle : (e.cur + e.lo) / 2 ≤ e.lo := by
      rw [UInt32.le_iff_toNat_le, hmid]
      omega
    simp [hle, hnarrow]
  · have hgt : e.lo < (e.cur + e.lo) / 2 := by
      rw [UInt32.lt_iff_toNat_lt, hmid]
      omega
    have hbelow : (e.cur + e.lo) / 2 < e.cur := by
      rw [UInt32.lt_iff_toNat_lt, hmid]
      omega
    have hnle : ¬ (e.cur + e.lo) / 2 ≤ e.lo := UInt32.not_le.mpr hgt
    simp [hnle, hgt, hbelow, hnarrow]

/-- Moving up to `(cur, hi]`: nothing stops at an interval of one value.
Source: `rf-support.h` `est_increase`
Kind: P -/
theorem estIncrease_eq (hlt : e.cur < e.hi) :
    estIncrease e = if e.hi.toNat - e.cur.toNat < 2 ∨ 2 ^ 32 ≤ e.hi.toNat + e.cur.toNat then
        .error (.assert "x > e->lo")
      else .ok (1, { e with lo := e.cur, cur := (e.hi + e.cur) / 2 }) := by
  have hlt' : e.cur.toNat < e.hi.toNat := hlt
  have hhi := e.hi.toNat_lt
  have hnge : ¬ (e.hi + e.cur) / 2 ≥ e.hi := by
    intro hge
    have hge' : e.hi.toNat ≤ ((e.hi + e.cur) / 2).toNat := hge
    by_cases hsum : e.hi.toNat + e.cur.toNat < 2 ^ 32
    · rw [middle_toNat hsum] at hge'
      omega
    · rw [middle_wraps (Nat.le_of_not_lt hsum)] at hge'
      omega
  unfold estIncrease
  by_cases hbad : e.hi.toNat - e.cur.toNat < 2 ∨ 2 ^ 32 ≤ e.hi.toNat + e.cur.toNat
  · have hngt : ¬ (e.hi + e.cur) / 2 > e.cur := by
      intro hgt
      have hgt' : e.cur.toNat < ((e.hi + e.cur) / 2).toNat := hgt
      by_cases hsum : e.hi.toNat + e.cur.toNat < 2 ^ 32
      · rw [middle_toNat hsum] at hgt'
        omega
      · rw [middle_wraps (Nat.le_of_not_lt hsum)] at hgt'
        omega
    rw [if_pos hbad, if_neg hnge]
    simp [hngt]
  · have hgt : (e.hi + e.cur) / 2 > e.cur := by
      show e.cur.toNat < ((e.hi + e.cur) / 2).toNat
      rw [middle_toNat (by omega)]
      omega
    rw [if_neg hbad, if_neg hnge]
    simp [hgt]

/-- **All that a call can do** between `l` and `h`. Source: `rf-support.h` `est_bsearch`. Kind: P -/
theorem estCall_at (hat : Spans T l h e) :
    (T.toNat ≤ (l + h) / 2 ∧ (l + h) / 2 - l < 2 ∧
        ∃ e', estCall T e = .ok (0, e') ∧ Bracketed T e' ∧ e'.hi = T) ∨
      (T.toNat ≤ (l + h) / 2 ∧ ∃ e', estCall T e = .ok (1, e') ∧ Spans T l ((l + h) / 2) e') ∨
      ((l + h) / 2 < T.toNat ∧ ∃ e', estCall T e = .ok (1, e') ∧ Spans T ((l + h) / 2) h e') ∨
      ((l + h) / 2 < T.toNat ∧ (h - (l + h) / 2 < 2 ∨ 2 ^ 32 ≤ (l + h) / 2 + h) ∧
        estCall T e = .error (.assert "x > e->lo")) := by
  obtain ⟨hlo, hhi, hcur, hwide, hsum, hlt, hle⟩ := hat
  have hbelow : e.lo < e.cur := by
    rw [UInt32.lt_iff_toNat_lt]
    omega
  have habove : e.cur < e.hi := by
    rw [UInt32.lt_iff_toNat_lt]
    omega
  unfold estCall estBsearch estGet
  by_cases hup : e.cur < T
  · have hup' : e.cur.toNat < T.toNat := hup
    rw [decide_eq_true hup, if_pos rfl, estIncrease_eq habove]
    by_cases hbad : e.hi.toNat - e.cur.toNat < 2 ∨ 2 ^ 32 ≤ e.hi.toNat + e.cur.toNat
    · rw [if_pos hbad]
      exact .inr (.inr (.inr ⟨by omega, by omega, rfl⟩))
    · rw [if_neg hbad]
      have hmid := middle_toNat (a := e.hi) (b := e.cur) (by omega)
      refine .inr (.inr (.inl ⟨by omega, _, rfl, ⟨hcur, hhi, ?_, ?_, ?_, ?_, hle⟩⟩))
      · show ((e.hi + e.cur) / 2).toNat = _
        rw [hmid, hhi, hcur, Nat.add_comm]
      · omega
      · omega
      · omega
  · have hdown : T.toNat ≤ e.cur.toNat := Nat.le_of_not_lt hup
    rw [decide_eq_false hup, if_neg (by decide), estDecrease_eq hbelow (by omega)]
    by_cases hnarrow : e.cur.toNat - e.lo.toNat < 2
    · rw [if_pos hnarrow]
      have heq : e.cur = T := UInt32.toNat_inj.mp (by omega)
      refine .inl ⟨by omega, by omega, _, rfl, ⟨hbelow, UInt32.le_refl _, ?_, ?_⟩, heq⟩
      · show e.lo.toNat < T.toNat
        omega
      · exact hdown
    · rw [if_neg hnarrow]
      have hmid := middle_toNat (a := e.cur) (b := e.lo) (by omega)
      refine .inr (.inl ⟨by omega, _, rfl, ⟨hlo, hcur, ?_, by omega, by omega, hlt, by omega⟩⟩)
      show ((e.cur + e.lo) / 2).toNat = _
      rw [hmid, hlo, hcur, Nat.add_comm]

/-! ## Runs -/

/-- Source: `rf-support.h` `est_bsearch`. Kind: L -/
theorem StaysBracketed.step {e' : Estimate} (hb : Bracketed T e) (hcall : estCall T e = .ok (1, e'))
    (h : StaysBracketed T e') : StaysBracketed T e := by
  intro n e₂ hcalls
  cases hcalls with
  | nil => exact ⟨hb, _, hcall⟩
  | cons first rest =>
      rw [hcall] at first
      cases first
      exact h _ _ rest

/-- Source: `rf-support.h` `est_bsearch`. Kind: L -/
theorem StaysBracketed.last {e' : Estimate} (hb : Bracketed T e) (hcall : estCall T e = .ok (0, e')) :
    StaysBracketed T e := by
  intro n e₂ hcalls
  cases hcalls with
  | nil => exact ⟨hb, _, hcall⟩
  | cons first rest =>
      rw [hcall] at first
      cases first

/-- Source: `rf-support.h` `est_bsearch`. Kind: L -/
theorem Finds.step {e' : Estimate} {k : Nat} (hcall : estCall T e = .ok (1, e')) (h : Finds T e' k) :
    Finds T e (k + 1) := by
  obtain ⟨n, e₁, e₂, hcalls, hlast, hn, hb, hhi⟩ := h
  exact ⟨n + 1, e₁, e₂, .cons hcall hcalls, hlast, by omega, hb, hhi⟩

/-- Source: `rf-support.h` `est_bsearch`. Kind: L -/
theorem Trips.step {e' : Estimate} (hcall : estCall T e = .ok (1, e')) (h : Trips T e') : Trips T e := by
  obtain ⟨n, e₂, expr, hcalls, htrip⟩ := h
  exact ⟨n + 1, e₂, expr, .cons hcall hcalls, htrip⟩

/-- Source: `rf-support.h` `est_bsearch`. Kind: L -/
theorem Trips.not_sound (h : Trips T e) : ¬ StaysBracketed T e := by
  obtain ⟨n, e', expr, hcalls, htrip⟩ := h
  intro hsound
  obtain ⟨r, hr⟩ := (hsound n e' hcalls).2
  rw [htrip] at hr
  cases hr

/-- A threshold that is clear is found, the interval halved by each call.
Source: `rf-support.h` `est_bsearch`
Kind: P -/
theorem Spans.finds {k : Nat} (hat : Spans T l h e) (hk : h - l ≤ 2 ^ k) (hc : Clear l h T.toNat) :
    StaysBracketed T e ∧ Finds T e k := by
  induction k generalizing l h e with
  | zero =>
      have hwide := hat.wide
      omega
  | succ k ih =>
      have hpow : 2 ^ (k + 1) = 2 * 2 ^ k := by ring
      have hwide := hat.wide
      have hb := hat.bracketed
      obtain ⟨hne, -⟩ := hc l h .whole hat.lt hat.le hwide
      rcases estCall_at hat with ⟨-, -, e', hcall, hb', hhi⟩ | ⟨hle, e', hcall, hat'⟩ |
        ⟨hlt, e', hcall, hat'⟩ | ⟨hlt, hbad, -⟩
      · exact ⟨.last hb hcall, 0, e, e', .nil, hcall, by omega, hb', hhi⟩
      · have hc' := (clear_lower_iff hat.lt hle hwide hat.sum_lt).mp hc
        obtain ⟨hsound, hfinds⟩ := ih hat' (by omega) hc'
        exact ⟨.step hb hcall hsound, hfinds.step hcall⟩
      · have hc' := (clear_upper_iff hlt hat.le hne hwide hat.sum_lt).mp hc
        obtain ⟨hsound, hfinds⟩ := ih hat' (by omega) hc'
        exact ⟨.step hb hcall hsound, hfinds.step hcall⟩
      · -- the assert trips in an interval that the condition excludes
        have hc' := (clear_upper_iff hlt hat.le hne hwide hat.sum_lt).mp hc
        have hle := hat.le
        have hsum := (hc' _ _ .whole hlt hle (by omega)).2
        omega

/-- A threshold that is not clear makes a call trip. Source: `rf-support.h` `est_bsearch`. Kind: P -/
theorem Spans.trips {k : Nat} (hat : Spans T l h e) (hk : h - l ≤ 2 ^ k) (hc : ¬ Clear l h T.toNat) :
    Trips T e := by
  induction k generalizing l h e with
  | zero =>
      have hwide := hat.wide
      omega
  | succ k ih =>
      have hpow : 2 ^ (k + 1) = 2 * 2 ^ k := by ring
      have hwide := hat.wide
      rcases estCall_at hat with ⟨hle, hnarrow, -⟩ | ⟨hle, e', hcall, hat'⟩ | ⟨hlt, e', hcall, hat'⟩ |
        ⟨-, -, hcall⟩
      · exact absurd ((clear_lower_iff hat.lt hle hwide hat.sum_lt).mpr (clear_of_narrow hnarrow)) hc
      · have hc' := mt (clear_lower_iff hat.lt hle hwide hat.sum_lt).mpr hc
        exact (ih hat' (by omega) hc').step hcall
      · have hc' : ¬ Clear ((l + h) / 2) h T.toNat := by
          intro hclear
          have hne := (hclear _ _ .whole hlt hat.le hat'.wide).1
          exact hc ((clear_upper_iff hlt hat.le hne hwide hat.sum_lt).mpr hclear)
        exact (ih hat' (by omega) hc').step hcall
      · exact ⟨0, e, _, .nil, hcall⟩

/-- The first call: `cur` is the upper end. Source: `rf-support.h` `est_mk`. Kind: P -/
theorem estCall_estMk {lo hi : UInt32} (hlt : lo < hi) (hsum : lo.toNat + hi.toNat < 2 ^ 32)
    (hlo : lo < T) (hhi : T ≤ hi) :
    Bracketed T (estMk hi lo) ∧
      ((hi.toNat - lo.toNat < 2 ∧ hi = T ∧ estCall T (estMk hi lo) = .ok (0, estMk hi lo)) ∨
        2 ≤ hi.toNat - lo.toNat ∧ ∃ e', estCall T (estMk hi lo) = .ok (1, e') ∧
          Spans T lo.toNat hi.toNat e') := by
  have hlt' : lo.toNat < hi.toNat := hlt
  have hlo' : lo.toNat < T.toNat := hlo
  have hhi' : T.toNat ≤ hi.toNat := hhi
  have hnot : ¬ (estMk hi lo).cur < T := fun h => absurd hhi' (Nat.not_le.mpr h)
  refine ⟨⟨hlt, UInt32.le_refl hi, hlo, hhi⟩, ?_⟩
  unfold estCall estBsearch estGet
  rw [decide_eq_false hnot, if_neg (by decide),
    estDecrease_eq (e := estMk hi lo) hlt (by rw [Nat.add_comm]; exact hsum)]
  by_cases hnarrow : (estMk hi lo).cur.toNat - (estMk hi lo).lo.toNat < 2
  · have hnarrow' : hi.toNat - lo.toNat < 2 := hnarrow
    rw [if_pos hnarrow]
    exact .inl ⟨hnarrow, UInt32.toNat_inj.mp (by omega), rfl⟩
  · have hwide : ¬ hi.toNat - lo.toNat < 2 := hnarrow
    have hmid := middle_toNat (a := hi) (b := lo) (by omega)
    rw [if_neg hnarrow]
    refine .inr ⟨by omega, _, rfl, ⟨rfl, rfl, ?_, by omega, hsum, hlo', hhi'⟩⟩
    show ((hi + lo) / 2).toNat = _
    rw [hmid, Nat.add_comm]

/-- **Bisection finds the threshold**, within the calls that halving takes, if and only if no interval
of two values or more that halving produces around it ends at it, or has ends that add up to `2 ^ 32`.
Otherwise an assert trips.
Source: `rf-support.h` `est_mk`, `est_decrease`, `est_increase`, `est_bsearch`
Kind: P -/
theorem bisects_iff {lo hi : UInt32} (hlt : lo < hi) (hsum : lo.toNat + hi.toNat < 2 ^ 32)
    (hlo : lo < T) (hhi : T ≤ hi) :
    Bisects lo hi T ↔ Clear lo.toNat hi.toNat T.toNat := by
  obtain ⟨hb, ⟨hnarrow, heq, hcall⟩ | ⟨hwide, e', hcall, hat⟩⟩ := estCall_estMk hlt hsum hlo hhi
  · refine iff_of_true ⟨.last hb hcall, 0, _, _, .nil, hcall, by omega, hb, heq⟩ ?_
    exact clear_of_narrow hnarrow
  · have hlog : hi.toNat - lo.toNat ≤ 2 ^ (Nat.log2 (hi.toNat - lo.toNat) + 1) :=
      Nat.le_of_lt Nat.lt_log2_self
    constructor
    · intro hbisects
      by_contra hc
      exact ((hat.trips hlog hc).step hcall).not_sound hbisects.1
    · intro hc
      obtain ⟨hsound, hfinds⟩ := hat.finds hlog hc
      exact ⟨.step hb hcall hsound, hfinds.step hcall⟩

/-- A threshold that three halvings close in on. Source: `rf-support.h` `est_bsearch`. Kind: L -/
theorem bisects_five : Bisects 0 8 5 :=
  (bisects_iff (T := 5) (by decide) (by decide) (by decide) (by decide)).mpr
    ((clear_upper_iff (by decide) (by decide) (by decide) (by decide) (by decide)).mpr
      ((clear_lower_iff (by decide) (by decide) (by decide) (by decide)).mpr
        ((clear_lower_iff (by decide) (by decide) (by decide) (by decide)).mpr
          (clear_of_narrow (by decide)))))

/-- **Two values, and the upper one is the threshold**; and a sum that wraps in a later call.
Source: `rf-support.h` `est_increase`
Kind: P -/
theorem bisects_trips : ¬ Bisects 0 2 2 ∧ ¬ Bisects 0 0xffffffff 0xfffffffe := by
  constructor
  · intro h
    have htrips : Trips 2 (estMk 2 0) := ⟨1, ⟨2, 0, 1⟩, "x > e->lo", .cons rfl .nil, rfl⟩
    exact htrips.not_sound h.1
  · intro h
    have htrips : Trips 0xfffffffe (estMk 0xffffffff 0) :=
      ⟨1, ⟨0xffffffff, 0, 0x7fffffff⟩, "x > e->lo", .cons rfl .nil, rfl⟩
    exact htrips.not_sound h.1

end Cs140e.Nrf
