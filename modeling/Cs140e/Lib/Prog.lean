import Mathlib.Logic.Relation

/-!
# Imperative programs: accesses, unbounded loops, stops

A small language for C-like code, with its sequential semantics.

* `Prog S E α` — a program over a state `S` that returns an `α` or stops with an `E`. Its only
  effects are `act f`, one indivisible access of the state, and `loop`, which repeats its body
  until the body yields a value; a turn hands the loop's local variables on to the next one. There
  is no bound on the number of turns.
* `exec fuel` — the executable semantics, and `Runs p s o t`, "some amount of fuel takes `p` from
  `s` to the outcome `o` in state `t`". `Runs` is functional (`Runs.det`), and each constructor
  has an `iff` lemma that inverts it; `runs_bind_iff` is the rule for sequencing.
* `whileDo` — the C loop, with its unrolling `runs_whileDo_iff`.
* `under env` — the same program, with a disturbance `env i` of the state before its `i`-th access.
-/

namespace Cs140e.Lib

/-- Programs over the state `S` that stop with an `E` or return a value.
Source: none: infrastructure
Kind: D -/
inductive Prog (S E : Type) : Type → Type 1 where
  /-- Return a value. -/
  | ret {α : Type} (a : α) : Prog S E α
  /-- One indivisible access: read and update the state, go on with what was read. -/
  | act {ρ α : Type} (f : S → ρ × S) (k : ρ → Prog S E α) : Prog S E α
  /-- Repeat `body` from the local variables `i`, until it yields a value; go on with that. -/
  | loop {σ β α : Type} (body : σ → Prog S E (σ ⊕ β)) (i : σ) (k : β → Prog S E α) : Prog S E α
  /-- Stop. -/
  | raise {α : Type} (e : E) : Prog S E α

namespace Prog

variable {S E α β γ σ : Type}

/-- Sequencing. Source: none: infrastructure. Kind: D -/
def bind : {α : Type} → Prog S E α → (α → Prog S E β) → Prog S E β
  | _, ret a, f => f a
  | _, act g k, f => act g fun r => (k r).bind f
  | _, loop body i k, f => loop body i fun b => (k b).bind f
  | _, raise e, _ => raise e

instance : Monad (Prog S E) where
  pure := ret
  bind := bind

/-- `pure` is `ret`. Source: none: infrastructure. Kind: L -/
@[simp] theorem pure_eq_ret (a : α) : (pure a : Prog S E α) = ret a := rfl

/-- `>>=` is `bind`. Source: none: infrastructure. Kind: L -/
@[simp] theorem bind_eq_seq (p : Prog S E α) (f : α → Prog S E β) : (p >>= f) = p.bind f := rfl

/-- Equation lemma: `bind` on a constructor. Source: none: infrastructure. Kind: L -/
@[simp] theorem ret_bind (a : α) (f : α → Prog S E β) : (ret a).bind f = f a := rfl

/-- Equation lemma: `bind` on a constructor. Source: none: infrastructure. Kind: L -/
@[simp] theorem act_bind {ρ : Type} (g : S → ρ × S) (k : ρ → Prog S E α)
    (f : α → Prog S E β) : (act g k).bind f = act g fun r => (k r).bind f := rfl

/-- Equation lemma: `bind` on a constructor. Source: none: infrastructure. Kind: L -/
@[simp] theorem loop_bind (body : σ → Prog S E (σ ⊕ γ)) (i : σ) (k : γ → Prog S E α)
    (f : α → Prog S E β) : (loop body i k).bind f = loop body i fun b => (k b).bind f := rfl

/-- Equation lemma: `bind` on a constructor. Source: none: infrastructure. Kind: L -/
@[simp] theorem raise_bind (e : E) (f : α → Prog S E β) :
    (raise e : Prog S E α).bind f = raise e := rfl

/-- Sequencing is associative. Source: none: infrastructure. Kind: L -/
theorem seq_seq (p : Prog S E α) (f : α → Prog S E β) (g : β → Prog S E γ) :
    (p.bind f).bind g = p.bind fun a => (f a).bind g := by
  induction p with
  | ret a => rfl
  | act h k ih => simp only [act_bind, ih]
  | loop body i k _ ih => simp only [loop_bind, ih]
  | raise e => rfl

/-- A single access of the state. Source: none: infrastructure. Kind: D -/
def access {ρ : Type} (f : S → ρ × S) : Prog S E ρ := act f ret

/-- Read something off the state. Source: none: infrastructure. Kind: D -/
def load {ρ : Type} (f : S → ρ) : Prog S E ρ := access fun s => (f s, s)

/-- Change the state. Source: none: infrastructure. Kind: D -/
def store (f : S → S) : Prog S E Unit := access fun s => ((), f s)

/-- One turn of a loop followed by the rest of it. Source: none: infrastructure. Kind: D -/
def again (body : σ → Prog S E (σ ⊕ β)) (i : σ) (k : β → Prog S E α) : Prog S E α :=
  (body i).bind fun
    | .inr b => k b
    | .inl j => loop body j k

/-- One turn of a loop that something follows. Source: none: infrastructure. Kind: L -/
theorem again_bind (body : σ → Prog S E (σ ⊕ γ)) (i : σ) (k : γ → Prog S E α)
    (f : α → Prog S E β) :
    (again body i fun b => (k b).bind f) = (again body i k).bind f := by
  simp only [again, seq_seq]
  congr 1
  funext x
  cases x <;> rfl

/-- `while (cond) body`. Source: none: infrastructure. Kind: D -/
def whileDo (cond : Prog S E Bool) (body : Prog S E Unit) : Prog S E Unit :=
  loop (fun _ => cond.bind fun
    | true => body.bind fun _ => ret (.inl ())
    | false => ret (.inr ())) () ret

/-- `assert(b)`, or any other check that stops with `e` when it fails.
Source: none: infrastructure. Kind: D -/
def check (b : Bool) (e : E) : Prog S E Unit := if b then ret () else raise e

/-- A computation without accesses. Source: none: infrastructure. Kind: D -/
def ofResult : Except E α → Prog S E α
  | .ok a => ret a
  | .error e => raise e

/-- Equation lemma: `ofResult` on a constructor. Source: none: infrastructure. Kind: L -/
@[simp] theorem ofResult_ok (a : α) : (ofResult (.ok a) : Prog S E α) = ret a := rfl

/-- Equation lemma: `ofResult` on a constructor. Source: none: infrastructure. Kind: L -/
@[simp] theorem ofResult_error (e : E) : (ofResult (.error e) : Prog S E α) = raise e := rfl

/-! ## Sequential runs -/

/-- Run with a bound on the number of accesses and loop turns; `none` when the bound is hit.
Source: none: infrastructure. Kind: D -/
def exec : Nat → Prog S E α → S → Option (Except E α × S)
  | 0, _, _ => none
  | _ + 1, ret a, s => some (.ok a, s)
  | _ + 1, raise e, s => some (.error e, s)
  | n + 1, act f k, s => exec n (k (f s).1) (f s).2
  | n + 1, loop body i k, s => exec n (again body i k) s

/-- Equation lemma: `exec` without fuel. Source: none: infrastructure. Kind: L -/
@[simp] theorem exec_zero (p : Prog S E α) (s : S) : exec 0 p s = none := rfl

/-- Equation lemma: `exec` on a constructor. Source: none: infrastructure. Kind: L -/
@[simp] theorem exec_ret (n : Nat) (a : α) (s : S) :
    exec (n + 1) (ret a : Prog S E α) s = some (.ok a, s) := rfl

/-- Equation lemma: `exec` on a constructor. Source: none: infrastructure. Kind: L -/
@[simp] theorem exec_raise (n : Nat) (e : E) (s : S) :
    exec (n + 1) (raise e : Prog S E α) s = some (.error e, s) := rfl

/-- Equation lemma: `exec` on a constructor. Source: none: infrastructure. Kind: L -/
@[simp] theorem exec_act {ρ : Type} (n : Nat) (f : S → ρ × S) (k : ρ → Prog S E α) (s : S) :
    exec (n + 1) (act f k) s = exec n (k (f s).1) (f s).2 := rfl

/-- Equation lemma: `exec` on a constructor. Source: none: infrastructure. Kind: L -/
@[simp] theorem exec_loop (n : Nat) (body : σ → Prog S E (σ ⊕ β)) (i : σ) (k : β → Prog S E α)
    (s : S) : exec (n + 1) (loop body i k) s = exec n (again body i k) s := rfl

/-- `p` started in `s` ends with outcome `o` in state `t`. Source: none: infrastructure. Kind: D -/
def Runs (p : Prog S E α) (s : S) (o : Except E α) (t : S) : Prop :=
  ∃ n, exec n p s = some (o, t)

/-- What is executed runs. Source: none: infrastructure. Kind: L -/
theorem runs_of_exec {n : Nat} {p : Prog S E α} {s : S} {o : Except E α}
    (h : (exec n p s).map (·.1) = some o) : ∃ t, Runs p s o t := by
  obtain ⟨⟨o', t⟩, hexec, rfl⟩ := Option.map_eq_some_iff.mp h
  exact ⟨t, n, hexec⟩

/-- More fuel never changes a result. Source: none: infrastructure. Kind: L -/
theorem exec_mono {n m : Nat} (hnm : n ≤ m) {p : Prog S E α} {s : S} {r : Except E α × S}
    (h : exec n p s = some r) : exec m p s = some r := by
  induction n generalizing m p s with
  | zero => simp at h
  | succ n ih =>
      obtain ⟨m, rfl⟩ : ∃ k, m = k + 1 := ⟨m - 1, by omega⟩
      cases p with
      | ret a => simpa using h
      | raise e => simpa using h
      | act f k => exact ih (p := k (f s).1) (by omega) h
      | loop body i k => exact ih (p := again body i k) (by omega) h

/-- A program has at most one outcome. Source: none: infrastructure. Kind: L -/
theorem Runs.det {p : Prog S E α} {s t t' : S} {o o' : Except E α}
    (h : Runs p s o t) (h' : Runs p s o' t') : o = o' ∧ t = t' := by
  obtain ⟨n, hn⟩ := h
  obtain ⟨m, hm⟩ := h'
  have h₁ := exec_mono (Nat.le_max_left n m) hn
  have h₂ := exec_mono (Nat.le_max_right n m) hm
  rw [h₁] at h₂
  simpa using h₂

/-- A result needs at least one unit of fuel. Source: none: infrastructure. Kind: L -/
theorem runs_iff_succ {p : Prog S E α} {s t : S} {o : Except E α} :
    Runs p s o t ↔ ∃ n, exec (n + 1) p s = some (o, t) := by
  constructor
  · rintro ⟨n, h⟩
    exact ⟨n, exec_mono (Nat.le_succ n) h⟩
  · rintro ⟨n, h⟩
    exact ⟨n + 1, h⟩

/-- Inversion of `Runs` at a constructor. Source: none: infrastructure. Kind: L -/
@[simp] theorem runs_ret_iff {a : α} {s t : S} {o : Except E α} :
    Runs (ret a) s o t ↔ o = .ok a ∧ t = s := by
  simp [runs_iff_succ, eq_comm]

/-- Returning. Source: none: infrastructure. Kind: L -/
theorem Runs.ret {a : α} {s : S} : Runs (Prog.ret a : Prog S E α) s (.ok a) s :=
  runs_ret_iff.mpr ⟨rfl, rfl⟩

/-- Inversion of `Runs` at a constructor. Source: none: infrastructure. Kind: L -/
@[simp] theorem runs_raise_iff {e : E} {s t : S} {o : Except E α} :
    Runs (raise e) s o t ↔ o = .error e ∧ t = s := by
  simp [runs_iff_succ, eq_comm]

/-- Inversion of `Runs` at a constructor. Source: none: infrastructure. Kind: L -/
@[simp] theorem runs_act_iff {ρ : Type} {f : S → ρ × S} {k : ρ → Prog S E α} {s t : S}
    {o : Except E α} : Runs (act f k) s o t ↔ Runs (k (f s).1) (f s).2 o t := by
  rw [runs_iff_succ]
  rfl

/-- Inversion of `Runs` at a loop: one turn, then the rest. Source: none: infrastructure.
Kind: L -/
theorem runs_loop_iff {body : σ → Prog S E (σ ⊕ β)} {i : σ} {k : β → Prog S E α} {s t : S}
    {o : Except E α} : Runs (loop body i k) s o t ↔ Runs (again body i k) s o t := by
  rw [runs_iff_succ]
  rfl

/-- A run of a sequence splits into a run of its first part and what follows, with no more fuel.
Source: none: infrastructure. Kind: L -/
theorem exec_bind {n : Nat} {p : Prog S E α} {f : α → Prog S E β} {s t : S} {o : Except E β}
    (h : exec n (p.bind f) s = some (o, t)) :
    (∃ a u, Runs p s (.ok a) u ∧ exec n (f a) u = some (o, t)) ∨
      ∃ e, o = .error e ∧ Runs p s (.error e) t := by
  induction n generalizing α p s with
  | zero => simp at h
  | succ n ih =>
      cases p with
      | ret a => exact .inl ⟨a, s, by simp, h⟩
      | raise e =>
          simp only [raise_bind, exec_raise, Option.some.injEq, Prod.mk.injEq] at h
          exact .inr ⟨e, h.1.symm, by simp [h.2]⟩
      | act g k =>
          rcases ih (p := k (g s).1) h with ⟨a, u, hp, hf⟩ | ⟨e, ho, hp⟩
          · exact .inl ⟨a, u, by simpa using hp, exec_mono (Nat.le_succ n) hf⟩
          · exact .inr ⟨e, ho, by simpa using hp⟩
      | loop body i k =>
          simp only [loop_bind, exec_loop, again_bind] at h
          rcases ih h with ⟨a, u, hp, hf⟩ | ⟨e, ho, hp⟩
          · exact .inl ⟨a, u, runs_loop_iff.mpr hp, exec_mono (Nat.le_succ n) hf⟩
          · exact .inr ⟨e, ho, runs_loop_iff.mpr hp⟩

/-- **The rule of sequencing.** Source: none: infrastructure. Kind: P -/
theorem runs_bind_iff {p : Prog S E α} {f : α → Prog S E β} {s t : S} {o : Except E β} :
    Runs (p.bind f) s o t ↔
      (∃ a u, Runs p s (.ok a) u ∧ Runs (f a) u o t) ∨
        ∃ e, o = .error e ∧ Runs p s (.error e) t := by
  constructor
  · rintro ⟨n, h⟩
    rcases exec_bind h with ⟨a, u, hp, hf⟩ | herr
    · exact .inl ⟨a, u, hp, n, hf⟩
    · exact .inr herr
  · have key : ∀ {α : Type} (n : Nat) (p : Prog S E α) (f : α → Prog S E β) (s u : S)
        (r : Except E α), exec n p s = some (r, u) →
        (∀ a, r = .ok a → Runs (f a) u o t → Runs (p.bind f) s o t) ∧
          (∀ e, r = .error e → o = .error e → u = t → Runs (p.bind f) s o t) := by
      intro α n
      induction n generalizing α with
      | zero => intro p f s u r h; simp at h
      | succ n ih =>
          intro p f s u r h
          cases p with
          | ret a =>
              simp only [exec_ret, Option.some.injEq, Prod.mk.injEq] at h
              obtain ⟨rfl, rfl⟩ := h
              exact ⟨by rintro _ ⟨⟩ hf; exact hf, by rintro e ⟨⟩⟩
          | raise e =>
              simp only [exec_raise, Option.some.injEq, Prod.mk.injEq] at h
              obtain ⟨rfl, rfl⟩ := h
              refine ⟨by rintro a ⟨⟩, ?_⟩
              rintro _ ⟨⟩ rfl rfl
              simp
          | act g k =>
              have := ih (k (g s).1) f _ u r h
              simpa using this
          | loop body i k =>
              have := ih (again body i k) f s u r h
              simpa only [loop_bind, runs_loop_iff, again_bind] using this
    rintro (⟨a, u, ⟨n, hn⟩, hf⟩ | ⟨e, rfl, n, hn⟩)
    · exact (key n p f s u _ hn).1 a rfl hf
    · exact (key n p f s t _ hn).2 e rfl rfl rfl

/-- Sequencing, forwards. Source: none: infrastructure. Kind: L -/
theorem Runs.bind {p : Prog S E α} {f : α → Prog S E β} {s u t : S} {a : α} {o : Except E β}
    (hp : Runs p s (.ok a) u) (hf : Runs (f a) u o t) : Runs (p.bind f) s o t :=
  runs_bind_iff.mpr (.inl ⟨a, u, hp, hf⟩)

/-- A stop in the first part stops the sequence. Source: none: infrastructure. Kind: L -/
theorem Runs.bind_error {p : Prog S E α} {f : α → Prog S E β} {s t : S} {e : E}
    (hp : Runs p s (.error e) t) : Runs (p.bind f) s (.error e) t :=
  runs_bind_iff.mpr (.inr ⟨e, rfl, hp⟩)

/-- A load goes on with what it read. Source: none: infrastructure. Kind: L -/
@[simp] theorem runs_load_bind_iff {ρ : Type} {f : S → ρ} {k : ρ → Prog S E α} {s t : S}
    {o : Except E α} : Runs ((load f).bind k) s o t ↔ Runs (k (f s)) s o t := by
  simp [load, access]

/-- A store goes on in the new state. Source: none: infrastructure. Kind: L -/
@[simp] theorem runs_store_bind_iff {f : S → S} {k : Unit → Prog S E α} {s t : S}
    {o : Except E α} : Runs ((store f).bind k) s o t ↔ Runs (k ()) (f s) o t := by
  simp [store, access]

/-- `while` tests its condition, and after a turn starts again. Source: none: infrastructure.
Kind: L -/
theorem runs_whileDo_iff {cond : Prog S E Bool} {body : Prog S E Unit} {s t : S}
    {o : Except E Unit} : Runs (whileDo cond body) s o t ↔
      Runs (cond.bind fun b => if b then body.bind fun _ => whileDo cond body else ret ()) s o t := by
  refine runs_loop_iff.trans ?_
  rw [again, seq_seq]
  apply iff_of_eq
  congr 2
  funext b
  cases b
  · rfl
  · simp only [seq_seq, ret_bind, if_true]
    rfl

/-- A check that holds is passed. Source: none: infrastructure. Kind: L -/
theorem check_of_true {b : Bool} (h : b = true) (e : E) : (check b e : Prog S E Unit) = ret () := by
  unfold check
  rw [h]
  rfl

/-- A computation without accesses ends as it does. Source: none: infrastructure. Kind: L -/
@[simp] theorem runs_ofResult_iff {x : Except E α} {s t : S} {o : Except E α} :
    Runs (ofResult x) s o t ↔ o = x ∧ t = s := by
  cases x <;> simp

/-! ## Disturbed runs -/

/-- The program in an environment that changes the state by `env i` just before its `i`-th access.
The state keeps the number of accesses made. Source: none: infrastructure. Kind: D -/
def under (env : Nat → S → S) : {α : Type} → Prog S E α → Prog (S × Nat) E α
  | _, ret a => ret a
  | _, raise e => raise e
  | _, act f k => act (fun x => ((f (env x.2 x.1)).1, (f (env x.2 x.1)).2, x.2 + 1))
      fun r => under env (k r)
  | _, loop body i k => loop (fun j => under env (body j)) i fun b => under env (k b)

variable {env : Nat → S → S}

/-- Disturbing a sequence disturbs its parts. Source: none: infrastructure. Kind: L -/
theorem under_bind (p : Prog S E α) (f : α → Prog S E β) :
    under env (p.bind f) = (under env p).bind fun a => under env (f a) := by
  induction p with
  | ret a => rfl
  | act g k ih => simp only [act_bind, under, ih]
  | loop body i k _ ih => simp only [loop_bind, under, ih]
  | raise e => rfl

/-- A disturbed load. Source: none: infrastructure. Kind: L -/
theorem runs_under_load_iff {ρ : Type} {f : S → ρ} {k : ρ → Prog S E α} {s : S} {i : Nat}
    {t : S × Nat} {o : Except E α} :
    Runs (under env ((load f).bind k)) (s, i) o t ↔
      Runs (under env (k (f (env i s)))) (env i s, i + 1) o t := by
  simp [load, access, under]

/-- A disturbed store. Source: none: infrastructure. Kind: L -/
theorem runs_under_store_iff {f : S → S} {k : Unit → Prog S E α} {s : S} {i : Nat} {t : S × Nat}
    {o : Except E α} :
    Runs (under env ((store f).bind k)) (s, i) o t ↔
      Runs (under env (k ())) (f (env i s), i + 1) o t := by
  simp [store, access, under]

end Prog

end Cs140e.Lib
