import Cs140e.Libunix.PiDone

/-!
# libunix: the echo loop

`pi_echo` (`pi-echo.c`) over `read_timeout` (`read-timeout.c`), `can_read_timeout`
(`can-read.c`) and `write_exact` (`write-exact.c`). What the system calls of a turn do is an
input, a `Round`, so a list of rounds is a run of any length with any outcomes.

* `readTimeout`, `piEcho` — as the code computes them. The indices that `buf[n] = 0` stores to and the
  counts handed to `write_exact` are kept as histories, also when they are wrong; what a store outside
  of the array overwrites is not modelled. Debugging output is not modelled either.
* `turn_safe_iff` — what one turn does to the histories.
* `echo_survives_iff` — the runs that stay inside of the array.
-/

namespace Cs140e.Libunix

/-! ## System calls -/

/-- What one poll of a descriptor, and the `read` that follows it, meet with.
Source: `read-timeout.c` `read_timeout`
Kind: D -/
inductive Polled where
  /-- `select` fails. -/
  | selectFails
  /-- Nothing comes in time. -/
  | timeout
  /-- There is something, and `read` fails. -/
  | readFails
  /-- These bytes can be read; none at the end of the stream. -/
  | data (bs : List UInt8)
  deriving DecidableEq

/-- `sys_die(syscall, msg)`. Source: `demand.h` `sys_die`. Kind: D -/
def sysDie (msg : String) : Stop := .panic ("FATAL syscall error: " ++ msg ++ "\n\tperror reason: ") []

/-- `read(fd, data, n)`: the count, or -1, and the bytes. Source: `read-timeout.c` `read`. Kind: D -/
def sysRead (n : Nat) : Polled → Int × List UInt8
  | .data bs => ((bs.take n).length, bs.take n)
  | _ => (-1, [])

/-- Source: `can-read.c` `can_read_timeout`. Kind: D -/
def canReadTimeout : Polled → Except Stop Bool
  | .selectFails => throw (sysDie "failed?")
  | .timeout => return false
  | _ => return true

/-- An `unsigned` as an `int`. Source: `read-timeout.c` `read_timeout`. Kind: D -/
def asInt (u : UInt32) : Int := if u.toNat < 2 ^ 31 then u.toNat else u.toNat - 2 ^ 32

/-- The count is kept in the `unsigned` argument `n`, where no value is below 0.
Source: `read-timeout.c` `read_timeout`
Kind: D -/
def readTimeout (p : Polled) (n : UInt32) : Except Stop (Int × List UInt8) := do
  let ready ← canReadTimeout p
  if !ready then return (0, [])
  let (got, bs) := sysRead n.toNat p
  let n := UInt32.ofInt got
  if n < 0 then throw (sysDie "read failed")
  return (asInt n, bs)

/-- `wrote` is what `write(fd, data, n)` returns. Source: `write-exact.c` `write_exact`. Kind: D -/
def writeExact (n : UInt32) (wrote : Int) : Except Stop Int := do
  if n == 0 then throw (.assert "n")
  if wrote < 0 then throw (sysDie "write_exact failed")
  if UInt32.ofInt wrote != n then
    throw (.panic "expected a write of %d bytes, got %d\n" [.num n.toNat, .num wrote.toNat])
  return asInt n

/-! ## The loop -/

/-- What the system calls of one turn do. Source: `pi-echo.c` `pi_echo`. Kind: D -/
structure Round where
  /-- `unix_fd`. -/
  unixFd : Polled
  /-- What `write` to `pi_fd` returns. -/
  wrote : Int
  /-- `pi_fd`. -/
  piFd : Polled
  /-- `tty_gone(portname)`. -/
  ttyGone : Bool

/-- Source: `pi-echo.c` `pi_echo`. Kind: D -/
structure Echo where
  /-- The static variable of `pi_done`. -/
  pos : Nat
  /-- History: where `buf[n] = 0` stored. -/
  stores : List Int
  /-- History: the counts handed to `write_exact`. -/
  writes : List Int
  /-- What was written to `pi_fd`. -/
  sent : List UInt8
  /-- What was printed of the Pi's output. -/
  printed : List UInt8

/-- How the loop ends. Source: `pi-echo.c` `pi_echo`. Kind: D -/
inductive End where
  /-- `clean_exit(msg)`. -/
  | exited (msg : String)
  | died (e : Stop)
  deriving DecidableEq

/-- In the C locale. Source: `pi-echo.c` `isprint`, `isspace`. Kind: D -/
def isKept (c : UInt8) : Bool :=
  (32 ≤ c && c ≤ 126) || ((c == 32 || (9 ≤ c && c ≤ 13)) && c != 13)

/-- Source: `pi-echo.c` `remove_nonprint`. Kind: D -/
def removeNonprint (buf : List UInt8) : List UInt8 := buf.map fun c => if isKept c then c else 32

/-- The size of `buf`. Source: `pi-echo.c` `pi_echo`. Kind: D -/
def bufSize : Nat := 4096

/-- What is typed goes to the Pi. Source: `pi-echo.c` `pi_echo`. Kind: D -/
def unixTurn (r : Round) (s : Echo) : Echo × Option End :=
  match readTimeout r.unixFd (UInt32.ofNat bufSize) with
  | .error e => (s, some (.died e))
  | .ok (n, bs) =>
    if n != 0 then
      let s := { s with stores := s.stores ++ [n], writes := s.writes ++ [n] }
      match writeExact (UInt32.ofInt n) r.wrote with
      | .error e => (s, some (.died e))
      | .ok _ => ({ s with sent := s.sent ++ bs }, none)
    else
      (s, none)

/-- What the Pi prints is printed, up to the shutdown string. Source: `pi-echo.c` `pi_echo`. Kind: D -/
def piTurn (portname : Bool) (r : Round) (s : Echo) : Echo × Option End :=
  match canReadTimeout r.piFd with
  | .error e => (s, some (.died e))
  | .ok false => (s, none)
  | .ok true =>
    let (n, bs) := sysRead (bufSize - 1) r.piFd
    if n == 0 then
      if !portname || r.ttyGone then
        (s, some (.exited "pi ttyusb connection closed.  cleaning up\n"))
      else
        (s, none)
    else if n < 0 then
      (s, some (.died (sysDie "pi connection closed.  cleaning up\n")))
    else
      let buf := removeNonprint bs
      let s := { s with stores := s.stores ++ [n], printed := s.printed ++ buf }
      match piDone buf s.pos with
      | .error e => (s, some (.died e))
      | .ok (true, pos) =>
        ({ s with pos }, some (.exited "\nbootloader: pi exited.  cleaning up\n"))
      | .ok (false, pos) => ({ s with pos }, none)

/-- One turn of the loop. Source: `pi-echo.c` `pi_echo`. Kind: D -/
def turn (portname : Bool) (r : Round) (s : Echo) : Echo × Option End :=
  match unixTurn r s with
  | (s, some e) => (s, some e)
  | (s, none) => piTurn portname r s

/-- Where the loop stands after these rounds, and how it ended if it did.
Source: `pi-echo.c` `pi_echo`
Kind: D -/
def piEcho (portname : Bool) : List Round → Echo → Echo × Option End
  | [], s => (s, none)
  | r :: rs, s =>
    match turn portname r s with
    | (s, some e) => (s, some e)
    | (s, none) => piEcho portname rs s

/-- Before the first turn. Source: `pi-echo.c` `pi_echo`. Kind: D -/
def echoStart : Echo := ⟨0, [], [], [], []⟩

/-! ## What `read_timeout` returns -/

/-- It dies or returns a value in `0..n`. Source: `read-timeout.c` `read_timeout`. Kind: D -/
def ReadsInRange (p : Polled) (n : UInt32) : Prop :=
  ∀ k bs, readTimeout p n = .ok (k, bs) → 0 ≤ k ∧ k ≤ n.toNat

/-- `read` does not fail, and its count is an `int`. Source: `read-timeout.c` `read_timeout`. Kind: D -/
def CountsInInt (p : Polled) (n : UInt32) : Prop :=
  p ≠ .readFails ∧ ∀ bs, p = .data bs → min n.toNat bs.length < 2 ^ 31

/-- Source: none: infrastructure. Kind: L -/
theorem ofInt_natCast {k : Nat} (hk : k < 2 ^ 32) : UInt32.ofInt k = UInt32.ofNat k := by
  have hmod : ((k : Int) % 2 ^ 32).toNat = k := by omega
  unfold UInt32.ofInt
  rw [hmod]

/-- Source: `read-timeout.c` `read_timeout`. Kind: L -/
theorem readTimeout_data (bs : List UInt8) (n : UInt32) :
    readTimeout (.data bs) n = .ok (asInt (UInt32.ofNat (min n.toNat bs.length)), bs.take n.toNat) := by
  have hofInt : UInt32.ofInt ((bs.take n.toNat).length : Int) =
      UInt32.ofNat (min n.toNat bs.length) := by
    have hlt := n.toNat_lt
    rw [List.length_take]
    exact ofInt_natCast (by omega)
  simp only [readTimeout, canReadTimeout, sysRead, pure_eq_ok, ok_bind, hofInt]
  rfl

/-- Source: `read-timeout.c` `read_timeout`. Kind: L -/
theorem readTimeout_fails (n : UInt32) : readTimeout .readFails n = .ok (-1, []) := rfl

/-- A count as it comes back. Source: `read-timeout.c` `read_timeout`. Kind: L -/
theorem asInt_count {k : Nat} {n : UInt32} (hk : k ≤ n.toNat) :
    asInt (UInt32.ofNat k) = if k < 2 ^ 31 then (k : Int) else k - 2 ^ 32 := by
  have hk' : (UInt32.ofNat k).toNat = k :=
    UInt32.toNat_ofNat_of_lt' (Nat.lt_of_le_of_lt hk n.toNat_lt)
  unfold asInt
  rw [hk']

/-- Source: `read-timeout.c` `read_timeout`. Kind: P -/
theorem readsInRange_iff (p : Polled) (n : UInt32) : ReadsInRange p n ↔ CountsInInt p n := by
  unfold ReadsInRange CountsInInt
  cases p with
  | selectFails => simp [readTimeout, canReadTimeout]
  | timeout => simp [readTimeout, canReadTimeout]
  | readFails =>
      simp only [readTimeout_fails, ne_eq, not_true_eq_false, false_and, iff_false]
      intro h
      have hneg := (h (-1) [] rfl).1
      omega
  | data bs =>
      have hle : min n.toNat bs.length ≤ n.toNat := Nat.min_le_left _ _
      simp only [readTimeout_data, asInt_count hle, Except.ok.injEq, Prod.mk.injEq, ne_eq,
        reduceCtorEq, not_false_eq_true, true_and, Polled.data.injEq]
      constructor
      · rintro h _ rfl
        by_contra hbig
        have hneg := (h _ _ ⟨rfl, rfl⟩).1
        rw [if_neg hbig] at hneg
        have hlt := n.toNat_lt
        omega
      · rintro h k _ ⟨rfl, rfl⟩
        rw [if_pos (h bs rfl)]
        omega

/-! ## The histories -/

/-- Every store was inside of `buf`, and no count handed to `write_exact` was negative.
Source: `pi-echo.c` `pi_echo`
Kind: D -/
structure Safe (s : Echo) : Prop where
  stores : ∀ i ∈ s.stores, 0 ≤ i ∧ i < bufSize
  writes : ∀ n ∈ s.writes, 0 ≤ n

/-- `read(unix_fd, buf, sizeof buf)` does not fail and does not fill the buffer.
Source: `pi-echo.c` `pi_echo`
Kind: D -/
def Short (p : Polled) : Prop := p ≠ .readFails ∧ ∀ bs, p = .data bs → bs.length < bufSize

variable {s : Echo} {r : Round} {rounds : List Round} {portname : Bool}

/-- Source: `pi-echo.c` `pi_echo`. Kind: L -/
theorem safe_start : Safe echoStart :=
  ⟨fun _ h => absurd h List.not_mem_nil, fun _ h => absurd h List.not_mem_nil⟩

/-- The store and the count of one echo. Source: `pi-echo.c` `pi_echo`. Kind: L -/
theorem safe_echo_iff {n : Int} {bs : List UInt8} :
    Safe ⟨s.pos, s.stores ++ [n], s.writes ++ [n], bs, s.printed⟩ ↔ Safe s ∧ 0 ≤ n ∧ n < bufSize := by
  constructor
  · intro h
    refine ⟨⟨fun i hi => ?_, fun k hk => ?_⟩, h.stores n ?_⟩
    · exact h.stores i (List.mem_append_left _ hi)
    · exact h.writes k (List.mem_append_left _ hk)
    · exact List.mem_append_right _ List.mem_cons_self
  · rintro ⟨h, hn⟩
    refine ⟨fun i hi => ?_, fun k hk => ?_⟩
    · rcases List.mem_append.mp hi with hi | hi
      · exact h.stores i hi
      · rwa [List.mem_singleton.mp hi]
    · rcases List.mem_append.mp hk with hk | hk
      · exact h.writes k hk
      · rw [List.mem_singleton.mp hk]
        exact hn.1

/-- The index and the count that an echo uses are both what `read_timeout` returned.
Source: `pi-echo.c` `pi_echo`
Kind: L -/
theorem unixTurn_safe_of {n : Int} {bs : List UInt8}
    (h : readTimeout r.unixFd (UInt32.ofNat bufSize) = .ok (n, bs)) :
    Safe (unixTurn r s).1 ↔ Safe s ∧ (n ≠ 0 → 0 ≤ n ∧ n < bufSize) := by
  unfold unixTurn
  rw [h]
  by_cases hn : n = 0
  · simp [hn]
  · have hgoes : (n != 0) = true := by simpa using hn
    simp only [hgoes, if_true, ne_eq, hn, not_false_eq_true, true_implies]
    cases writeExact (UInt32.ofInt n) r.wrote with
    | error e => exact safe_echo_iff
    | ok _ => exact safe_echo_iff

/-- Source: `pi-echo.c` `pi_echo`. Kind: P -/
theorem unixTurn_safe_iff : Safe (unixTurn r s).1 ↔ Safe s ∧ Short r.unixFd := by
  unfold Short
  cases hp : r.unixFd with
  | selectFails => simp [unixTurn, hp, readTimeout, canReadTimeout]
  | timeout => simp [unixTurn, hp, readTimeout, canReadTimeout]
  | readFails =>
      rw [unixTurn_safe_of (by rw [hp]; exact readTimeout_fails _)]
      simp
  | data bs =>
      have hle : min (UInt32.ofNat bufSize).toNat bs.length ≤ (UInt32.ofNat bufSize).toNat :=
        Nat.min_le_left _ _
      have hsize : (UInt32.ofNat bufSize).toNat = 4096 := rfl
      rw [unixTurn_safe_of (by rw [hp]; exact readTimeout_data _ _), asInt_count hle, hsize,
        if_pos (by omega)]
      simp only [ne_eq, reduceCtorEq, not_false_eq_true, true_and, Polled.data.injEq, forall_eq',
        bufSize, and_congr_right_iff]
      intro _
      omega

/-- The read from the Pi leaves room for the NUL. Source: `pi-echo.c` `pi_echo`. Kind: P -/
theorem piTurn_safe_iff : Safe (piTurn portname r s).1 ↔ Safe s := by
  unfold piTurn
  cases hp : r.piFd with
  | selectFails => exact Iff.rfl
  | timeout => exact Iff.rfl
  | readFails => exact Iff.rfl
  | data bs =>
      have hread : sysRead (bufSize - 1) (.data bs) =
        (((bs.take (bufSize - 1)).length : Int), bs.take (bufSize - 1)) := rfl
      simp only [canReadTimeout, pure_eq_ok]
      rw [hread]
      dsimp only
      by_cases hzero : ((bs.take (bufSize - 1)).length : Int) = 0
      · rw [if_pos (beq_iff_eq.mpr hzero)]
        split <;> exact Iff.rfl
      · have hneg : ¬ ((bs.take (bufSize - 1)).length : Int) < 0 := by omega
        rw [if_neg (fun h => hzero (beq_iff_eq.mp h)), if_neg hneg]
        have hlt : ((bs.take (bufSize - 1)).length : Int) < bufSize := by
          rw [List.length_take, bufSize]
          omega
        have hsafe : ∀ (pos : Nat) (printed : List UInt8),
            Safe ⟨pos, s.stores ++ [((bs.take (bufSize - 1)).length : Int)], s.writes, s.sent, printed⟩ ↔
              Safe s := by
          intro pos printed
          constructor
          · exact fun h => ⟨fun i hi => h.stores i (List.mem_append_left _ hi), h.writes⟩
          · refine fun h => ⟨fun i hi => ?_, h.writes⟩
            rcases List.mem_append.mp hi with hi | hi
            · exact h.stores i hi
            · rw [List.mem_singleton.mp hi]
              exact ⟨Int.natCast_nonneg _, hlt⟩
        cases piDone (removeNonprint (bs.take (bufSize - 1))) s.pos with
        | error e => exact hsafe _ _
        | ok res =>
            obtain ⟨done, pos⟩ := res
            cases done with
            | true => exact hsafe _ _
            | false => exact hsafe _ _

/-- **One turn** keeps the histories right if and only if the read from `unix_fd` is short.
Source: `pi-echo.c` `pi_echo`
Kind: P -/
theorem turn_safe_iff (portname : Bool) (r : Round) (s : Echo) :
    Safe (turn portname r s).1 ↔ Safe s ∧ Short r.unixFd := by
  unfold turn
  rw [← unixTurn_safe_iff (r := r) (s := s)]
  cases unixTurn r s with
  | mk s₁ e =>
      cases e with
      | some e => exact Iff.rfl
      | none => exact piTurn_safe_iff

/-- **A run** keeps them right if and only if the read of every turn that it comes to is.
Source: `pi-echo.c` `pi_echo`
Kind: P -/
theorem piEcho_safe_iff : Safe (piEcho portname rounds s).1 ↔
    Safe s ∧ ∀ k r, rounds[k]? = some r → (piEcho portname (rounds.take k) s).2 = none →
      Short r.unixFd := by
  induction rounds generalizing s with
  | nil => simp [piEcho]
  | cons r rs ih =>
      have hturn := turn_safe_iff portname r s
      cases hstep : turn portname r s with
      | mk s₁ e =>
          rw [hstep] at hturn
          cases e with
          | some e =>
              -- the loop ended in this turn: no later one is come to
              simp only [piEcho, hstep, hturn, and_congr_right_iff]
              intro _
              constructor
              · intro hshort k r' hk hrun
                cases k with
                | zero =>
                    cases hk
                    exact hshort
                | succ k =>
                    rw [List.take_succ_cons, piEcho, hstep] at hrun
                    cases hrun
              · exact fun h => h 0 r rfl rfl
          | none =>
              simp only [piEcho, hstep]
              rw [ih, hturn, and_assoc]
              refine and_congr_right fun _ => ?_
              constructor
              · rintro ⟨hshort, hrest⟩ k r' hk hrun
                cases k with
                | zero =>
                    cases hk
                    exact hshort
                | succ k =>
                    rw [List.take_succ_cons, piEcho, hstep] at hrun
                    exact hrest k r' hk hrun
              · intro h
                refine ⟨h 0 r rfl rfl, fun k r' hk hrun => h (k + 1) r' hk ?_⟩
                rw [List.take_succ_cons, piEcho, hstep]
                exact hrun

/-- **The echo loop** survives exactly the short reads: `read_timeout` is in range if and only if its
`read` did not fail and has an `int` as its count, and a run stores inside of `buf` and hands on no
negative count if and only if every read from `unix_fd` that it comes to neither fails nor fills the
buffer.
Source: `read-timeout.c` `read_timeout`, `pi-echo.c` `pi_echo`
Kind: P -/
theorem echo_survives_iff (portname : Bool) (rounds : List Round) :
    (∀ p n, ReadsInRange p n ↔ CountsInInt p n) ∧
      (Safe (piEcho portname rounds echoStart).1 ↔
        ∀ k r, rounds[k]? = some r → (piEcho portname (rounds.take k) echoStart).2 = none →
          Short r.unixFd) := by
  refine ⟨readsInRange_iff, ?_⟩
  rw [piEcho_safe_iff, and_iff_right safe_start]

/-- **A read that fails, and one that fills the buffer.** Source: `pi-echo.c` `pi_echo`. Kind: P -/
theorem echo_fails :
    ¬ ReadsInRange .readFails 4096 ∧
      ¬ Safe (piEcho true [⟨.readFails, -1, .timeout, false⟩] echoStart).1 ∧
      ¬ Safe (piEcho true [⟨.data (List.replicate 4096 65), 4096, .timeout, false⟩] echoStart).1 := by
  refine ⟨fun h => ?_, fun h => ?_, fun h => ?_⟩
  · exact absurd (h (-1) [] rfl).1 (by decide)
  · exact ((piEcho_safe_iff.mp h).2 0 _ rfl rfl).1 rfl
  · have hlen := ((piEcho_safe_iff.mp h).2 0 _ rfl rfl).2 _ rfl
    rw [List.length_replicate] at hlen
    exact absurd hlen (by decide)

end Cs140e.Libunix
