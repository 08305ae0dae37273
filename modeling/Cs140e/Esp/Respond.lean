import Cs140e.Esp.Lines

/-!
# Retrying a parsed response

`cmd_responsev` hands its `va_list` to `match_linev` again on every turn. Where a callee advances
the caller's `va_list`, a turn that fails on the line has still taken its argument.

* `busyTurn_ends` — a turn at a busy line takes one argument, stores 0 to it and consumes the line.
* `connectTurn_ends` — the turn at the line `<u>, CONNECT` takes one argument and stores `u` to it.
* `connect_ends` — by induction on the busy lines, the `i`-th turn takes the `i`-th argument.
* `responsef_connect_iff` — so the call does what it should if and only if there is no busy line.
-/

namespace Cs140e.Esp

open Cs140e.Lib Cs140e.Lib.Prog

variable {stale va : Nat → Ptr} {v : View}

/-- The format of `issue_tcp_connect`. Source: `esp-commands.c` `issue_tcp_connect`. Kind: D -/
def connectFmt : List UInt8 := cstr "%u, CONNECT"

/-- Busy lines and what follows them. Source: `esp-run.c` `match_busy`. Kind: D -/
def busyLines (busys : List (List UInt8)) (target : List UInt8) : List UInt8 :=
  busys.flatMap (· ++ cstr "\r\n") ++ target

/-- A turn at a busy line, once the format has failed on it: what it took of the `va_list` is seen on the
next turn where the target passes the list by reference. Source: `esp-run.c` `cmd_responsev`. Kind: P -/
theorem busyTurn_miss {tgt : Target} {fmt t r : List UInt8} {e : UInt8} {k k' : Nat} {v' : View}
    (ht : Busy t) (he : isEolCh e = true)
    (hmiss : Ends Reads (matchLinev tgt va fmt k) v (.ok (false, k')) (· = v'))
    (hr : v'.rest.dropWhile isBlankCh = t ++ e :: r) :
    Ends Reads (responseTurn tgt stale false false fmt va k) v
      (.ok (.inl (if tgt.vaByRef then k' else k))) (EolRun v' r) := by
  obtain ⟨t', hcons⟩ := ht.head.1
  have hne : t ≠ [] := by
    rw [hcons]
    simp
  -- no token is like it
  have hno : ∀ tok ∈ [cstr "ERROR", cstr "OK", cstr "SEND OK", cstr "ready", cstr "BUSY"],
      (∀ c ∈ tok, c < 128 ∧ isEolCh c = false) ∧ ¬ tok <+: t := by
    rcases ht with rfl | rfl
    · decide
    · decide
  have htok : ∀ tok ∈ [cstr "ERROR", cstr "OK", cstr "SEND OK", cstr "ready", cstr "BUSY"],
      Ends Reads (matchTok tgt tok) v' (.ok false) (· = v') :=
    fun tok h => matchTok_false (hno tok h).1 hne he hr (hno tok h).2
  have hsuspicious : Ends Reads (suspicious tgt) v' (.ok false) (· = v') :=
    (htok (cstr "OK") (by simp)).seq ((htok (cstr "SEND OK") (by simp)).seq
      ((htok (cstr "ready") (by simp)).seq (htok (cstr "BUSY") (by simp))))
  have hbusy : Ends Reads (matchBusy tgt stale) v' (.ok true) (EolRun v' r) := matchBusy_true ht he hr
  refine hmiss.seq ?_
  refine (htok (cstr "ERROR") (by simp)).seq ?_
  exact hsuspicious.seq (hbusy.bind fun _ h => .ret h)

/-- A turn at a busy line. Source: `esp-run.c` `cmd_responsev`. Kind: P -/
theorem busyTurn_ends {t r : List UInt8} {i : Nat} (ht : Busy t)
    (hr : v.rest.dropWhile isBlankCh = t ++ 13 :: r) :
    Ends Reads (responseTurn .unix stale false false connectFmt va i) v (.ok (.inl (i + 1)))
      (EolRun (v.on (Host.setUint (va i) 0 ∘ Host.readArg i)) r) := by
  -- the format stores 0, and fails at the `b`
  have hline : Ends Reads (matchLinev .unix va connectFmt i) v (.ok (false, i + 1))
      (· = v.on (Host.setUint (va i) 0 ∘ Host.readArg i)) := by
    obtain ⟨t', hcons⟩ := ht.head.1
    rw [hcons] at hr
    refine Ends.seq (a := (false, i + 1)) ?_ (.ret rfl)
    refine lexGetCkpt_ends fun hsuf => skipToText_ends hr ?_
    refine (scan_noUint (v := v.seek (98 :: (t' ++ 13 :: r))) (by decide)
      (List.dropWhile_cons_of_neg (by decide)) rfl (by decide)).seq ?_
    have hle := length_le_of_dropWhile hr
    exact lexRestoreCkpt_ends hsuf ⟨rfl, hle⟩ (.ret rfl)
  exact busyTurn_miss ht (by decide) hline hr

variable (va) in
/-- The scan of the response. Source: `esp-parse.c` `matchv`. Kind: L -/
theorem connectScan_ends (i : Nat) {ds r : List UInt8} {u : Nat} (hds : Numeral ds u)
    (hr : v.rest = ds ++ (cstr ", CONNECT" ++ 13 :: r)) :
    Ends Reads (loop (scanTurn .unix va connectFmt) ⟨connectFmt, false, i⟩ ret) v
      (.ok (true, ⟨[], false, i + 1⟩))
      (· = (v.seek (13 :: r)).on (Host.setUint (va i) (uintValue 0 ds) ∘ Host.readArg i)) := by
  have hfmt : connectFmt = 37 :: 117 :: cstr ", CONNECT" := rfl
  nth_rewrite 2 [hfmt]
  refine scan_uint hds.digits (by decide) hr ?_
  have hlit : Literal (cstr ", CONNECT") := by decide
  have hnoEol : NoEol (cstr ", CONNECT") := by
    unfold NoEol
    decide
  have hrest := litScan_ends .unix va connectFmt false (i + 1) (v := ((v.on (Host.readArg i)).seek
    (cstr ", CONNECT" ++ 13 :: r)).on (Host.setUint (va i) (uintValue 0 ds))) [] hlit hnoEol
    (by decide) rfl
  exact hrest.1 [] (by decide) _ _ scan_end

/-- The turn at the response. Source: `esp-run.c` `cmd_responsev`. Kind: P -/
theorem connectTurn_ends {ds r : List UInt8} {u i : Nat} (hds : Numeral ds u)
    (hr : v.rest.dropWhile isBlankCh = ds ++ (cstr ", CONNECT" ++ 13 :: r)) :
    Ends Reads (responseTurn .unix stale false false connectFmt va i) v (.ok (.inr true))
      (EolRun (v.on (Host.setUint (va i) (uintValue 0 ds) ∘ Host.readArg i)) r) := by
  obtain ⟨d, ds', hd, -⟩ := hds.digits.exists_cons
  have hscan := connectScan_ends va i (v := v.seek (ds ++ (cstr ", CONNECT" ++ 13 :: r))) hds rfl
  have hmatchv : Ends Reads (matchv .unix va connectFmt i) v (.ok (true, i + 1))
      (· = (v.seek (13 :: r)).on (Host.setUint (va i) (uintValue 0 ds) ∘ Host.readArg i)) := by
    have hcons : ds ++ (cstr ", CONNECT" ++ 13 :: r) =
        d :: (ds' ++ (cstr ", CONNECT" ++ 13 :: r)) := by
      rw [hd, List.cons_append]
    rw [hcons] at hr hscan
    exact lexGetCkpt_ends fun _ => skipToText_ends hr (hscan.seq (.ret rfl))
  refine Ends.bind (a := (true, i + 1)) (Q := EolRun _ r) ?_ fun _ h => .ret h
  refine hmatchv.seq ?_
  apply (matchEol_ends (v := (v.seek (13 :: r)).on _) rfl (by decide)).bind
  intro _ h
  exact .ret h

/-! ## The call -/

/-- What is in front of the lexer is text. Source: `esp-parse.c` `skip_blank_lines`. Kind: L -/
theorem busyLines_text {busys : List (List UInt8)} {target : List UInt8}
    (hbusys : ∀ t ∈ busys, Busy t) (htarget : target.dropWhile isBlankCh = target) :
    (busyLines busys target).dropWhile isBlankCh = busyLines busys target := by
  cases busys with
  | nil => exact htarget
  | cons t busys =>
      rcases hbusys t List.mem_cons_self with rfl | rfl
      · exact List.dropWhile_cons_of_neg (by decide)
      · exact List.dropWhile_cons_of_neg (by decide)

variable (stale va) in
/-- **Every turn takes an argument of its own.** Source: `esp-run.c` `cmd_responsev`. Kind: P -/
theorem connect_ends (i : Nat) {busys : List (List UInt8)} {ds r : List UInt8} {u : Nat}
    (hbusys : ∀ t ∈ busys, Busy t) (hds : Numeral ds u)
    (hr : v.rest.dropWhile isBlankCh = busyLines busys (ds ++ (cstr ", CONNECT" ++ 13 :: r))) :
    Ends Reads (loop (responseTurn .unix stale false false connectFmt va) i ret) v (.ok true)
      (fun v' => v'.host.vaReads = v.host.vaReads ++ List.range' i (busys.length + 1) ∧
        (busys = [] → v'.host = (v.host.readArg i).setUint (va i) (uintValue 0 ds))) := by
  induction busys generalizing v i with
  | nil =>
      refine (connectTurn_ends hds hr).loop_exit fun v' hv' => .ret ?_
      obtain ⟨-, -, hhost, -⟩ := hv'.dropWhile (p := isEolCh) fun _ h => h
      rw [hhost]
      exact ⟨rfl, fun _ => rfl⟩
  | cons t busys ih =>
      have hbusys' : ∀ t ∈ busys, Busy t := by
        intro t ht
        apply hbusys
        exact List.mem_cons_of_mem _ ht
      have hline : v.rest.dropWhile isBlankCh =
          t ++ 13 :: (10 :: busyLines busys (ds ++ (cstr ", CONNECT" ++ 13 :: r))) := by
        rw [hr]
        simp [busyLines, cstr]
      apply (busyTurn_ends (hbusys t List.mem_cons_self) hline).loop_again
      intro v' hv'
      obtain ⟨hdrop, -, hhost, -⟩ := hv'.dropWhile isBlankCh_of_isEolCh
      have htarget : (ds ++ (cstr ", CONNECT" ++ 13 :: r)).dropWhile isBlankCh =
          ds ++ (cstr ", CONNECT" ++ 13 :: r) := by
        obtain ⟨d, ds', rfl, hb⟩ := hds.digits.exists_cons
        exact List.dropWhile_cons_of_neg (by simp [hb])
      rw [List.dropWhile_cons_of_pos (by decide), busyLines_text hbusys' htarget] at hdrop
      refine (ih (i + 1) hbusys' hdrop).mono fun v'' h => ⟨?_, by simp⟩
      rw [h.1, hhost]
      simp [Host.setUint, Host.readArg, List.range'_succ]

/-- What the call should do to the rest of the machine: store `u` to `x` and nothing else, and take
no other argument than the pointer to `x`.
Source: `esp-run.c` `cmd_responsef`
Kind: D -/
structure ParsedTo (x u : Nat) (h h' : Host) : Prop where
  value : (h'.uints (.user x)).toNat = u
  args : ∃ reads, h'.vaReads = h.vaReads ++ reads ∧ ∀ i ∈ reads, i = 0
  uints : ∀ p, p ≠ .user x → h'.uints p = h.uints p
  bufs : h'.bufs = h.bufs
  sent : h'.sent = h.sent

/-- **Retrying loses the output variables**: on the Unix build the call parses the response behind
`k` busy lines if and only if `k = 0`.
Source: `esp-run.c` `cmd_responsef`
Kind: P -/
theorem responsef_connect_iff (stale : Nat → Ptr) {busys : List (List UInt8)}
    (hbusys : ∀ t ∈ busys, Busy t) {ds tail : List UInt8} {u : Nat} (hds : Numeral ds u) (x : Nat)
    (host : Host) {input : List (List UInt8)} (hne : ∀ c ∈ input, c ≠ [])
    (hin : input.flatten = busyLines busys (ds ++ cstr ", CONNECT" ++ cstr "\r\n" ++ tail))
    (hsmall : input.flatten.length < lexMaxbuf) :
    (∃ w, Runs (cmdResponsef .unix stale false false connectFmt [.user x]) (start input host)
      (.ok true) w ∧ ParsedTo x u host w.host) ↔ busys.length = 0 := by
  have htarget : (ds ++ (cstr ", CONNECT" ++ 13 :: (10 :: tail))).dropWhile isBlankCh =
      ds ++ (cstr ", CONNECT" ++ 13 :: (10 :: tail)) := by
    obtain ⟨d, ds', rfl, hb⟩ := hds.digits.exists_cons
    exact List.dropWhile_cons_of_neg (by simp [hb])
  have hr : input.flatten.dropWhile isBlankCh =
      busyLines busys (ds ++ (cstr ", CONNECT" ++ 13 :: (10 :: tail))) := by
    rw [← busyLines_text hbusys htarget, hin]
    simp [cstr]
  obtain ⟨w, hrun, v, hv, hreads, hhost⟩ := connect_ends stale (vaStart stale [.user x]) 0
    hbusys hds hr _ (start_reads hne hsmall host)
  constructor
  · rintro ⟨w', hrun', hparsed⟩
    obtain ⟨-, rfl⟩ := hrun.det hrun'
    obtain ⟨reads, hsame, hzero⟩ := hparsed.args
    rw [hv.host, hreads, List.append_cancel_left_eq] at hsame
    -- the last turn took the argument of its own number
    have hlast := hzero busys.length (hsame ▸ List.mem_range'_1.mpr ⟨Nat.zero_le _, by omega⟩)
    exact hlast
  · intro hnone
    rw [List.length_eq_zero_iff] at hnone
    have hw : w.host = _ := hv.host.trans (hhost hnone)
    refine ⟨w, hrun, ⟨?_, ⟨[0], ?_, by simp⟩, ?_, ?_, ?_⟩⟩
    · rw [hw]
      simp [vaStart, hds.toNat]
    · rw [hw]
      rfl
    · intro p hp
      rw [hw]
      simp [vaStart, Host.setUint, Host.readArg, hp]
    · rw [hw]
      rfl
    · rw [hw]
      rfl

/-- The numeral of a connection. Source: `esp-commands.c` `issue_tcp_connect`. Kind: L -/
theorem numeral_three : Numeral (cstr "3") 3 := ⟨by decide, by decide, by decide, by decide⟩

/-- Source: `esp-commands.c` `issue_tcp_connect`. Kind: L -/
theorem responsef_connect_direct : ∃ w,
    Runs (cmdResponsef .unix (fun _ => .user 9) false false connectFmt [.user 0])
      (start [cstr "3, CON", cstr "NECT\r\nOK\r\n"] espMk) (.ok true) w ∧ ParsedTo 0 3 espMk w.host := by
  have hin : [cstr "3, CON", cstr "NECT\r\nOK\r\n"].flatten =
      busyLines [] (cstr "3" ++ cstr ", CONNECT" ++ cstr "\r\n" ++ cstr "OK\r\n") := by decide
  exact (responsef_connect_iff _ (by simp) numeral_three 0 espMk (by decide) hin (by decide)).mpr rfl

/-- **One busy line is enough**: the second turn takes an argument that was never passed.
Source: `esp-commands.c` `issue_tcp_connect`
Kind: P -/
theorem responsef_connect_busy : ¬ ∃ w,
    Runs (cmdResponsef .unix (fun _ => .user 9) false false connectFmt [.user 0])
      (start [cstr "busy p...\r\n3, CONNECT\r\n"] espMk) (.ok true) w ∧ ParsedTo 0 3 espMk w.host := by
  rintro ⟨w', hrun', hparsed⟩
  have hstart : Reads ⟨_, _, espMk⟩ (start [cstr "busy p...\r\n3, CONNECT\r\n"] espMk) :=
    start_reads (by decide) (by decide) espMk
  have hbusys : ∀ t ∈ [cstr "busy p..."], Busy t := by decide
  obtain ⟨w, hrun, v, hv, hreads, -⟩ := connect_ends (fun _ => .user 9)
    (vaStart (fun _ => .user 9) [.user 0]) 0 hbusys (r := cstr "\n") numeral_three (by decide) _
    hstart
  obtain ⟨-, rfl⟩ := hrun.det hrun'
  obtain ⟨reads, hsame, hzero⟩ := hparsed.args
  rw [hv.host, hreads, List.append_cancel_left_eq] at hsame
  have hone := hzero 1 (hsame ▸ by decide)
  simp at hone

end Cs140e.Esp
