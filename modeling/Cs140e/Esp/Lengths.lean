import Cs140e.Esp.Receive

/-!
# Numerals that do not fit

`match_uint` accumulates in an `unsigned` and takes any number of digits, and `esp_is_recv` compares
what it has stored with the room there is.

* `StoresNumeral`, `RejectsLonger` — what the two should do with a numeral.
* `storesNumeral_iff` — what is stored is the number if and only if it is below 2^32.
* `espIsRecv_rejects_iff` — the check compares the room with the length modulo 2^32.
* `lengths_exact_iff` — both together; `lengths_wrap` — a length that wraps to 1 passes the check.
-/

namespace Cs140e.Esp

open Cs140e.Lib Cs140e.Lib.Prog

/-- When `match_uint` returns 1, it has stored the number that the numeral stands for.
Source: `esp-parse.c` `match_uint`
Kind: D -/
def StoresNumeral (x : Ptr) (ds : List UInt8) (w : World) : Prop :=
  ∀ t, Runs (matchUint x) w (.ok true) t → (t.host.uints x).toNat = decValue 0 ds

/-- The next text is a header with the numerals `chan` and `len`.
Source: `esp-commands.c` `"+IPD,%u,%u:"`
Kind: D -/
structure AtHeader (chan len r : List UInt8) (w : World) : Prop where
  chan_ok : Digits chan
  len_ok : Digits len
  reads : ∃ v, Reads v w ∧
    v.rest.dropWhile isBlankCh = cstr "+IPD," ++ chan ++ cstr "," ++ len ++ cstr ":" ++ r

/-- The call ends in the panic of the length check. Source: `esp-commands.c` `esp_is_recv`.
Kind: D -/
def Rejected (tgt : Target) (stale : Nat → Ptr) (ch data : Ptr) (maxbytes : UInt32) (w : World) :
    Prop :=
  ∃ n t, Runs (espIsRecv tgt stale ch data maxbytes) w (.error (tooLong n maxbytes)) t

/-- Every header that states a length for which there is no room is rejected.
Source: `esp-commands.c` `nbytes > maxbytes`
Kind: D -/
def RejectsLonger (tgt : Target) (stale : Nat → Ptr) (len : List UInt8) : Prop :=
  ∀ (chan r : List UInt8) (w : World) (ch data : Ptr) (maxbytes : UInt32),
    AtHeader chan len r w → maxbytes.toNat < decValue 0 len → Rejected tgt stale ch data maxbytes w

variable {tgt : Target} {stale : Nat → Ptr} {v : View} {w : World} {r : List UInt8}

/-! ## `match_uint` -/

/-- What `match_uint` has stored behind a numeral. Source: `esp-parse.c` `match_uint`. Kind: P -/
theorem matchUint_digits {x : Ptr} {ds : List UInt8} {c : UInt8} (hds : Digits ds) (hw : Reads v w)
    (hc : isDigit c = false) (hr : v.rest.dropWhile isSpaceCh = ds ++ c :: r) :
    ∃ t, Runs (matchUint x) w (.ok true) t ∧
      (t.host.uints x).toNat = decValue 0 ds % 2 ^ 32 := by
  obtain ⟨t, hrun, _, ht, rfl⟩ := matchUint_ends (x := x) hds.digit hc hr w hw
  have hone : (ds.length != 0) = true := by simpa using hds.ne_nil
  rw [hone] at hrun
  refine ⟨t, hrun, ?_⟩
  rw [ht.host, View.on_host, Host.setUint_uints_self, hds.toNat]

/-- **`match_uint` is exact below 2^32** and nowhere else. Source: `esp-parse.c` `match_uint`.
Kind: P -/
theorem storesNumeral_iff {x : Ptr} {ds : List UInt8} {c : UInt8} (hds : Digits ds)
    (hw : Reads v w) (hc : isDigit c = false) (hr : v.rest.dropWhile isSpaceCh = ds ++ c :: r) :
    StoresNumeral x ds w ↔ decValue 0 ds < 2 ^ 32 := by
  obtain ⟨t, hrun, hvalue⟩ := matchUint_digits (x := x) hds hw hc hr
  constructor
  · intro h
    rw [← h t hrun, hvalue]
    exact Nat.mod_lt _ (by decide)
  · intro hlt t' hrun'
    obtain ⟨-, rfl⟩ := hrun.det hrun'
    rw [hvalue, Nat.mod_eq_of_lt hlt]

/-! ## `esp_is_recv` -/

/-- The payload does not arrive. Source: `esp-commands.c` `m[i] = lex_getc(e->l)`. Kind: L -/
theorem recvLoop_block {m : Ptr} {left i : Nat} (hleft : v.rest.length < left) :
    ∃ v', Ends Reads (recvLoop m left i) v (.error .block) (· = v') := by
  induction left generalizing v i with
  | zero => exact absurd hleft (Nat.not_lt_zero _)
  | succ left ih =>
      rcases hr : v.rest with _ | ⟨c, r⟩
      · exact ⟨v, (lexGetc_block hr).bind_error⟩
      · have hrest : r.length < left := by
          rw [hr, List.length_cons] at hleft
          omega
        obtain ⟨v', h⟩ := ih (v := (v.seek r).on (Host.setByte m i c)) (i := i + 1) hrest
        exact ⟨v', (lexGetc_ends hr).seq (onHost_ends h)⟩

/-- The payload is read, or does not arrive: nothing in it is rejected.
Source: `esp-commands.c` `esp_is_recv`
Kind: L -/
theorem recvLoop_accepts (m : Ptr) (n : UInt32) (v : View) :
    ∃ o v', Ends Reads ((recvLoop m n.toNat 0).bind fun _ => ret n) v o (· = v') ∧
      (o = .ok n ∨ o = .error .block) := by
  by_cases hlen : v.rest.length < n.toNat
  · obtain ⟨v', h⟩ := recvLoop_block (m := m) (i := 0) hlen
    exact ⟨_, v', h.bind_error, .inr rfl⟩
  · have hsplit := (List.take_append_drop n.toNat v.rest).symm
    have htake : (v.rest.take n.toNat).length = n.toNat := List.length_take_of_le (by omega)
    have hloop := recvLoop_ends (m := m) (i := 0) hsplit
    rw [htake] at hloop
    exact ⟨_, _, hloop.seq (.ret rfl), .inl rfl⟩

/-- **What the length check rejects**: the headers whose length is above the room modulo 2^32.
Source: `esp-commands.c` `nbytes > maxbytes`
Kind: P -/
theorem espIsRecv_rejects_iff {chan len : List UInt8} (h : AtHeader chan len r w) (ch data : Ptr)
    (maxbytes : UInt32) :
    Rejected tgt stale ch data maxbytes w ↔ maxbytes.toNat < decValue 0 len % 2 ^ 32 := by
  obtain ⟨v, hw, hr⟩ := h.reads
  rw [← h.len_ok.toNat, ← UInt32.lt_iff_toNat_lt]
  have hends {o : Except Stop UInt32} {v' : View} :=
    recvHeader_ends tgt stale ch data maxbytes (o := o) (Q := (· = v')) h.chan_ok h.len_ok hr
  by_cases hpos : uintValue 0 len > 0
  · simp only [hpos, if_true] at hends
    by_cases hgt : uintValue 0 len > maxbytes
    · simp only [hgt, if_true] at hends
      obtain ⟨t, hrun, -⟩ := hends (.raise rfl) w hw
      exact iff_of_true ⟨_, t, hrun⟩ hgt
    · -- the length fits: what follows is read
      simp only [hgt, if_false] at hends
      obtain ⟨o, v', hloop, ho⟩ := recvLoop_accepts data (uintValue 0 len)
        ((v.seek r).on (Host.ipd (vaStart stale [ch, .nbytes]) chan len))
      obtain ⟨t, hrun, -⟩ := hends hloop w hw
      refine iff_of_false ?_ hgt
      rintro ⟨n, t', hrun'⟩
      obtain ⟨rfl, -⟩ := hrun.det hrun'
      rcases ho with ho | ho <;> simp [tooLong] at ho
  · -- the assertion fails
    simp only [hpos, if_false] at hends
    obtain ⟨t, hrun, -⟩ := hends (.raise rfl) w hw
    refine iff_of_false ?_ fun hlt => hpos (UInt32.lt_of_le_of_lt UInt32.zero_le hlt)
    rintro ⟨n, t', hrun'⟩
    have hstop := (hrun.det hrun').1
    simp [tooLong] at hstop

/-- A length that fits an `unsigned` is compared as it was sent. Source: `esp-commands.c`
`nbytes > maxbytes`. Kind: L -/
theorem rejectsLonger_of_lt {len : List UInt8} (h : decValue 0 len < 2 ^ 32) :
    RejectsLonger tgt stale len := by
  intro chan r w ch data maxbytes hhead hlong
  rwa [espIsRecv_rejects_iff hhead, Nat.mod_eq_of_lt h]

/-! ## Both -/

/-- **Parsed lengths are the lengths that were sent** exactly if they are below 2^32.
Source: `esp-parse.c` `match_uint`; `esp-commands.c` `esp_is_recv`
Kind: P -/
theorem lengths_exact_iff (tgt : Target) (stale : Nat → Ptr) {x : Ptr} {ds : List UInt8} {c : UInt8}
    (hds : Digits ds) (hw : Reads v w) (hc : isDigit c = false)
    (hr : v.rest.dropWhile isSpaceCh = ds ++ c :: r) :
    StoresNumeral x ds w ∧ RejectsLonger tgt stale ds ↔ decValue 0 ds < 2 ^ 32 := by
  rw [storesNumeral_iff hds hw hc hr]
  exact and_iff_left_of_imp rejectsLonger_of_lt

/-- The largest number that fits, with a zero in front, in two reads. Source: `esp-parse.c`
`match_uint`. Kind: L -/
theorem lengths_exact_max : StoresNumeral (.user 0) (cstr "04294967295")
      (start [cstr " 0429496", cstr "7295:"] espMk) ∧
    RejectsLonger .unix (fun _ => .user 9) (cstr "04294967295") :=
  (lengths_exact_iff .unix (fun _ => .user 9) ⟨by decide, by decide⟩
    (start_reads (by decide) (by decide) espMk) (c := 58) (r := []) (by decide) (by decide)).mpr
    (by decide)

/-- **A length that wraps**: 4294967297 is read as 1, and a message of that length is received into
a buffer of one byte. Source: `esp-commands.c` `esp_is_recv`. Kind: P -/
theorem lengths_wrap :
    ¬ StoresNumeral (.user 0) (cstr "4294967297") (start [cstr "4294967297:"] espMk) ∧
      ¬ RejectsLonger .unix (fun _ => .user 9) (cstr "4294967297") ∧
      ∃ t, Runs (espIsRecv .unix (fun _ => .user 9) (.user 0) (.user 1) 1)
        (start [cstr "+IPD,0,4294967297:x"] espMk) (.ok 1) t := by
  have hds : Digits (cstr "4294967297") := ⟨by decide, by decide⟩
  have hchan : Digits (cstr "0") := ⟨by decide, by decide⟩
  have hread : Reads ⟨[cstr "+IPD,0,4294967297:x"].flatten, [cstr "+IPD,0,4294967297:x"].flatten,
      espMk⟩ (start [cstr "+IPD,0,4294967297:x"] espMk) :=
    start_reads (by decide) (by decide) espMk
  refine ⟨?_, ?_, ?_⟩
  · rw [storesNumeral_iff hds (start_reads (by decide) (by decide) espMk) (c := 58) (r := [])
      (by decide) (by decide)]
    decide
  · intro h
    have hhead : AtHeader (cstr "0") (cstr "4294967297") (cstr "x")
        (start [cstr "+IPD,0,4294967297:x"] espMk) := ⟨hchan, hds, _, hread, by decide⟩
    have hrej := h _ _ _ (.user 0) (.user 1) 1 hhead (by decide)
    rw [espIsRecv_rejects_iff hhead] at hrej
    exact absurd hrej (by decide)
  · have hone : uintValue 0 (cstr "4294967297") = 1 := by decide
    have hbyte {v : View} (hv : v.rest = cstr "x" ++ []) : Ends Reads
        ((recvLoop (.user 1) (1 : UInt32).toNat 0).bind fun _ => ret (1 : UInt32)) v (.ok 1)
        fun _ => True := (recvLoop_ends hv).seq (.ret trivial)
    have hends : Ends Reads (espIsRecv .unix (fun _ => .user 9) (.user 0) (.user 1) 1)
        ⟨[cstr "+IPD,0,4294967297:x"].flatten, [cstr "+IPD,0,4294967297:x"].flatten, espMk⟩ (.ok 1)
        fun _ => True := by
      refine recvHeader_ends .unix _ _ _ _ hchan hds (r := cstr "x") (by decide) ?_
      rw [hone]
      exact hbyte rfl
    obtain ⟨t, hrun, -⟩ := hends _ hread
    exact ⟨t, hrun⟩

end Cs140e.Esp
