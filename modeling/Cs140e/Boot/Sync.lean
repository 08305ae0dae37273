import Cs140e.Boot.Print

/-!
# Bootloader: finding the start of a message

Step 0 of `simple_boot`: the tty starts with garbage, and behind it the Pi keeps sending
`GET_PROG_INFO`. The loop reads a word, and on a mismatch discards one more byte, so it moves on by
five bytes against messages of four.

* `drain` — the loop. It also counts the calls of `get_op`, which the code does not.
* `beacons m` — `m` messages; `stream_getElem?`, the bytes behind the garbage.
* `wordAt_ne` — no word is an op unless it is one of the messages: neither inside of the garbage,
  nor across its end, nor across two messages.
* `drain_syncs` — the loop ends at the first message that starts at a multiple of five.
-/

namespace Cs140e.Boot

open Cs140e.Lib Cs140e.Lib.Prog Cs140e.Libunix

/-! ## The loop -/

/-- Pi sends this first. Source: `simple-boot-defs.h` `GET_PROG_INFO`. Kind: D -/
def getProgInfo : UInt32 := 0x11112222

/-- One turn; `calls` is how often `get_op` was called.
Source: `simple-boot.c` `simple_boot` (step 0)
Kind: D -/
def drainTurn (calls : Nat) : Prog Tty Stop (Nat ⊕ Nat) := do
  let op ← getOp
  if op != getProgInfo then
    output "expected initial GET_PROG_INFO, got <%x>: discarding.\n" [.num op.toNat]
    let _ ← getUint8
    return .inl (calls + 1)
  else
    return .inr (calls + 1)

/-- Drain the initial data. Source: `simple-boot.c` `simple_boot` (step 0). Kind: D -/
def drain : Prog Tty Stop Nat := loop drainTurn 0 ret

/-- `m` messages in a row. Source: `get-code.h` `boot_put32`. Kind: D -/
def beacons (m : Nat) : List UInt8 :=
  (List.replicate m getProgInfo).foldl (fun sent u => bootPut32 u sent) []

/-! ## The stream -/

/-- Source: `get-code.h` `boot_put32`. Kind: L -/
theorem beacons_eq (m : Nat) :
    beacons m = (List.replicate m (leBytes 4 getProgInfo.toNat)).flatten := by
  have hfold : ∀ sent, (List.replicate m getProgInfo).foldl (fun sent u => bootPut32 u sent) sent =
      sent ++ (List.replicate m (leBytes 4 getProgInfo.toNat)).flatten := by
    induction m with
    | zero => simp
    | succ m ih =>
        intro sent
        rw [List.replicate_succ, List.foldl_cons, ih, bootPut32_eq, List.replicate_succ,
          List.flatten_cons, List.append_assoc]
  rw [beacons, hfold, List.nil_append]

/-- Source: `get-code.h` `boot_put32`. Kind: L -/
theorem beacons_length (m : Nat) : (beacons m).length = 4 * m := by
  simp [beacons_eq, Nat.mul_comm]

/-- Source: `get-code.h` `boot_put32`. Kind: L -/
theorem beacons_add (m n : Nat) : beacons (m + n) = beacons m ++ beacons n := by
  rw [beacons_eq, beacons_eq, beacons_eq, ← List.flatten_append, List.replicate_append_replicate]

/-- The bytes of the messages. Source: `get-code.h` `boot_put32`. Kind: L -/
theorem beacons_getElem? {m j : Nat} (hj : j < 4 * m) :
    (beacons m)[j]? = some (if j % 4 < 2 then 0x22 else 0x11) := by
  induction m generalizing j with
  | zero => omega
  | succ m ih =>
      have hone : beacons 1 = [0x22, 0x22, 0x11, 0x11] := by decide
      rw [Nat.add_comm m 1, beacons_add, hone]
      match j with
      | 0 | 1 | 2 | 3 => rfl
      | j + 4 =>
          have hrest := ih (j := j) (by omega)
          rw [Nat.add_mod_right]
          exact hrest

/-- The word at an offset. Source: `put-get.c` `get_uint32`. Kind: D -/
def wordAt (stream : List UInt8) (i : Nat) : List UInt8 := (stream.drop i).take 4

/-- The byte of a word. Source: none: infrastructure. Kind: L -/
theorem wordAt_getElem? (stream : List UInt8) (i : Nat) {j : Nat} (hj : j < 4) :
    (wordAt stream i)[j]? = stream[i + j]? := by
  simp [wordAt, hj]

section

variable {G rest : List UInt8} {M : Nat}

/-- The bytes behind the garbage. Source: `get-code.h` `boot_put32`. Kind: L -/
theorem stream_getElem? (G rest : List UInt8) (M : Nat) {j : Nat} (hlo : G.length ≤ j)
    (hhi : j < G.length + 4 * M) :
    (G ++ beacons M ++ rest)[j]? = some (if (j - G.length) % 4 < 2 then 0x22 else 0x11) := by
  have hlen := beacons_length M
  rw [List.getElem?_append_left (by rw [List.length_append]; omega),
    List.getElem?_append_right hlo, beacons_getElem? (by omega)]

/-- A word that starts in front of the last message and is not one of the messages is not an op.
Source: `simple-boot.c` "if not aligned, stays not aligned"
Kind: P -/
theorem wordAt_ne {op : UInt32} (hop : op = printString ∨ op = getProgInfo)
    (hG : ¬ leBytes 4 op.toNat <:+: G) {i : Nat} (hi : i + 4 ≤ G.length + 4 * M)
    (hoff : ¬ (G.length ≤ i ∧ 4 ∣ i - G.length)) :
    wordAt (G ++ beacons M ++ rest) i ≠ leBytes 4 op.toNat := by
  intro hword
  by_cases hin : i + 4 ≤ G.length
  · -- inside of the garbage
    apply hG
    rw [← hword, wordAt, List.append_assoc, List.drop_append_of_le_length (by omega),
      List.take_append_of_le_length (by rw [List.length_drop]; omega)]
    exact (List.take_prefix _ _).isInfix.trans (List.drop_suffix _ _).isInfix
  · -- its last byte is behind the garbage
    have hlast := stream_getElem? G rest M (j := i + 3) (by omega) (by omega)
    rw [← wordAt_getElem? _ _ (by omega), hword] at hlast
    rcases hop with rfl | rfl
    · have hbytes : (leBytes 4 printString.toNat)[3]? = some 0xdd := by decide
      rw [hbytes] at hlast
      split at hlast <;> exact absurd hlast (by decide)
    · have hbytes : (leBytes 4 getProgInfo.toNat)[3]? = some 0x11 := by decide
      rw [hbytes] at hlast
      split at hlast
      · exact absurd hlast (by decide)
      rename_i hmod
      -- the last byte is the first `0x11` of a message, so the byte in front of it is `0x22`
      have hthird := stream_getElem? G rest M (j := i + 2) (by omega) (by omega)
      have hbytes₂ : (leBytes 4 getProgInfo.toNat)[2]? = some 0x11 := by decide
      rw [← wordAt_getElem? _ _ (by omega), hword, hbytes₂, if_pos (by omega)] at hthird
      exact absurd hthird (by decide)

/-- A message is the op. Source: `get-code.h` `boot_put32`. Kind: L -/
theorem wordAt_beacon {m : Nat} (hm : m < M) :
    wordAt (G ++ beacons M ++ rest) (G.length + 4 * m) = leBytes 4 getProgInfo.toNat := by
  have hone : beacons 1 = leBytes 4 getProgInfo.toNat := by decide
  obtain ⟨n, rfl⟩ : ∃ n, M = m + (1 + n) := ⟨M - m - 1, by omega⟩
  rw [wordAt, beacons_add, beacons_add, hone, ← beacons_length m, ← List.length_append]
  simp only [List.append_assoc]
  rw [← List.append_assoc G, List.drop_left]
  rfl

end

/-! ## One turn -/

variable {r : List UInt8} {out : List Output}

/-- A word that is not `PRINT_STRING` is returned as an op. Source: `simple-boot.h` `get_op`.
Kind: L -/
theorem getOp_word (r : List UInt8) (out : List Output) {w : List UInt8} (hw : w.length = 4)
    (hne : w ≠ leBytes 4 printString.toNat) :
    ∃ op, leBytes 4 op.toNat = w ∧ Runs getOp ⟨w ++ r, out⟩ (.ok op) ⟨r, out⟩ := by
  have hop : leBytes 4 (UInt32.ofNat (leValue w)).toNat = w := by
    have hlt := leValue_lt w
    rw [hw] at hlt
    rw [UInt32.toNat_ofNat_of_lt' hlt, ← hw, leBytes_leValue]
  have hps : UInt32.ofNat (leValue w) ≠ printString := by
    intro he
    rw [he] at hop
    exact hne hop.symm
  refine ⟨UInt32.ofNat (leValue w), hop, ?_⟩
  have hturn : Runs getOpTurn ⟨w ++ r, out⟩ (.ok (.inr (UInt32.ofNat (leValue w)))) ⟨r, out⟩ := by
    have hword : Runs getOpTurn ⟨leBytes 4 _ ++ r, out⟩ _ ⟨r, out⟩ := getOpTurn_op hps
    rwa [hop] at hword
  unfold getOp
  rw [runs_loop_iff]
  exact hturn.bind (by simp)

/-- A mismatch discards five bytes. Source: `simple-boot.c` `simple_boot` (step 0). Kind: L -/
theorem drainTurn_mismatch (r : List UInt8) (out : List Output) {w : List UInt8}
    (hw : w.length = 4) (hps : w ≠ leBytes 4 printString.toNat)
    (hne : w ≠ leBytes 4 getProgInfo.toNat) (b : UInt8)
    (calls : Nat) :
    ∃ out', Runs (drainTurn calls) ⟨w ++ b :: r, out⟩ (.ok (.inl (calls + 1))) ⟨r, out'⟩ := by
  obtain ⟨op, hop, hrun⟩ := getOp_word (b :: r) out hw hps
  have hmis : op ≠ getProgInfo := by
    rintro rfl
    exact hne hop.symm
  refine ⟨out ++ [("expected initial GET_PROG_INFO, got <%x>: discarding.\n", [.num op.toNat])],
    hrun.bind ?_⟩
  rw [if_pos (by simpa using hmis)]
  exact (output_runs _ _).bind ((getUint8_runs b).bind (by simp))

/-- The op ends the loop. Source: `simple-boot.c` `simple_boot` (step 0). Kind: L -/
theorem drainTurn_match (calls : Nat) :
    Runs (drainTurn calls) ⟨leBytes 4 getProgInfo.toNat ++ r, out⟩ (.ok (.inr (calls + 1)))
      ⟨r, out⟩ := by
  have hop : Runs getOp ⟨leBytes 4 getProgInfo.toNat ++ r, out⟩ (.ok getProgInfo) ⟨r, out⟩ := by
    unfold getOp
    rw [runs_loop_iff]
    exact (getOpTurn_op (by decide)).bind (by simp)
  exact hop.bind (by simp)

/-! ## The run -/

section

variable {S : List UInt8}

/-- The loop over a stream whose words at the multiples of five are not ops, up to the `last`-th.
Source: `simple-boot.c` `simple_boot` (step 0)
Kind: L -/
theorem drain_loop {last : Nat} (hlast : wordAt S (5 * last) = leBytes 4 getProgInfo.toNat)
    (hskip : ∀ k < last, wordAt S (5 * k) ≠ leBytes 4 printString.toNat ∧
      wordAt S (5 * k) ≠ leBytes 4 getProgInfo.toNat) {k : Nat} (hk : k ≤ last)
    (out : List Output) :
    ∃ out', Runs (loop drainTurn k ret) ⟨S.drop (5 * k), out⟩ (.ok (last + 1))
      ⟨S.drop (5 * last + 4), out'⟩ := by
  -- the words are there, since the last one is
  have hlen : 5 * last + 4 ≤ S.length := by
    have := congrArg List.length hlast
    simp only [wordAt, List.length_take, List.length_drop, leBytes_length] at this
    omega
  have hcut : ∀ i, S.drop i = wordAt S i ++ S.drop (i + 4) := by
    intro i
    rw [wordAt, ← List.drop_drop, List.take_append_drop]
  obtain ⟨d, rfl⟩ : ∃ d, last = k + d := ⟨last - k, by omega⟩
  induction d generalizing k out with
  | zero =>
      refine ⟨out, ?_⟩
      rw [runs_loop_iff, hcut (5 * k)]
      simp only [Nat.add_zero] at hlast ⊢
      rw [hlast]
      exact (drainTurn_match k).bind (by simp)
  | succ d ih =>
      obtain ⟨hps, hne⟩ := hskip k (by omega)
      have hw : (wordAt S (5 * k)).length = 4 := by
        simp only [wordAt, List.length_take, List.length_drop]
        omega
      have hin : 5 * k + 4 < S.length := by omega
      have hb : S.drop (5 * k + 4) = S[5 * k + 4] :: S.drop (5 * (k + 1)) :=
        List.drop_eq_getElem_cons hin
      obtain ⟨out₁, hturn⟩ := drainTurn_mismatch (S.drop (5 * (k + 1))) out hw hps hne
        S[5 * k + 4] k
      rw [← hb, ← hcut] at hturn
      have hsum : k + (d + 1) = k + 1 + d := by omega
      obtain ⟨out', hrest⟩ := ih (k := k + 1) out₁ (by rwa [hsum] at hlast)
        (fun j hj => hskip j (by omega)) (by omega) (by omega)
      refine ⟨out', ?_⟩
      rw [runs_loop_iff, hsum]
      exact hturn.bind hrest

end

/-- The turn that ends the loop: the first one behind `n` bytes whose offset is a multiple of four
from there. Source: `simple-boot.c` `simple_boot` (step 0). Kind: L -/
theorem exists_first_aligned (n : Nat) :
    ∃ last m, 5 * last = n + 4 * m ∧ last ≤ n / 5 + 4 ∧ m < 5 ∧
      ∀ k < last, ¬ (n ≤ 5 * k ∧ 4 ∣ 5 * k - n) := by
  have hex : ∃ k, n ≤ 5 * k ∧ 4 ∣ 5 * k - n := by
    refine ⟨(n + 4) / 5 + (n + 3 * ((n + 4) / 5)) % 4, by omega, by omega⟩
  obtain ⟨hle, hdvd⟩ := Nat.find_spec hex
  -- of four turns in a row, one is aligned
  have hbound : Nat.find hex ≤ (n + 4) / 5 + 3 := by
    have hmin := Nat.find_min' hex
      (show n ≤ 5 * ((n + 4) / 5 + (n + 3 * ((n + 4) / 5)) % 4) ∧
        4 ∣ 5 * ((n + 4) / 5 + (n + 3 * ((n + 4) / 5)) % 4) - n from ⟨by omega, by omega⟩)
    omega
  refine ⟨Nat.find hex, (5 * Nat.find hex - n) / 4, by omega, by omega, by omega, ?_⟩
  intro k hk
  exact Nat.find_min hex hk

/-- **Resynchronization.** Behind garbage in which no op appears and five or more messages, the loop
ends after at most `|G|/5 + 5` calls of `get_op`, having consumed the garbage and one or more whole
messages. Source: `simple-boot.c` `simple_boot` (step 0); `simple-boot.h` `get_op`. Kind: P -/
theorem drain_syncs (G rest : List UInt8) (M : Nat) (out : List Output) (hM : 5 ≤ M)
    (hps : ¬ leBytes 4 printString.toNat <:+: G) (hgpi : ¬ leBytes 4 getProgInfo.toNat <:+: G) :
    ∃ calls m t, Runs drain ⟨G ++ beacons M ++ rest, out⟩ (.ok calls) t ∧
      calls ≤ G.length / 5 + 5 ∧ 1 ≤ m ∧ m ≤ M ∧
      G ++ beacons M ++ rest = G ++ beacons m ++ t.input ∧ t.input = beacons (M - m) ++ rest := by
  obtain ⟨last, m, hoff, hbound, hm, hfirst⟩ := exists_first_aligned G.length
  have hlast : wordAt (G ++ beacons M ++ rest) (5 * last) = leBytes 4 getProgInfo.toNat := by
    rw [hoff]
    exact wordAt_beacon (by omega)
  have hskip : ∀ k < last,
      wordAt (G ++ beacons M ++ rest) (5 * k) ≠ leBytes 4 printString.toNat ∧
        wordAt (G ++ beacons M ++ rest) (5 * k) ≠ leBytes 4 getProgInfo.toNat := by
    intro k hk
    exact ⟨wordAt_ne (.inl rfl) hps (by omega) (hfirst k hk),
      wordAt_ne (.inr rfl) hgpi (by omega) (hfirst k hk)⟩
  obtain ⟨out', hrun⟩ := drain_loop hlast hskip (Nat.zero_le last) out
  have hsplit : beacons M = beacons (m + 1) ++ beacons (M - (m + 1)) := by
    rw [← beacons_add]
    congr 1
    omega
  have hleft : (G ++ beacons M ++ rest).drop (5 * last + 4) = beacons (M - (m + 1)) ++ rest := by
    have hlen : 5 * last + 4 = (G ++ beacons (m + 1)).length := by
      rw [List.length_append, beacons_length]
      omega
    rw [hsplit, hlen, ← List.append_assoc, List.append_assoc, List.drop_left]
  refine ⟨last + 1, m + 1, _, hrun, by omega, by omega, by omega, ?_, hleft⟩
  rw [hleft, hsplit]
  simp only [List.append_assoc]

/-- The theorem at three bytes of garbage and five messages. Source: `simple-boot.c` `simple_boot`.
Kind: L -/
theorem drain_syncs_three : ∃ calls m t,
    Runs drain ⟨[0x22, 0x11, 0xee] ++ beacons 5 ++ [], []⟩ (.ok calls) t ∧ calls ≤ 3 / 5 + 5 ∧ 1 ≤ m ∧
      m ≤ 5 ∧ [0x22, 0x11, 0xee] ++ beacons 5 ++ [] = [0x22, 0x11, 0xee] ++ beacons m ++ t.input ∧
      t.input = beacons (5 - m) ++ [] :=
  drain_syncs [0x22, 0x11, 0xee] [] 5 [] (by omega) (by decide) (by decide)

end Cs140e.Boot
