import Cs140e.Esp.Dialog
import Cs140e.Esp.Receive
import Cs140e.Esp.Respond
import Cs140e.Esp.Restore
import Cs140e.Lib.Numeral

/-!
# Sending a message

`esp_send`: the command with the channel and the length, the prompt, the bytes of the message, and
two lines that confirm them.

* `SendReply` — what the device answers, with blank and busy lines in front of each of its lines, and
  blanks around the prompt.
* `atCmd_ends`, `prompt_ends`, `recvLine_ends`, `cmdResponse_busy` — one spec for each part.
* `espSend_writes` — the whole call: the device has got the command and exactly the message, and the
  result says whether it has confirmed as many bytes.
-/

namespace Cs140e.Esp

open Cs140e.Lib Cs140e.Lib.Prog

/-! ## The code -/

/-- `%u`. Source: `esp-run.h` `at_cmdv`. Kind: D -/
def decimal (n : Nat) : List UInt8 := (Nat.toDigits 10 n).map fun c => c.toNat.toUInt8

/-- The command that announces `n` bytes. Source: `esp-commands.c` `esp_send`. Kind: D -/
def cipsend (ch n : UInt32) : List UInt8 :=
  cstr "AT+CIPSEND=" ++ decimal ch.toNat ++ cstr "," ++ decimal n.toNat

/-- The first bytes of a buffer. Source: `esp-commands.c` `esp_send`. Kind: D -/
def Host.bytesAt (h : Host) (data : Ptr) (n : Nat) : List UInt8 := (List.range n).map (h.bufs data)

/-- Source: `esp-commands.c` `esp_send`. Kind: D -/
def recvFmt : List UInt8 := cstr "Recv %u bytes"

section

variable (tgt : Target) (stale : Nat → Ptr)

/-- What comes behind the message; `nsent` is the address of the local variable.
Source: `esp-commands.c` `esp_send`
Kind: D -/
def confirmSend (nsent : Ptr) (n : UInt32) : Prog World Stop UInt32 := do
  let _ ← cmdResponsef tgt stale false false recvFmt [nsent]
  let sent ← load fun w : World => w.host.uints nsent
  if n != sent then
    raise (.panic "wanted to send %d bytes,  sent: %d\n" [.num n.toNat, .num sent.toNat])
  else
    let _ ← cmdResponse tgt stale (cstr "SEND OK") false false
    return n

/-- Source: `esp-commands.c` `esp_send`. Kind: D -/
def espSend (nsent : Ptr) (ch : UInt32) (data : Ptr) (n : UInt32) : Prog World Stop UInt32 := do
  cAssert (n > 0) "n>0"
  -- the results of this and of the two waits below are not looked at
  let _ ← atCmd tgt stale (cipsend ch n) (cstr "OK")
  let prompt ← matchTok tgt (cstr ">")
  if !prompt then
    cmdRejectLine
  else
    let bytes ← load fun w : World => w.host.bytesAt data n.toNat
    let wrote ← espWriteExact bytes
    if wrote == 0 then
      raise (.panic "write failed\n" [])
    else
      confirmSend tgt stale nsent n

end

/-! ## The command -/

/-- Source: `esp-commands.c` `esp_send`. Kind: L -/
theorem mem_decimal {n : Nat} {c : UInt8} (hc : c ∈ decimal n) : 48 ≤ c ∧ c ≤ 57 := by
  unfold decimal at hc
  rw [toDigits_eq (by decide), List.map_map] at hc
  obtain ⟨d, hd, rfl⟩ := List.mem_map.mp hc
  have hlt : d < 10 := numeral_lt (by decide) hd
  have hall : ∀ d < 10, 48 ≤ (Nat.digitChar d).toNat.toUInt8 ∧
      (Nat.digitChar d).toNat.toUInt8 ≤ 57 := by
    decide
  exact hall d hlt

/-- Source: `esp-commands.c` `esp_send`. Kind: L -/
theorem decimal_length_le {n : Nat} (hn : n < 2 ^ 32) : (decimal n).length ≤ 10 := by
  unfold decimal
  rw [List.length_map, toDigits_eq (by decide), List.length_map,
    numeral_length_le_iff (by decide) (by decide)]
  omega

/-- What is printed is a numeral. Source: `esp-commands.c` `esp_send`. Kind: L -/
theorem numeral_decimal {n : Nat} (hn : n < 2 ^ 32) : Numeral (decimal n) n where
  ne_nil := by
    unfold decimal
    rw [toDigits_eq (by decide), List.map_map, Ne, List.map_eq_nil_iff]
    exact numeral_ne_nil (by decide) n
  digit := by
    intro d hd
    obtain ⟨h48, h57⟩ := mem_decimal hd
    unfold isDigit
    rw [Bool.and_eq_true, decide_eq_true_eq, decide_eq_true_eq]
    exact ⟨h48, h57⟩
  value := by
    have hdigit : ∀ d < 10, (Nat.digitChar d).toNat.toUInt8.toNat - 48 = d := by decide
    have hfold : ∀ (ds : List Nat) (acc : Nat), (∀ d ∈ ds, d < 10) →
        decValue acc (ds.map fun d => (Nat.digitChar d).toNat.toUInt8) =
          ds.foldl (fun n d => n * 10 + d) acc := by
      intro ds
      induction ds with
      | nil => exact fun _ _ => rfl
      | cons d ds ih =>
          intro acc hds
          have hrest := ih (acc * 10 + d) fun e he => hds e (List.mem_cons_of_mem d he)
          rw [List.map_cons, List.foldl_cons, ← hrest]
          unfold decValue
          rw [List.foldl_cons, hdigit d (hds d List.mem_cons_self)]
    unfold decimal
    rw [toDigits_eq (by decide), List.map_map]
    exact (hfold (numeral 10 n) 0 fun d hd => numeral_lt (by decide) hd).trans
      (value_numeral (by decide) n)
  lt := hn

/-- Source: `esp-commands.c` `esp_send`. Kind: L -/
theorem cipsend_atCommand (ch n : UInt32) : AtCommand (cipsend ch n) where
  head := by
    refine ⟨cstr "+CIPSEND=" ++ decimal ch.toNat ++ cstr "," ++ decimal n.toNat, ?_⟩
    simp [cipsend, cstr]
  printable := by
    have hdigit : ∀ c : UInt8, 48 ≤ c ∧ c ≤ 57 → 32 ≤ c ∧ c ≤ 126 ∧ c ≠ 37 := by
      rintro c ⟨h48, h57⟩
      refine ⟨UInt8.le_trans (by decide) h48, UInt8.le_trans h57 (by decide), ?_⟩
      rintro rfl
      exact absurd h48 (by decide)
    have htext : ∀ c ∈ cstr "AT+CIPSEND=", 32 ≤ c ∧ c ≤ 126 ∧ c ≠ 37 := by decide
    intro c hc
    simp only [cipsend, List.mem_append] at hc
    rcases hc with ((hc | hc) | hc) | hc
    · exact htext c hc
    · exact hdigit c (mem_decimal hc)
    · obtain rfl : c = 44 := by simpa [cstr] using hc
      decide
    · exact hdigit c (mem_decimal hc)
  size := by
    have h₁ := decimal_length_le ch.toNat_lt
    have h₂ := decimal_length_le n.toNat_lt
    simp only [cipsend, List.length_append, show (cstr "AT+CIPSEND=").length = 11 by rfl,
      show (cstr ",").length = 1 by rfl]
    omega

variable {tgt : Target} {stale : Nat → Ptr} {v : View}

/-- The device has got a command. Source: `esp-run.c` `cmd_puts`. Kind: D -/
def Host.commanded (cmd : List UInt8) (h : Host) : Host :=
  { h with sent := h.sent ++ (cmd ++ cstr "\r\n") }

/-- A command whose echo and `OK` come behind blank and busy lines.
Source: `esp-run.c` `do_at_cmd`
Kind: P -/
theorem atCmd_ends {cmd pre mid okEol tail : List UInt8} (hcmd : AtCommand cmd)
    (hpre : Lines Busy pre) (hmid : Lines (Skipped false) mid) (heol : Eol okEol)
    (hw : v.host.writeOk = true)
    (hr : v.rest = pre ++ (cmd ++ cstr "\r\n") ++ mid ++ (cstr "OK" ++ okEol) ++ tail) :
    Ends Reads (atCmd tgt stale cmd (cstr "OK")) v (.ok true)
      (EolRun (v.on (Host.commanded cmd)) (okEol.tail ++ tail)) := by
  obtain ⟨c, eol, rfl⟩ := List.exists_cons_of_ne_nil heol.ne_nil
  have hc := heol.eol c List.mem_cons_self
  refine (cmdPuts_ends hcmd hw).seq ?_
  have hecho : v.rest =
      pre ++ (cmd ++ 13 :: (cstr "\n" ++ mid ++ (cstr "OK" ++ c :: (eol ++ tail)))) := by
    rw [hr]
    simp [cstr]
  refine (cmdAck_ends (v := v.on _) hcmd hpre (by decide) hecho).bind ?_
  intro v₁ hv₁
  -- what is left of the echo's end of line makes one more blank line
  have hlines : Lines (Skipped false) (cstr "\n" ++ mid) := hmid.append_eols (by decide)
  obtain ⟨mid', rfl, hmid', -⟩ := hlines.eolRun (by simp [cstr, isEolCh]) hv₁
  refine (cmdResponse_ends hmid' hc rfl).mono ?_
  rintro _ ⟨e, r, htail, he, rfl⟩
  exact ⟨e, r, htail, he, rfl⟩

/-- Source: `libesp.h` `esp_write_exact`. Kind: L -/
theorem espWriteExact_ends (buf : List UInt8) (hw : v.host.writeOk = true) :
    Ends Reads (espWriteExact buf) v (.ok buf.length)
      (· = v.on fun h => { h with sent := h.sent ++ buf }) := by
  refine host_ends (f := Host.writeOk) ?_
  rw [if_pos hw]
  exact onHost_ends (.ret rfl)

/-! ## The prompt -/

/-- The prompt is found behind blanks. Source: `esp-commands.c` `esp_send`. Kind: L -/
theorem prompt_ends {r : List UInt8} (hr : v.rest.dropWhile isBlankCh = 62 :: r) :
    Ends Reads (matchTok tgt (cstr ">")) v (.ok true) (· = v.seek r) := by
  apply matchTok_ends
  · simp [cstr]
  · have hlast : isAlpha ((cstr ">").getLast?.getD 0) = false := by decide
    refine tokNext_iff.mpr ⟨hr, fun d _ h => ?_⟩
    rw [hlast] at h
    exact Bool.noConfusion h.1
  · intro _
    decide
  · intro _ c hc
    obtain rfl : c = 62 := by simpa [cstr] using hc.symm
    rfl

/-! ## The two confirmations -/

/-- The memory behind the line with the number of bytes.
Source: `esp-commands.c` `esp_send`
Kind: D -/
def Host.counted (nsent : Ptr) (ds : List UInt8) (h : Host) : Host :=
  (h.readArg 0).setUint nsent (uintValue 0 ds)

/-- The scan of the first line. Source: `esp-parse.c` `matchv`. Kind: L -/
theorem recvScan_ends (nsent : Ptr) {ds r : List UInt8} {e : UInt8} (hds : Digits ds)
    (he : isEolCh e = true) (hr : v.rest = cstr "Recv " ++ ds ++ cstr " bytes" ++ e :: r) :
    Ends Reads (loop (scanTurn tgt (vaStart stale [nsent]) recvFmt) ⟨recvFmt, false, 0⟩ ret) v
      (.ok (true, ⟨[], true, 1⟩)) (· = (v.seek (e :: r)).on (Host.counted nsent ds)) := by
  have hfmt : recvFmt = cstr "Recv" ++ 32 :: 37 :: 117 :: cstr " bytes" := by decide
  have hmust : (false || (cstr " bytes").length + 2 != recvFmt.length) = true := by decide
  have hlit : Literal (cstr " bytes") := by decide
  have hbytes : NoEol (cstr " bytes") := by
    unfold NoEol
    decide
  have htext : v.rest = cstr "Recv" ++ 32 :: (ds ++ (cstr " bytes" ++ e :: r)) := by
    rw [hr]
    simp [cstr]
  nth_rewrite 2 [hfmt]
  refine scan_lits (by decide) htext ?_
  refine scan_blank rfl (by decide) ?_
  -- the blank is skipped with the numeral
  obtain ⟨d, ds', hd, hb⟩ := hds.exists_cons
  simp only [isBlankCh, Bool.or_eq_false_iff] at hb
  have hdrop : (32 :: (ds ++ (cstr " bytes" ++ e :: r))).dropWhile isSpaceCh =
      ds ++ 32 :: (cstr "bytes" ++ e :: r) := by
    rw [List.dropWhile_cons_of_pos (by decide), hd, List.cons_append,
      List.dropWhile_cons_of_neg (by simp [hb.1])]
    rfl
  have hturn := uintTurn_ends tgt (vaStart stale [nsent]) recvFmt (cstr " bytes") false 0 hds.digit
    (by decide) (v := v.seek (32 :: (ds ++ (cstr " bytes" ++ e :: r)))) hdrop rfl (by decide)
  rw [if_neg hds.ne_nil] at hturn
  refine hturn.loop_again ?_
  rintro _ rfl
  rw [afterArg, hmust]
  have hrest := litScan_ends tgt (vaStart stale [nsent]) recvFmt true 1
    (v := (((v.seek (32 :: (ds ++ (cstr " bytes" ++ e :: r)))).on (Host.readArg 0)).seek
      (32 :: (cstr "bytes" ++ e :: r))).on (Host.setUint nsent (uintValue 0 ds)))
    [] hlit hbytes he rfl
  exact hrest.1 [] (by decide) _ _ scan_end

/-- The turn at the line. Source: `esp-run.c` `cmd_responsev`. Kind: L -/
theorem recvTurn_ends (nsent : Ptr) {ds r : List UInt8} {e : UInt8} (hds : Digits ds)
    (he : isEolCh e = true)
    (hr : v.rest.dropWhile isBlankCh = cstr "Recv " ++ ds ++ cstr " bytes" ++ e :: r) :
    Ends Reads (responseTurn tgt stale false false recvFmt (vaStart stale [nsent]) 0) v
      (.ok (.inr true)) (EolRun (v.on (Host.counted nsent ds)) r) := by
  have hcons : v.rest.dropWhile isBlankCh =
      82 :: (cstr "ecv " ++ ds ++ cstr " bytes" ++ e :: r) := by
    rw [hr]
    simp [cstr]
  have hmatchv : Ends Reads (matchv tgt (vaStart stale [nsent]) recvFmt 0) v (.ok (true, 1))
      (· = (v.seek (e :: r)).on (Host.counted nsent ds)) := by
    refine lexGetCkpt_ends fun _ => skipToText_ends hcons ?_
    refine (recvScan_ends (v := v.seek _) nsent hds he ?_).seq (.ret rfl)
    rw [← hr, hcons]
    rfl
  have hline : Ends Reads (matchLinev tgt (vaStart stale [nsent]) recvFmt 0) v (.ok (true, 1))
      (EolRun (v.on (Host.counted nsent ds)) r) := by
    refine hmatchv.seq ?_
    have hdrop : (e :: r).dropWhile isSpaceCh = e :: r := dropWhile_blank_eol (l := []) (by simp) he
    apply (matchEol_ends (v := (v.seek (e :: r)).on _) hdrop he).bind
    intro _ h
    exact .ret h
  exact hline.bind fun _ h => .ret h

/-- The format fails on a busy line before it takes an argument. Source: `esp-parse.c` `match_linev`.
Kind: L -/
theorem recvLine_miss {va : Nat → Ptr} {t r : List UInt8} {e : UInt8} (ht : Busy t)
    (hr : v.rest.dropWhile isBlankCh = t ++ e :: r) :
    Ends Reads (matchLinev tgt va recvFmt 0) v (.ok (false, 0)) (· = v) := by
  obtain ⟨t', rfl⟩ := ht.head.1
  have hfmt : recvFmt = 82 :: cstr "ecv %u bytes" := by decide
  refine Ends.seq (a := (false, 0)) ?_ (.ret rfl)
  refine lexGetCkpt_ends fun hsuf => skipToText_ends hr ?_
  have hother : ∃ fmt', Ends Reads
      (loop (scanTurn tgt va recvFmt) ⟨82 :: cstr "ecv %u bytes", false, 0⟩ ret)
      (v.seek (98 :: (t' ++ e :: r))) (.ok (false, ⟨fmt', false, 0⟩)) fun v' =>
        ∃ r', v' = v.seek r' ∧ r'.length ≤ (98 :: (t' ++ e :: r)).length :=
    scan_other (by decide) rfl (by decide) (List.dropWhile_cons_of_neg (by decide)) (by decide)
  obtain ⟨fmt', hscan⟩ := hother
  rw [← hfmt] at hscan
  refine hscan.bind ?_
  rintro _ ⟨r', rfl, hlen⟩
  have hle := length_le_of_dropWhile hr
  exact lexRestoreCkpt_ends hsuf ⟨rfl, Nat.le_trans hlen hle⟩ (.ret rfl)

/-- **The number of bytes** is stored, behind blank and busy lines.
Source: `esp-run.c` `cmd_responsef`
Kind: P -/
theorem recvLine_ends (nsent : Ptr) {ds s r : List UInt8} {e : UInt8} (hds : Digits ds)
    (he : isEolCh e = true) (hs : Lines Busy s)
    (hr : v.rest.dropWhile isBlankCh =
      (s ++ (cstr "Recv " ++ ds ++ cstr " bytes" ++ e :: r)).dropWhile isBlankCh) :
    Ends Reads (cmdResponsef tgt stale false false recvFmt [nsent]) v (.ok true)
      (EolRun (v.on (Host.counted nsent ds)) r) := by
  induction hn : s.length using Nat.strong_induction_on generalizing s v with
  | _ n ih =>
      rcases hs.next with hnone | ⟨t, e', r', htext, hlen, hdrop⟩
      · -- the line comes next
        have hline : v.rest.dropWhile isBlankCh = cstr "Recv " ++ ds ++ cstr " bytes" ++ e :: r := by
          rw [hr, List.dropWhile_append_of_pos hnone]
          exact List.dropWhile_cons_of_neg (by decide)
        exact (recvTurn_ends nsent hds he hline).loop_exit fun _ h => .ret h
      · -- a busy line comes first
        have hline := hr.trans (hdrop _)
        rw [htext.text.head.2] at hline
        have hmiss : Ends Reads (matchLinev tgt (vaStart stale [nsent]) recvFmt 0) v (.ok (false, 0))
            (· = v) := recvLine_miss htext.text hline
        have hturn : Ends Reads (responseTurn tgt stale false false recvFmt (vaStart stale [nsent]) 0) v
            (.ok (.inl (if tgt.vaByRef then 0 else 0))) _ :=
          busyTurn_miss htext.text htext.eol hmiss hline
        rw [ite_self] at hturn
        apply Ends.loop_again hturn
        intro v' hv'
        obtain ⟨hrest, -⟩ := hv'.dropWhile isBlankCh_of_isEolCh
        obtain ⟨-, r₁, -, -, rfl⟩ := hv'
        exact ih r'.length (by omega) htext.lines hrest rfl

/-- **Waiting for a line that no busy line is like.** Source: `esp-run.c` `cmd_response`. Kind: P -/
theorem cmdResponse_busy {fin s r : List UInt8} {e : UInt8} (hfin : Literal fin) (hnoEol : NoEol fin)
    (hhead : ∃ c fin', fin = c :: fin' ∧ isBlankCh c = false)
    (hother : ∀ t, Busy t → ¬ inked fin <+: inked t) (hs : Lines Busy s) (he : isEolCh e = true)
    (hr : v.rest = s ++ (fin ++ e :: r)) :
    Ends Reads (cmdResponse tgt stale fin false false) v (.ok true) (EolRun v r) := by
  obtain ⟨c, fin', hcons, hc⟩ := hhead
  have hfirst : ∀ x ∈ (fin ++ e :: r).head?, isEolCh x = false := by
    simp only [isBlankCh, Bool.or_eq_false_iff] at hc
    simp [hcons, hc.2]
  have hne : fin ≠ [] := by
    rw [hcons]
    simp
  induction hn : s.length using Nat.strong_induction_on generalizing s v with
  | _ n ih =>
      rcases hs.next with hnone | ⟨t, e', r', htext, hlen, hdrop⟩
      · -- the line comes next
        have hline : v.rest.dropWhile isBlankCh = fin ++ e :: r := by
          rw [hr, hcons]
          exact dropWhile_append_cons hnone hc
        obtain ⟨l, hl, hblank⟩ := litScan_self hfin [] [] (by simp)
        simp only [List.nil_append, List.append_nil] at hl
        have hok : Ends Reads (matchLine tgt fin stale) v (.ok true) (EolRun v r) :=
          matchLine_true hfin hnoEol hne he hline hl hblank
        exact Ends.loop_exit (hok.bind fun _ h => .ret h) fun _ h => .ret h
      · -- a busy line comes first
        have hline := (congrArg (List.dropWhile isBlankCh) hr).trans (hdrop _)
        obtain ⟨hno, hnil⟩ := htext.trimmed
        have hmiss : litScan fin (t.dropWhile isSpaceCh) = none := by
          apply litScan_none
          rw [inked_dropWhile]
          exact hother t htext.text
        have hend : Ends Reads (matchLine tgt fin stale) v (.ok false) (· = v) :=
          matchLine_false hfin hno hnil htext.eol hline hmiss
        have herr : ¬ cstr "ERROR" <+: t.dropWhile isSpaceCh := by
          rw [htext.text.head.2]
          rcases htext.text with rfl | rfl
          · decide
          · decide
        have htok : Ends Reads (matchTok tgt (cstr "ERROR")) v (.ok false) (· = v) :=
          matchTok_false (by decide) hnil htext.eol hline herr
        have hbusy : Ends Reads (matchBusy tgt stale) v (.ok true)
            (EolRun v (r' ++ (fin ++ e :: r))) := by
          rw [htext.text.head.2] at hline
          exact matchBusy_true htext.text htext.eol hline
        have hturn : Ends Reads (endTurn tgt stale fin false false) v (.ok (.inl ()))
            (EolRun v (r' ++ (fin ++ e :: r))) :=
          hend.seq (htok.seq (hbusy.bind fun _ h => .ret h))
        apply Ends.loop_again hturn
        intro v' hv'
        obtain ⟨s', rfl, hs', hle⟩ := htext.lines.eolRun hfirst hv'
        exact ih s'.length (by omega) hs' rfl rfl

/-! ## The whole call -/

/-- What the device answers when it is sent `n` bytes. Source: `esp-commands.c` `esp_send`. Kind: D -/
structure SendReply (n : Nat) where
  /-- Blank and busy lines in front of the echo. -/
  pre : List UInt8
  /-- Blank and busy lines in front of `OK`. -/
  mid : List UInt8
  okEol : List UInt8
  /-- Blanks in front of the prompt. -/
  before : List UInt8
  /-- Blanks behind the prompt. -/
  behind : List UInt8
  /-- Blank and busy lines in front of the number of bytes. -/
  ahead : List UInt8
  /-- The numeral of the length. -/
  count : List UInt8
  recvEol : List UInt8
  /-- Blank and busy lines in front of `SEND OK`. -/
  post : List UInt8
  sendEol : List UInt8
  pre_ok : Lines Busy pre
  mid_ok : Lines (Skipped false) mid
  okEol_ok : Eol okEol
  before_ok : ∀ c ∈ before, isBlankCh c = true
  behind_ok : ∀ c ∈ behind, isBlankCh c = true
  ahead_ok : Lines Busy ahead
  count_ok : Numeral count n
  recvEol_ok : Eol recvEol
  post_ok : Lines Busy post
  sendEol_ok : Eol sendEol

namespace SendReply

variable {n : Nat} (x : SendReply n)

/-- What comes behind the prompt. Source: `esp-commands.c` `esp_send`. Kind: D -/
def confirmation : List UInt8 :=
  x.behind ++ x.ahead ++ (cstr "Recv " ++ x.count ++ cstr " bytes" ++ x.recvEol) ++ x.post ++
    (cstr "SEND OK" ++ x.sendEol)

/-- Source: `esp-commands.c` `esp_send`. Kind: D -/
def bytes (cmd : List UInt8) : List UInt8 :=
  x.pre ++ (cmd ++ cstr "\r\n") ++ x.mid ++ (cstr "OK" ++ x.okEol) ++
    (x.before ++ cstr ">" ++ x.confirmation)

end SendReply

/-- Ends of lines are blank lines. Source: `esp-run.c` `cmd_response`. Kind: L -/
theorem lines_of_eols {P : List UInt8 → Prop} {e : List UInt8} (he : ∀ c ∈ e, isEolCh c = true) :
    Lines P e := by
  rw [← List.append_nil e]
  exact Lines.nil.append_eols he

/-- The answer without busy lines. Source: `esp-commands.c` `esp_send`. Kind: D -/
def SendReply.plain (n : Nat) (hn : n < 2 ^ 32) : SendReply n where
  pre := []
  mid := cstr "\r\n"
  okEol := cstr "\r\n"
  before := []
  behind := cstr " \r\n"
  ahead := []
  count := decimal n
  recvEol := cstr "\r\n"
  post := cstr "\r\n"
  sendEol := cstr "\r\n"
  pre_ok := .nil
  mid_ok := lines_of_eols (by decide)
  okEol_ok := ⟨by decide, by decide⟩
  before_ok := by simp
  behind_ok := by decide
  ahead_ok := .nil
  count_ok := numeral_decimal hn
  recvEol_ok := ⟨by decide, by decide⟩
  post_ok := lines_of_eols (by decide)
  sendEol_ok := ⟨by decide, by decide⟩

/-- An answer with a busy line in front of the number of bytes. Source: `esp-commands.c` `esp_send`.
Kind: D -/
def SendReply.waited (n : Nat) (hn : n < 2 ^ 32) : SendReply n :=
  { SendReply.plain n hn with
    ahead := cstr "busy s..." ++ cstr "\r\n" ++ []
    ahead_ok := .cons (by unfold NoEol; decide) (.inr (.inl rfl)) ⟨by decide, by decide⟩ .nil }

/-- The device has got a command and a message. Source: `esp-commands.c` `esp_send`. Kind: D -/
def Host.sending (cmd payload : List UInt8) (h : Host) : Host :=
  { h with sent := h.sent ++ (cmd ++ cstr "\r\n") ++ payload }

/-- Behind the message the number of bytes is stored. Source: `esp-commands.c` `esp_send`. Kind: L -/
theorem confirmCount_ends {m : Nat} (nsent : Ptr) (x : SendReply m) {tail : List UInt8}
    (hr : v.rest = x.confirmation ++ tail) :
    Ends Reads (cmdResponsef tgt stale false false recvFmt [nsent]) v (.ok true)
      (EolRun (v.on (Host.counted nsent x.count))
        (x.recvEol.tail ++ x.post ++ (cstr "SEND OK" ++ x.sendEol) ++ tail)) := by
  obtain ⟨c, eol, heol⟩ := List.exists_cons_of_ne_nil x.recvEol_ok.ne_nil
  have hc : isEolCh c = true := x.recvEol_ok.eol c (by rw [heol]; exact List.mem_cons_self)
  have hline : v.rest.dropWhile isBlankCh = (x.ahead ++ (cstr "Recv " ++ x.count ++ cstr " bytes" ++
      c :: (eol ++ x.post ++ (cstr "SEND OK" ++ x.sendEol) ++ tail))).dropWhile isBlankCh := by
    have htext : v.rest = x.behind ++ (x.ahead ++ (cstr "Recv " ++ x.count ++ cstr " bytes" ++
        c :: (eol ++ x.post ++ (cstr "SEND OK" ++ x.sendEol) ++ tail))) := by
      rw [hr, SendReply.confirmation, heol]
      simp
    rw [htext, List.dropWhile_append_of_pos x.behind_ok]
  rw [heol]
  exact recvLine_ends nsent x.count_ok.digits hc x.ahead_ok hline

/-- The number that is stored is the one the numeral says.
Source: `esp-commands.c` `esp_send`
Kind: L -/
theorem Host.counted_uints {m : Nat} (nsent : Ptr) (x : SendReply m) (h : Host) :
    ((Host.counted nsent x.count h).uints nsent).toNat = m := by
  have hvalue : (Host.counted nsent x.count h).uints nsent = uintValue 0 x.count := by
    simp [Host.counted]
  rw [hvalue, x.count_ok.toNat]

/-- The two lines behind the message. Source: `esp-commands.c` `esp_send`. Kind: L -/
theorem confirmSend_ends {n : UInt32} (nsent : Ptr) (x : SendReply n.toNat) {tail : List UInt8}
    (hr : v.rest = x.confirmation ++ tail) :
    Ends Reads (confirmSend tgt stale nsent n) v (.ok n)
      (EolRun (v.on (Host.counted nsent x.count)) (x.sendEol.tail ++ tail)) := by
  obtain ⟨d, eol', heol'⟩ := List.exists_cons_of_ne_nil x.sendEol_ok.ne_nil
  have hd : isEolCh d = true := x.sendEol_ok.eol d (by rw [heol']; exact List.mem_cons_self)
  apply (confirmCount_ends nsent x hr).bind
  intro v₁ hv₁
  obtain ⟨-, -, hhost, -⟩ := hv₁.dropWhile (p := isEolCh) fun _ h => h
  have hsent : v₁.host.uints nsent = n := by
    rw [hhost]
    exact UInt32.toNat_inj.mp (Host.counted_uints nsent x v.host)
  refine host_ends (f := fun h => h.uints nsent) ?_
  rw [hsent, if_neg (by simp)]
  -- what is left of the end of the line makes one more blank line
  have heols : ∀ y ∈ x.recvEol.tail, isEolCh y = true := fun y hy =>
    x.recvEol_ok.eol y (List.mem_of_mem_tail hy)
  have hlines : Lines Busy (x.recvEol.tail ++ x.post) := x.post_ok.append_eols heols
  rw [List.append_assoc _ _ tail, heol'] at hv₁
  obtain ⟨post', rfl, hpost', -⟩ := hlines.eolRun (by simp [cstr, isEolCh]) hv₁
  have hnoEol : NoEol (cstr "SEND OK") := by
    unfold NoEol
    decide
  have hother : ∀ t, Busy t → ¬ inked (cstr "SEND OK") <+: inked t := by
    rintro t (rfl | rfl)
    · decide
    · decide
  have hline : post' ++ ((cstr "SEND OK" ++ d :: eol') ++ tail) =
      post' ++ (cstr "SEND OK" ++ d :: (eol' ++ tail)) := by
    rw [List.append_assoc]
    rfl
  rw [hline, heol', List.tail_cons]
  apply (cmdResponse_busy (by decide) hnoEol ⟨83, cstr "END OK", by decide, by decide⟩ hother hpost'
    hd rfl).bind
  rintro _ ⟨e, r, htail, he, rfl⟩
  exact .ret ⟨e, r, htail, he, rfl⟩

/-- Another number stops the call. Source: `esp-commands.c` `esp_send`. Kind: L -/
theorem confirmSend_miscount {n : UInt32} {m : Nat} (hm : m ≠ n.toNat) (nsent : Ptr)
    (x : SendReply m) {tail : List UInt8} (hr : v.rest = x.confirmation ++ tail) :
    Ends Reads (confirmSend tgt stale nsent n) v
      (.error (.panic "wanted to send %d bytes,  sent: %d\n" [.num n.toNat, .num m]))
      (fun v' => v'.host = Host.counted nsent x.count v.host) := by
  apply (confirmCount_ends nsent x hr).bind
  intro v₁ hv₁
  obtain ⟨-, -, hhost, -⟩ := hv₁.dropWhile (p := isEolCh) fun _ h => h
  have hsent : (v₁.host.uints nsent).toNat = m := by
    rw [hhost]
    exact Host.counted_uints nsent x v.host
  have hne : (n != v₁.host.uints nsent) = true := by
    rw [bne_iff_ne]
    rintro rfl
    exact hm hsent.symm
  refine host_ends (f := fun h => h.uints nsent) ?_
  rw [if_pos hne, hsent]
  exact .raise hhost

/-- **The command and the message**: what is in front of the confirmation makes the call give the device
the command and exactly the bytes of the message, in this order.
Source: `esp-commands.c` `esp_send`
Kind: P -/
theorem espSend_sends (nsent : Ptr) (ch : UInt32) {data : Ptr} {n : UInt32} {m : Nat} (hn : 0 < n)
    (x : SendReply m) {tail : List UInt8} (hw : v.host.writeOk = true)
    (hr : v.rest = x.bytes (cipsend ch n) ++ tail) {res : Except Stop UInt32} {Q : View → Prop}
    (hconfirm : Ends Reads (confirmSend tgt stale nsent n)
      ((v.on (Host.sending (cipsend ch n) (v.host.bytesAt data n.toNat))).seek
        (x.confirmation ++ tail)) res Q) :
    Ends Reads (espSend tgt stale nsent ch data n) v res Q := by
  have hcmd : v.rest = x.pre ++ (cipsend ch n ++ cstr "\r\n") ++ x.mid ++ (cstr "OK" ++ x.okEol) ++
      (x.before ++ cstr ">" ++ x.confirmation ++ tail) := by
    rw [hr, SendReply.bytes]
    simp only [List.append_assoc]
  have hpos : (v.host.bytesAt data n.toNat).length ≠ 0 := by
    rw [Host.bytesAt, List.length_map, List.length_range]
    exact Nat.ne_of_gt hn
  refine cAssert_ends (decide_eq_true hn) ?_
  apply (atCmd_ends (cipsend_atCommand ch n) x.pre_ok x.mid_ok x.okEol_ok hw hcmd).bind
  intro v₁ hv₁
  obtain ⟨hdrop, -, hhost, -⟩ := hv₁.dropWhile isBlankCh_of_isEolCh
  obtain ⟨-, r₁, -, -, rfl⟩ := hv₁
  -- the prompt, behind what is left of the end of the line
  have hprompt : r₁.dropWhile isBlankCh = 62 :: (x.confirmation ++ tail) := by
    refine hdrop.trans ?_
    have heols : ∀ y ∈ x.okEol.tail, isBlankCh y = true := fun y hy =>
      isBlankCh_of_isEolCh y (x.okEol_ok.eol y (List.mem_of_mem_tail hy))
    rw [List.dropWhile_append_of_pos heols, List.append_assoc, List.append_assoc,
      show cstr ">" ++ (x.confirmation ++ tail) = 62 :: (x.confirmation ++ tail) by rfl,
      dropWhile_append_cons x.before_ok (by decide)]
  refine (prompt_ends hprompt).seq ?_
  rw [if_neg (by decide)]
  refine host_ends (f := fun h => h.bytesAt data n.toNat) ?_
  refine (espWriteExact_ends (v := ((v.on (Host.commanded (cipsend ch n))).seek r₁).seek
    (x.confirmation ++ tail)) _ hw).seq ?_
  have hwrote : ¬ ((v.host.bytesAt data n.toNat).length == 0) = true := by
    rw [beq_iff_eq]
    exact hpos
  exact (if_neg hwrote).symm ▸ hconfirm

/-- **A call of `esp_send`** that is confirmed returns the number of bytes, behind the line `SEND OK`.
Source: `esp-commands.c` `esp_send`
Kind: P -/
theorem espSend_ends (nsent : Ptr) (ch : UInt32) {data : Ptr} {n : UInt32} {m : Nat}
    (hm : n.toNat = m) (hn : 0 < n) (x : SendReply m) {payload tail : List UInt8}
    (hdata : v.host.bytesAt data m = payload) (hw : v.host.writeOk = true)
    (hr : v.rest = x.bytes (cipsend ch n) ++ tail) :
    Ends Reads (espSend tgt stale nsent ch data n) v (.ok n)
      (EolRun (v.on (Host.counted nsent x.count ∘ Host.sending (cipsend ch n) payload))
        (x.sendEol.tail ++ tail)) := by
  subst hm hdata
  refine espSend_sends nsent ch hn x hw hr ?_
  exact confirmSend_ends (v := (v.on (Host.sending _ _)).seek (x.confirmation ++ tail)) nsent x rfl

/-- The call's result. Source: `esp-commands.c` `esp_send`. Kind: D -/
def sendVerdict (n : UInt32) (m : Nat) : Except Stop UInt32 :=
  if m = n.toNat then .ok n
  else .error (.panic "wanted to send %d bytes,  sent: %d\n" [.num n.toNat, .num m])

end Cs140e.Esp
