import Cs140e.Libunix.PutGet

/-!
# Bootloader: messages from the Pi

The Pi may print at any time, by sending a string in front of an op: `boot_putk` and `boot_put32` of
`get-code.h`. The unix side calls `get_op` of `simple-boot.h` for the first word of a message, which
prints such strings until an op comes. (`trace_p` is 0, and so nothing is traced.)

* `bootPutk_eq`, `bootPut32_eq` — the bytes that are sent.
* `getOpTurn_message` — a message that is not empty is taken and printed; `getOpTurn_empty` — an
  empty one is not, since the unsigned `nbytes-1` wraps; `getOpTurn_op` — an op ends the loop.
* `getOp_delivers_iff` — so a stream of messages and an op is understood if and only if none of the
  messages is empty.
-/

namespace Cs140e.Boot

open Cs140e.Lib Cs140e.Lib.Prog Cs140e.Libunix

/-! ## The Pi -/

/-- Pi sends to print a string. Source: `simple-boot-defs.h` `PRINT_STRING`. Kind: D -/
def printString : UInt32 := 0xDDDDEEEE

/-- Put 1 byte: `sent` is what has been put. Source: `get-code.h` `boot_put8`. Kind: D -/
def bootPut8 (b : UInt8) (sent : List UInt8) : List UInt8 := sent ++ [b]

/-- Source: `get-code.h` `boot_put32`. Kind: D -/
def bootPut32 (u : UInt32) (sent : List UInt8) : List UInt8 :=
  let sent := bootPut8 ((u >>> 0) &&& 0xff).toUInt8 sent
  let sent := bootPut8 ((u >>> 8) &&& 0xff).toUInt8 sent
  let sent := bootPut8 ((u >>> 16) &&& 0xff).toUInt8 sent
  bootPut8 ((u >>> 24) &&& 0xff).toUInt8 sent

/-- `for(n = 0; msg[n]; n++);`, from `n` on: `msg` is what is behind `msg[n]`.
Source: `get-code.h` `boot_putk`
Kind: D -/
def lenLoop : List UInt8 → UInt32 → UInt32
  | [], n => n
  | c :: msg, n => if c == 0 then n else lenLoop msg (n + 1)

/-- `for(n = 0; msg[n]; n++) boot_put8(msg[n]);`. Source: `get-code.h` `boot_putk`. Kind: D -/
def putLoop : List UInt8 → List UInt8 → List UInt8
  | [], sent => sent
  | c :: msg, sent => if c == 0 then sent else putLoop msg (bootPut8 c sent)

/-- Send a string to the unix side to print. Source: `get-code.h` `boot_putk`. Kind: D -/
def bootPutk (msg : List UInt8) (sent : List UInt8) : List UInt8 :=
  let n := lenLoop msg 0
  let sent := bootPut32 printString sent
  let sent := bootPut32 n sent
  putLoop msg sent

/-- All of a Pi's messages, and then an op. Source: `get-code.h` `boot_putk`, `boot_put32`.
Kind: D -/
def emit (messages : List (List UInt8)) (op : UInt32) : List UInt8 :=
  bootPut32 op (messages.foldl (fun sent m => bootPutk m sent) [])

/-- A message: a C string that `get_op` takes to be of a plausible length.
Source: `get-code.h` `boot_putk`, `simple-boot.h` `get_op`
Kind: D -/
structure Message (m : List UInt8) : Prop where
  noNul : ∀ c ∈ m, c ≠ 0
  short : m.length < 512

/-- Source: `get-code.h` `boot_put32`. Kind: L -/
theorem bootPut32_eq (u : UInt32) (sent : List UInt8) :
    bootPut32 u sent = sent ++ leBytes 4 u.toNat := by
  rw [← leBytes_word]
  simp [bootPut32, bootPut8]

/-- Source: `get-code.h` `boot_putk`. Kind: L -/
theorem lenLoop_eq {m : List UInt8} (hm : ∀ c ∈ m, c ≠ 0) (n : UInt32) :
    lenLoop m n = n + UInt32.ofNat m.length := by
  induction m generalizing n with
  | nil => simp [lenLoop]
  | cons c m ih =>
      have hc := hm c List.mem_cons_self
      rw [lenLoop, if_neg (by simpa using hc), ih fun x hx => hm x (List.mem_cons_of_mem _ hx),
        List.length_cons, UInt32.ofNat_add, UInt32.add_assoc, UInt32.add_comm 1]
      rfl

/-- Source: `get-code.h` `boot_putk`. Kind: L -/
theorem putLoop_eq {m : List UInt8} (hm : ∀ c ∈ m, c ≠ 0) (sent : List UInt8) :
    putLoop m sent = sent ++ m := by
  induction m generalizing sent with
  | nil => simp [putLoop]
  | cons c m ih =>
      have hc := hm c List.mem_cons_self
      rw [putLoop, if_neg (by simpa using hc), ih fun x hx => hm x (List.mem_cons_of_mem _ hx),
        bootPut8, List.append_assoc, List.singleton_append]

/-- The bytes of a message: the magic number, the length, the text.
Source: `get-code.h` `boot_putk`
Kind: D -/
def frame (m : List UInt8) : List UInt8 := leBytes 4 printString.toNat ++ leBytes 4 m.length ++ m

/-- Source: `get-code.h` `boot_putk`. Kind: L -/
theorem bootPutk_eq {m : List UInt8} (hm : Message m) (sent : List UInt8) :
    bootPutk m sent = sent ++ frame m := by
  have hlen : (UInt32.ofNat m.length).toNat = m.length :=
    UInt32.toNat_ofNat_of_lt' (Nat.lt_trans hm.short (by decide))
  simp [bootPutk, bootPut32_eq, lenLoop_eq hm.noNul, putLoop_eq hm.noNul, frame, hlen]

/-- What the Pi sends. Source: `get-code.h` `boot_putk`, `boot_put32`. Kind: L -/
theorem emit_eq {messages : List (List UInt8)} (hm : ∀ m ∈ messages, Message m) (op : UInt32) :
    emit messages op = messages.flatMap frame ++ leBytes 4 op.toNat := by
  have hfold : ∀ sent, messages.foldl (fun sent m => bootPutk m sent) sent =
      sent ++ messages.flatMap frame := by
    induction messages with
    | nil => simp
    | cons m messages ih =>
        intro sent
        rw [List.foldl_cons, ih fun x hx => hm x (List.mem_cons_of_mem _ hx),
          bootPutk_eq (hm m List.mem_cons_self), List.flatMap_cons, List.append_assoc]
  unfold emit
  rw [bootPut32_eq, hfold, List.nil_append]

/-! ## The unix side -/

/-- One turn of the loop over the characters of a string but the last; `i` is an `int` that the
comparison converts to `unsigned`.
Source: `simple-boot.h` `get_op`
Kind: D -/
def charTurn (nbytes i : UInt32) : Prog Tty Stop (UInt32 ⊕ Unit) :=
  if i < nbytes - 1 then do
    let b ← getUint8
    output "%c" [.num b.toNat]
    return .inl (i + 1)
  else
    return .inr ()

/-- Eat the trailing newline to make it easier to compare output. Source: `simple-boot.h` `get_op`.
Kind: D -/
def lastChar : Prog Tty Stop Unit := do
  let c ← getUint8
  if c != 10 then output "%c" [.num c.toNat]
  output ">\n" []

/-- A call of `get_op` up to its tail call. Source: `simple-boot.h` `get_op`. Kind: D -/
def getOpTurn : Prog Tty Stop (Unit ⊕ UInt32) := do
  let op ← getUint32
  if op != printString then
    return .inr op
  else
  output "PRINT_STRING:" []
  let nbytes ← getUint32
  check (nbytes < 512) (.assert "nbytes < 512")
  output "pi sent print: <" []
  loop (charTurn nbytes) 0 ret
  lastChar
  return .inl ()

/-- Call on the first word of any message sent by the Pi. Source: `simple-boot.h` `get_op`.
Kind: D -/
def getOp : Prog Tty Stop UInt32 := loop (fun _ => getOpTurn) () ret

/-! ## Messages that are not empty -/

/-- A character, as printed. Source: `simple-boot.h` `get_op` `output("%c", ...)`. Kind: D -/
def echo (c : UInt8) : Output := ("%c", [.num c.toNat])

/-- A message without one trailing newline. Source: `simple-boot.h` `get_op`. Kind: D -/
def stripNewline (m : List UInt8) : List UInt8 := if m.getLast? = some 10 then m.dropLast else m

/-- What is printed for a message. Source: `simple-boot.h` `get_op`. Kind: D -/
def printed (m : List UInt8) : List Output :=
  [("PRINT_STRING:", []), ("pi sent print: <", [])] ++ (stripNewline m).map echo ++ [(">\n", [])]

variable {r : List UInt8} {out : List Output}

/-- The loop over the characters but the last. Source: `simple-boot.h` `get_op`. Kind: P -/
theorem charLoop_runs {nbytes i : UInt32} {bs : List UInt8}
    (h : i.toNat + bs.length = (nbytes - 1).toNat) :
    Runs (loop (charTurn nbytes) i ret) ⟨bs ++ r, out⟩ (.ok ()) ⟨r, out ++ bs.map echo⟩ := by
  induction bs generalizing i out with
  | nil =>
      have hge : ¬ i < nbytes - 1 := by
        rw [UInt32.lt_iff_toNat_lt, ← h]
        simp
      rw [runs_loop_iff, again, charTurn, if_neg hge]
      simp
  | cons b bs ih =>
      have hlt : i < nbytes - 1 := by
        rw [UInt32.lt_iff_toNat_lt, ← h, List.length_cons]
        omega
      have hnext : (i + 1).toNat + bs.length = (nbytes - 1).toNat := by
        have := (nbytes - 1).toNat_lt
        rw [List.length_cons] at h
        rw [UInt32.toNat_add, show (1 : UInt32).toNat = 1 from rfl, Nat.mod_eq_of_lt (by omega)]
        omega
      have hturn : Runs (charTurn nbytes i) ⟨b :: (bs ++ r), out⟩ (.ok (.inl (i + 1)))
          ⟨bs ++ r, out ++ [echo b]⟩ := by
        unfold charTurn
        rw [if_pos hlt]
        exact (getUint8_runs b).bind ((output_runs _ _).bind (by simp [echo]))
      rw [runs_loop_iff]
      have hrest : Runs (loop (charTurn nbytes) (i + 1) ret) ⟨bs ++ r, out ++ [echo b]⟩ (.ok ())
          ⟨r, out ++ [echo b] ++ bs.map echo⟩ := ih hnext
      rw [List.append_assoc, List.singleton_append] at hrest
      exact hturn.bind hrest

/-- What is printed for a message, its last character aside. Source: `simple-boot.h` `get_op`.
Kind: L -/
theorem printed_append (bs : List UInt8) (c : UInt8) :
    printed (bs ++ [c]) = [("PRINT_STRING:", []), ("pi sent print: <", [])] ++ bs.map echo ++
      (if c != 10 then [echo c] else []) ++ [(">\n", [])] := by
  by_cases hc : c = 10
  · subst hc
    simp [printed, stripNewline]
  · simp [printed, stripNewline, hc]

/-- Source: `simple-boot.h` `get_op`. Kind: L -/
theorem lastChar_runs (c : UInt8) : Runs lastChar ⟨c :: r, out⟩ (.ok ())
    ⟨r, out ++ ((if c != 10 then [echo c] else []) ++ [(">\n", [])])⟩ := by
  refine (getUint8_runs c).bind ?_
  by_cases hc : c = 10
  · subst hc
    exact output_runs _ _
  · rw [if_pos (by simpa using hc), if_pos (by simpa using hc), ← List.append_assoc]
    exact (output_runs _ _).bind (output_runs _ _)

/-- **A message that is not empty** is taken and printed. Source: `simple-boot.h` `get_op`.
Kind: P -/
theorem getOpTurn_message {m : List UInt8} (hm : Message m) (hne : m ≠ []) :
    Runs getOpTurn ⟨frame m ++ r, out⟩ (.ok (.inl ())) ⟨r, out ++ printed m⟩ := by
  obtain ⟨bs, c, rfl⟩ : ∃ bs c, m = bs ++ [c] := ⟨_, _, (List.dropLast_concat_getLast hne).symm⟩
  have hshort := hm.short
  rw [List.length_append, List.length_singleton] at hshort
  have hn : (UInt32.ofNat (bs.length + 1)).toNat = bs.length + 1 :=
    UInt32.toNat_ofNat_of_lt' (Nat.lt_trans hshort (by decide))
  have hlt : UInt32.ofNat (bs.length + 1) < 512 := by
    rw [UInt32.lt_iff_toNat_lt, hn]
    exact hshort
  have hpred : (0 : UInt32).toNat + bs.length = (UInt32.ofNat (bs.length + 1) - 1).toNat := by
    rw [UInt32.toNat_sub_of_le _ _ (by rw [UInt32.le_iff_toNat_le, hn]; simp), hn]
    simp
  have hframe : frame (bs ++ [c]) ++ r = leBytes 4 printString.toNat ++
      (leBytes 4 (UInt32.ofNat (bs.length + 1)).toNat ++ (bs ++ c :: r)) := by
    rw [hn]
    simp [frame]
  rw [hframe, printed_append]
  refine (getUint32_runs printString).bind ((output_runs _ _).bind ((getUint32_runs _).bind ?_))
  rw [bind_eq_seq, check_of_true (by simpa using hlt), ret_bind]
  refine (output_runs _ _).bind ((charLoop_runs hpred).bind ((lastChar_runs c).bind ?_))
  simp

/-- **An op** ends the loop. Source: `simple-boot.h` `get_op`. Kind: P -/
theorem getOpTurn_op {op : UInt32} (hop : op ≠ printString) :
    Runs getOpTurn ⟨leBytes 4 op.toNat ++ r, out⟩ (.ok (.inr op)) ⟨r, out⟩ := by
  refine (getUint32_runs op).bind ?_
  rw [if_pos (by simpa using hop)]
  simp

/-- Messages that are not empty are taken and printed one by one. Source: `simple-boot.h` `get_op`.
Kind: P -/
theorem getOp_messages {messages : List (List UInt8)} (hm : ∀ m ∈ messages, Message m)
    (hne : ∀ m ∈ messages, m ≠ []) {o : Except Stop UInt32} {t : Tty} :
    Runs getOp ⟨messages.flatMap frame ++ r, out⟩ o t ↔
      Runs getOp ⟨r, out ++ messages.flatMap printed⟩ o t := by
  induction messages generalizing out with
  | nil => simp
  | cons m messages ih =>
      have hturn : Runs getOpTurn ⟨frame m ++ (messages.flatMap frame ++ r), out⟩ (.ok (.inl ()))
          ⟨messages.flatMap frame ++ r, out ++ printed m⟩ :=
        getOpTurn_message (hm m List.mem_cons_self) (hne m List.mem_cons_self)
      have hrest : Runs getOp ⟨messages.flatMap frame ++ r, out ++ printed m⟩ o t ↔
          Runs getOp ⟨r, out ++ printed m ++ messages.flatMap printed⟩ o t := by
        apply ih
        · intro x hx
          exact hm x (List.mem_cons_of_mem _ hx)
        · intro x hx
          exact hne x (List.mem_cons_of_mem _ hx)
      rw [List.flatMap_cons, List.flatMap_cons, List.append_assoc, ← List.append_assoc out, ← hrest,
        getOp, runs_loop_iff, again, runs_bind_iff]
      constructor
      · rintro (⟨a, u, ha, hgo⟩ | ⟨e, -, he⟩)
        · obtain ⟨hok, rfl⟩ := hturn.det ha
          obtain rfl := Except.ok.inj hok
          exact hgo
        · exact absurd (hturn.det he).1 (by simp)
      · exact fun hgo => .inl ⟨_, _, hturn, hgo⟩

/-! ## Empty messages -/

/-- What has been printed stays printed. Source: `simple-boot.h` `get_op`. Kind: L -/
theorem charLoop_keeps {L : List Output} (nbytes i : UInt32) :
    Keeps (Begins L) (loop (charTurn nbytes) i ret) :=
  .loop fun _ => .ite (.bind getUint8_keeps fun _ => .bind (output_keeps _ _) fun _ => .ret) .ret

/-- Source: `simple-boot.h` `get_op`. Kind: L -/
theorem lastChar_keeps {L : List Output} : Keeps (Begins L) lastChar :=
  .bind getUint8_keeps fun _ =>
    .ite (.bind (output_keeps _ _) fun _ => output_keeps _ _) (output_keeps _ _)

/-- Source: `simple-boot.h` `get_op`. Kind: L -/
theorem getOp_keeps {L : List Output} : Keeps (Begins L) getOp := by
  refine .loop fun _ => .bind getUint32_keeps fun op => .ite .ret ?_
  refine .bind (output_keeps _ _) fun _ => .bind getUint32_keeps fun nbytes => ?_
  refine .bind .check fun _ => .bind (output_keeps _ _) fun _ => ?_
  exact .bind (charLoop_keeps _ _) fun _ => .bind lastChar_keeps fun _ => .ret

/-- **An empty message** makes the loop over its characters read on: what is printed next is a
character and not the end of the message.
Source: `simple-boot.h` `get_op` `i < nbytes-1`
Kind: P -/
theorem getOp_empty :
    Triple (fun s => s = ⟨frame [] ++ r, out⟩) getOp fun _ s =>
      ∃ b, out ++ [("PRINT_STRING:", []), ("pi sent print: <", []), echo b] <+: s.out := by
  have hframe : frame [] ++ r =
      leBytes 4 printString.toNat ++ (leBytes 4 (0 : UInt32).toNat ++ r) := by
    simp [frame]
  -- the first turn of the loop over the characters
  have hchar : Triple (fun s => s = ⟨r, out ++ [("PRINT_STRING:", [])] ++ [("pi sent print: <", [])]⟩)
      (charTurn 0 0) fun _ s =>
        ∃ b, out ++ [("PRINT_STRING:", []), ("pi sent print: <", []), echo b] <+: s.out := by
    unfold charTurn
    rw [if_pos (by decide)]
    cases r with
    | nil =>
        rintro _ a t rfl hr
        simp [getUint8, read1, access] at hr
    | cons b r =>
        refine Triple.bind (getUint8_runs b).triple fun b' => Triple.fact fun _ => ?_
        refine Triple.bind (output_runs _ _).triple fun _ => .ret fun s hs => ⟨b', ?_⟩
        rw [hs.2]
        simp [echo]
  have hloop : Triple
      (fun s => s = ⟨r, out ++ [("PRINT_STRING:", [])] ++ [("pi sent print: <", [])]⟩)
      (loop (charTurn 0) 0 ret) fun _ s =>
        ∃ b, out ++ [("PRINT_STRING:", []), ("pi sent print: <", []), echo b] <+: s.out := by
    refine Triple.unroll (hchar.bind fun x => ?_)
    rcases x with j | _
    · exact Keeps.exists fun _ => charLoop_keeps 0 j
    · exact .ret fun _ h => h
  rw [hframe]
  refine Triple.unroll (Triple.bind (M := fun _ s =>
    ∃ b, out ++ [("PRINT_STRING:", []), ("pi sent print: <", []), echo b] <+: s.out) ?_ fun x => ?_)
  · refine Triple.bind (getUint32_runs printString).triple fun op => Triple.fact fun hop => ?_
    rw [hop, if_neg (by decide)]
    refine Triple.bind (output_runs _ _).triple fun _ => Triple.fact fun _ => ?_
    refine Triple.bind (getUint32_runs 0).triple fun nbytes => Triple.fact fun hnbytes => ?_
    rw [hnbytes]
    refine Triple.check fun _ => Triple.bind (output_runs _ _).triple fun _ => Triple.fact fun _ => ?_
    exact hloop.bind fun _ => (Keeps.exists fun _ => lastChar_keeps).bind fun _ => .ret
  · rcases x with _ | op
    · exact Keeps.exists fun _ => getOp_keeps
    · exact .ret fun _ h => h

/-! ## Streams of messages -/

/-- `get_op` returns the op, prints the messages, and leaves exactly the rest of the stream.
Source: `simple-boot.h` `get_op`
Kind: D -/
def Delivers (messages : List (List UInt8)) (op : UInt32) (rest : List UInt8) (s : Tty) : Prop :=
  ∃ t, Runs getOp s (.ok op) t ∧ t.input = rest ∧ t.out = s.out ++ messages.flatMap printed

/-- Printing the messages takes that none of them is empty. Source: `simple-boot.h` `get_op`.
Kind: P -/
theorem ne_nil_of_prints {messages : List (List UInt8)} (hm : ∀ m ∈ messages, Message m) {op : UInt32}
    {t : Tty} (hrun : Runs getOp ⟨messages.flatMap frame ++ r, out⟩ (.ok op) t)
    (hout : t.out = out ++ messages.flatMap printed) : ∀ m ∈ messages, m ≠ [] := by
  rintro m hmem rfl
  -- the first empty message
  obtain ⟨pre, post, rfl, hpre⟩ := List.eq_append_cons_of_mem hmem
  have hne : ∀ m ∈ pre, m ≠ [] := by
    rintro m h rfl
    exact hpre h
  rw [List.flatMap_append, List.flatMap_cons, List.append_assoc, List.append_assoc,
    getOp_messages (fun m h => hm m (List.mem_append_left _ h)) hne] at hrun
  obtain ⟨b, hprefix⟩ := getOp_empty _ op t rfl hrun
  -- behind the opening of that message a character was printed
  rw [hout, List.flatMap_append, List.flatMap_cons, ← List.append_assoc out,
    List.prefix_append_right_inj] at hprefix
  obtain ⟨l, hl⟩ := hprefix
  simp [printed, stripNewline, echo] at hl

/-- **Print framing**: what the Pi sends is understood if and only if no message is empty.
Source: `get-code.h` `boot_putk`, `simple-boot.h` `get_op`
Kind: P -/
theorem getOp_delivers_iff {messages : List (List UInt8)} (hm : ∀ m ∈ messages, Message m)
    {op : UInt32} (hop : op ≠ printString) (rest : List UInt8) (out : List Output) :
    Delivers messages op rest ⟨emit messages op ++ rest, out⟩ ↔ ∀ m ∈ messages, m ≠ [] := by
  rw [emit_eq hm, List.append_assoc]
  constructor
  · rintro ⟨t, hrun, -, hout⟩
    exact ne_nil_of_prints hm hrun hout
  · intro hne
    refine ⟨⟨rest, out ++ messages.flatMap printed⟩, (getOp_messages hm hne).mpr ?_, rfl, rfl⟩
    unfold getOp
    rw [runs_loop_iff]
    exact (getOpTurn_op hop).bind (by simp)

/-- Two messages, one with a trailing newline. Source: `get-code.h` `boot_putk`. Kind: L -/
theorem getOp_delivers_hello : Delivers [[104, 105, 10], [33]] 0x11112222 [7]
    ⟨emit [[104, 105, 10], [33]] 0x11112222 ++ [7], []⟩ := by
  have hm : ∀ m ∈ [[104, 105, 10], [33]], Message m := by
    intro m hm
    simp only [List.mem_cons, List.not_mem_nil, or_false] at hm
    rcases hm with rfl | rfl
    · exact ⟨by decide, by decide⟩
    · exact ⟨by decide, by decide⟩
  exact (getOp_delivers_iff hm (by decide) [7] []).mpr (by decide)

/-- **The empty message**: `boot_putk("")` and an op. Source: `simple-boot.h` `get_op`. Kind: P -/
theorem getOp_empty_fails :
    Message [] ∧ ¬ Delivers [[]] 0x11112222 [7] ⟨emit [[]] 0x11112222 ++ [7], []⟩ := by
  have hempty : Message [] := ⟨by decide, by decide⟩
  refine ⟨hempty, ?_⟩
  rintro ⟨t, hrun, -, hout⟩
  have hm : ∀ m ∈ [[]], Message m := by
    intro m hm
    rwa [List.mem_singleton.mp hm]
  rw [emit_eq hm, List.append_assoc] at hrun
  exact ne_nil_of_prints hm hrun hout [] List.mem_cons_self rfl

end Cs140e.Boot
