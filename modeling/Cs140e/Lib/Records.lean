import Mathlib.Data.Nat.Count
import Mathlib.Data.List.Basic

/-!
# Records behind runs of separators, in a stream that arrives in chunks

A record ends with a separator, and the separators that follow belong to the same end. A reader that
looks at one chunk at a time may see a run of separators end where a chunk ends; what is left of the
run is then one more record, with nothing in it.

* `cutAt cs p` — the chunks `cs` meet at offset `p`. `splitAt` — they meet inside of a run.
  `splitAt_join`: behind two chunks it does not matter that they are two.
* `records` — what such a reader reports of a stream. `records_text` and `records_run` read off the
  first record.
* `EqualSplits` — two ways of splitting the runs agree on the number of splits in front of each
  element that shows in a record, and in all; `records_eq_iff`: then and only then they give the
  same records.
-/

namespace Cs140e.Lib

variable {α β : Type}

/-! ## Chunks -/

/-- One chunk ends at offset `p` of the stream. Source: none: infrastructure. Kind: D -/
def cutAt : List (List α) → Nat → Bool
  | [], _ => false
  | c :: cs, p => p == c.length || decide (c.length < p) && cutAt cs (p - c.length)

/-- A chunk ends at offset `p`, between two separators. Source: none: infrastructure. Kind: D -/
def splitAt (sep : α → Bool) (cs : List (List α)) : Nat → Bool
  | 0 => false
  | p + 1 => cutAt cs (p + 1) && cs.flatten[p]?.any sep && cs.flatten[p + 1]?.any sep

/-- There is no cut inside of the first chunk. Source: none: infrastructure. Kind: L -/
theorem cutAt_of_lt {c : List α} {p : Nat} (h : p < c.length) (cs : List (List α)) :
    cutAt (c :: cs) p = false := by
  have hne : p ≠ c.length := by omega
  have hnlt : ¬ c.length < p := by omega
  simp [cutAt, hne, hnlt]

/-- The first chunk ends with a cut. Source: none: infrastructure. Kind: L -/
@[simp] theorem cutAt_length (c : List α) (cs : List (List α)) :
    cutAt (c :: cs) c.length = true := by
  simp [cutAt]

/-- Behind two chunks it does not matter that they are two. Source: none: infrastructure.
Kind: L -/
theorem cutAt_join {s c : List α} {p : Nat} (h : s.length < p) (cs : List (List α)) :
    cutAt (s :: c :: cs) p = cutAt ((s ++ c) :: cs) p := by
  have hne : p ≠ s.length := by omega
  have heq : (p - s.length == c.length) = (p == s.length + c.length) := by
    rw [Bool.eq_iff_iff, beq_iff_eq, beq_iff_eq]
    omega
  have hlt : decide (c.length < p - s.length) = decide (s.length + c.length < p) := by
    rw [Bool.eq_iff_iff, decide_eq_true_eq, decide_eq_true_eq]
    omega
  have hne' : (p == s.length) = false := beq_eq_false_iff_ne.mpr hne
  simp only [cutAt, hne', Bool.false_or, decide_eq_true h, Bool.true_and, heq, hlt,
    List.length_append, Nat.sub_sub]

/-- A chunk with nothing in it cuts nothing. Source: none: infrastructure. Kind: L -/
theorem cutAt_nil_cons {p : Nat} (h : 0 < p) (cs : List (List α)) :
    cutAt ([] :: cs) p = cutAt cs p := by
  have hne : p ≠ 0 := by omega
  simp [cutAt, hne, h]

variable {sep : α → Bool}

/-- Reading in one more chunk. Source: none: infrastructure. Kind: L -/
theorem splitAt_join {s c : List α} {p : Nat} (h : s.length < p) (cs : List (List α)) :
    splitAt sep (s :: c :: cs) p = splitAt sep ((s ++ c) :: cs) p := by
  cases p with
  | zero => rfl
  | succ p => simp only [splitAt, cutAt_join h, List.flatten_cons, List.append_assoc]

/-- Before anything is read in. Source: none: infrastructure. Kind: L -/
theorem splitAt_nil_cons (p : Nat) (cs : List (List α)) :
    splitAt sep ([] :: cs) p = splitAt sep cs p := by
  cases p with
  | zero => rfl
  | succ p =>
      simp only [splitAt, cutAt_nil_cons (Nat.succ_pos p), List.flatten_cons, List.nil_append]

/-! ## Records -/

/-- What is reported of the stream that starts at offset `p`, when `text` has been read of the
current record and `inRun` tells that a separator came last. At a separator that starts a run, or
what is left of one, the record is over.
Source: none: infrastructure
Kind: D -/
def records (sep : α → Bool) (f : List α → β) (split : Nat → Bool) :
    Nat → Bool → List α → List α → List β
  | _, _, _, [] => []
  | p, inRun, text, c :: s =>
    if sep c then
      if inRun && !split p then records sep f split (p + 1) true [] s
      else f text :: records sep f split (p + 1) true [] s
    else records sep f split (p + 1) false (text ++ [c]) s

/-- Splits are inside of runs: the offset `p` is in one if a separator came last and one comes next.
Source: none: infrastructure
Kind: D -/
def SplitsRuns (sep : α → Bool) (split : Nat → Bool) : Nat → Bool → List α → Prop
  | _, _, [] => True
  | p, inRun, c :: s =>
    (split p = true → inRun = true ∧ sep c = true) ∧ SplitsRuns sep split (p + 1) (sep c) s

variable {f : List α → β} {split split' : Nat → Bool} {p : Nat} {s text : List α} {c : α}

/-- A record is reported at its separator, in a run if there is text. Source: none: infrastructure.
Kind: P -/
theorem records_text {t : List α} {inRun : Bool} (hrun : inRun = true → t ≠ [])
    (ht : ∀ x ∈ t, sep x = false) (hc : sep c = true) :
    records sep f split p inRun text (t ++ c :: s) =
      f (text ++ t) :: records sep f split (p + t.length + 1) true [] s := by
  induction t generalizing p text inRun with
  | nil =>
      have hout : inRun = false := by
        rw [Bool.eq_false_iff]
        exact fun h => hrun h rfl
      simp [records, hc, hout]
  | cons x t ih =>
      have hx := ht x List.mem_cons_self
      rw [List.cons_append, records, if_neg (by simp [hx]),
        ih (by simp) fun y hy => ht y (List.mem_cons_of_mem _ hy)]
      simp [Nat.add_assoc, Nat.add_comm 1]

/-- Without a separator nothing is reported. Source: none: infrastructure. Kind: L -/
theorem records_open (hs : ∀ x ∈ s, sep x = false) (inRun : Bool) :
    records sep f split p inRun text s = [] := by
  induction s generalizing p inRun text with
  | nil => rfl
  | cons x s ih =>
      have hx := hs x List.mem_cons_self
      rw [records, if_neg (by simp [hx])]
      exact ih (fun y hy => hs y (List.mem_cons_of_mem _ hy)) false

/-- A run up to its end, or to a split, is passed over. Source: none: infrastructure. Kind: P -/
theorem records_run {run : List α} (hrun : ∀ x ∈ run, sep x = true)
    (hsplit : ∀ q, p ≤ q → q < p + run.length → split q = false)
    (hend : ∀ c ∈ s.head?, sep c = true → split (p + run.length) = true) :
    records sep f split p true [] (run ++ s) = records sep f split (p + run.length) false [] s := by
  induction run generalizing p with
  | nil =>
      rcases s with _ | ⟨c, s⟩
      · rfl
      · rcases hc : sep c with _ | _
        · simp [records, hc]
        · have hp : split p = true := hend c rfl hc
          simp [records, hc, hp]
  | cons x run ih =>
      have hx := hrun x List.mem_cons_self
      have hp := hsplit p (Nat.le_refl p) (by simp)
      have hlen : p + 1 + run.length = p + (x :: run).length := by
        rw [List.length_cons]
        omega
      rw [List.cons_append, records, if_pos hx, hp, ← hlen]
      refine ih (fun y hy => hrun y (List.mem_cons_of_mem _ hy)) (fun q hle hlt => ?_) (hlen ▸ hend)
      exact hsplit q (by omega) (by omega)

/-! ## Comparing two ways of splitting -/

/-- No run is split in front of text, or behind it. Source: none: infrastructure. Kind: L -/
theorem SplitsRuns.eq_false {inRun : Bool} (h : SplitsRuns sep split p inRun (c :: s))
    (hc : inRun = false ∨ sep c = false) : split p = false := by
  rw [Bool.eq_false_iff]
  intro hsplit
  obtain ⟨hin, hsep⟩ := h.1 hsplit
  rcases hc with hc | hc
  · simp [hc] at hin
  · simp [hc] at hsep

/-- With `i` and `j` splits before offset `p`, the two have equally many in front of every element
that shows, and in all. Source: none: infrastructure. Kind: D -/
def EqualSplits (ink : α → Bool) (split split' : Nat → Bool) (p : Nat) (s : List α) (i j : Nat) :
    Prop :=
  ∀ n ≤ s.length, (∀ c ∈ s[n]?, ink c = true) →
    i + Nat.count (fun q => split (p + q)) n = j + Nat.count (fun q => split' (p + q)) n

variable {ink : α → Bool} {i j : Nat}

/-- At the end of the stream. Source: none: infrastructure. Kind: L -/
@[simp] theorem equalSplits_nil_iff : EqualSplits ink split split' p [] i j ↔ i = j := by
  simp [EqualSplits]

/-- One more offset to count. Source: none: infrastructure. Kind: L -/
theorem count_from_succ (split : Nat → Bool) (p n : Nat) :
    Nat.count (fun q => split (p + q)) (n + 1) =
      Nat.count (fun q => split (p + 1 + q)) n + (split p).toNat := by
  rw [Nat.count_succ']
  have hshift : (fun k => split (p + (k + 1)) = true) = fun q => split (p + 1 + q) = true := by
    funext q
    rw [Nat.add_right_comm p 1 q, Nat.add_assoc]
  simp only [hshift, Nat.add_zero]
  cases split p <;> rfl

/-- One element further. Source: none: infrastructure. Kind: L -/
theorem equalSplits_cons_iff : EqualSplits ink split split' p (c :: s) i j ↔
    (ink c = true → i = j) ∧
      EqualSplits ink split split' (p + 1) s (i + (split p).toNat) (j + (split' p).toNat) := by
  have hshift : ∀ n, i + (split p).toNat + Nat.count (fun q => split (p + 1 + q)) n =
        j + (split' p).toNat + Nat.count (fun q => split' (p + 1 + q)) n ↔
      i + Nat.count (fun q => split (p + q)) (n + 1) =
        j + Nat.count (fun q => split' (p + q)) (n + 1) := by
    intro n
    rw [count_from_succ, count_from_succ]
    omega
  constructor
  · intro h
    exact ⟨fun hc => by simpa using h 0 (Nat.zero_le _) (by simpa using hc),
      fun n hle hx => (hshift n).mpr (h (n + 1) (Nat.succ_le_succ hle) hx)⟩
  · rintro ⟨h0, h⟩ (_ | n) hle hx
    · simpa using h0 (by simpa using hx)
    · exact (hshift n).mp (h n (Nat.le_of_succ_le_succ hle) hx)

/-- Only the difference of `i` and `j` counts. Source: none: infrastructure. Kind: L -/
theorem equalSplits_add_iff (m : Nat) : EqualSplits ink split split' p s (i + m) (j + m) ↔
    EqualSplits ink split split' p s i j := by
  refine forall₃_congr fun n _ _ => ?_
  omega

/-- The number of empty records in front of a record that is not. Source: none: infrastructure.
Kind: L -/
theorem replicate_append_cons_iff {e x : β} (hx : x ≠ e) {l l' : List β} :
    List.replicate i e ++ x :: l = List.replicate j e ++ x :: l' ↔ i = j ∧ l = l' := by
  induction i generalizing j with
  | zero =>
      cases j with
      | zero => simp
      | succ j => simp [List.replicate_succ, hx]
  | succ i ih =>
      cases j with
      | zero => simp [List.replicate_succ, hx.symm]
      | succ j => simp [List.replicate_succ, ih]

/-- One more empty record. Source: none: infrastructure. Kind: L -/
theorem replicate_append_cons_self (i : Nat) (e : β) (l : List β) :
    List.replicate i e ++ e :: l = List.replicate (i + 1) e ++ l := by
  rw [List.replicate_succ', List.append_assoc]
  rfl

/-- Two readers report one more record, which `shows` unless it is empty, in front of what they
report then. Source: none: infrastructure. Kind: L -/
theorem replicate_append_record_iff {e x : β} {shows : Prop} (hx : x = e ↔ ¬ shows) {l l' : List β}
    {eq : Nat → Nat → Prop} (hl : ∀ i j, List.replicate i e ++ l = List.replicate j e ++ l' ↔ eq i j)
    (heq : ∀ m i j, eq (i + m) (j + m) ↔ eq i j) (i j : Nat) :
    List.replicate i e ++ x :: l = List.replicate j e ++ x :: l' ↔ (shows → i = j) ∧ eq i j := by
  by_cases hshows : shows
  · have hne : x ≠ e := fun h => hx.mp h hshows
    have hrest := hl 0 0
    simp only [List.replicate_zero, List.nil_append] at hrest
    rw [replicate_append_cons_iff hne, hrest]
    constructor
    · rintro ⟨rfl, h⟩
      exact ⟨fun _ => rfl, by simpa using (heq i 0 0).mpr h⟩
    · rintro ⟨hij, h⟩
      obtain rfl := hij hshows
      exact ⟨rfl, (heq i 0 0).mp (by simpa using h)⟩
  · -- nothing in it: one more empty record for both
    rw [hx.mpr hshows, replicate_append_cons_self, replicate_append_cons_self, hl, heq,
      eq_false hshows, false_implies, true_and]

/-- A separator in a run is an empty record, if the run is split there.
Source: none: infrastructure
Kind: L -/
theorem records_sep_run {e : β} (hc : sep c = true) (hempty : f [] = e) (i : Nat) :
    List.replicate i e ++ records sep f split p true [] (c :: s) =
      List.replicate (i + (split p).toNat) e ++ records sep f split (p + 1) true [] s := by
  rcases hsplit : split p with _ | _
  · simp [records, hc, hsplit]
  · rw [records, if_pos hc, hsplit, Bool.toNat_true, ← replicate_append_cons_self, hempty]
    rfl

/-- Two readers of one stream, with `i` and `j` empty records to report first, report the same if
and only if they agree on the number of empty records in front of everything that shows.
Source: none: infrastructure
Kind: P -/
theorem replicate_append_records_iff {e : β}
    (hf : ∀ text, (∀ c ∈ text, sep c = false) → (f text = e ↔ ∀ c ∈ text, ink c = false))
    (hink : ∀ c, ink c = true → sep c = false) (htext : ∀ c ∈ text, sep c = false)
    {inRun : Bool} (hrun : inRun = true → text = []) (h : SplitsRuns sep split p inRun s)
    (h' : SplitsRuns sep split' p inRun s) (i j : Nat) :
    List.replicate i e ++ records sep f split p inRun text s =
        List.replicate j e ++ records sep f split' p inRun text s ↔
      ((∃ c ∈ text, ink c = true) → i = j) ∧ EqualSplits ink split split' p s i j := by
  induction s generalizing p inRun text i j with
  | nil =>
      rw [equalSplits_nil_iff]
      constructor
      · intro heq
        obtain rfl : i = j := by simpa [records] using congrArg List.length heq
        simp
      · rintro ⟨-, rfl⟩
        rfl
  | cons c s ih =>
      rw [equalSplits_cons_iff]
      obtain ⟨-, hs⟩ := id h
      obtain ⟨-, hs'⟩ := id h'
      rcases hc : sep c with _ | _
      · -- text: it belongs to the current record
        have htext' : ∀ x ∈ text ++ [c], sep x = false := by
          intro x hx
          rcases List.mem_append.mp hx with hx | hx
          · exact htext x hx
          · rw [List.mem_singleton.mp hx, hc]
        rw [hc] at hs hs'
        simp only [records, hc, Bool.false_eq_true, if_false, h.eq_false (.inr hc),
          h'.eq_false (.inr hc), Bool.toNat_false, Nat.add_zero]
        rw [ih htext' (by simp) hs hs' i j, ← and_assoc]
        refine and_congr_left fun _ => ?_
        simp only [List.mem_append, List.mem_singleton, or_and_right, exists_or, exists_eq_left,
          or_imp]
      · rw [hc] at hs hs'
        have hci : ¬ ink c = true := by
          intro hci
          have := hink c hci
          rw [hc] at this
          simp at this
        rw [eq_false hci, false_implies, true_and]
        have hnil := @ih (p + 1) [] (by simp) true (fun _ => rfl) hs hs'
        simp only [List.not_mem_nil, false_and, exists_false, false_implies, true_and] at hnil
        cases inRun with
        | true =>
            obtain rfl := hrun rfl
            have hempty : f [] = e := (hf [] htext).mpr (by simp)
            rw [records_sep_run hc hempty, records_sep_run hc hempty, hnil]
            simp
        | false =>
            simp only [records, hc, if_true, Bool.false_and, Bool.false_eq_true, if_false,
              h.eq_false (.inl rfl), h'.eq_false (.inl rfl), Bool.toNat_false, Nat.add_zero]
            have hshows : f text = e ↔ ¬ ∃ x ∈ text, ink x = true := by
              rw [hf text htext]
              simp
            exact replicate_append_record_iff hshows hnil (fun m _ _ => equalSplits_add_iff m) i j

/-- **The same records**: the splits in front of everything that shows are equally many.
Source: none: infrastructure
Kind: P -/
theorem records_eq_iff {e : β}
    (hf : ∀ text, (∀ c ∈ text, sep c = false) → (f text = e ↔ ∀ c ∈ text, ink c = false))
    (hink : ∀ c, ink c = true → sep c = false) (h : SplitsRuns sep split 0 false s)
    (h' : SplitsRuns sep split' 0 false s) :
    records sep f split 0 false [] s = records sep f split' 0 false [] s ↔
      ∀ n ≤ s.length, (∀ c ∈ s[n]?, ink c = true) →
        Nat.count (fun q => split q) n = Nat.count (fun q => split' q) n := by
  have hiff := replicate_append_records_iff hf hink (by simp) (fun _ => rfl) h h' 0 0
  simpa only [EqualSplits, List.replicate_zero, List.nil_append, Nat.zero_add, List.not_mem_nil,
    false_and, exists_false, false_implies, true_and] using hiff

/-- The splits of a stream are inside of its runs. Source: none: infrastructure. Kind: L -/
theorem splitAt_splitsRuns (cs : List (List α)) :
    SplitsRuns sep (splitAt sep cs) 0 false cs.flatten := by
  have key : ∀ (l pre : List α) (inRun : Bool), cs.flatten = pre ++ l →
      (∀ c ∈ pre.getLast?, sep c = inRun) →
      SplitsRuns sep (splitAt sep cs) pre.length inRun l := by
    intro l
    induction l with
    | nil => exact fun _ _ _ _ => trivial
    | cons c l ih =>
        intro pre inRun hall hlast
        refine ⟨fun hsplit => ?_, ?_⟩
        · rcases hpre : pre.length with _ | q
          · rw [hpre] at hsplit
            simp [splitAt] at hsplit
          · rw [hpre, splitAt, hall, ← hpre, List.getElem?_append_right (Nat.le_refl _)] at hsplit
            have hq : pre[q]? = pre.getLast? := by
              rw [List.getLast?_eq_getElem?, hpre]
              rfl
            rw [List.getElem?_append_left (by omega), hq] at hsplit
            simp only [Nat.sub_self, List.getElem?_cons_zero, Option.any_some, Bool.and_eq_true]
              at hsplit
            obtain ⟨⟨-, hprev⟩, hc⟩ := hsplit
            obtain ⟨x, hx⟩ : ∃ x, pre.getLast? = some x := by
              rcases hx : pre.getLast? with _ | x
              · rw [hx] at hprev
                simp at hprev
              · exact ⟨x, rfl⟩
            rw [hx, Option.any_some] at hprev
            exact ⟨(hlast x hx).symm.trans hprev, hc⟩
        · have := ih (pre ++ [c]) (sep c) (by rw [hall]; simp) (by simp)
          simpa using this
  exact key cs.flatten [] false rfl (by simp)

end Cs140e.Lib
