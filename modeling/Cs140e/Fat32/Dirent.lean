import Cs140e.Fat32.Names
import Cs140e.Lib.Bytes
import Cs140e.Libpi.Compare
import Mathlib.Data.List.GetD
import Mathlib.Order.Bounds.Basic

/-!
# Directory entries

The directory helpers of `fat32-helpers.c`: which entries are free, and the search for a raw name.

* `fat32DirentFree`, `fat32DirLookup` — the code.
* `Grammar` — the names of the format, in its own words. `valid_name_grammar`: the check accepts just
  these, and for one the encoder writes the name field and nothing else.
* `Named dirs name i` — the `i`-th entry is a live short one with this raw name. `lookup_eq` is what
  the search returns, and `set_name_lookup` that an entry is found under the name it was given.
* `dirent_name_in_bounds_iff` — which raw names can be printed.
-/

namespace Cs140e.Fat32

open Cs140e.Lib Cs140e.Libpi

/-! ## The code -/

/-- Source: `fat32-helpers.h` `FAT32_RO`. Kind: D -/
abbrev readOnly : UInt8 := 0x01

/-- Source: `fat32-helpers.h` `FAT32_HIDDEN`. Kind: D -/
abbrev hidden : UInt8 := 0x02

/-- Source: `fat32-helpers.h` `FAT32_SYSTEM_FILE`. Kind: D -/
abbrev systemFile : UInt8 := 0x04

/-- Source: `fat32-helpers.h` `FAT32_VOLUME_LABEL`. Kind: D -/
abbrev volumeLabel : UInt8 := 0x08

/-- Source: `fat32-helpers.h` `FAT32_LONG_FILE_NAME`. Kind: D -/
abbrev longFileName : UInt8 := 0x0f

/-- Source: `fat32-helpers.h` `FAT32_DIR`. Kind: D -/
abbrev dirAttr : UInt8 := 0x10

/-- Source: `fat32-helpers.h` `FAT32_ARCHIVE`. Kind: D -/
abbrev archive : UInt8 := 0x20

/-- Byte 11. Source: `fat32-helpers.h` `fat32_dirent_t`. Kind: D -/
def Fat32Dirent.attr (d : Fat32Dirent) : UInt8 := d.rest.elems.getD 0 0

/-- `is_attr`, and its copy in the header. Source: `fat32-helpers.h` `fat32_is_attr`. Kind: D -/
def isAttr (x flag : UInt8) : Bool :=
  if x == longFileName then x == flag else x &&& flag == flag

/-- Source: `fat32-lfn-helpers.c` `lfn_is_deleted`. Kind: D -/
def lfnIsDeleted (seqno : UInt8) : Bool := seqno &&& 0xe5 == 0xe5

/-- The sequence number of a long-name entry is its first byte.
Source: `fat32-lfn-helpers.c` `fat32_dirent_is_deleted_lfn`
Kind: D -/
def fat32DirentIsDeletedLfn (d : Fat32Dirent) : Except Stop Bool := do
  if d.attr != longFileName then throw (.assert "d->attr == FAT32_LONG_FILE_NAME")
  return lfnIsDeleted (d.filename.elems.getD 0 0)

/-- Source: `fat32-helpers.c` `fat32_dirent_free`. Kind: D -/
def fat32DirentFree (d : Fat32Dirent) : Except Stop Bool :=
  let x := d.filename.elems.getD 0 0
  if d.attr == longFileName then fat32DirentIsDeletedLfn d
  else return x == 0 || x == 0xe5

/-- Source: `fat32-helpers.h` `fat32_dirent_is_lfn`. Kind: D -/
def fat32DirentIsLfn (d : Fat32Dirent) : Bool := d.attr == longFileName

/-- The loop of `fat32_dir_lookup`, at index `i`. Source: `fat32-helpers.c` `fat32_dir_lookup`.
Kind: D -/
def lookupFrom (name : Buf UInt8 11) (i : Nat) : List Fat32Dirent → Except Stop Int
  | [] => return -1
  | d :: dirs => do
    let free ← fat32DirentFree d
    if free || fat32DirentIsLfn d then lookupFrom name (i + 1) dirs
    else
      let v ← memcmp (.ofBuf name) (.ofBuf d.filename) 11
      if v == 0 then return i else lookupFrom name (i + 1) dirs

/-- `n` is the length of `dirs`. Source: `fat32-helpers.c` `fat32_dir_lookup`. Kind: D -/
def fat32DirLookup (name : Buf UInt8 11) (dirs : List Fat32Dirent) : Except Stop Int :=
  lookupFrom name 0 dirs

/-! ## The grammar of names -/

/-- `[A-Z0-9]`. Source: `fat32-helpers.c` `fat32_is_valid_name`. Kind: D -/
def UpperOrDigit (c : UInt8) : Prop := (0x41 ≤ c ∧ c ≤ 0x5a) ∨ (0x30 ≤ c ∧ c ≤ 0x39)

/-- One to eight characters, or these with a dot and three more.
Source: `fat32-helpers.c` `fat32_is_valid_name`
Kind: D -/
def Grammar (name : List UInt8) : Prop :=
  ∃ base : List UInt8, 1 ≤ base.length ∧ base.length ≤ 8 ∧ (∀ c ∈ base, UpperOrDigit c) ∧
    (name = base ∨
      ∃ ext : List UInt8, name = base ++ dot :: ext ∧ ext.length = 3 ∧ ∀ c ∈ ext, UpperOrDigit c)

/-- Source: `fat32-helpers.c` `fat32_is_valid_name`. Kind: L -/
theorem isNameChar_iff (c : UInt8) : isNameChar c = true ↔ UpperOrDigit c := by
  simp only [isNameChar, UpperOrDigit, Bool.not_eq_true', Bool.and_eq_false_iff,
    Bool.or_eq_false_iff, decide_eq_false_iff_not, UInt8.not_lt, gt_iff_lt]

/-- The two descriptions of the format. Source: `fat32-helpers.c` `fat32_is_valid_name`. Kind: L -/
theorem grammar_iff (name : List UInt8) : Grammar name ↔ ∃ v : ShortName, v.text = name := by
  constructor
  · rintro ⟨base, hpos, hle, hbase, rfl | ⟨ext, rfl, hlen, hext⟩⟩
    · refine ⟨{
        base := name, ext := none, base_pos := hpos, base_le := hle, ext_length := nofun
        base_chars := fun c hc => (isNameChar_iff c).mpr (hbase c hc), ext_chars := nofun }, ?_⟩
      simp [ShortName.text]
    · exact ⟨{
        base := base, ext := some ext, base_pos := hpos, base_le := hle
        ext_length := by rintro _ ⟨⟩; exact hlen
        base_chars := fun c hc => (isNameChar_iff c).mpr (hbase c hc)
        ext_chars := by rintro _ ⟨⟩ c hc; exact (isNameChar_iff c).mpr (hext c hc) }, rfl⟩
  · rintro ⟨v, rfl⟩
    refine ⟨v.base, v.base_pos, v.base_le, fun c hc => (isNameChar_iff c).mp (v.base_chars c hc), ?_⟩
    cases he : v.ext with
    | none => simp [ShortName.text, he]
    | some e =>
        refine .inr ⟨e, by simp [ShortName.text, he], v.ext_length e he, fun c hc => ?_⟩
        exact (isNameChar_iff c).mp (v.ext_chars e he c hc)

/-- A character of a block is one of its characters. Source: none: infrastructure. Kind: L -/
theorem getD_mem {l : List UInt8} {i : Nat} (h : i < l.length) : l.getD i 0 ∈ l := by
  rw [List.getD_eq_getElem _ _ h]
  exact List.getElem_mem h

/-- A character of a dotted name is a name character, or the dot.
Source: `fat32-helpers.c` `fat32_is_valid_name`. Kind: L -/
theorem dotted_chars (v : ShortName) {e : List UInt8} (he : v.ext = some e) {i : Nat}
    (hi : i < (v.base ++ dot :: e).length) :
    isNameChar ((v.base ++ dot :: e).getD i 0) = true ∨ i = v.base.length := by
  rcases Nat.lt_trichotomy i v.base.length with hlt | heq | hgt
  · rw [List.getD_append _ _ _ _ hlt]
    exact .inl (v.base_chars _ (getD_mem hlt))
  · exact .inr heq
  · obtain ⟨k, rfl⟩ : ∃ k, i = v.base.length + (k + 1) := ⟨i - v.base.length - 1, by omega⟩
    rw [List.length_append, List.length_cons] at hi
    rw [List.getD_append_right _ _ _ _ (by omega), Nat.add_sub_cancel_left, List.getD_cons_succ]
    exact .inl (v.ext_chars e he _ (getD_mem (by omega)))

/-- A name of the format passes the check. Source: `fat32-helpers.c` `fat32_is_valid_name`.
Kind: P -/
theorem is_valid_name_text (v : ShortName) : fat32IsValidName v.text = true := by
  have hpos := v.base_pos
  have hle := v.base_le
  have hdot := hasDot_text v
  cases he : v.ext with
  | none =>
      have htext : v.text = v.base := by simp [ShortName.text, he]
      have hall : v.base.all isNameChar = true := List.all_eq_true.mpr v.base_chars
      have hne : v.base ≠ [] := List.length_pos_iff.mp hpos
      rw [he, htext] at hdot
      simp [fat32IsValidName, htext, hdot, hall, hle, hne]
  | some e =>
      have htext : v.text = v.base ++ dot :: e := by simp [ShortName.text, he]
      have hlen : (v.base ++ dot :: e).length = v.base.length + 4 := by
        rw [List.length_append, List.length_cons, v.ext_length e he]
      have hat : (v.base ++ dot :: e).getD v.base.length 0 = dot := by simp
      have hall : ((List.range (v.base.length + 4)).all fun i =>
          isNameChar ((v.base ++ dot :: e).getD i 0) || i == v.base.length) = true := by
        rw [List.all_eq_true]
        intro i hi
        have hi' : i < (v.base ++ dot :: e).length := by rw [hlen]; exact List.mem_range.mp hi
        simpa using dotted_chars v he hi'
      rw [he, htext] at hdot
      rw [fat32IsValidName, htext]
      simp only [hdot, Option.isSome_some, if_true, hlen, Nat.add_sub_cancel, hat, bne_self_eq_false,
        Bool.false_eq_true, if_false, hall]
      rw [if_neg (by omega), if_neg (by omega)]

/-- A name passes the check exactly when it is a name of the format.
Source: `fat32-helpers.c` `fat32_is_valid_name`. Kind: P -/
theorem is_valid_name_iff (name : List UInt8) : fat32IsValidName name = true ↔ Grammar name := by
  rw [grammar_iff]
  constructor
  · exact exists_shortName
  · rintro ⟨v, rfl⟩
    exact is_valid_name_text v

/-- The encoder writes the eleven bytes of the name, whatever they were, and nothing else.
Source: `fat32-helpers.c` `fat32_dirent_set_name`. Kind: P -/
theorem set_name_writes (v : ShortName) : ∃ filename : Buf UInt8 11,
    filename.elems = v.padded ++ v.suffix ∧
      ∀ d, fat32DirentSetName d v.text = .ok { d with filename } := by
  have hsize : (v.padded ++ v.suffix).length = 11 := by
    rw [List.length_append, v.padded_length, v.suffix_length]
  refine ⟨⟨v.padded ++ v.suffix, hsize⟩, rfl, fun d => ?_⟩
  obtain ⟨⟨⟨elems, hsize'⟩, rest⟩, hset, hrest, hfile⟩ := set_name_eq d v (is_valid_name_text v)
  subst hrest hfile
  exact hset

/-- **The check accepts the grammar**, and for a name of it the encoder does not stop, and writes
all of the name field and nothing else.
Source: `fat32-helpers.c` `fat32_is_valid_name`, `fat32_dirent_set_name`
Kind: P -/
theorem valid_name_grammar (name : List UInt8) :
    (fat32IsValidName name = true ↔ Grammar name) ∧
      (Grammar name → ∃ filename : Buf UInt8 11,
        ∀ d, fat32DirentSetName d name = .ok { d with filename }) := by
  refine ⟨is_valid_name_iff name, fun h => ?_⟩
  obtain ⟨v, rfl⟩ := (grammar_iff name).mp h
  obtain ⟨filename, -, hset⟩ := set_name_writes v
  exact ⟨filename, hset⟩

/-- The theorem at `A.TXT`. Source: `fat32-helpers.c` `fat32_is_valid_name`. Kind: L -/
theorem valid_name_grammar_dotted : ∃ filename : Buf UInt8 11,
    ∀ d, fat32DirentSetName d [0x41, 0x2e, 0x54, 0x58, 0x54] = .ok { d with filename } :=
  (valid_name_grammar [0x41, 0x2e, 0x54, 0x58, 0x54]).2
    ((valid_name_grammar [0x41, 0x2e, 0x54, 0x58, 0x54]).1.mp (by decide))

/-! ## Two names -/

/-- The eleven bytes say which name they are. Source: `fat32-helpers.c` `fat32_dirent_set_name`.
Kind: L -/
theorem shortName_eq {v w : ShortName} (h : v.padded ++ v.suffix = w.padded ++ w.suffix) :
    v.text = w.text := by
  obtain ⟨hpad, hsuf⟩ :=
    List.append_inj h (by rw [v.padded_length, w.padded_length])
  have hbase : v.base = w.base := by rw [← padded_trimmed v, ← padded_trimmed w, hpad]
  -- an extension has no spaces, and no extension is three of them
  have hblank : ∀ (u : ShortName) (e : List UInt8), u.ext = some e → e ≠ List.replicate 3 space := by
    rintro u e he rfl
    have hchar := u.ext_chars _ he space (by simp)
    exact (isNameChar_ne hchar).2.1 rfl
  have hext : v.ext = w.ext := by
    unfold ShortName.suffix at hsuf
    cases hv : v.ext with
    | none =>
        cases hw : w.ext with
        | none => rfl
        | some f =>
            rw [hv, hw] at hsuf
            exact absurd hsuf.symm (hblank w f hw)
    | some e =>
        cases hw : w.ext with
        | none =>
            rw [hv, hw] at hsuf
            exact absurd hsuf (hblank v e hv)
        | some f =>
            rw [hv, hw] at hsuf
            exact congrArg some hsuf
  rw [ShortName.text, ShortName.text, hbase, hext]

/-- **The encoder is injective**: two names are written as the same bytes exactly when they are the
same. Source: `fat32-helpers.c` `fat32_dirent_set_name`. Kind: P -/
theorem set_name_inj_iff {a b : List UInt8} (ha : fat32IsValidName a = true)
    (hb : fat32IsValidName b = true) {d d' x y : Fat32Dirent}
    (hx : fat32DirentSetName d a = .ok x) (hy : fat32DirentSetName d' b = .ok y) :
    x.filename = y.filename ↔ a = b := by
  obtain ⟨v, rfl⟩ := exists_shortName ha
  obtain ⟨w, rfl⟩ := exists_shortName hb
  obtain ⟨f, hf, hset⟩ := set_name_writes v
  obtain ⟨g, hg, hset'⟩ := set_name_writes w
  obtain rfl : { d with filename := f } = x := Except.ok.inj ((hset d).symm.trans hx)
  obtain rfl : { d' with filename := g } = y := Except.ok.inj ((hset' d').symm.trans hy)
  constructor
  · intro heq
    have heq' : f = g := heq
    apply shortName_eq
    rw [← hf, ← hg, heq']
  · intro heq
    have hsame := (hset d).symm.trans ((congrArg (fat32DirentSetName d) heq).trans (hset' d))
    have hfile := congrArg Fat32Dirent.filename (Except.ok.inj hsame)
    exact hfile

/-! ## Live entries -/

/-- The entry is a short one that is not free. Source: `fat32-helpers.c` `fat32_dirent_free`.
Kind: D -/
def Fat32Dirent.Live (d : Fat32Dirent) : Prop :=
  fat32DirentFree d = .ok false ∧ d.attr ≠ longFileName

/-- Whether an entry is free. Source: `fat32-helpers.c` `fat32_dirent_free`. Kind: L -/
theorem dirent_free_eq (d : Fat32Dirent) : fat32DirentFree d =
    .ok (if d.attr = longFileName then lfnIsDeleted (d.filename.elems.getD 0 0)
      else d.filename.elems.getD 0 0 == 0 || d.filename.elems.getD 0 0 == 0xe5) := by
  unfold fat32DirentFree fat32DirentIsDeletedLfn
  by_cases h : d.attr = longFileName <;> simp [h]

/-- A short entry is live when its first byte is neither 0 nor 0xe5.
Source: `fat32-helpers.c` `fat32_dirent_free`. Kind: L -/
theorem live_iff (d : Fat32Dirent) : d.Live ↔ d.attr ≠ longFileName ∧
    d.filename.elems.getD 0 0 ≠ 0 ∧ d.filename.elems.getD 0 0 ≠ 0xe5 := by
  rw [Fat32Dirent.Live, dirent_free_eq]
  by_cases h : d.attr = longFileName <;> simp [h]

/-- **A named entry is live**. Source: `fat32-helpers.c` `fat32_dirent_set_name`. Kind: P -/
theorem set_name_live {a : List UInt8} (ha : fat32IsValidName a = true) {d x : Fat32Dirent}
    (hd : d.attr ≠ longFileName) (hx : fat32DirentSetName d a = .ok x) : x.Live := by
  obtain ⟨v, rfl⟩ := exists_shortName ha
  obtain ⟨f, hf, hset⟩ := set_name_writes v
  obtain rfl : { d with filename := f } = x := Except.ok.inj ((hset d).symm.trans hx)
  obtain ⟨c, cs, hc⟩ := List.exists_cons_of_length_pos v.base_pos
  have hfirst : f.elems.getD 0 0 = c := by
    rw [hf, ShortName.padded, hc]
    rfl
  have hchar : isNameChar c = true := v.base_chars c (by simp [hc])
  refine (live_iff _).mpr ⟨hd, ?_, ?_⟩
  · show f.elems.getD 0 0 ≠ 0
    rw [hfirst]
    exact (isNameChar_ne hchar).2.2
  · show f.elems.getD 0 0 ≠ 0xe5
    rw [hfirst]
    rintro rfl
    exact absurd hchar (by decide)

/-! ## The search -/

/-- The entry at index `i` is live and has the raw name.
Source: `fat32-helpers.c` `fat32_dir_lookup`
Kind: D -/
def Named (dirs : List Fat32Dirent) (name : Buf UInt8 11) (i : Nat) : Prop :=
  ∃ d, dirs[i]? = some d ∧ d.Live ∧ d.filename = name

section

variable {dirs : List Fat32Dirent} {name : Buf UInt8 11} {d : Fat32Dirent}

/-- The first entry. Source: `fat32-helpers.c` `fat32_dir_lookup`. Kind: L -/
theorem named_zero : Named (d :: dirs) name 0 ↔ d.Live ∧ d.filename = name := by
  simp [Named]

/-- The entries behind the first one. Source: `fat32-helpers.c` `fat32_dir_lookup`. Kind: L -/
theorem named_succ {i : Nat} : Named (d :: dirs) name (i + 1) ↔ Named dirs name i := by
  simp [Named]

/-- What the search from index `k` on returns. Source: `fat32-helpers.c` `fat32_dir_lookup`.
Kind: D -/
def Finds (dirs : List Fat32Dirent) (name : Buf UInt8 11) (k : Nat) (r : Int) : Prop :=
  (∃ j : Nat, r = k + j ∧ IsLeast {i | Named dirs name i} j) ∨ (r = -1 ∧ ∀ i, ¬ Named dirs name i)

/-- An entry that is not the one is passed over. Source: `fat32-helpers.c` `fat32_dir_lookup`.
Kind: L -/
theorem Finds.cons {k : Nat} {r : Int} (h : Finds dirs name (k + 1) r)
    (hd : ¬ Named (d :: dirs) name 0) : Finds (d :: dirs) name k r := by
  rcases h with ⟨j, rfl, hj, hmin⟩ | ⟨rfl, hnone⟩
  · refine .inl ⟨j + 1, by omega, named_succ.mpr hj, ?_⟩
    rintro (_ | i) hi
    · exact absurd hi hd
    · exact Nat.succ_le_succ (hmin (named_succ.mp hi))
  · refine .inr ⟨rfl, ?_⟩
    rintro (_ | i) hi
    · exact hd hi
    · exact hnone i (named_succ.mp hi)

/-- The loop finds the first entry, if there is one. Source: `fat32-helpers.c` `fat32_dir_lookup`.
Kind: L -/
theorem lookupFrom_finds (dirs : List Fat32Dirent) (name : Buf UInt8 11) (k : Nat) :
    ∃ r, lookupFrom name k dirs = .ok r ∧ Finds dirs name k r := by
  induction dirs generalizing k with
  | nil => exact ⟨-1, rfl, .inr ⟨rfl, by simp [Named]⟩⟩
  | cons d dirs ih =>
      obtain ⟨r, hr, hfinds⟩ := ih (k + 1)
      obtain ⟨free, hfree⟩ : ∃ b, fat32DirentFree d = .ok b := ⟨_, dirent_free_eq d⟩
      obtain ⟨v, hv, hiff⟩ := memcmp_eq name d.filename
      simp only [lookupFrom, hfree, hv, ok_bind]
      by_cases hskip : (free || fat32DirentIsLfn d) = true
      · rw [if_pos hskip]
        refine ⟨r, hr, hfinds.cons fun h0 => ?_⟩
        obtain ⟨⟨hlive, hattr⟩, -⟩ := named_zero.mp h0
        rw [hfree] at hlive
        simp [fat32DirentIsLfn, hattr, Except.ok.inj hlive] at hskip
      · rw [if_neg hskip]
        by_cases hname : name = d.filename
        · have hlive : d.Live := by
            simp only [Bool.or_eq_true, not_or, Bool.not_eq_true] at hskip
            refine ⟨by rw [hfree, hskip.1], by simpa [fat32DirentIsLfn] using hskip.2⟩
          refine ⟨k, by simp [hiff.mpr hname], .inl ⟨0, by simp, ?_, fun _ _ => Nat.zero_le _⟩⟩
          exact named_zero.mpr ⟨hlive, hname.symm⟩
        · refine ⟨r, ?_, hfinds.cons fun h0 => hname (named_zero.mp h0).2.symm⟩
          simpa [show ¬ v = 0 from fun h0 => hname (hiff.mp h0)] using hr

/-- **The search** returns the least index of a live entry with the raw name, or -1 when there is
none. Source: `fat32-helpers.c` `fat32_dir_lookup`. Kind: P -/
theorem lookup_eq (dirs : List Fat32Dirent) (name : Buf UInt8 11) :
    ∃ r, fat32DirLookup name dirs = .ok r ∧
      (∀ j : Nat, r = j ↔ IsLeast {i | Named dirs name i} j) ∧
      (r = -1 ↔ ∀ i, ¬ Named dirs name i) := by
  obtain ⟨r, hr, ⟨j, rfl, hj⟩ | ⟨rfl, hnone⟩⟩ := lookupFrom_finds dirs name 0
  · refine ⟨_, hr, fun k => ?_, ?_⟩
    · constructor
      · intro hk
        obtain rfl : j = k := by omega
        exact hj
      · intro hk
        rw [hj.unique hk]
        omega
    · constructor
      · intro h
        omega
      · intro h
        exact absurd hj.1 (h j)
  · refine ⟨-1, hr, fun k => ?_, by simpa using hnone⟩
    constructor
    · intro h
      omega
    · intro hk
      exact absurd hk.1 (hnone k)

/-- **An entry is found under its name**, unless an earlier one has it.
Source: `fat32-helpers.c` `fat32_dirent_set_name`, `fat32_dir_lookup`
Kind: P -/
theorem set_name_lookup {a : List UInt8} (ha : fat32IsValidName a = true) {x : Fat32Dirent} {i : Nat}
    (hi : dirs[i]? = some d) (hd : d.attr ≠ longFileName) (hx : fat32DirentSetName d a = .ok x) :
    ∃ j : Nat, fat32DirLookup x.filename (dirs.set i x) = .ok j ∧ j ≤ i ∧
      (∃ e, (dirs.set i x)[j]? = some e ∧ e.filename = x.filename) ∧
      ((∀ k < i, ¬ Named (dirs.set i x) x.filename k) → j = i) := by
  have hlt : i < dirs.length := (List.getElem?_eq_some_iff.mp hi).1
  have hnamed : Named (dirs.set i x) x.filename i :=
    ⟨x, by simp [hlt], set_name_live ha hd hx, rfl⟩
  obtain ⟨r, hr, ⟨j, rfl, hj⟩ | ⟨-, hnone⟩⟩ := lookupFrom_finds (dirs.set i x) x.filename 0
  · obtain ⟨e, he, -, hfile⟩ := hj.1
    have hle : j ≤ i := hj.2 hnamed
    refine ⟨j, by simpa [fat32DirLookup] using hr, hle, ⟨e, he, hfile⟩, fun hearlier => ?_⟩
    by_contra hne
    exact hearlier j (Nat.lt_of_le_of_ne hle hne) hj.1
  · exact absurd hnamed (hnone i)

end

/-- **Lookup by raw name**: names are told apart, a named entry is live, the search is for the first
live entry, and so an entry is found under the name it was given.
Source: `fat32-helpers.c` `fat32_dirent_set_name`, `fat32_dir_lookup`
Kind: P -/
theorem raw_name_lookup :
    (∀ a b, fat32IsValidName a = true → fat32IsValidName b = true → ∀ d d' x y,
      fat32DirentSetName d a = .ok x → fat32DirentSetName d' b = .ok y →
        (x.filename = y.filename ↔ a = b)) ∧
    (∀ a, fat32IsValidName a = true → ∀ d x, d.attr ≠ longFileName →
      fat32DirentSetName d a = .ok x → fat32DirentFree x = .ok false) ∧
    (∀ dirs name, ∃ r, fat32DirLookup name dirs = .ok r ∧
      (∀ j : Nat, r = j ↔ IsLeast {i | Named dirs name i} j) ∧
      (r = -1 ↔ ∀ i, ¬ Named dirs name i)) ∧
    (∀ a, fat32IsValidName a = true → ∀ (dirs : List Fat32Dirent) (i : Nat) (d x : Fat32Dirent),
      dirs[i]? = some d → d.attr ≠ longFileName → fat32DirentSetName d a = .ok x →
        ∃ j : Nat, fat32DirLookup x.filename (dirs.set i x) = .ok j ∧ j ≤ i ∧
          (∃ e, (dirs.set i x)[j]? = some e ∧ e.filename = x.filename) ∧
          ((∀ k < i, ¬ Named (dirs.set i x) x.filename k) → j = i)) := by
  refine ⟨?_, ?_, lookup_eq, ?_⟩
  · intro a b ha hb d d' x y hx hy
    exact set_name_inj_iff ha hb hx hy
  · intro a ha d x hd hx
    exact (set_name_live ha hd hx).1
  · intro a ha dirs i d x hi hd hx
    exact set_name_lookup ha hi hd hx

/-- The theorem for the second of two entries, named `FOO`.
Source: `fat32-helpers.c` `fat32_dirent_set_name`, `fat32_dir_lookup`. Kind: L -/
theorem raw_name_lookup_foo : ∃ (x : Fat32Dirent) (j : Nat),
    fat32DirentSetName ⟨.fill 11 0, .fill 21 0⟩ [0x46, 0x4f, 0x4f] = .ok x ∧
      fat32DirLookup x.filename [⟨.fill 11 0x41, .fill 21 0⟩, x] = .ok j ∧ j ≤ 1 := by
  have hset : fat32DirentSetName ⟨.fill 11 0, .fill 21 0⟩ [0x46, 0x4f, 0x4f] =
      .ok ⟨⟨[0x46, 0x4f, 0x4f] ++ List.replicate 8 space, rfl⟩, .fill 21 0⟩ := rfl
  obtain ⟨-, -, -, hfound⟩ := raw_name_lookup
  obtain ⟨j, hj, hle, -⟩ := hfound [0x46, 0x4f, 0x4f] (by decide)
    [⟨.fill 11 0x41, .fill 21 0⟩, ⟨.fill 11 0, .fill 21 0⟩] 1 _ _ rfl (by decide) hset
  exact ⟨_, j, hset, hj, hle⟩

/-! ## Rendering -/

/-- Source: `pi-files.h` `pi_dirent_t`. Kind: D -/
structure PiDirent where
  name : Buf UInt8 16
  rawName : Buf UInt8 16
  clusterId : UInt32
  isDirP : Bool
  nbytes : UInt32
  deriving DecidableEq

/-- The `k` bytes at offset `off` of the entry, as a number.
Source: `fat32-helpers.h` `fat32_dirent_t`
Kind: D -/
def Fat32Dirent.field (d : Fat32Dirent) (off k : Nat) : UInt32 :=
  .ofNat (leValue (((d.filename.elems ++ d.rest.elems).drop off).take k))

/-- `hi_start` and `lo_start`. Source: `fat32-helpers.h` `fat32_cluster_id`. Kind: D -/
def fat32ClusterId (d : Fat32Dirent) : UInt32 := d.field 20 2 <<< 16 ||| d.field 26 2

/-- `s` is the static buffer of `to_8dot3`. Source: `fat32.c` `dirent_convert`. Kind: D -/
def direntConvert (s : Buf UInt8 14) (d : Fat32Dirent) :
    Except Stop (Buf UInt8 14 × PiDirent) := do
  let e : PiDirent := {
    name := .fill 16 0
    rawName := .fill 16 0
    clusterId := fat32ClusterId d
    isDirP := d.attr == dirAttr
    nbytes := d.field 28 4 }
  let rawName ← inBounds (e.rawName.write 0 d.filename.elems)
  let (s, name) ← fat32DirentName s d e.name
  return (s, { e with rawName, name })

/-- Without a character among the first eight bytes the dot goes in front of the buffer.
Source: `fat32-helpers.c` `to_8dot3`. Kind: L -/
theorem to8dot3_blank (s : Buf UInt8 14) (p : Buf UInt8 11)
    (hbase : (p.elems.take 8).rdropWhile (· == space) = []) :
    to8dot3 s p = .error .outOfBounds := by
  obtain ⟨_, mid, post, hsplit, hpre, hmid⟩ := s.exists_split (i := 0) (k := 8) (by omega)
  obtain rfl := List.length_eq_zero_iff.mp hpre
  have hp := p.size
  have h8 : (p.elems.take 8).length = 8 := by rw [List.length_take]; omega
  obtain ⟨s₁, hw, hs₁⟩ := hsplit.write (p.elems.take 8) (by rw [h8, hmid])
  rw [List.length_nil] at hw
  have htake : s₁.elems.take 8 = p.elems.take 8 := by
    rw [hs₁, List.nil_append, List.take_append_of_le_length (by omega),
      List.take_of_length_le (by omega)]
  have hi : trimmedLength s₁.elems 8 = -1 := by
    have hsize := s₁.size
    rw [trimmedLength_eq _ _ (by omega), htake, if_pos hbase]
  simp [to8dot3, hw, hi, storeFrom]

/-- A raw name with a character in its base can be rendered.
Source: `fat32-helpers.c` `fat32_dirent_name`. Kind: L -/
theorem dirent_name_ok (s : Buf UInt8 14) (d : Fat32Dirent) (name : Buf UInt8 16)
    (hbase : (d.filename.elems.take 8).rdropWhile (· == space) ≠ []) :
    ∃ s' name', fat32DirentName s d name = .ok (s', name') := by
  obtain ⟨s', tail, hs', helems⟩ := to8dot3_eq s d.filename hbase
  obtain ⟨rest, hrest⟩ := exists_cText (p := s'.elems) (by simp [helems])
  have hspells : (CharPtr.ofBuf s').Spells (cText s'.elems) :=
    CharPtr.spells_ofBuf (zero_notMem_cText _) hrest
  -- at most twelve characters: a NUL among them makes the text shorter
  have hfit : (cText s'.elems).length < 16 := by
    have hsize := d.filename.size
    have hpre := (List.rdropWhile_prefix (· == space) (d.filename.elems.take 8)).length_le
    have hle := cText_length_le ((d.filename.elems.take 8).rdropWhile (· == space) ++
      dot :: d.filename.elems.drop 8) tail
    rw [← helems] at hle
    simp only [List.length_append, List.length_cons, List.length_take, List.length_drop] at hle hpre
    omega
  obtain ⟨name', post, hcpy, -⟩ := strcpy_split name hspells hfit
  exact ⟨s', name', by simp [fat32DirentName, hs', hcpy]⟩

/-- **What can be rendered**: a raw name with something other than a space among its first eight
bytes, and no other. Source: `fat32-helpers.c` `to_8dot3`; `fat32.c` `dirent_convert`. Kind: P -/
theorem renders_iff (s : Buf UInt8 14) (d : Fat32Dirent) :
    ((∃ s', to8dot3 s d.filename = .ok s') ∧ ∃ r, direntConvert s d = .ok r) ↔
      ∃ c ∈ d.filename.elems.take 8, c ≠ space := by
  have hiff : (d.filename.elems.take 8).rdropWhile (· == space) ≠ [] ↔
      ∃ c ∈ d.filename.elems.take 8, c ≠ space := by
    simp [List.rdropWhile_eq_nil_iff]
  rw [← hiff]
  constructor
  · rintro ⟨⟨s', hs'⟩, -⟩ hblank
    rw [to8dot3_blank s d.filename hblank] at hs'
    simp at hs'
  · intro hbase
    obtain ⟨s', -, hs', -⟩ := to8dot3_eq s d.filename hbase
    refine ⟨⟨s', hs'⟩, ?_⟩
    obtain ⟨raw, hraw⟩ : ∃ raw, (Buf.fill 16 (0 : UInt8)).write 0 d.filename.elems = some raw := by
      rw [← Option.isSome_iff_exists, ← Option.ne_none_iff_isSome]
      intro hnone
      have := (Buf.write_eq_none_iff _ _ _).mp hnone
      have := d.filename.size
      omega
    obtain ⟨s', name', hname⟩ := dirent_name_ok s d (.fill 16 0) hbase
    simp [direntConvert, hraw, hname]

/-- Eleven spaces cannot be rendered. Source: `fat32-helpers.c` `to_8dot3`. Kind: L -/
theorem spaces_not_rendered :
    to8dot3 (.fill 14 0) (.fill 11 space) = .error .outOfBounds ∧
      ¬ ((∃ s', to8dot3 (.fill 14 0) (.fill 11 space) = .ok s') ∧
        ∃ r, direntConvert (.fill 14 0) ⟨.fill 11 space, .fill 21 0⟩ = .ok r) := by
  have hrun : to8dot3 (.fill 14 0) (.fill 11 space) = .error .outOfBounds := rfl
  refine ⟨hrun, ?_⟩
  rintro ⟨⟨s', hs'⟩, -⟩
  rw [hrun] at hs'
  simp at hs'

end Cs140e.Fat32
