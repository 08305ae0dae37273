import Cs140e.Fat32.LfnName

/-!
# Long names in a directory

The two functions that look for the short entry behind a run of long-name entries.

* `Run d run e rest` — the directory `d` is a run of long-name entries, the short entry `e` and the
  rest. A directory has at most one such reading (`Run.unique`), and it is where both loops stop.
* `dir_filename_live_iff` — when `fat32_dir_filename` returns a live entry and a name that is its own.
* `lfn_print_iff` — what `fat32_lfn_print` makes of the entries of a long name.
-/

namespace Cs140e.Fat32

open Cs140e.Lib Cs140e.Libpi

/-! ## Runs -/

/-- A run of long-name entries, and the short entry behind it. Source: `fat32-lfn-helpers.c`
`fat32_dir_filename`, `fat32_lfn_print`. Kind: D -/
structure Run (d run : List Fat32Dirent) (e : Fat32Dirent) (rest : List Fat32Dirent) : Prop where
  split : d = run ++ e :: rest
  long : ∀ l ∈ run, l.attr = longFileName
  short : e.attr ≠ longFileName

/-- Where the loop stops. Source: `fat32-lfn-helpers.c` `fat32_dir_filename`. Kind: L -/
theorem run_end_append (k : Nat) {run : List Fat32Dirent} (h : ∀ l ∈ run, l.attr = longFileName)
    (d : List Fat32Dirent) : lfnRunEnd k (run ++ d) = lfnRunEnd (k + run.length) d := by
  induction run generalizing k with
  | nil => rfl
  | cons l run ih =>
      have hl : ¬ (l.attr != longFileName) = true := by simp [h l (by simp)]
      rw [List.cons_append, lfnRunEnd, if_neg hl, ih _ fun l' hl' => h l' (by simp [hl'])]
      congr 1
      rw [List.length_cons]
      omega

section

variable {d run rest : List Fat32Dirent} {e : Fat32Dirent}

/-- Source: `fat32-lfn-helpers.c` `fat32_lfn_print`. Kind: L -/
theorem Run.end_eq (h : Run d run e rest) (k : Nat) : lfnRunEnd k d = k + run.length := by
  rw [h.split, run_end_append k h.long, lfnRunEnd, if_pos (by simpa using h.short)]

/-- **A directory has one run**. Source: `fat32-lfn-helpers.c` `fat32_dir_filename`. Kind: L -/
theorem Run.unique {run' rest' : List Fat32Dirent} {e' : Fat32Dirent} (h : Run d run e rest)
    (h' : Run d run' e' rest') : run = run' ∧ e = e' := by
  have hlen : run.length = run'.length := by
    have := (h.end_eq 0).symm.trans (h'.end_eq 0)
    omega
  obtain ⟨hrun, hcons⟩ := List.append_inj (h.split.symm.trans h'.split) hlen
  exact ⟨hrun, (List.cons.inj hcons).1⟩

/-- A directory of long-name entries only, or with a run. Source: `fat32-lfn-helpers.c`
`fat32_dir_filename`. Kind: L -/
theorem exists_run (d : List Fat32Dirent) :
    (∀ l ∈ d, l.attr = longFileName) ∨ ∃ run e rest, Run d run e rest := by
  induction d with
  | nil => exact .inl (by simp)
  | cons l d ih =>
      by_cases hl : l.attr = longFileName
      · rcases ih with hall | ⟨run, e, rest, h⟩
        · exact .inl (by simpa [hl] using hall)
        · exact .inr ⟨l :: run, e, rest, by simp [h.split], by simpa [hl] using h.long, h.short⟩
      · exact .inr ⟨[], l, d, rfl, by simp, hl⟩

end

/-! ## The name of an entry -/

/-- **Where `fat32_dir_filename` returns**: at the entry it was given, or behind the run.
Source: `fat32-lfn-helpers.c` `fat32_dir_filename`
Kind: P -/
theorem dir_filename_returns {m : Nat} {st st' : Statics} {name name' : Buf UInt8 m}
    {d : List Fat32Dirent} {cnt : Nat} (h : fat32DirFilename st name d = .ok (st', name', cnt)) :
    ∃ d0 ds, d = d0 :: ds ∧ fat32DirentFree d0 = .ok false ∧
      ((d0.attr ≠ longFileName ∧ cnt = 0) ∨
        (d0.attr = longFileName ∧ ∃ run e rest, Run d run e rest ∧ cnt = run.length)) := by
  cases d with
  | nil => simp [fat32DirFilename] at h
  | cons d0 ds =>
      refine ⟨d0, ds, rfl, ?_⟩
      obtain ⟨free, hfree⟩ : ∃ b, fat32DirentFree d0 = .ok b := ⟨_, dirent_free_eq d0⟩
      simp only [fat32DirFilename, List.getElem?_cons_zero, inBounds_some, ok_bind, hfree,
        throw_eq_error, error_bind] at h
      split_ifs at h with hlive hattr hcnt
      · refine ⟨by simpa [hfree] using hlive, .inr ⟨by simpa using hattr, ?_⟩⟩
        have hend : lfnRunEnd 0 (d0 :: ds) = lfnRunEnd 1 ds := by
          rw [lfnRunEnd, if_neg (by simpa using hattr)]
        have hlt : lfnRunEnd 0 (d0 :: ds) < (d0 :: ds).length := by
          rw [hend]
          exact hcnt
        have hreturn : cnt = lfnRunEnd 1 ds := by
          obtain ⟨e, -, h⟩ := bind_eq_ok_iff.mp h
          split_ifs at h
          obtain ⟨st₁, -, h⟩ := bind_eq_ok_iff.mp h
          obtain ⟨name₁, -, h⟩ := bind_eq_ok_iff.mp h
          simp only [pure_eq_ok, Except.ok.injEq, Prod.mk.injEq] at h
          exact h.2.2.symm
        rcases exists_run (d0 :: ds) with hall | ⟨run, e, rest, hrun⟩
        · have hfull := run_end_append 0 hall []
          rw [List.append_nil, Nat.zero_add] at hfull
          rw [hfull] at hlt
          exact absurd hlt (Nat.lt_irrefl _)
        · refine ⟨run, e, rest, hrun, ?_⟩
          rw [hreturn, ← hend, hrun.end_eq, Nat.zero_add]
      · refine ⟨by simpa [hfree] using hlive, .inl ⟨by simpa using hattr, ?_⟩⟩
        obtain ⟨name₁, -, h⟩ := bind_eq_ok_iff.mp h
        simp only [pure_eq_ok, Except.ok.injEq, Prod.mk.injEq] at h
        exact h.2.2.symm

/-- The entry returned is a live short one, and the entries that the name was read from are not
deleted and carry its checksum: all of them, also one that holds nothing but padding.
Source: `fat32-lfn-helpers.c` `fat32_dir_filename`
Kind: D -/
def LiveResult (d : List Fat32Dirent) (cnt : Nat) : Prop :=
  ∃ e, d[cnt]? = some e ∧ fat32DirentFree e = .ok false ∧ e.attr ≠ longFileName ∧
    ∀ l ∈ d.take cnt, fat32DirentIsDeletedLfn l = .ok false ∧
      l.asLfn.cksum = lfnChecksum e.filename

/-- No stale piece in front: where long-name entries stand in front of a short one, its first byte
is neither 0 nor 0xe5, none of their first bytes has all the bits of 0xe5, and their byte 13 is the
checksum of its name, also where an entry holds nothing but padding.
Source: `fat32-helpers.h` `lfn_dir_t`
Kind: D -/
def Intact (d : List Fat32Dirent) : Prop :=
  ∀ run e rest, Run d run e rest → run ≠ [] →
    e.filename.elems.getD 0 0 ≠ 0 ∧ e.filename.elems.getD 0 0 ≠ 0xe5 ∧
      ∀ l ∈ run, l.filename.elems.getD 0 0 &&& 0xe5 ≠ 0xe5 ∧
        l.rest.elems.getD 2 0 = lfnChecksum e.filename

/-- **When the entry is live and the name its own**: exactly where there is no stale piece.
Source: `fat32-lfn-helpers.c` `fat32_dir_filename`
Kind: P -/
theorem dir_filename_live_iff {m : Nat} {st st' : Statics} {name name' : Buf UInt8 m}
    {d : List Fat32Dirent} {cnt : Nat} (h : fat32DirFilename st name d = .ok (st', name', cnt)) :
    LiveResult d cnt ↔ Intact d := by
  obtain ⟨d0, ds, rfl, hfree, ⟨hshort, rfl⟩ | ⟨hlong, run, e, rest, hrun, rfl⟩⟩ :=
    dir_filename_returns h
  · have hlive : LiveResult (d0 :: ds) 0 := ⟨d0, rfl, hfree, hshort, by simp⟩
    refine iff_of_true hlive fun run e rest hrun hne => ?_
    -- a run starts with a long-name entry
    cases run with
    | nil => exact absurd rfl hne
    | cons l run =>
        obtain ⟨rfl, -⟩ := List.cons.inj hrun.split
        exact absurd (hrun.long _ (by simp)) hshort
  · have hne : run ≠ [] := by
      rintro rfl
      obtain ⟨rfl, -⟩ := List.cons.inj hrun.split
      exact hrun.short hlong
    have hget : (d0 :: ds)[run.length]? = some e := by simp [hrun.split]
    have htake : (d0 :: ds).take run.length = run := by rw [hrun.split, List.take_left]
    have hdeleted : ∀ l ∈ run, fat32DirentIsDeletedLfn l = .ok false ↔
        l.filename.elems.getD 0 0 &&& 0xe5 ≠ 0xe5 := by
      intro l hl
      simp [fat32DirentIsDeletedLfn, hrun.long l hl, lfnIsDeleted]
    constructor
    · rintro ⟨e', he', hfree', hshort', hall⟩ run' e'' rest' hrun' -
      obtain ⟨rfl, rfl⟩ := hrun.unique hrun'
      obtain rfl : e = e' := Option.some.inj (hget.symm.trans he')
      obtain ⟨-, h0, h1⟩ := (live_iff e).mp ⟨hfree', hshort'⟩
      refine ⟨h0, h1, fun l hl => ?_⟩
      obtain ⟨hdel, hck⟩ := hall l (by rwa [htake])
      exact ⟨(hdeleted l hl).mp hdel, hck⟩
    · intro hintact
      obtain ⟨h0, h1, hall⟩ := hintact run e rest hrun hne
      obtain ⟨hfree', hshort'⟩ := (live_iff e).mpr ⟨hrun.short, h0, h1⟩
      refine ⟨e, hget, hfree', hshort', fun l hl => ?_⟩
      rw [htake] at hl
      obtain ⟨hdel, hck⟩ := hall l hl
      exact ⟨(hdeleted l hl).mpr hdel, hck⟩

/-! ## Entries of a long name -/

/-- The entry is a file or a directory. Source: `fat32-lfn-helpers.c` `fat32_dir_filename`. Kind: D -/
def Fat32Dirent.FileOrDir (e : Fat32Dirent) : Prop :=
  (isAttr e.attr dirAttr || isAttr e.attr archive) = true

section

variable {s : List LfnDir} {e : Fat32Dirent}

/-- A file or directory is a short entry. Source: `fat32-helpers.h` `fat32_is_attr`. Kind: L -/
theorem Fat32Dirent.FileOrDir.short (h : e.FileOrDir) : e.attr ≠ longFileName := by
  intro he
  rw [Fat32Dirent.FileOrDir, he] at h
  exact absurd h (by decide)

/-- The entries of a name and a short one are a run. Source: `fat32-lfn-helpers.c`
`fat32_dir_filename`. Kind: L -/
theorem run_of_entries (hattr : ∀ l ∈ s, l.attr = longFileName) (he : e.FileOrDir)
    (rest : List Fat32Dirent) :
    Run (s.map LfnDir.asDirent ++ e :: rest) (s.map LfnDir.asDirent) e rest := by
  refine ⟨rfl, fun d hd => ?_, he.short⟩
  obtain ⟨l, hl, rfl⟩ := List.mem_map.mp hd
  exact hattr l hl

/-- Reading the entries of a name as such. Source: `fat32-lfn-helpers.c` `fat32_dir_filename`.
Kind: L -/
theorem map_asLfn (s : List LfnDir) (d : List Fat32Dirent) :
    (s.map LfnDir.asDirent ++ d).map Fat32Dirent.asLfn = s ++ d.map Fat32Dirent.asLfn := by
  rw [List.map_append, List.map_map]
  congr 1
  exact (List.map_congr_left fun l _ => l.asDirent_asLfn).trans (List.map_id s)

/-- **The name of an entry**: the entries of a name that fits both buffers give the name.
Source: `fat32-lfn-helpers.c` `fat32_dir_filename`. Kind: P -/
theorem dir_filename_eq {m : Nat} (st : Statics) (buf : Buf UInt8 m) {name : LongName}
    {l : LfnDir} {ls : List LfnDir} (hs : Stores (l :: ls) name) (hl : lfnIsDeleted l.seqno = false)
    (he : e.FileOrDir) (hfit : name.utf8.length < 512) (hm : name.utf8.length < m)
    (rest : List Fat32Dirent) : ∃ st' buf',
      fat32DirFilename st buf ((l :: ls).map LfnDir.asDirent ++ e :: rest) =
        .ok (st', buf', (l :: ls).length) ∧ cText buf'.elems = name.utf8 := by
  have hrun := run_of_entries hs.1 he rest
  have hattr : l.asDirent.attr = longFileName := hs.1 l (by simp)
  have hfree : fat32DirentFree l.asDirent = .ok false := by
    rw [dirent_free_eq, if_pos hattr]
    exact congrArg Except.ok hl
  have hend : lfnRunEnd 1 (ls.map LfnDir.asDirent ++ e :: rest) = ls.length + 1 := by
    have hstep := hrun.end_eq 0
    rw [List.map_cons, List.cons_append, lfnRunEnd, if_neg (by simpa using hattr)] at hstep
    rw [hstep]
    simp
  have hget : ((l :: ls).map LfnDir.asDirent ++ e :: rest)[ls.length + 1]? = some e := by simp
  obtain ⟨st', tail, hname, helems⟩ :=
    (lfn_get_name_eq st hs ((e :: rest).map Fat32Dirent.asLfn)).1 hfit
  rw [← map_asLfn, List.length_cons] at hname
  obtain ⟨buf', post, hcpy, helems'⟩ :=
    strcpy_split buf (CharPtr.spells_ofBuf name.utf8_not_nul helems) hm
  have hfile : ¬ (!(isAttr e.attr dirAttr || isAttr e.attr archive)) = true := by
    rw [he]
    decide
  refine ⟨st', buf', ?_, by rw [helems', cText_append name.utf8_not_nul]⟩
  unfold fat32DirFilename
  rw [List.map_cons, List.cons_append] at hname hget ⊢
  simp only [List.getElem?_cons_zero, inBounds_some, ok_bind, hfree, Bool.false_eq_true, if_false,
    hattr, beq_self_eq_true, if_true, List.drop_succ_cons, List.drop_zero, hend, hget, if_neg hfile,
    hname, hcpy, List.length_cons, pure_eq_ok]
  rw [if_neg (by simp)]

end

/-- A file with the raw name `c` and ten spaces. Source: `fat32-helpers.h` `fat32_dirent_t`.
Kind: D -/
def shortEntry (c : UInt8) : Fat32Dirent :=
  ⟨⟨c :: List.replicate 10 space, rfl⟩, ⟨archive :: List.replicate 20 0, rfl⟩⟩

/-- Source: `fat32-helpers.h` `fat32_is_attr`. Kind: L -/
theorem shortEntry_file (c : UInt8) : (shortEntry c).FileOrDir :=
  show (isAttr archive dirAttr || isAttr archive archive) = true by decide

/-- The file `ALONGN~1.TXT`. Source: `fat32-helpers.h` `fat32_dirent_t`. Kind: D -/
def textFileShort : Fat32Dirent :=
  ⟨⟨[0x41, 0x4c, 0x4f, 0x4e, 0x47, 0x4e, 0x7e, 0x31, 0x54, 0x58, 0x54], rfl⟩,
    ⟨archive :: List.replicate 20 0, rfl⟩⟩

/-- Source: `fat32-helpers.h` `fat32_is_attr`. Kind: L -/
theorem textFileShort_file : textFileShort.FileOrDir :=
  show (isAttr archive dirAttr || isAttr archive archive) = true by decide

/-- The theorem for a name in two entries. Source: `fat32-lfn-helpers.c` `fat32_dir_filename`.
Kind: L -/
theorem dir_filename_live_textFile :
    LiveResult ((textFileEntries (lfnChecksum textFileShort.filename)).map LfnDir.asDirent ++
      [textFileShort]) 2 := by
  have hstores := textFile_stored (lfnChecksum textFileShort.filename)
  obtain ⟨st', buf', hrun, -⟩ := dir_filename_eq .init (Buf.fill 16 0) hstores (by decide)
    textFileShort_file (by decide) (by decide) []
  refine (dir_filename_live_iff hrun).mpr fun run e rest h _ => ?_
  obtain ⟨rfl, rfl⟩ := (run_of_entries hstores.1 textFileShort_file []).unique h
  refine ⟨by decide, by decide, fun l hl => ?_⟩
  rcases List.mem_pair.mp hl with rfl | rfl
  · exact ⟨by decide, rfl⟩
  · exact ⟨by decide, rfl⟩

/-- **A deleted file is returned**: the long-name entry of `A` is left in front of it.
Source: `fat32-lfn-helpers.c` `fat32_dir_filename`
Kind: P -/
theorem dir_filename_deleted :
    (∃ st' buf', fat32DirFilename .init (.fill 16 (0 : UInt8))
      ([letterEntry 0].map LfnDir.asDirent ++ [shortEntry 0xe5]) = .ok (st', buf', 1)) ∧
    fat32DirentFree (shortEntry 0xe5) = .ok true ∧
    ¬ LiveResult ([letterEntry 0].map LfnDir.asDirent ++ [shortEntry 0xe5]) 1 := by
  have hfree : fat32DirentFree (shortEntry 0xe5) = .ok true := rfl
  refine ⟨?_, hfree, ?_⟩
  · obtain ⟨st', buf', hrun, -⟩ := dir_filename_eq .init (Buf.fill 16 0) (letter_stored 0)
      (by decide) (shortEntry_file 0xe5) (by decide) (by decide) []
    exact ⟨st', buf', hrun⟩
  · rintro ⟨e, he, hlive, -, -⟩
    obtain rfl : shortEntry 0xe5 = e := Option.some.inj he
    rw [hfree] at hlive
    simp at hlive

/-! ## The checks -/

/-- The sequence numbers of a name: counted from the last entry, with a mark on the first.
Source: `fat32-helpers.h` `lfn_dir_t`. Kind: D -/
def Numbered (s : List LfnDir) : Prop :=
  ∀ i l, s[i]? = some l → l.seqno = .ofNat (s.length - i) ||| if i = 0 then 0x40 else 0

/-- A live file or directory is printed when its name can be rendered.
Source: `fat32-helpers.c` `fat32_dirent_print_helper`. Kind: L -/
theorem print_helper_eq (st : Statics) {e : Fat32Dirent} (hlive : e.Live) (he : e.FileOrDir) :
    ((∃ c ∈ e.filename.elems.take 8, c ≠ space) → ∃ st', fat32DirentPrintHelper st e = .ok st') ∧
    ((∀ c ∈ e.filename.elems.take 8, c = space) →
      fat32DirentPrintHelper st e = .error .outOfBounds) := by
  obtain ⟨raw, hraw⟩ : ∃ raw, st.raw.write 0 (e.filename.elems ++ [0]) = some raw := by
    rw [← Option.isSome_iff_exists, ← Option.ne_none_iff_isSome]
    intro hnone
    have := (Buf.write_eq_none_iff _ _ _).mp hnone
    simp only [List.length_append, e.filename.size, List.length_singleton] at this
    omega
  have hrest : fat32DirentPrintHelper st e = do
      let short ← to8dot3 st.short e.filename
      return { st with raw, short } := by
    have hfile : (!isAttr e.attr archive && !isAttr e.attr dirAttr) = false := by
      rw [← Bool.not_or, Bool.or_comm, he]
      rfl
    simp [fat32DirentPrintHelper, hlive.1, hlive.2, hfile, hraw]
  rw [hrest]
  constructor
  · rintro ⟨c, hc, hne⟩
    have hbase : (e.filename.elems.take 8).rdropWhile (· == space) ≠ [] := by
      rw [Ne, List.rdropWhile_eq_nil_iff]
      intro hall
      exact hne (by simpa using hall c hc)
    obtain ⟨short, -, hshort, -⟩ := to8dot3_eq st.short e.filename hbase
    exact ⟨{ st with raw, short }, by rw [hshort]; rfl⟩
  · intro hall
    have hbase : (e.filename.elems.take 8).rdropWhile (· == space) = [] := by
      rw [List.rdropWhile_eq_nil_iff]
      intro c hc
      simpa using hall c hc
    rw [to8dot3_blank st.short e.filename hbase]
    rfl

/-- The checks of `lfn_print` pass. Source: `fat32-lfn-helpers.c` `lfn_print`. Kind: L -/
theorem lfn_print_checks {s : List LfnDir} (hpos : s ≠ []) (hlt : s.length < 3) (hseq : Numbered s)
    {cksum : UInt8} (hck : ∀ l ∈ s, l.cksum = cksum) (more : List LfnDir) :
    lfnPrint (s ++ more) s.length cksum = .ok () := by
  match s, hpos, hlt with
  | [a], _, _ =>
      have ha : a.seqno = 0x41 :=
        (hseq 0 a rfl).trans (show UInt8.ofNat 1 ||| 0x40 = _ by decide)
      have hcka : a.cksum = cksum := hck a (by simp)
      have hdel : lfnIsDeleted 0x41 = false := by decide
      have hlast : lfnIsLast 0x41 = true := by decide
      have hfirst : lfnIsFirst 0x41 = true := by decide
      simp [lfnPrint, lfnPrintFrom, ha, hcka, hdel, hlast, hfirst]
  | [a, b], _, _ =>
      have ha : a.seqno = 0x42 :=
        (hseq 0 a rfl).trans (show UInt8.ofNat 2 ||| 0x40 = _ by decide)
      have hb : b.seqno = 1 := (hseq 1 b rfl).trans (show UInt8.ofNat 1 ||| 0 = _ by decide)
      have hcka : a.cksum = cksum := hck a (by simp)
      have hckb : b.cksum = cksum := hck b (by simp)
      have hdela : lfnIsDeleted 0x42 = false := by decide
      have hdelb : lfnIsDeleted 1 = false := by decide
      have hlast : lfnIsLast 0x42 = true := by decide
      have hfirst : lfnIsFirst 1 = true := by decide
      simp [lfnPrint, lfnPrintFrom, ha, hb, hcka, hckb, hdela, hdelb, hlast, hfirst]

/-- **Printing the entries of a name**: no check fires, and all of them are consumed when the short
name can be rendered. Source: `fat32-lfn-helpers.c` `fat32_lfn_print`. Kind: P -/
theorem lfn_print_eq (st : Statics) {name : LongName} {s : List LfnDir} {e : Fat32Dirent}
    (hs : Stores s name) (hpos : s ≠ []) (hlt : s.length < 3) (hfit : name.utf8.length < 512)
    (hlive : e.Live) (he : e.FileOrDir) (hseq : Numbered s)
    (hck : ∀ l ∈ s, l.cksum = lfnChecksum e.filename) (rest : List Fat32Dirent) :
    ((∃ c ∈ e.filename.elems.take 8, c ≠ space) → ∃ st',
      fat32LfnPrint st (s.map LfnDir.asDirent ++ e :: rest) = .ok (st', s.length + 1)) ∧
    ((∀ c ∈ e.filename.elems.take 8, c = space) →
      fat32LfnPrint st (s.map LfnDir.asDirent ++ e :: rest) = .error .outOfBounds) := by
  have hrun := run_of_entries hs.1 he rest
  have hend : lfnRunEnd 0 (s.map LfnDir.asDirent ++ e :: rest) = s.length := by
    rw [hrun.end_eq, List.length_map, Nat.zero_add]
  have hget : (s.map LfnDir.asDirent ++ e :: rest)[s.length]? = some e := by simp
  obtain ⟨l, hl, hattr⟩ : ∃ l, (s.map LfnDir.asDirent ++ e :: rest)[0]? = some l ∧
      l.attr = longFileName := by
    cases s with
    | nil => exact absurd rfl hpos
    | cons l s => exact ⟨l.asDirent, rfl, hs.1 l (by simp)⟩
  obtain ⟨st', tail, hname, -⟩ :=
    (lfn_get_name_eq st hs ((e :: rest).map Fat32Dirent.asLfn)).1 hfit
  have hchecks := lfn_print_checks hpos hlt hseq hck ((e :: rest).map Fat32Dirent.asLfn)
  have hfile : ¬ (!(isAttr e.attr dirAttr || isAttr e.attr archive)) = true := by
    rw [he]
    decide
  have hprint : fat32LfnPrint st (s.map LfnDir.asDirent ++ e :: rest) = do
      let st ← fat32DirentPrintHelper st' e
      return (st, s.length + 1) := by
    unfold fat32LfnPrint
    simp only [hl, inBounds_some, ok_bind, hattr, bne_self_eq_false, Bool.false_eq_true, if_false,
      hend, hget, if_neg hfile, map_asLfn, hchecks, hname]
    rw [if_neg (by simp)]
  obtain ⟨hrendered, hblank⟩ := print_helper_eq st' hlive he
  rw [hprint]
  constructor
  · intro h
    obtain ⟨st₂, hst₂⟩ := hrendered h
    exact ⟨st₂, by rw [hst₂]; rfl⟩
  · intro h
    rw [hblank h]
    rfl

/-! ## The round trip -/

/-- A name with a unit is kept in at least one entry. Source: `fat32-helpers.h` `lfn_dir_t`.
Kind: L -/
theorem Stores.ne_nil {name : LongName} {s : List LfnDir} (hs : Stores s name)
    (hne : name.units ≠ []) : s ≠ [] := by
  rintro rfl
  have hkept := hs.kept
  simp only [List.reverse_nil, List.flatMap_nil] at hkept
  exact hne hkept.symm

/-- **Long names come back**: the decoder returns the UTF-8 form of a name that fits, whatever is behind
its entries. Numbered and with the checksum of the live short entry behind them, they pass the checks of
`fat32_lfn_print`, which consumes them exactly when the short name can be rendered.
Source: `fat32-lfn-helpers.c` `lfn_get_name`, `fat32_lfn_print`
Kind: P -/
theorem long_name_round_trip (st : Statics) (name : LongName) (s : List LfnDir)
    (hne : name.units ≠ []) (hfit : name.utf8.length < 512) (hs : Stores s name) :
    (∀ more, ∃ st', lfnGetName st (s ++ more) s.length = .ok st' ∧
      cText st'.filename.elems = name.utf8) ∧
    ∀ (e : Fat32Dirent) (rest : List Fat32Dirent), e.Live → e.FileOrDir → Numbered s →
      (∀ l ∈ s, l.cksum = lfnChecksum e.filename) → s.length < 3 →
      ((∃ st', fat32LfnPrint st (s.map LfnDir.asDirent ++ e :: rest) = .ok (st', s.length + 1)) ↔
        ∃ c ∈ e.filename.elems.take 8, c ≠ space) ∧
      ∀ stop, fat32LfnPrint st (s.map LfnDir.asDirent ++ e :: rest) = .error stop →
        stop = .outOfBounds := by
  refine ⟨fun more => ?_, fun e rest hlive he hseq hck hlt => ?_⟩
  · obtain ⟨st', tail, hname, helems⟩ := (lfn_get_name_eq st hs more).1 hfit
    refine ⟨st', hname, ?_⟩
    rw [helems, cText_append name.utf8_not_nul]
  · obtain ⟨hconsumed, hleft⟩ := lfn_print_eq st hs (hs.ne_nil hne) hlt hfit hlive he hseq hck rest
    by_cases hcond : ∃ c ∈ e.filename.elems.take 8, c ≠ space
    · obtain ⟨st', hst'⟩ := hconsumed hcond
      refine ⟨iff_of_true ⟨st', hst'⟩ hcond, fun stop hstop => ?_⟩
      rw [hst'] at hstop
      simp at hstop
    · have hblank : ∀ c ∈ e.filename.elems.take 8, c = space := by
        intro c hc
        by_contra hcon
        exact hcond ⟨c, hc, hcon⟩
      refine ⟨iff_of_false ?_ hcond, fun stop hstop => ?_⟩
      · rintro ⟨st', hst'⟩
        rw [hleft hblank] at hst'
        simp at hst'
      · rw [hleft hblank] at hstop
        exact (Except.error.inj hstop).symm

/-- A first byte that marks no free entry. Source: `fat32-helpers.c` `fat32_dirent_free`. Kind: L -/
theorem shortEntry_live {c : UInt8} (h0 : c ≠ 0) (h1 : c ≠ 0xe5) : (shortEntry c).Live :=
  (live_iff _).mpr ⟨(shortEntry_file c).short, h0, h1⟩

/-- One entry is the last and the first. Source: `fat32-helpers.h` `lfn_dir_t`. Kind: L -/
theorem letter_numbered (cksum : UInt8) : Numbered [letterEntry cksum] := by
  rintro (_ | i) l hl
  · obtain rfl : letterEntry cksum = l := Option.some.inj hl
    exact show 0x41 = UInt8.ofNat 1 ||| 0x40 by decide
  · simp at hl

/-- The numbers of two entries. Source: `fat32-helpers.h` `lfn_dir_t`. Kind: L -/
theorem textFile_numbered (cksum : UInt8) : Numbered (textFileEntries cksum) := by
  rintro (_ | _ | i) l hl
  · obtain rfl := Option.some.inj hl
    exact show 0x42 = UInt8.ofNat 2 ||| 0x40 by decide
  · obtain rfl := Option.some.inj hl
    exact show 1 = UInt8.ofNat 1 ||| 0 by decide
  · simp [textFileEntries] at hl

/-- The theorem for a name in two entries: it is decoded, and the entries are consumed with the short
one. Source: `fat32-lfn-helpers.c` `lfn_get_name`, `fat32_lfn_print`. Kind: L -/
theorem long_name_textFile :
    (∃ st', lfnGetName .init (textFileEntries (lfnChecksum textFileShort.filename) ++ []) 2 = .ok st' ∧
      cText st'.filename.elems = [0x61, 0x20, 0x6c, 0x6f, 0x6e, 0x67, 0x20, 0x6e, 0x61, 0x6d, 0x65, 0x2e,
        0x74, 0x78, 0x74]) ∧
    ∃ st', fat32LfnPrint .init ((textFileEntries (lfnChecksum textFileShort.filename)).map
      LfnDir.asDirent ++ [textFileShort]) = .ok (st', 3) := by
  obtain ⟨hname, hprint⟩ := long_name_round_trip .init textFile
    (textFileEntries (lfnChecksum textFileShort.filename)) (by decide) (by decide) (textFile_stored _)
  have hlive : textFileShort.Live :=
    (live_iff _).mpr ⟨textFileShort_file.short, by decide, by decide⟩
  have hconsumed := hprint textFileShort [] hlive textFileShort_file (textFile_numbered _)
    (by simp [textFileEntries]) (by decide)
  exact ⟨hname [], hconsumed.1.mpr ⟨0x41, by decide, by decide⟩⟩

/-- **A file with a blank name is not consumed**. Source: `fat32-helpers.c` `to_8dot3`. Kind: P -/
theorem long_name_blank :
    Stores [letterEntry (lfnChecksum (shortEntry space).filename)] letter ∧
    Numbered [letterEntry (lfnChecksum (shortEntry space).filename)] ∧
    (shortEntry space).Live ∧ (shortEntry space).FileOrDir ∧
    fat32LfnPrint .init
      ([letterEntry (lfnChecksum (shortEntry space).filename)].map LfnDir.asDirent ++
        [shortEntry space]) = .error .outOfBounds := by
  have hlive : (shortEntry space).Live := shortEntry_live (by decide) (by decide)
  have hfile := shortEntry_file space
  refine ⟨letter_stored _, letter_numbered _, hlive, hfile, ?_⟩
  exact (lfn_print_eq .init (letter_stored _) (by decide) (by decide) (by decide) hlive hfile
    (letter_numbered _) (by simp [letterEntry]) []).2 (by decide)

end Cs140e.Fat32
