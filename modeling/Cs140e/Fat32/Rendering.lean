import Cs140e.Fat32.Lfn

/-!
# The two printed forms of a short name

`fat32_dir_filename` leaves out the spaces of the first eight bytes, `to_8dot3` those at their end.

* `dir_filename_text`, `dirent_name_text` — what each of them prints.
* `Padded` — all spaces are at the end. `renderers_agree_iff` — the forms are the same for just these
  names; `renderers_disagree` is one with a space inside.
-/

namespace Cs140e.Fat32

open Cs140e.Lib Cs140e.Libpi

/-! ## Spaces -/

/-- The spaces stand behind all other characters.
Source: `fat32-helpers.c` `to_8dot3` "find last non-space"
Kind: D -/
def Padded (base : List UInt8) : Prop :=
  ∃ core k, base = core ++ List.replicate k space ∧ space ∉ core

/-- Spaces at the end are trimmed. Source: `fat32-helpers.c` `to_8dot3`. Kind: L -/
theorem rdropWhile_padded {core : List UInt8} (h : space ∉ core) (k : Nat) :
    (core ++ List.replicate k space).rdropWhile (· == space) = core := by
  induction k with
  | zero =>
      rw [List.replicate_zero, List.append_nil, List.rdropWhile_eq_self_iff]
      intro hne
      simp only [beq_iff_eq]
      intro hlast
      exact h (hlast ▸ List.getLast_mem hne)
  | succ k ih =>
      rw [List.replicate_succ', ← List.append_assoc, List.rdropWhile_concat_pos _ _ _ (by simp), ih]

/-- To leave out all spaces is to trim them exactly when they are at the end.
Source: `fat32-lfn-helpers.c` `fat32_dir_filename` "skip spaces"
Kind: P -/
theorem filter_eq_trimmed_iff (base : List UInt8) :
    base.filter (· != space) = base.rdropWhile (· == space) ↔ Padded base := by
  constructor
  · intro h
    have hspaces : base.rtakeWhile (· == space) =
        List.replicate (base.rtakeWhile (· == space)).length space := by
      refine List.eq_replicate_iff.mpr ⟨rfl, fun c hc => ?_⟩
      simpa using List.mem_rtakeWhile_imp hc
    refine ⟨_, _, List.rdropWhile_append_rtakeWhile.symm.trans
      (congrArg _ hspaces), fun hmem => ?_⟩
    rw [← h] at hmem
    simp at hmem
  · rintro ⟨core, k, rfl, hcore⟩
    have hkeep : core.filter (· != space) = core := by
      refine List.filter_eq_self.mpr fun c hc => bne_iff_ne.mpr ?_
      rintro rfl
      exact hcore hc
    rw [rdropWhile_padded hcore, List.filter_append, hkeep, List.filter_replicate]
    simp

/-! ## What is printed -/

section

variable {d : Fat32Dirent}

/-- A character of the name is no NUL. Source: `fat32-helpers.h` `fat32_dirent_t`. Kind: L -/
theorem text_not_nul {base : List UInt8} (hbase : base ⊆ d.filename.elems)
    (hnul : 0 ∉ d.filename.elems) : 0 ∉ base ++ dot :: d.filename.elems.drop 8 := by
  intro hmem
  rcases List.mem_append.mp hmem with h | h
  · exact hnul (hbase h)
  · rcases List.mem_cons.mp h with h | h
    · exact absurd h (by decide)
    · exact hnul (List.mem_of_mem_drop h)

/-- Source: `fat32-lfn-helpers.c` `fat32_dir_filename`. Kind: P -/
theorem dir_filename_text (st : Statics) (rest : List Fat32Dirent) {m : Nat} (name : Buf UInt8 m)
    (hm : 13 ≤ m) (hlive : d.Live)
    (hattr : (isAttr d.attr dirAttr || isAttr d.attr archive || isAttr d.attr volumeLabel) = true)
    (hcase : d.reserved0 ≠ 0x18) (hnul : 0 ∉ d.filename.elems) :
    ∃ buf, fat32DirFilename st name (d :: rest) = .ok (st, buf, 0) ∧
      cText buf.elems = (d.filename.elems.take 8).filter (· != space) ++
        dot :: d.filename.elems.drop 8 := by
  have hsize := d.filename.size
  have hlower : lowerCase false = id := by
    funext c
    simp [lowerCase]
  set base := (d.filename.elems.take 8).filter (· != space) with hbase
  have hsub : base ⊆ d.filename.elems := fun c hc =>
    List.mem_of_mem_take (List.mem_of_mem_filter hc)
  have hlen : base.length ≤ 8 := by
    refine Nat.le_trans (List.length_filter_le _ _) ?_
    rw [List.length_take]
    omega
  obtain ⟨buf, hwrite, hbuf⟩ := Buf.write_append (List.nil_append name.elems).symm
    (base ++ dot :: d.filename.elems.drop 8 ++ [0]) (by
      simp only [List.length_append, List.length_cons, List.length_drop, List.length_nil, hsize,
        name.size]
      omega)
  rw [List.length_nil] at hwrite
  refine ⟨buf, ?_, ?_⟩
  · have hlfn : (d.attr == longFileName) = false := beq_eq_false_iff_ne.mpr hlive.2
    have hupper : (d.reserved0 == 0x18) = false := beq_eq_false_iff_ne.mpr hcase
    simp only [fat32DirFilename, List.getElem?_cons_zero, inBounds_some, ok_bind, hlive.1, hlfn,
      hattr, hupper, hlower, List.map_id, ← hbase, hwrite, Bool.not_true, Bool.false_eq_true,
      if_false]
    rfl
  · rw [hbuf, List.nil_append, List.append_assoc]
    exact cText_append (text_not_nul hsub hnul) _

end

/-- **The two forms agree** exactly when all spaces among the first eight bytes are at their end.
Source: `fat32-lfn-helpers.c` `fat32_dir_filename`; `fat32-helpers.c` `to_8dot3`, `fat32_dirent_name`
Kind: P -/
theorem renderers_agree_iff (st : Statics) (s : Buf UInt8 14) (d : Fat32Dirent)
    (rest : List Fat32Dirent) {m n : Nat} (name : Buf UInt8 m) (name' : Buf UInt8 n) (hm : 13 ≤ m)
    (hn : 13 ≤ n) (hlive : d.Live)
    (hattr : (isAttr d.attr dirAttr || isAttr d.attr archive || isAttr d.attr volumeLabel) = true)
    (hcase : d.reserved0 ≠ 0x18) (hnul : 0 ∉ d.filename.elems)
    (hblank : ∃ c ∈ d.filename.elems.take 8, c ≠ space) :
    (∃ st' buf s' buf', fat32DirFilename st name (d :: rest) = .ok (st', buf, 0) ∧
      fat32DirentName s d name' = .ok (s', buf') ∧ cText buf.elems = cText buf'.elems) ↔
      Padded (d.filename.elems.take 8) := by
  have hbase : (d.filename.elems.take 8).rdropWhile (· == space) ≠ [] := by
    simpa [List.rdropWhile_eq_nil_iff] using hblank
  have hsub : (d.filename.elems.take 8).rdropWhile (· == space) ⊆ d.filename.elems := fun c hc =>
    List.mem_of_mem_take ((List.rdropWhile_prefix _ _).subset hc)
  obtain ⟨buf, hrun, htext⟩ := dir_filename_text st rest name hm hlive hattr hcase hnul
  obtain ⟨s', buf', hrun', htext'⟩ := dirent_name_text s d hbase (text_not_nul hsub hnul) hn name'
  rw [← filter_eq_trimmed_iff]
  constructor
  · rintro ⟨st₁, buf₁, s₁, buf₁', hok, hok', hsame⟩
    obtain ⟨rfl, rfl⟩ : st = st₁ ∧ buf = buf₁ := by simpa [hrun] using hok
    obtain ⟨rfl, rfl⟩ : s' = s₁ ∧ buf' = buf₁' := by simpa [hrun'] using hok'
    rw [htext, htext'] at hsame
    exact List.append_cancel_right hsame
  · intro hsame
    exact ⟨st, buf, s', buf', hrun, hrun', by rw [htext, htext', hsame]⟩

/-- `HELLO.TXT` is listed under one name. Source: `fat32-helpers.c` `to_8dot3`. Kind: P -/
theorem renderers_agree_hello :
    ∃ st' buf s' buf', fat32DirFilename .init (.fill 16 (0 : UInt8))
        [⟨⟨[0x48, 0x45, 0x4c, 0x4c, 0x4f, 0x20, 0x20, 0x20, 0x54, 0x58, 0x54], rfl⟩,
          ⟨0x20 :: List.replicate 20 0, rfl⟩⟩] = .ok (st', buf, 0) ∧
      fat32DirentName (.fill 14 0)
        ⟨⟨[0x48, 0x45, 0x4c, 0x4c, 0x4f, 0x20, 0x20, 0x20, 0x54, 0x58, 0x54], rfl⟩,
          ⟨0x20 :: List.replicate 20 0, rfl⟩⟩ (.fill 16 (0 : UInt8)) = .ok (s', buf') ∧
      cText buf.elems = cText buf'.elems :=
  (renderers_agree_iff .init (.fill 14 0)
    ⟨⟨[0x48, 0x45, 0x4c, 0x4c, 0x4f, 0x20, 0x20, 0x20, 0x54, 0x58, 0x54], rfl⟩,
      ⟨0x20 :: List.replicate 20 0, rfl⟩⟩ [] (.fill 16 0) (.fill 16 0) (by decide) (by decide)
    ⟨rfl, by decide⟩ (by decide) (by decide) (by decide) ⟨0x48, by decide, by decide⟩).mpr
    ⟨[0x48, 0x45, 0x4c, 0x4c, 0x4f], 3, rfl, by decide⟩

/-- The file `A B.TXT` is also listed as `AB.TXT`. Source: `fat32-lfn-helpers.c`
`fat32_dir_filename`. Kind: P -/
theorem renderers_disagree :
    ∃ d : Fat32Dirent, d.Live ∧ d.attr = archive ∧ d.reserved0 ≠ 0x18 ∧ 0 ∉ d.filename.elems ∧
      (∃ st' buf, fat32DirFilename .init (.fill 16 (0 : UInt8)) [d] = .ok (st', buf, 0) ∧
        cText buf.elems = [0x41, 0x42, 0x2e, 0x54, 0x58, 0x54]) ∧
      ∃ s' buf', fat32DirentName (.fill 14 0) d (.fill 16 (0 : UInt8)) = .ok (s', buf') ∧
        cText buf'.elems = [0x41, 0x20, 0x42, 0x2e, 0x54, 0x58, 0x54] := by
  refine ⟨⟨⟨[0x41, 0x20, 0x42, 0x20, 0x20, 0x20, 0x20, 0x20, 0x54, 0x58, 0x54], rfl⟩,
    ⟨0x20 :: List.replicate 20 0, rfl⟩⟩, ⟨rfl, by decide⟩, rfl, by decide, by decide, ?_, ?_⟩
  · obtain ⟨buf, hrun, htext⟩ := dir_filename_text .init [] (.fill 16 0) (by decide)
      (d := ⟨⟨[0x41, 0x20, 0x42, 0x20, 0x20, 0x20, 0x20, 0x20, 0x54, 0x58, 0x54], rfl⟩,
        ⟨0x20 :: List.replicate 20 0, rfl⟩⟩) ⟨rfl, by decide⟩ (by decide) (by decide) (by decide)
    exact ⟨_, buf, hrun, htext⟩
  · exact dirent_name_text (.fill 14 0) _ (by decide) (by decide) (by decide) (.fill 16 0)

end Cs140e.Fat32
