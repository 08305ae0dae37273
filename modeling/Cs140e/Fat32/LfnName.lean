import Cs140e.Fat32.Lfn
import Mathlib.Tactic.Ring

/-!
# The long-name decoder

What `lfn_get_name` makes of the entries that keep a long name.

* `LongName`, `Stores` — a name of the format, and the entries it is kept in.
* `Appends f x` — the step `f` appends the text `x` to `filename`, and leaves the buffer when it does
  not fit. Steps compose (`Appends.bind`), so the decoder appends the name (`lfn_get_name_eq`).
* `lfn_get_name_in_bounds_iff` — when the decoder stays inside of its buffer.
-/

namespace Cs140e.Fat32

open Cs140e.Lib Cs140e.Libpi

/-! ## Long names -/

/-- A unit that ends a field. Source: `fat32-lfn-helpers.c` `lfn_terminator`. Kind: D -/
def Terminator (u : UInt16) : Prop := u = 0 ∨ u = 0xffff

instance : DecidablePred Terminator := fun u => inferInstanceAs (Decidable (u = 0 ∨ u = 0xffff))

/-- A long name of the format. Source: `fat32-helpers.h` `lfn_dir_t`. Kind: D -/
structure LongName where
  /-- The UTF-16 units, none of them half of a surrogate pair. -/
  units : List UInt16
  length_le : units.length ≤ 255
  not_terminator : ∀ u ∈ units, ¬ Terminator u
  not_surrogate : ∀ u ∈ units, u < 0xd800 ∨ 0xdfff < u

/-- The units of a field, least significant byte first.
Source: `fat32-lfn-helpers.c` `utf8_append`
Kind: D -/
def unitsOf : List UInt8 → List UInt16
  | x0 :: x1 :: bytes => .ofNat (x0.toNat + 256 * x1.toNat) :: unitsOf bytes
  | _ => []

/-- The thirteen units of an entry. Source: `fat32-helpers.h` `lfn_dir_t`. Kind: D -/
def LfnDir.units (l : LfnDir) : List UInt16 :=
  unitsOf l.name1_5.elems ++ unitsOf l.name6_11.elems ++ unitsOf l.name12_13.elems

/-- The units with the terminator and the padding, which a name that fills its entries has not.
Source: `fat32-helpers.h` `lfn_dir_t`
Kind: D -/
def padUnits (units : List UInt16) : List UInt16 :=
  if units.length % 13 = 0 then units
  else units ++ 0 :: List.replicate (12 - units.length % 13) 0xffff

/-- The entries keep the name, last part first. Source: `fat32-helpers.h` `lfn_dir_t`. Kind: D -/
def Stores (s : List LfnDir) (name : LongName) : Prop :=
  (∀ l ∈ s, l.attr = longFileName) ∧ s.reverse.flatMap LfnDir.units = padUnits name.units

/-- What `to_utf8` returns for a unit. Source: `unicode-utf8.c` `to_utf8`. Kind: D -/
def toUtf8Text (u : UInt16) : List UInt8 :=
  match toUtf8 (.fill 5 0) u.toUInt32 with
  | .ok (some ret) => cText ret.elems
  | _ => []

/-- The UTF-8 form of a name. Source: `fat32-lfn-helpers.c` `utf8_append`. Kind: D -/
def LongName.utf8 (name : LongName) : List UInt8 := name.units.flatMap toUtf8Text

/-- The number of its bytes, by the ranges of the units. Source: `unicode-utf8.c` `utf`. Kind: D -/
def LongName.width (name : LongName) : Nat := (name.units.map fun u => utf8Width u.toNat).sum

/-! ## Units -/

/-- Source: `fat32-helpers.h` `lfn_dir_t`. Kind: L -/
theorem unitsOf_cons (x0 x1 : UInt8) (bytes : List UInt8) :
    unitsOf (x0 :: x1 :: bytes) = .ofNat (x0.toNat + 256 * x1.toNat) :: unitsOf bytes := rfl

/-- A unit is its two bytes. Source: `fat32-lfn-helpers.c` `utf8_append`. Kind: L -/
theorem unit_toNat (x0 x1 : UInt8) :
    (UInt16.ofNat (x0.toNat + 256 * x1.toNat)).toNat = x0.toNat + 256 * x1.toNat := by
  have h0 := x0.toNat_lt
  have h1 := x1.toNat_lt
  rw [UInt16.toNat_ofNat', Nat.mod_eq_of_lt (by omega)]

/-- The shift and the `or` put the two bytes together. Source: `fat32-lfn-helpers.c` `utf8_append`.
Kind: L -/
theorem unit_or (x0 x1 : UInt8) :
    (x0.toUInt32 ||| x1.toUInt32 <<< 8).toNat = x0.toNat + 256 * x1.toNat := by
  have h0 := x0.toNat_lt
  have h1 := x1.toNat_lt
  have hshift : (x1.toUInt32 <<< 8).toNat = 2 ^ 8 * x1.toNat := by
    rw [UInt32.toNat_shiftLeft, UInt8.toNat_toUInt32, Nat.shiftLeft_eq]
    simp only [UInt32.reduceToNat, Nat.reduceMod, Nat.reducePow]
    omega
  rw [UInt32.toNat_or, hshift, UInt8.toNat_toUInt32, Nat.lor_comm, ← Nat.two_pow_add_eq_or_of_lt h0]
  omega

/-- The check of two bytes is one of the unit. Source: `fat32-lfn-helpers.c` `lfn_terminator`.
Kind: L -/
theorem lfn_terminator_iff (x0 x1 : UInt8) :
    lfnTerminator x0 x1 = true ↔ Terminator (.ofNat (x0.toNat + 256 * x1.toNat)) := by
  have h0 := x0.toNat_lt
  have h1 := x1.toNat_lt
  have hu := unit_toNat x0 x1
  simp only [lfnTerminator, Terminator, ← UInt16.toNat_inj, hu, Bool.and_eq_true, beq_iff_eq,
    ← UInt8.toNat_inj, UInt8.reduceToNat, UInt16.reduceToNat]
  split_ifs <;> simp <;> omega

/-- Source: `unicode-utf8.c` `to_utf8`. Kind: L -/
theorem toUtf8Text_eq {u : UInt16} (hu : u ≠ 0) : toUtf8Text u = utf8Bytes u.toNat := by
  have hpos : 0 < u.toUInt32.toNat := by
    rw [UInt16.toNat_toUInt32]
    exact Nat.pos_of_ne_zero fun h => hu (UInt16.toNat_inj.mp h)
  have hlt : u.toUInt32.toNat < 0x10000 := by
    rw [UInt16.toNat_toUInt32]
    exact u.toNat_lt
  obtain ⟨ret, tail, hrun, helems⟩ := to_utf8_eq (.fill 5 0) hpos hlt
  rw [UInt16.toNat_toUInt32] at hpos helems
  rw [toUtf8Text, hrun]
  show cText ret.elems = _
  rw [helems, cText_append (utf8Bytes_not_nul hpos)]

/-- The text of a unit that ends no field has no NUL in it. Source: `unicode-utf8.c` `to_utf8`.
Kind: L -/
theorem toUtf8Text_not_nul (u : UInt16) : 0 ∉ toUtf8Text u := by
  unfold toUtf8Text
  split
  · exact zero_notMem_cText _
  · exact List.not_mem_nil

/-- The widths add up. Source: `unicode-utf8.c` `codepoint_len`. Kind: L -/
theorem LongName.utf8_length (name : LongName) : name.utf8.length = name.width := by
  rw [LongName.utf8, List.length_flatMap, LongName.width]
  congr 1
  apply List.map_congr_left
  intro u hu
  have hne : u ≠ 0 := fun h => name.not_terminator u hu (.inl h)
  rw [toUtf8Text_eq hne, utf8Bytes_length]

/-- A name has no NUL in it. Source: `unicode-utf8.c` `to_utf8`. Kind: L -/
theorem LongName.utf8_not_nul (name : LongName) : 0 ∉ name.utf8 := by
  intro h
  obtain ⟨u, -, hu⟩ := List.mem_flatMap.mp h
  exact toUtf8Text_not_nul u hu

/-! ## Terminators -/

/-- Where nothing but terminators follows a terminator, the field up to the first one is the field
without them. Source: `fat32-lfn-helpers.c` `utf8_append`. Kind: L -/
theorem takeWhile_eq_filter {α : Type} {p : α → Bool} {l : List α}
    (h : l.Pairwise fun a b => p b = true → p a = true) : l.takeWhile p = l.filter p := by
  induction l with
  | nil => rfl
  | cons a l ih =>
      obtain ⟨ha, hl⟩ := List.pairwise_cons.mp h
      by_cases hp : p a = true
      · rw [List.takeWhile_cons_of_pos hp, List.filter_cons_of_pos hp, ih hl]
      · rw [List.takeWhile_cons_of_neg hp, List.filter_cons_of_neg hp, List.filter_eq_nil_iff.mpr]
        intro b hb hpb
        exact hp (ha b hb hpb)

/-- The unit is part of the name. Source: `fat32-lfn-helpers.c` `lfn_terminator`. Kind: D -/
def Kept (u : UInt16) : Bool := !decide (Terminator u)

/-- Every unit of the name comes before every terminator. Source: `fat32-helpers.h` `lfn_dir_t`.
Kind: L -/
theorem LongName.padUnits_pairwise (name : LongName) :
    (padUnits name.units).Pairwise fun a b => Kept b = true → Kept a = true := by
  have hkept : ∀ u ∈ name.units, Kept u = true := fun u hu => by
    simpa [Kept] using name.not_terminator u hu
  have hname : name.units.Pairwise fun a b => Kept b = true → Kept a = true :=
    List.pairwise_of_forall_mem_list fun a ha b _ _ => hkept a ha
  unfold padUnits
  split_ifs
  · exact hname
  · refine List.pairwise_append.mpr ⟨hname, ?_, fun a ha b _ _ => hkept a ha⟩
    apply List.pairwise_of_forall_mem_list
    intro a _ b hb hk
    rcases List.mem_cons.mp hb with rfl | hb
    · exact absurd hk (by decide)
    · rw [List.eq_of_mem_replicate hb] at hk
      exact absurd hk (by decide)

/-- Without its terminators it is the name. Source: `fat32-helpers.h` `lfn_dir_t`. Kind: L -/
theorem LongName.filter_padUnits (name : LongName) :
    (padUnits name.units).filter Kept = name.units := by
  have hname : name.units.filter Kept = name.units :=
    List.filter_eq_self.mpr fun u hu => by simpa [Kept] using name.not_terminator u hu
  unfold padUnits
  split_ifs
  · exact hname
  · rw [List.filter_append, hname, List.filter_cons_of_neg (by decide),
      List.filter_replicate_of_neg (by decide), List.append_nil]

/-! ## Appending -/

/-- `filename` holds the text `t`, and `buf` is its end. Source: `fat32-lfn-helpers.c`
`utf8_append`. Kind: D -/
structure Holds (st : Statics × Nat) (t : List UInt8) : Prop where
  buf_eq : st.2 = t.length
  not_nul : 0 ∉ t
  exists_tail : ∃ tail, st.1.filename.elems = t ++ 0 :: tail

/-- The step appends the text `x`, or leaves the buffer when there is no room for it.
Source: `fat32-lfn-helpers.c` `utf8_append`
Kind: D -/
def Appends (f : Statics × Nat → Except Stop (Statics × Nat)) (x : List UInt8) : Prop :=
  ∀ st t, Holds st t →
    (t.length + x.length < 512 → ∃ st', f st = .ok st' ∧ Holds st' (t ++ x)) ∧
    (512 ≤ t.length + x.length → f st = .error .outOfBounds)

/-- Source: `fat32-lfn-helpers.c` `utf8_append`. Kind: L -/
theorem Holds.length_lt {st : Statics × Nat} {t : List UInt8} (h : Holds st t) : t.length < 512 := by
  obtain ⟨tail, ht⟩ := h.exists_tail
  have hsize := st.1.filename.size
  rw [ht, List.length_append, List.length_cons] at hsize
  omega

/-- Nothing is appended. Source: `fat32-lfn-helpers.c` `utf8_append`. Kind: L -/
theorem appends_pure : Appends (fun st => .ok st) [] := by
  intro st t h
  refine ⟨fun _ => ⟨st, rfl, by simpa using h⟩, fun hfull => ?_⟩
  have := h.length_lt
  simp only [List.length_nil] at hfull
  omega

/-- **One step after another** appends one text after the other. Source: `fat32-lfn-helpers.c`
`lfn_get_name`. Kind: P -/
theorem Appends.bind {f g : Statics × Nat → Except Stop (Statics × Nat)} {x y : List UInt8}
    (hf : Appends f x) (hg : Appends g y) : Appends (fun st => f st >>= g) (x ++ y) := by
  intro st t h
  obtain ⟨hfit, hfull⟩ := hf st t h
  rw [List.length_append]
  by_cases hx : t.length + x.length < 512
  · obtain ⟨st₁, hrun, hholds⟩ := hfit hx
    obtain ⟨hfit', hfull'⟩ := hg st₁ (t ++ x) hholds
    rw [List.length_append, Nat.add_assoc] at hfit' hfull'
    simp only [hrun, ok_bind]
    refine ⟨fun hlt => ?_, hfull'⟩
    obtain ⟨st₂, hrun', hholds'⟩ := hfit' hlt
    exact ⟨st₂, hrun', by rwa [← List.append_assoc]⟩
  · simp only [hfull (by omega), error_bind]
    exact ⟨fun hlt => by omega, fun _ => trivial⟩

/-- The body of the loop, for a unit that is not a terminator. Source: `fat32-lfn-helpers.c`
`utf8_append`. Kind: D -/
def appendUnit (x0 x1 : UInt8) (st : Statics × Nat) : Except Stop (Statics × Nat) := do
  let utf8 ← toUtf8 st.1.ret (x0.toUInt32 ||| x1.toUInt32 <<< 8)
  let ret ← inBounds utf8
  let filename ← strcat st.1.filename st.2 (.ofBuf ret)
  let len ← strlen (.ofBuf ret)
  return ({ st.1 with filename, ret }, st.2 + len)

/-- Equation lemma: a turn of the loop. Source: `fat32-lfn-helpers.c` `utf8_append`. Kind: L -/
theorem utf8AppendFrom_cons (st : Statics × Nat) (x0 x1 : UInt8) (unicode : List UInt8) :
    utf8AppendFrom st.1 st.2 (x0 :: x1 :: unicode) = if lfnTerminator x0 x1 then .ok st
      else appendUnit x0 x1 st >>= fun st => utf8AppendFrom st.1 st.2 unicode := by
  rw [utf8AppendFrom]
  split_ifs
  · rfl
  · simp only [appendUnit, bind_assoc, pure_bind]

/-- A unit is appended. Source: `fat32-lfn-helpers.c` `utf8_append`. Kind: L -/
theorem appends_unit {x0 x1 : UInt8} (h : ¬ Terminator (.ofNat (x0.toNat + 256 * x1.toNat))) :
    Appends (appendUnit x0 x1) (toUtf8Text (.ofNat (x0.toNat + 256 * x1.toNat))) := by
  intro st t hst
  have hne : UInt16.ofNat (x0.toNat + 256 * x1.toNat) ≠ 0 := fun h0 => h (.inl h0)
  have hpos : 0 < x0.toNat + 256 * x1.toNat := by
    rw [← unit_toNat]
    exact Nat.pos_of_ne_zero fun h0 => hne (UInt16.toNat_inj.mp h0)
  have h0 := x0.toNat_lt
  have h1 := x1.toNat_lt
  rw [toUtf8Text_eq hne, unit_toNat]
  have hcp : (x0.toUInt32 ||| x1.toUInt32 <<< 8).toNat = x0.toNat + 256 * x1.toNat := unit_or x0 x1
  obtain ⟨ret, tail, hrun, helems⟩ := to_utf8_eq st.1.ret (hcp.symm ▸ hpos) (by rw [hcp]; omega)
  rw [unit_or] at helems
  have hspells : (CharPtr.ofBuf ret).Spells (utf8Bytes (x0.toNat + 256 * x1.toNat)) :=
    CharPtr.spells_ofBuf (utf8Bytes_not_nul hpos) helems
  obtain ⟨ftail, hftail⟩ := hst.exists_tail
  obtain ⟨hfit, hfull⟩ := strcat_eq hftail hst.not_nul (Nat.le_of_eq hst.buf_eq) hspells
  simp only [appendUnit, hrun, ok_bind, inBounds_some]
  constructor
  · intro hlt
    obtain ⟨filename, tail', hcat, hfile⟩ := hfit hlt
    refine ⟨({ st.1 with filename, ret }, st.2 + (utf8Bytes (x0.toNat + 256 * x1.toNat)).length),
      ?_, ?_, ?_, tail', hfile⟩
    · rw [hcat, ok_bind, strlen_eq hspells]
      rfl
    · rw [hst.buf_eq, List.length_append]
    · rw [List.mem_append, not_or]
      exact ⟨hst.not_nul, utf8Bytes_not_nul hpos⟩
  · intro hge
    rw [hfull hge, error_bind]

/-- The loop appends a field up to its terminator. Source: `fat32-lfn-helpers.c` `utf8_append`.
Kind: L -/
theorem appends_from {unicode : List UInt8} (heven : unicode.length % 2 = 0) :
    Appends (fun st => utf8AppendFrom st.1 st.2 unicode)
      (((unitsOf unicode).takeWhile Kept).flatMap toUtf8Text) := by
  induction unicode using unitsOf.induct with
  | case1 x0 x1 unicode ih =>
      rw [List.length_cons, List.length_cons] at heven
      rw [unitsOf_cons]
      simp only [utf8AppendFrom_cons]
      by_cases hterm : Terminator (.ofNat (x0.toNat + 256 * x1.toNat))
      · rw [List.takeWhile_cons_of_neg (by simpa [Kept] using hterm)]
        simp only [(lfn_terminator_iff x0 x1).mpr hterm, if_true]
        exact appends_pure
      · have hno : ¬ lfnTerminator x0 x1 = true := fun h => hterm ((lfn_terminator_iff x0 x1).mp h)
        rw [List.takeWhile_cons_of_pos (by simpa [Kept] using hterm), List.flatMap_cons]
        simp only [if_neg hno]
        exact (appends_unit hterm).bind (ih (by omega))
  | case2 unicode hne =>
      cases unicode with
      | nil => exact appends_pure
      | cons x unicode =>
          cases unicode with
          | nil => simp at heven
          | cons y unicode => exact absurd rfl (hne x y unicode)

/-- **A field is appended** up to its terminator. Source: `fat32-lfn-helpers.c` `utf8_append`.
Kind: P -/
theorem appends_field (unicode : List UInt8) (heven : unicode.length % 2 = 0) :
    Appends (fun st => utf8Append st.1 st.2 unicode)
      (((unitsOf unicode).takeWhile Kept).flatMap toUtf8Text) := by
  have hassert : (fun st : Statics × Nat => utf8Append st.1 st.2 unicode) =
      fun st => utf8AppendFrom st.1 st.2 unicode := by
    funext st
    simp [utf8Append, heven]
  rw [hassert]
  exact appends_from heven

/-- An entry is appended. Source: `fat32-lfn-helpers.c` `lfn_get_name`. Kind: L -/
theorem appends_entry {l : LfnDir}
    (hunits : l.units.Pairwise fun a b => Kept b = true → Kept a = true) :
    Appends (fun st => do
      let st ← utf8Append st.1 st.2 l.name1_5.elems
      let st ← utf8Append st.1 st.2 l.name6_11.elems
      utf8Append st.1 st.2 l.name12_13.elems) ((l.units.filter Kept).flatMap toUtf8Text) := by
  have h₁ := appends_field l.name1_5.elems (by rw [l.name1_5.size])
  have h₂ := appends_field l.name6_11.elems (by rw [l.name6_11.size])
  have h₃ := appends_field l.name12_13.elems (by rw [l.name12_13.size])
  obtain ⟨hunits₁₂, hunits₃, -⟩ := List.pairwise_append.mp hunits
  obtain ⟨hunits₁, hunits₂, -⟩ := List.pairwise_append.mp hunits₁₂
  rw [takeWhile_eq_filter hunits₁] at h₁
  rw [takeWhile_eq_filter hunits₂] at h₂
  rw [takeWhile_eq_filter hunits₃] at h₃
  rw [LfnDir.units, List.filter_append, List.filter_append, List.flatMap_append,
    List.flatMap_append, List.append_assoc]
  exact h₁.bind (h₂.bind h₃)

/-- The loop appends the first `i` entries, last one first. Source: `fat32-lfn-helpers.c`
`lfn_get_name`. Kind: L -/
theorem appends_entries {s : List LfnDir} {i : Nat} (hi : i ≤ s.length)
    (hattr : ∀ l ∈ s.take i, l.attr = longFileName)
    (hunits : ∀ l ∈ s.take i, l.units.Pairwise fun a b => Kept b = true → Kept a = true) :
    Appends (fun st => lfnGetNameFrom s st.1 st.2 i)
      (((s.take i).reverse.flatMap fun l => l.units.filter Kept).flatMap toUtf8Text) := by
  induction i with
  | zero => exact appends_pure
  | succ i ih =>
      have hlt : i < s.length := by omega
      have htake : s.take (i + 1) = s.take i ++ [s[i]] := (List.take_append_getElem hlt).symm
      have hmem : s[i] ∈ s.take (i + 1) := by
        rw [htake]
        exact List.mem_append_right _ (List.mem_singleton_self _)
      have hsub : ∀ l ∈ s.take i, l ∈ s.take (i + 1) := by
        intro l hl
        rw [htake]
        exact List.mem_append_left _ hl
      have hrest := ih (by omega) (fun l hl => hattr l (hsub l hl)) fun l hl => hunits l (hsub l hl)
      have hstep : (fun st : Statics × Nat => lfnGetNameFrom s st.1 st.2 (i + 1)) = fun st =>
          (do
            let st ← utf8Append st.1 st.2 s[i].name1_5.elems
            let st ← utf8Append st.1 st.2 s[i].name6_11.elems
            utf8Append st.1 st.2 s[i].name12_13.elems) >>=
          fun st => lfnGetNameFrom s st.1 st.2 i := by
        funext st
        simp [lfnGetNameFrom, hlt, hattr _ hmem, bind_assoc]
      rw [hstep, htake, List.reverse_append, List.reverse_singleton, List.singleton_append,
        List.flatMap_cons, List.flatMap_append]
      exact (appends_entry (hunits _ hmem)).bind hrest

/-! ## The name -/

/-- Source: `fat32-helpers.h` `lfn_dir_t`. Kind: L -/
theorem Stores.pairwise {s : List LfnDir} {name : LongName} (hs : Stores s name) :
    ∀ l ∈ s, l.units.Pairwise fun a b => Kept b = true → Kept a = true := by
  have hall := name.padUnits_pairwise
  rw [← hs.2, List.pairwise_flatMap] at hall
  exact fun l hl => hall.1 l (List.mem_reverse.mpr hl)

/-- The entries without their terminators are the name. Source: `fat32-helpers.h` `lfn_dir_t`.
Kind: L -/
theorem Stores.kept {s : List LfnDir} {name : LongName} (hs : Stores s name) :
    (s.reverse.flatMap fun l => l.units.filter Kept) = name.units := by
  rw [← name.filter_padUnits, ← hs.2, List.filter_flatMap]

/-- **What the decoder returns**: the UTF-8 form of the name, if it fits.
Source: `fat32-lfn-helpers.c` `lfn_get_name`
Kind: P -/
theorem lfn_get_name_eq (st : Statics) {name : LongName} {s : List LfnDir} (hs : Stores s name)
    (more : List LfnDir) :
    (name.utf8.length < 512 → ∃ st' tail, lfnGetName st (s ++ more) s.length = .ok st' ∧
      st'.filename.elems = name.utf8 ++ 0 :: tail) ∧
    (512 ≤ name.utf8.length → lfnGetName st (s ++ more) s.length = .error .outOfBounds) := by
  obtain ⟨_, mid, post, hsplit, hpre, hmid⟩ := st.filename.exists_split (i := 0) (k := 1) (by omega)
  obtain rfl := List.length_eq_zero_iff.mp hpre
  obtain ⟨filename, hw, hsplit'⟩ := hsplit.write [0] (by simpa using hmid.symm)
  rw [List.length_nil] at hw
  have hstart : Holds ({ st with filename }, 0) [] :=
    ⟨rfl, List.not_mem_nil, post, by simpa [Buf.Split] using hsplit'⟩
  have htake : (s ++ more).take s.length = s := List.take_left
  have hentries := appends_entries (s := s ++ more) (i := s.length) (by simp)
    (by rw [htake]; exact hs.1) (by rw [htake]; exact hs.pairwise)
  rw [htake, hs.kept] at hentries
  obtain ⟨hfit, hfull⟩ := hentries _ _ hstart
  simp only [List.length_nil, Nat.zero_add, List.nil_append] at hfit hfull
  simp only [lfnGetName, hw, inBounds_some, ok_bind]
  constructor
  · intro hlt
    obtain ⟨⟨st', buf⟩, hrun, hbuf, -, tail, helems⟩ := hfit hlt
    have hbuf' : buf = name.utf8.length := hbuf
    subst hbuf'
    -- the last write puts a NUL where there is one
    have hcut : st'.filename.Split name.utf8 [0] tail := by
      simpa [Buf.Split, LongName.utf8] using helems
    obtain ⟨filename', hw', hcut'⟩ := hcut.write [0] rfl
    refine ⟨{ st' with filename := filename' }, tail, by rw [hrun, ok_bind, hw']; rfl, ?_⟩
    simpa [Buf.Split] using hcut'
  · intro hge
    rw [hfull hge, error_bind]

/-- **When the decoder stays inside of its buffer**: when the name has fewer than 512 bytes in
UTF-8. Source: `fat32-lfn-helpers.c` `lfn_get_name`. Kind: P -/
theorem lfn_get_name_in_bounds_iff (st : Statics) (name : LongName) (s : List LfnDir)
    (hs : Stores s name) (more : List LfnDir) :
    lfnGetName st (s ++ more) s.length ≠ .error .outOfBounds ↔ name.width < 512 := by
  obtain ⟨hfit, hfull⟩ := lfn_get_name_eq st hs more
  rw [← name.utf8_length]
  constructor
  · intro hne
    by_contra hge
    exact hne (hfull (by omega))
  · intro hlt
    obtain ⟨st', tail, hrun, -⟩ := hfit hlt
    rw [hrun]
    exact nofun

/-- The name `A`. Source: none: infrastructure. Kind: D -/
def letter : LongName where
  units := [0x41]
  length_le := by decide
  not_terminator u hu := by
    rw [List.mem_singleton.mp hu]
    decide
  not_surrogate u hu := by
    rw [List.mem_singleton.mp hu]
    decide

/-- The entry that keeps it. Source: `fat32-helpers.h` `lfn_dir_t`. Kind: D -/
def letterEntry (cksum : UInt8) : LfnDir where
  seqno := 0x41
  name1_5 := ⟨[0x41, 0, 0, 0, 0xff, 0xff, 0xff, 0xff, 0xff, 0xff], rfl⟩
  attr := longFileName
  reserved := 0
  cksum := cksum
  name6_11 := .fill 12 0xff
  reserved1 := .fill 2 0
  name12_13 := .fill 4 0xff

/-- Source: `fat32-helpers.h` `lfn_dir_t`. Kind: L -/
theorem letter_stored (cksum : UInt8) : Stores [letterEntry cksum] letter :=
  ⟨fun l hl => by rw [List.mem_singleton.mp hl]; rfl, rfl⟩

/-- The name `a long name.txt`. Source: none: infrastructure. Kind: D -/
def textFile : LongName where
  units := [0x61, 0x20, 0x6c, 0x6f, 0x6e, 0x67, 0x20, 0x6e, 0x61, 0x6d, 0x65, 0x2e, 0x74, 0x78, 0x74]
  length_le := by decide
  not_terminator := by simp [Terminator]
  not_surrogate := by simp

/-- The two entries that keep it, last part first. Source: `fat32-helpers.h` `lfn_dir_t`. Kind: D -/
def textFileEntries (cksum : UInt8) : List LfnDir :=
  [{ seqno := 0x42
     name1_5 := ⟨[0x78, 0, 0x74, 0, 0, 0, 0xff, 0xff, 0xff, 0xff], rfl⟩
     attr := longFileName
     reserved := 0
     cksum := cksum
     name6_11 := .fill 12 0xff
     reserved1 := .fill 2 0
     name12_13 := .fill 4 0xff },
   { seqno := 1
     name1_5 := ⟨[0x61, 0, 0x20, 0, 0x6c, 0, 0x6f, 0, 0x6e, 0], rfl⟩
     attr := longFileName
     reserved := 0
     cksum := cksum
     name6_11 := ⟨[0x67, 0, 0x20, 0, 0x6e, 0, 0x61, 0, 0x6d, 0, 0x65, 0], rfl⟩
     reserved1 := .fill 2 0
     name12_13 := ⟨[0x2e, 0, 0x74, 0], rfl⟩ }]

/-- Source: `fat32-helpers.h` `lfn_dir_t`. Kind: L -/
theorem textFile_stored (cksum : UInt8) : Stores (textFileEntries cksum) textFile :=
  ⟨by simp [textFileEntries], rfl⟩

/-- The theorem for a name in two entries. Source: `fat32-lfn-helpers.c` `lfn_get_name`. Kind: L -/
theorem textFile_in_bounds :
    lfnGetName .init (textFileEntries 0 ++ []) (textFileEntries 0).length ≠ .error .outOfBounds :=
  (lfn_get_name_in_bounds_iff .init textFile (textFileEntries 0) (textFile_stored 0) []).mpr (by decide)

/-- An entry full of euro signs. Source: `fat32-helpers.h` `lfn_dir_t`. Kind: D -/
def euroEntry (seqno : UInt8) : LfnDir where
  seqno := seqno
  name1_5 := ⟨[0xac, 0x20, 0xac, 0x20, 0xac, 0x20, 0xac, 0x20, 0xac, 0x20], rfl⟩
  attr := longFileName
  reserved := 0
  cksum := 0
  name6_11 := ⟨[0xac, 0x20, 0xac, 0x20, 0xac, 0x20, 0xac, 0x20, 0xac, 0x20, 0xac, 0x20], rfl⟩
  reserved1 := .fill 2 0
  name12_13 := ⟨[0xac, 0x20, 0xac, 0x20], rfl⟩

/-- 182 euro signs. Source: none: infrastructure. Kind: D -/
def euros : LongName where
  units := List.replicate 182 0x20ac
  length_le := (Nat.le_of_eq List.length_replicate).trans (by decide)
  not_terminator u hu := by
    rw [List.eq_of_mem_replicate hu]
    decide
  not_surrogate u hu := by
    rw [List.eq_of_mem_replicate hu]
    decide

/-- The fourteen entries that keep them, last part first. Source: `fat32-helpers.h` `lfn_dir_t`.
Kind: D -/
def euroEntries : List LfnDir :=
  [0x4e, 13, 12, 11, 10, 9, 8, 7, 6, 5, 4, 3, 2, 1].map euroEntry

/-- **182 euro signs leave the buffer**: they are 546 bytes in UTF-8.
Source: `fat32-lfn-helpers.c` `lfn_get_name`
Kind: P -/
theorem euros_leave_buffer : Stores euroEntries euros ∧
    lfnGetName .init euroEntries euroEntries.length = .error .outOfBounds := by
  have hstores : Stores euroEntries euros := by
    refine ⟨?_, by decide +kernel⟩
    intro l hl
    obtain ⟨n, -, rfl⟩ := List.mem_map.mp hl
    rfl
  have hrun := (lfn_get_name_eq .init hstores []).2 (by rw [euros.utf8_length]; decide +kernel)
  rw [List.append_nil] at hrun
  exact ⟨hstores, hrun⟩

end Cs140e.Fat32
