import Cs140e.Libpi.Str
import Mathlib.Data.List.DropRight

/-!
# 8.3 file names

The names of directory entries in `fat32-helpers.c`: the check of a name, the encoder and the
printer. A name is the list of its characters.

* `Fat32Dirent`, `fat32IsValidName`, `fat32DirentSetName`, `to8dot3`, `fat32DirentName` — the code.
* `ShortName` — a name of the format: one to eight characters, or these with a dot and three more.
  `exists_shortName`: what the check accepts. `set_name_eq` and `dirent_name_eq`: what the encoder
  writes for one, and what the printer makes of that.
* `renamedText` — the round trip, and `renamed_prints_iff`, when it gives the name back.
-/

namespace Cs140e.Fat32

open Cs140e.Lib Cs140e.Libpi

/-! ## The code -/

/-- A directory entry: its name, and the packed fields from `attr` to `file_nbytes`.
Source: `fat32-helpers.h` `fat32_dirent_t`
Kind: D -/
structure Fat32Dirent where
  /-- File name (8 bytes) with extension (3 bytes). -/
  filename : Buf UInt8 11
  /-- Bytes 11 to 31. -/
  rest : Buf UInt8 21
  deriving DecidableEq

/-- `' '`. Source: `fat32-helpers.c`. Kind: D -/
abbrev space : UInt8 := 0x20

/-- `'.'`. Source: `fat32-helpers.c`. Kind: D -/
abbrev dot : UInt8 := 0x2e

/-- Neither outside of `'A'`–`'Z'` and outside of `'0'`–`'9'`.
Source: `fat32-helpers.c` `fat32_is_valid_name`
Kind: D -/
def isNameChar (c : UInt8) : Bool := !((c < 0x41 || c > 0x5a) && (c < 0x30 || c > 0x39))

/-- The first loop. Source: `fat32-helpers.c` `fat32_is_valid_name`, `fat32_dirent_set_name`.
Kind: D -/
def hasDot (name : List UInt8) : Bool := name.any (· == dot)

/-- Source: `fat32-helpers.c` `fat32_is_valid_name`. Kind: D -/
def fat32IsValidName (name : List UInt8) : Bool :=
  let n := name.length
  if hasDot name then
    if n > 12 then false
    else if n < 5 then false
    else if name.getD (n - 4) 0 != dot then false
    else (List.range n).all fun i => isNameChar (name.getD i 0) || i == n - 4
  else
    if n > 8 then false
    else if n < 1 then false
    else name.all isNameChar

/-- Source: `fat32-helpers.c` `fat32_dirent_set_name`. Kind: D -/
def fat32DirentSetName (d : Fat32Dirent) (name : List UInt8) : Except Stop Fat32Dirent := do
  let n := name.length
  if !fat32IsValidName name then throw (.assert "fat32_is_valid_name(name)")
  let filename : Buf UInt8 11 := .fill 11 space
  if hasDot name then
    let filename ← inBounds (filename.write 0 (name.take (n - 4)))
    let filename ← inBounds (filename.write 8 ((name.drop (n - 3)).take 3))
    return { d with filename }
  else
    let filename ← inBounds (filename.write 0 name)
    return { d with filename }

/-- `i` after the loop that looks for the last non-space among the first `k` characters: `-1` when
there is none. Source: `fat32-helpers.c` `to_8dot3`. Kind: D -/
def trimmedLength (s : List UInt8) : Nat → Int
  | 0 => -1
  | k + 1 => if s.getD k 0 != space then k + 1 else trimmedLength s k

/-- `s[i++] = c` for one character after another. Source: `fat32-helpers.c` `to_8dot3`. Kind: D -/
def storeFrom {n : Nat} (s : Buf UInt8 n) (i : Int) : List UInt8 → Except Stop (Buf UInt8 n)
  | [] => return s
  | c :: cs => do
    if i < 0 then throw .outOfBounds
    let s ← inBounds (s.write i.toNat [c])
    storeFrom s (i + 1) cs

/-- `s` is the function's static buffer. Source: `fat32-helpers.c` `to_8dot3`. Kind: D -/
def to8dot3 (s : Buf UInt8 14) (p : Buf UInt8 11) : Except Stop (Buf UInt8 14) := do
  let suffix := p.elems.drop 8
  let s ← inBounds (s.write 0 (p.elems.take 8))
  let i := trimmedLength s.elems 8
  storeFrom s i (dot :: suffix ++ [0])

/-- The static buffer and `name` afterwards; `n` is not looked at.
Source: `fat32-helpers.c` `fat32_dirent_name`
Kind: D -/
def fat32DirentName {n : Nat} (s : Buf UInt8 14) (d : Fat32Dirent) (name : Buf UInt8 n) :
    Except Stop (Buf UInt8 14 × Buf UInt8 n) := do
  let s ← to8dot3 s d.filename
  let name ← strcpy name (.ofBuf s)
  return (s, name)

/-! ## The format -/

/-- A name of the format. Source: `fat32-helpers.h` "check if possible to convert to 8.3". Kind: D -/
structure ShortName where
  base : List UInt8
  ext : Option (List UInt8)
  base_pos : 1 ≤ base.length
  base_le : base.length ≤ 8
  ext_length : ∀ e ∈ ext, e.length = 3
  base_chars : ∀ c ∈ base, isNameChar c = true
  ext_chars : ∀ e ∈ ext, ∀ c ∈ e, isNameChar c = true

namespace ShortName

variable (v : ShortName)

/-- The name as it is written. Source: `fat32-helpers.c` `fat32_is_valid_name`. Kind: D -/
def text : List UInt8 := v.base ++ v.ext.elim [] (dot :: ·)

/-- The three bytes of the extension. Source: `fat32-helpers.h` `filename`. Kind: D -/
def suffix : List UInt8 := v.ext.getD (List.replicate 3 space)

/-- The base, filled up with spaces. Source: `fat32-helpers.h` `filename`. Kind: D -/
def padded : List UInt8 := v.base ++ List.replicate (8 - v.base.length) space

/-- The name as it is printed. Source: `fat32-helpers.c` `to_8dot3`. Kind: D -/
def printed : List UInt8 := v.base ++ dot :: v.suffix

/-- Source: `fat32-helpers.h` `filename`. Kind: L -/
theorem suffix_length : v.suffix.length = 3 := by
  unfold suffix
  cases h : v.ext with
  | none => rfl
  | some e => exact v.ext_length e h

/-- Source: `fat32-helpers.h` `filename`. Kind: L -/
theorem padded_length : v.padded.length = 8 := by
  have := v.base_le
  simp only [padded, List.length_append, List.length_replicate]
  omega

end ShortName

/-- No character of a name is special. Source: `fat32-helpers.c` `fat32_is_valid_name`. Kind: L -/
theorem isNameChar_ne {c : UInt8} (h : isNameChar c = true) : c ≠ dot ∧ c ≠ space ∧ c ≠ 0 := by
  refine ⟨?_, ?_, ?_⟩ <;>
  · rintro rfl
    exact absurd h (by decide)

/-- Only an extension brings a dot. Source: `fat32-helpers.c` `fat32_is_valid_name`. Kind: L -/
theorem hasDot_text (v : ShortName) : hasDot v.text = v.ext.isSome := by
  have hbase : v.base.any (· == dot) = false := by
    rw [List.any_eq_false]
    intro c hc
    simpa using (isNameChar_ne (v.base_chars c hc)).1
  unfold hasDot ShortName.text
  rw [List.any_append, hbase]
  cases v.ext <;> simp

/-! ## The check -/

/-- A dotted name that passes is a base and an extension.
Source: `fat32-helpers.c` `fat32_is_valid_name`. Kind: L -/
theorem exists_dotted {name : List UInt8} (hdot : hasDot name = true)
    (h : fat32IsValidName name = true) : ∃ v : ShortName, v.text = name := by
  simp only [fat32IsValidName, hdot, if_true] at h
  split at h
  · simp at h
  split at h
  · simp at h
  split at h
  · simp at h
  rename_i h12 h5 hat
  have hchars : ∀ i (hi : i < name.length), i ≠ name.length - 4 → isNameChar name[i] = true := by
    intro i hi hne
    have := List.all_eq_true.mp h i (List.mem_range.mpr hi)
    simpa [hi, hne] using this
  have hlt : name.length - 4 < name.length := by omega
  have hget : name[name.length - 4] = dot := by simpa [hlt] using hat
  have hdrop : name.drop (name.length - 4) = dot :: name.drop (name.length - 4 + 1) := by
    rw [List.drop_eq_getElem_cons (by omega), hget]
  refine ⟨{
    base := name.take (name.length - 4)
    ext := some (name.drop (name.length - 4 + 1))
    base_pos := by rw [List.length_take]; omega
    base_le := by rw [List.length_take]; omega
    ext_length := by
      rintro _ ⟨⟩
      rw [List.length_drop]
      omega
    base_chars := ?_
    ext_chars := ?_ }, ?_⟩
  · intro c hc
    obtain ⟨i, hi, rfl⟩ := List.getElem_of_mem hc
    rw [List.length_take] at hi
    rw [List.getElem_take]
    exact hchars i (by omega) (by omega)
  · rintro _ ⟨⟩ c hc
    obtain ⟨i, hi, rfl⟩ := List.getElem_of_mem hc
    rw [List.length_drop] at hi
    rw [List.getElem_drop]
    exact hchars _ (by omega) (by omega)
  · show name.take (name.length - 4) ++ dot :: name.drop (name.length - 4 + 1) = name
    rw [← hdrop, List.take_append_drop]

/-- **What the check accepts** is a name of the format.
Source: `fat32-helpers.c` `fat32_is_valid_name`
Kind: P -/
theorem exists_shortName {name : List UInt8} (h : fat32IsValidName name = true) :
    ∃ v : ShortName, v.text = name := by
  by_cases hdot : hasDot name = true
  · exact exists_dotted hdot h
  · rw [Bool.not_eq_true] at hdot
    simp only [fat32IsValidName, hdot, Bool.false_eq_true, if_false] at h
    split at h
    · simp at h
    split at h
    · simp at h
    refine ⟨{
      base := name, ext := none, base_pos := by omega, base_le := by omega
      ext_length := nofun, base_chars := List.all_eq_true.mp h, ext_chars := nofun }, ?_⟩
    simp [ShortName.text]

/-! ## The encoder -/

/-- What the encoder writes. Source: `fat32-helpers.c` `fat32_dirent_set_name`. Kind: P -/
theorem set_name_eq (d : Fat32Dirent) (v : ShortName) (h : fat32IsValidName v.text = true) :
    ∃ d', fat32DirentSetName d v.text = .ok d' ∧ d'.rest = d.rest ∧
      d'.filename.elems = v.padded ++ v.suffix := by
  have hle := v.base_le
  -- the eleven spaces, cut where the base ends and where the extension starts
  have hfill : (Buf.fill 11 space : Buf UInt8 11).Split [] (List.replicate v.base.length space)
      (List.replicate (8 - v.base.length) space ++ List.replicate 3 space) := by
    rw [Buf.Split, List.nil_append, ← List.append_assoc, List.replicate_append_replicate,
      List.replicate_append_replicate]
    show List.replicate 11 space = _
    congr 1
    omega
  obtain ⟨f₁, hw₁, hs₁⟩ := hfill.write v.base (by simp)
  rw [List.length_nil] at hw₁
  have hdot := hasDot_text v
  cases he : v.ext with
  | none =>
      have htext : v.text = v.base := by simp [ShortName.text, he]
      rw [he] at hdot
      refine ⟨{ d with filename := f₁ }, ?_, rfl, ?_⟩
      · rw [htext] at h hdot ⊢
        simp [fat32DirentSetName, h, hdot, hw₁]
      · simpa [Buf.Split, ShortName.padded, ShortName.suffix, he] using hs₁
  | some e =>
      have hlen := v.ext_length e he
      have htext : v.text = v.base ++ dot :: e := by simp [ShortName.text, he]
      have hs₂ : f₁.Split v.padded (List.replicate 3 space) [] := by
        simpa [Buf.Split, ShortName.padded] using hs₁
      obtain ⟨f₂, hw₂, hs₃⟩ := hs₂.write e (by simpa using hlen)
      rw [v.padded_length] at hw₂
      have hn : v.text.length - 4 = v.base.length := by rw [htext]; simp; omega
      have htake : v.text.take (v.text.length - 4) = v.base := by
        rw [hn, htext, List.take_left]
      have hdrop : (v.text.drop (v.text.length - 3)).take 3 = e := by
        have : v.text.length - 3 = (v.base ++ [dot]).length := by rw [htext]; simp; omega
        have hcut : v.text = (v.base ++ [dot]) ++ e := by rw [htext, List.append_assoc]; rfl
        rw [this, hcut, List.drop_left, List.take_of_length_le (by omega)]
      rw [he] at hdot
      refine ⟨{ d with filename := f₂ }, ?_, rfl, ?_⟩
      · simp [fat32DirentSetName, h, hdot, htake, hdrop, hw₁, hw₂]
      · simpa [Buf.Split, ShortName.suffix, he] using hs₃

/-! ## The printer -/

/-- The loop finds the end of the text that spaces pad.
Source: `fat32-helpers.c` `to_8dot3`. Kind: L -/
theorem trimmedLength_eq (s : List UInt8) (k : Nat) (hk : k ≤ s.length) :
    trimmedLength s k = if (s.take k).rdropWhile (· == space) = [] then -1
      else (((s.take k).rdropWhile (· == space)).length : Int) := by
  induction k with
  | zero => simp [trimmedLength]
  | succ k ih =>
      have hlt : k < s.length := by omega
      have hget : s.getD k 0 = s[k] := by simp [hlt]
      rw [trimmedLength, hget, ← List.take_append_getElem hlt]
      by_cases hsp : s[k] = space
      · rw [List.rdropWhile_concat_pos _ _ _ (by simpa using hsp), ← ih (by omega)]
        simp [hsp]
      · rw [List.rdropWhile_concat_neg _ _ _ (by simpa using hsp)]
        have hlen : (s.take k ++ [s[k]]).length = k + 1 := by simp; omega
        have hne : s.take k ++ [s[k]] ≠ [] := List.append_ne_nil_of_right_ne_nil _ (by simp)
        rw [if_neg hne, hlen]
        simp [hsp]

/-- Consecutive stores replace a block. Source: `fat32-helpers.c` `to_8dot3`. Kind: L -/
theorem storeFrom_split {n : Nat} {s : Buf UInt8 n} {pre mid post : List UInt8}
    (h : s.Split pre mid post) (cs : List UInt8) (hlen : mid.length = cs.length) :
    ∃ s', storeFrom s pre.length cs = .ok s' ∧ s'.Split pre cs post := by
  induction cs generalizing s pre mid with
  | nil =>
      obtain rfl := List.length_eq_zero_iff.mp hlen
      exact ⟨s, rfl, h⟩
  | cons c cs ih =>
      obtain ⟨m, mid, rfl⟩ : ∃ m mid', mid = m :: mid' := by
        cases mid with
        | nil => simp at hlen
        | cons m mid => exact ⟨m, mid, rfl⟩
      have h₁ : s.Split pre [m] (mid ++ post) := by simpa [Buf.Split] using h
      obtain ⟨s₁, hw, hs₁⟩ := h₁.write [c] rfl
      have h₂ : s₁.Split (pre ++ [c]) mid post := by simpa [Buf.Split] using hs₁
      obtain ⟨s', hrun, hs'⟩ := ih h₂ (by simpa using hlen)
      refine ⟨s', ?_, by simpa [Buf.Split] using hs'⟩
      rw [List.length_append, List.length_singleton, Int.natCast_add, Int.natCast_one] at hrun
      have hpos : ¬((pre.length : Int) < 0) := by omega
      simp [storeFrom, hpos, hw, hrun]

/-- **The printer**, on a name with something in its first eight bytes: these without the trailing
spaces, a dot, and the other three. Source: `fat32-helpers.c` `to_8dot3`. Kind: P -/
theorem to8dot3_eq (s : Buf UInt8 14) (p : Buf UInt8 11)
    (hbase : (p.elems.take 8).rdropWhile (· == space) ≠ []) :
    ∃ s' tail, to8dot3 s p = .ok s' ∧ s'.elems =
      (p.elems.take 8).rdropWhile (· == space) ++ dot :: p.elems.drop 8 ++ 0 :: tail := by
  obtain ⟨_, mid, post, hsplit, hpre, hmid⟩ := s.exists_split (i := 0) (k := 8) (by omega)
  obtain rfl := List.length_eq_zero_iff.mp hpre
  have hp := p.size
  have h8 : (p.elems.take 8).length = 8 := by rw [List.length_take]; omega
  have h3 : (p.elems.drop 8).length = 3 := by rw [List.length_drop]; omega
  obtain ⟨s₁, hw, hs₁⟩ := hsplit.write (p.elems.take 8) (by rw [h8, hmid])
  rw [List.length_nil] at hw
  have htake : s₁.elems.take 8 = p.elems.take 8 := by
    rw [hs₁, List.nil_append, List.take_append_of_le_length (by omega),
      List.take_of_length_le (by omega)]
  set base := (p.elems.take 8).rdropWhile (· == space) with hbase_def
  have hi : trimmedLength s₁.elems 8 = (base.length : Int) := by
    have hsize := s₁.size
    rw [trimmedLength_eq _ _ (by omega), htake, if_neg hbase]
  have hble : base.length ≤ 8 := by
    rw [← h8]
    exact (List.rdropWhile_prefix _ _).length_le
  -- the base stays, and the five bytes behind it are stored
  have hb : s₁.elems.take base.length = base := by
    have hpre : base <+: s₁.elems.take 8 := by
      rw [htake]
      exact List.rdropWhile_prefix _ _
    exact (List.prefix_iff_eq_take.mp (hpre.trans (List.take_prefix _ _))).symm
  obtain ⟨pre, mid', post', hs₂, hpre', hmid'⟩ :=
    s₁.exists_split (i := base.length) (k := 5) (by omega)
  have hpb : pre = base := by
    rw [← hb, ← hpre', hs₂, List.append_assoc, List.take_left]
  subst hpb
  obtain ⟨s', hrun, hs'⟩ := storeFrom_split hs₂ (dot :: p.elems.drop 8 ++ [0])
    (by simp [h3, hmid'])
  refine ⟨s', post', ?_, by simpa [Buf.Split] using hs'⟩
  simp only [to8dot3, hw, inBounds_some, ok_bind, hi]
  exact hrun

section

variable (v : ShortName)

/-- The blanks behind the base are trimmed. Source: `fat32-helpers.c` `to_8dot3`. Kind: L -/
theorem padded_trimmed : v.padded.rdropWhile (· == space) = v.base := by
  have hrev : v.base.reverse.dropWhile (· == space) = v.base.reverse := by
    cases hr : v.base.reverse with
    | nil => rfl
    | cons c cs =>
        have hc : c ∈ v.base := by
          rw [← List.mem_reverse, hr]
          exact List.mem_cons_self
        rw [List.dropWhile_cons_of_neg]
        simpa using (isNameChar_ne (v.base_chars c hc)).2.1
  rw [List.rdropWhile, ShortName.padded, List.reverse_append, List.reverse_replicate,
    List.dropWhile_append_of_pos (by simp), hrev, List.reverse_reverse]

/-- A printed name has no NUL in it. Source: `fat32-helpers.c` `to_8dot3`. Kind: L -/
theorem printed_not_nul : 0 ∉ v.printed := by
  intro hmem
  rcases List.mem_append.mp hmem with h | h
  · exact (isNameChar_ne (v.base_chars 0 h)).2.2 rfl
  · rcases List.mem_cons.mp h with h | h
    · exact absurd h (by decide)
    · unfold ShortName.suffix at h
      cases he : v.ext with
      | none =>
          rw [he] at h
          exact absurd (List.eq_of_mem_replicate h) (by decide)
      | some e =>
          rw [he] at h
          exact (isNameChar_ne (v.ext_chars e he 0 h)).2.2 rfl

end

/-- What is printed for a raw name without a NUL, in a buffer that is large enough.
Source: `fat32-helpers.c` `fat32_dirent_name`
Kind: P -/
theorem dirent_name_text (s : Buf UInt8 14) (d : Fat32Dirent)
    (hbase : (d.filename.elems.take 8).rdropWhile (· == space) ≠ [])
    (hnul : 0 ∉ (d.filename.elems.take 8).rdropWhile (· == space) ++
      dot :: d.filename.elems.drop 8) {n : Nat} (hn : 13 ≤ n) (name : Buf UInt8 n) :
    ∃ s' name', fat32DirentName s d name = .ok (s', name') ∧ cText name'.elems =
      (d.filename.elems.take 8).rdropWhile (· == space) ++ dot :: d.filename.elems.drop 8 := by
  obtain ⟨s', tail, hs', helems⟩ := to8dot3_eq s d.filename hbase
  have hfit : ((d.filename.elems.take 8).rdropWhile (· == space) ++
      dot :: d.filename.elems.drop 8).length < n := by
    have hsize := d.filename.size
    have hpre := (List.rdropWhile_prefix (· == space) (d.filename.elems.take 8)).length_le
    rw [List.length_take] at hpre
    rw [List.length_append, List.length_cons, List.length_drop]
    omega
  obtain ⟨name', post, hcpy, helems'⟩ := strcpy_split name (CharPtr.spells_ofBuf hnul helems) hfit
  refine ⟨s', name', ?_, ?_⟩
  · rw [fat32DirentName, hs', ok_bind, hcpy]
    rfl
  · rw [helems']
    exact cText_append hnul post

/-- What is printed for a name that the encoder wrote. Source: `fat32-helpers.c` `fat32_dirent_name`.
Kind: P -/
theorem dirent_name_eq (s : Buf UInt8 14) (d : Fat32Dirent) (v : ShortName) {n : Nat}
    (hn : 13 ≤ n) (name : Buf UInt8 n) (hd : d.filename.elems = v.padded ++ v.suffix) :
    ∃ s' name', fat32DirentName s d name = .ok (s', name') ∧ cText name'.elems = v.printed := by
  have h8 : d.filename.elems.take 8 = v.padded := by
    rw [hd, ← v.padded_length, List.take_left]
  have h3 : d.filename.elems.drop 8 = v.suffix := by
    rw [hd, ← v.padded_length, List.drop_left]
  have hne : v.base ≠ [] := List.length_pos_iff.mp v.base_pos
  have htext := dirent_name_text s d (by rwa [h8, padded_trimmed])
    (by rw [h8, h3, padded_trimmed]; exact printed_not_nul v) hn name
  rwa [h8, h3, padded_trimmed] at htext

/-! ## The round trip -/

/-- Name `d` and print its name into `buf`.
Source: `fat32-helpers.c` `fat32_dirent_set_name`, `fat32_dirent_name`
Kind: D -/
def renamedText (s : Buf UInt8 14) (d : Fat32Dirent) (buf : Buf UInt8 16) (name : List UInt8) :
    Except Stop (List UInt8) := do
  let d ← fat32DirentSetName d name
  let (_, buf) ← fat32DirentName s d buf
  return cText buf.elems

/-- What is printed for a renamed entry. Source: `fat32-helpers.c` `fat32_dirent_name`. Kind: L -/
theorem renamedText_eq (s : Buf UInt8 14) (d : Fat32Dirent) (buf : Buf UInt8 16) (v : ShortName)
    (h : fat32IsValidName v.text = true) : renamedText s d buf v.text = .ok v.printed := by
  obtain ⟨d', hd', -, hfile⟩ := set_name_eq d v h
  obtain ⟨s', buf', hbuf', htext⟩ := dirent_name_eq s d' v (by omega) buf hfile
  rw [renamedText, hd']
  show (do let (_, buf) ← fat32DirentName s d' buf; return cText buf.elems) = _
  rw [hbuf', ← htext]
  rfl

/-- **The round trip**: the printed name of a renamed entry is the name given exactly when that has
an extension. Source: `fat32-helpers.c` `fat32_dirent_set_name`, `to_8dot3`. Kind: P -/
theorem renamed_prints_iff (s : Buf UInt8 14) (d : Fat32Dirent) (buf : Buf UInt8 16)
    (name : List UInt8) (h : fat32IsValidName name = true) :
    renamedText s d buf name = .ok name ↔ dot ∈ name := by
  obtain ⟨v, rfl⟩ := exists_shortName h
  have hdot : dot ∈ v.text ↔ v.ext.isSome = true := by
    rw [← hasDot_text]
    simp [hasDot]
  rw [renamedText_eq s d buf v h, hdot]
  cases he : v.ext with
  | none => simp [ShortName.printed, ShortName.text, he]
  | some e => simp [ShortName.printed, ShortName.text, ShortName.suffix, he]

/-- The theorem at `A.TXT`. Source: `fat32-helpers.c` `fat32_dirent_set_name`. Kind: L -/
theorem renamed_prints_dotted :
    renamedText (.fill 14 0) ⟨.fill 11 0, .fill 21 0⟩ (.fill 16 0)
      [0x41, 0x2e, 0x54, 0x58, 0x54] = .ok [0x41, 0x2e, 0x54, 0x58, 0x54] :=
  (renamed_prints_iff _ _ _ _ (by decide)).mpr (by decide)

/-- `FOO` is accepted and comes back as `FOO.` and three spaces.
Source: `fat32-helpers.c` `to_8dot3`. Kind: L -/
theorem renamed_undotted :
    fat32IsValidName [0x46, 0x4f, 0x4f] = true ∧
      renamedText (.fill 14 0) ⟨.fill 11 0, .fill 21 0⟩ (.fill 16 0) [0x46, 0x4f, 0x4f] =
        .ok [0x46, 0x4f, 0x4f, 0x2e, 0x20, 0x20, 0x20] ∧
      renamedText (.fill 14 0) ⟨.fill 11 0, .fill 21 0⟩ (.fill 16 0) [0x46, 0x4f, 0x4f] ≠
        .ok [0x46, 0x4f, 0x4f] := by
  have hprint : renamedText (.fill 14 0) ⟨.fill 11 0, .fill 21 0⟩ (.fill 16 0) [0x46, 0x4f, 0x4f] =
      .ok [0x46, 0x4f, 0x4f, 0x2e, 0x20, 0x20, 0x20] := rfl
  exact ⟨by decide, hprint, by simp [hprint]⟩

end Cs140e.Fat32
