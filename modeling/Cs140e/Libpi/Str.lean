import Cs140e.Lib.Buf
import Cs140e.Stop

/-!
# C strings

The string functions of `libpi/libc`. A pointer is the characters it reaches; reading past them, or
writing past an array, stops with `.outOfBounds`.

* `strlen`, `strcpy`, `strcat` — as the code computes them.
* `CharPtr.Spells` — the string a pointer points at; `strlen_eq`, `strcpy_split` and `strcat_eq` are
  the specs of the functions on it.
-/

namespace Cs140e.Libpi

open Cs140e.Lib

/-- A pointer to characters. Source: none: infrastructure. Kind: D -/
structure CharPtr where
  /-- The bytes that may be read through it. -/
  room : Nat
  char : Nat → UInt8

/-- A pointer to the first element of an array. Source: none: infrastructure. Kind: D -/
def CharPtr.ofBuf {n : Nat} (b : Buf UInt8 n) : CharPtr := ⟨n, fun i => b.elems.getD i 0⟩

/-- A pointer to the first of the bytes that can be read. Source: none: infrastructure. Kind: D -/
def CharPtr.ofBytes (l : List UInt8) : CharPtr := ⟨l.length, fun i => l.getD i 0⟩

/-- `p + k`. Source: none: infrastructure. Kind: D -/
def CharPtr.add (p : CharPtr) (k : Nat) : CharPtr := ⟨p.room - k, fun i => p.char (k + i)⟩

/-- The string an array holds. Source: none: infrastructure. Kind: D -/
def cText (p : List UInt8) : List UInt8 := p.takeWhile (· != 0)

/-- The loop of `strlen`, with `room` bytes left. Source: `libpi/libc/strlen.c` `strlen`. Kind: D -/
def strlenFrom (p : Nat → UInt8) (ret : Nat) : (room : Nat) → Except Stop Nat
  | 0 => throw .outOfBounds
  | room + 1 => if p ret != 0 then strlenFrom p (ret + 1) room else return ret

/-- Source: `libpi/libc/strlen.c` `strlen`. Kind: D -/
def strlen (p : CharPtr) : Except Stop Nat := strlenFrom p.char 0 p.room

/-- The loop of `strcpy`: `s` and `s2` have moved on by `i`.
Source: `libpi/libc/strcpy.c` `strcpy`
Kind: D -/
def strcpyFrom {n : Nat} (s2 : Nat → UInt8) (s1 : Buf UInt8 n) (i : Nat) :
    (room : Nat) → Except Stop (Buf UInt8 n)
  | 0 => throw .outOfBounds
  | room + 1 => do
    let s1 ← inBounds (s1.write i [s2 i])
    if s2 i != 0 then strcpyFrom s2 s1 (i + 1) room else return s1

/-- Source: `libpi/libc/strcpy.c` `strcpy`. Kind: D -/
def strcpy {n : Nat} (s1 : Buf UInt8 n) (s2 : CharPtr) : Except Stop (Buf UInt8 n) :=
  strcpyFrom s2.char s1 0 s2.room

/-- Appends to the string at offset `off` of the array. The second loop is the one of `strcpy`.
Source: `libpi/libc/strcat.c` `strcat`
Kind: D -/
def strcat {n : Nat} (dest : Buf UInt8 n) (off : Nat) (src : CharPtr) :
    Except Stop (Buf UInt8 n) := do
  let s1 ← strlenFrom (CharPtr.ofBuf dest).char off (n - off)
  strcpyFrom (fun i => src.char (i - s1)) dest s1 src.room

/-! ## Strings -/

/-- A string is read back from its characters and the NUL. Source: none: infrastructure. Kind: L -/
theorem cText_append {s : List UInt8} (hs : 0 ∉ s) (rest : List UInt8) :
    cText (s ++ 0 :: rest) = s := by
  have hall : ∀ c ∈ s, (c != 0) = true := by
    intro c hc
    exact bne_iff_ne.mpr (ne_of_mem_of_not_mem hc hs)
  rw [cText, List.takeWhile_append_of_pos hall, List.takeWhile_cons_of_neg (by simp),
    List.append_nil]

/-- Source: none: infrastructure. Kind: L -/
theorem cText_cons {c : UInt8} (hc : c ≠ 0) (p : List UInt8) : cText (c :: p) = c :: cText p :=
  List.takeWhile_cons_of_pos (by simpa using hc)

/-- Source: none: infrastructure. Kind: L -/
theorem zero_notMem_cText (p : List UInt8) : 0 ∉ cText p := by
  intro h
  have hall := List.all_takeWhile (p := (· != (0 : UInt8))) (l := p)
  simpa using List.all_eq_true.mp hall 0 h

/-- Bytes with a NUL among them hold a string. Source: none: infrastructure. Kind: L -/
theorem exists_cText {p : List UInt8} (h : 0 ∈ p) : ∃ rest, p = cText p ++ 0 :: rest := by
  induction p with
  | nil => exact absurd h List.not_mem_nil
  | cons c p ih =>
      by_cases hc : c = 0
      · subst hc
        exact ⟨p, rfl⟩
      · obtain ⟨rest, hrest⟩ := ih ((List.mem_cons.mp h).resolve_left (Ne.symm hc))
        refine ⟨rest, ?_⟩
        rw [cText_cons hc, List.cons_append]
        exact congrArg (c :: ·) hrest

/-- What lies behind a NUL does not count. Source: none: infrastructure. Kind: L -/
theorem cText_append_zero (l rest : List UInt8) : cText (l ++ 0 :: rest) = cText l := by
  induction l with
  | nil => rfl
  | cons c l ih =>
      by_cases hc : c = 0
      · subst hc
        rfl
      · rw [List.cons_append, cText_cons hc, cText_cons hc, ih]

/-- A string without a NUL. Source: none: infrastructure. Kind: L -/
theorem cText_eq_self {s : List UInt8} (hs : 0 ∉ s) : cText s = s := by
  rw [← cText_append_zero s [], cText_append hs]

/-- A string ends at the first NUL. Source: none: infrastructure. Kind: L -/
theorem cText_length_le (pre post : List UInt8) :
    (cText (pre ++ 0 :: post)).length ≤ pre.length := by
  rw [cText_append_zero]
  exact (List.takeWhile_prefix _).length_le

/-- The characters of `s` and a NUL stand from index `i` on. Source: none: infrastructure. Kind: D -/
def SpellsFrom (p : Nat → UInt8) (i : Nat) : List UInt8 → Prop
  | [] => p i = 0
  | c :: s => p i = c ∧ c ≠ 0 ∧ SpellsFrom p (i + 1) s

/-- The pointer points at the string `s`. Source: none: infrastructure. Kind: D -/
def CharPtr.Spells (p : CharPtr) (s : List UInt8) : Prop :=
  s.length < p.room ∧ SpellsFrom p.char 0 s

/-- Source: none: infrastructure. Kind: L -/
theorem spellsFrom_of_getElem {p : Nat → UInt8} {s : List UInt8} (hs : 0 ∉ s) {i : Nat}
    (h : ∀ k (hk : k < (s ++ [0]).length), p (i + k) = (s ++ [0])[k]) : SpellsFrom p i s := by
  induction s generalizing i with
  | nil => exact h 0 (by simp)
  | cons c s ih =>
      refine ⟨h 0 (by simp), fun hc => hs (by simp [hc]), ?_⟩
      refine ih (fun hmem => hs (List.mem_cons_of_mem _ hmem)) fun k hk => ?_
      have hnext := h (k + 1) (by simpa using hk)
      rw [show i + 1 + k = i + (k + 1) by omega, hnext]
      rfl

/-- An array that starts with a string. Source: none: infrastructure. Kind: L -/
theorem CharPtr.spells_ofBuf {n : Nat} {b : Buf UInt8 n} {s rest : List UInt8} (hs : 0 ∉ s)
    (h : b.elems = s ++ 0 :: rest) : (CharPtr.ofBuf b).Spells s := by
  have hsize := b.size
  rw [h, List.length_append, List.length_cons] at hsize
  refine ⟨show s.length < n by omega, spellsFrom_of_getElem hs fun k hk => ?_⟩
  have happend : b.elems = (s ++ [0]) ++ rest := by simp [h]
  show b.elems.getD (0 + k) 0 = _
  rw [happend, Nat.zero_add, List.getD_eq_getElem?_getD, List.getElem?_append_left hk,
    List.getElem?_eq_getElem hk, Option.getD_some]

/-- Source: none: infrastructure. Kind: L -/
theorem SpellsFrom.add {p : Nat → UInt8} {s : List UInt8} {i k : Nat}
    (h : SpellsFrom p (k + i) s) : SpellsFrom (fun j => p (k + j)) i s := by
  induction s generalizing i with
  | nil => exact h
  | cons c s ih => exact ⟨h.1, h.2.1, ih h.2.2⟩

/-- Source: none: infrastructure. Kind: L -/
theorem SpellsFrom.drop {p : Nat → UInt8} {s : List UInt8} {i k : Nat} (h : SpellsFrom p i s)
    (hk : k ≤ s.length) : SpellsFrom p (i + k) (s.drop k) := by
  induction k generalizing i s with
  | zero => exact h
  | succ k ih =>
      cases s with
      | nil => simp at hk
      | cons c s =>
          have hnext := ih h.2.2 (Nat.le_of_succ_le_succ hk)
          rwa [Nat.add_assoc, Nat.add_comm 1 k] at hnext

/-- A pointer that moves on inside of a string. Source: none: infrastructure. Kind: L -/
theorem CharPtr.Spells.add {p : CharPtr} {s : List UInt8} {k : Nat} (h : p.Spells s)
    (hk : k ≤ s.length) : (p.add k).Spells (s.drop k) := by
  have hroom := h.1
  refine ⟨?_, SpellsFrom.add (by simpa [Nat.add_comm] using h.2.drop hk)⟩
  show (s.drop k).length < p.room - k
  rw [List.length_drop]
  omega

/-! ## The functions -/

/-- Source: `libpi/libc/strlen.c` `strlen`. Kind: L -/
theorem strlenFrom_eq {p : Nat → UInt8} {s : List UInt8} {ret room : Nat}
    (h : SpellsFrom p ret s) (hroom : s.length < room) :
    strlenFrom p ret room = .ok (ret + s.length) := by
  induction s generalizing ret room with
  | nil =>
      obtain ⟨room, rfl⟩ : ∃ r, room = r + 1 := ⟨room - 1, by simp at hroom; omega⟩
      rw [strlenFrom, h]
      rfl
  | cons c s ih =>
      obtain ⟨hc, hne, hrest⟩ := h
      obtain ⟨room, rfl⟩ : ∃ r, room = r + 1 := ⟨room - 1, by simp at hroom; omega⟩
      rw [strlenFrom, hc, if_pos (bne_iff_ne.mpr hne), ih hrest (by simpa using hroom)]
      simp only [List.length_cons, Except.ok.injEq]
      omega

/-- The length of a string. Source: `libpi/libc/strlen.c` `strlen`. Kind: P -/
theorem strlen_eq {p : CharPtr} {s : List UInt8} (h : p.Spells s) : strlen p = .ok s.length := by
  rw [strlen, strlenFrom_eq h.2 h.1, Nat.zero_add]

/-- Source: `libpi/libc/strcpy.c` `strcpy`. Kind: L -/
theorem strcpyFrom_split {n : Nat} {s2 : Nat → UInt8} {s : List UInt8} {s1 : Buf UInt8 n}
    {pre mid post : List UInt8} {room : Nat} (hs : SpellsFrom s2 pre.length s)
    (hroom : s.length < room) (h : s1.Split pre mid post) (hlen : mid.length = s.length + 1) :
    ∃ s1', strcpyFrom s2 s1 pre.length room = .ok s1' ∧ s1'.Split pre (s ++ [0]) post := by
  induction s generalizing s1 pre mid room with
  | nil =>
      obtain ⟨s1', hw, hsplit⟩ := h.write [0] (by simpa using hlen.symm)
      obtain ⟨room, rfl⟩ : ∃ r, room = r + 1 := ⟨room - 1, by simp at hroom; omega⟩
      refine ⟨s1', ?_, hsplit⟩
      rw [strcpyFrom, show s2 pre.length = 0 from hs, hw]
      rfl
  | cons c s ih =>
      obtain ⟨hc, hne, hrest⟩ := hs
      obtain ⟨room, rfl⟩ : ∃ r, room = r + 1 := ⟨room - 1, by simp at hroom; omega⟩
      obtain ⟨m, mid, rfl⟩ : ∃ m mid', mid = m :: mid' := by
        cases mid with
        | nil => simp at hlen
        | cons m mid => exact ⟨m, mid, rfl⟩
      have h₁ : s1.Split pre [m] (mid ++ post) := by
        simpa [Buf.Split] using h
      obtain ⟨s1₁, hw, hsplit⟩ := h₁.write [c] rfl
      have h₂ : s1₁.Split (pre ++ [c]) mid post := by
        simpa [Buf.Split] using hsplit
      have hlength : (pre ++ [c]).length = pre.length + 1 := by simp
      have hroom' : s.length < room := by simpa using hroom
      obtain ⟨s1', hrun, hdone⟩ := ih (by rwa [hlength]) hroom' h₂ (by simpa using hlen)
      refine ⟨s1', ?_, by simpa [Buf.Split] using hdone⟩
      rw [strcpyFrom, hc, hw, inBounds_some, ok_bind, if_pos (bne_iff_ne.mpr hne), ← hlength, hrun]

/-- A copy that fits replaces as many bytes as the string and its NUL have.
Source: `libpi/libc/strcpy.c` `strcpy`
Kind: P -/
theorem strcpy_split {n : Nat} (s1 : Buf UInt8 n) {s2 : CharPtr} {s : List UInt8}
    (hs : s2.Spells s) (hfit : s.length < n) :
    ∃ s1' post, strcpy s1 s2 = .ok s1' ∧ s1'.elems = s ++ 0 :: post := by
  obtain ⟨pre, mid, post, hsplit, hpre, hmid⟩ :=
    s1.exists_split (i := 0) (k := s.length + 1) (by omega)
  obtain rfl := List.length_eq_zero_iff.mp hpre
  obtain ⟨s1', hrun, hdone⟩ := strcpyFrom_split (show SpellsFrom s2.char [].length s from hs.2) hs.1
    hsplit hmid
  refine ⟨s1', post, hrun, ?_⟩
  rw [hdone]
  simp

/-- Where a string is read does not count. Source: none: infrastructure. Kind: L -/
theorem SpellsFrom.shift {p : Nat → UInt8} {s : List UInt8} {i : Nat} (h : SpellsFrom p i s)
    (k : Nat) : SpellsFrom (fun j => p (j - k)) (k + i) s := by
  induction s generalizing i with
  | nil => simpa [SpellsFrom] using h
  | cons c s ih =>
      obtain ⟨hc, hne, hrest⟩ := h
      exact ⟨by simpa using hc, hne, ih hrest⟩

/-- A copy that does not fit leaves the array. Source: `libpi/libc/strcpy.c` `strcpy`. Kind: L -/
theorem strcpyFrom_overflow {n : Nat} {s2 : Nat → UInt8} {s : List UInt8} {s1 : Buf UInt8 n}
    {i room : Nat} (hs : SpellsFrom s2 i s) (hroom : s.length < room) (hfit : n ≤ i + s.length) :
    strcpyFrom s2 s1 i room = .error .outOfBounds := by
  induction s generalizing s1 i room with
  | nil =>
      obtain ⟨room, rfl⟩ : ∃ r, room = r + 1 := ⟨room - 1, by simp at hroom; omega⟩
      have hw : s1.write i [s2 i] = none := by
        rw [Buf.write_eq_none_iff]
        simpa using Nat.lt_succ_of_le hfit
      rw [strcpyFrom, hw]
      rfl
  | cons c s ih =>
      obtain ⟨hc, hne, hrest⟩ := hs
      obtain ⟨room, rfl⟩ : ∃ r, room = r + 1 := ⟨room - 1, by simp at hroom; omega⟩
      rw [List.length_cons] at hroom hfit
      rw [strcpyFrom, hc]
      cases hw : s1.write i [c] with
      | none => rfl
      | some s1' =>
          rw [inBounds_some, ok_bind, if_pos (bne_iff_ne.mpr hne)]
          exact ih hrest (by omega) (by omega)

/-- **What is appended**: the string and its NUL stand behind the text that was there, if they fit.
Source: `libpi/libc/strcat.c` `strcat`. Kind: P -/
theorem strcat_eq {n : Nat} {dest : Buf UInt8 n} {t tail s : List UInt8} {src : CharPtr} {off : Nat}
    (hdest : dest.elems = t ++ 0 :: tail) (ht : 0 ∉ t) (hoff : off ≤ t.length)
    (hs : src.Spells s) :
    (t.length + s.length < n → ∃ dest' tail', strcat dest off src = .ok dest' ∧
      dest'.elems = t ++ s ++ 0 :: tail') ∧
    (n ≤ t.length + s.length → strcat dest off src = .error .outOfBounds) := by
  have hsize := dest.size
  rw [hdest, List.length_append, List.length_cons] at hsize
  have hend : strlenFrom (CharPtr.ofBuf dest).char off (n - off) = .ok t.length := by
    have hspells : SpellsFrom (CharPtr.ofBuf dest).char off (t.drop off) := by
      refine spellsFrom_of_getElem (fun h => ht (List.mem_of_mem_drop h)) fun k hk => ?_
      have hcut : dest.elems.drop off = (t.drop off ++ [0]) ++ tail := by
        rw [hdest, List.drop_append_of_le_length hoff, List.append_assoc]
        rfl
      show dest.elems.getD (off + k) 0 = _
      rw [List.getD_eq_getElem?_getD, ← List.getElem?_drop, hcut, List.getElem?_append_left hk,
        List.getElem?_eq_getElem hk, Option.getD_some]
    rw [strlenFrom_eq hspells (by rw [List.length_drop]; omega), List.length_drop]
    congr 1
    omega
  have hshift : SpellsFrom (fun i => src.char (i - t.length)) t.length s := hs.2.shift t.length
  simp only [strcat, hend, ok_bind]
  constructor
  · intro hfit
    have hsplit : dest.Split t (0 :: tail.take s.length) (tail.drop s.length) := by
      rw [Buf.Split, hdest, List.append_assoc, List.cons_append, List.take_append_drop]
    obtain ⟨dest', hrun, hdone⟩ := strcpyFrom_split hshift hs.1 hsplit (by simp; omega)
    refine ⟨dest', tail.drop s.length, hrun, ?_⟩
    rw [hdone]
    simp
  · exact strcpyFrom_overflow hshift hs.1

end Cs140e.Libpi
