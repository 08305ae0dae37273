import Cs140e.Libpi.Str

/-!
# Comparing memory

`strcmp`, `strncmp` and `memcmp` of `libpi/libc`, and what they say about two strings. On the Pi
plain `char` is unsigned, so all three compare bytes as they are.

* `Signed r a b` — the sign of `r` is the lexicographic comparison of `a` and `b`.
* `strcmp_signed` and `strncmp_signed` — the result on two strings; the second needs them to differ,
  or `n` to stop at their NUL. `strncmp_past_nul` is what happens otherwise.
* `strncmp_agrees_iff` — when `strncmp` is the comparison of the two strings cut to `n` characters.
-/

namespace Cs140e.Libpi

open Cs140e.Lib

/-! ## The code -/

/-- `p[i]`. Source: none: infrastructure. Kind: D -/
def CharPtr.get (p : CharPtr) (i : Nat) : Except Stop UInt8 :=
  if i < p.room then return p.char i else throw .outOfBounds

/-- The loop of `strncmp`: `s1` and `s2` have moved on by `i`.
Source: `libpi/libc/strncmp.c` `strncmp`
Kind: D -/
def strncmpFrom (s1 s2 : CharPtr) (i : Nat) : (n : Nat) → Except Stop Int
  | 0 => return 0
  | n + 1 => do
    let a ← s1.get i
    let b ← s2.get i
    if a != b then return (a.toNat : Int) - b.toNat
    else strncmpFrom s1 s2 (i + 1) n

/-- Source: `libpi/libc/strncmp.c` `strncmp`. Kind: D -/
def strncmp (s1 s2 : CharPtr) (n : Nat) : Except Stop Int := strncmpFrom s1 s2 0 n

/-- The loop of `strcmp`, with `room` bytes of `a` left.
Source: `libpi/libc/strcmp.c` `strcmp`
Kind: D -/
def strcmpFrom (a b : CharPtr) (i : Nat) : (room : Nat) → Except Stop Int
  | 0 => throw .outOfBounds
  | room + 1 => do
    let x ← a.get i
    let y ← b.get i
    if x != 0 && x == y then strcmpFrom a b (i + 1) room
    else return (x.toNat : Int) - y.toNat

/-- Source: `libpi/libc/strcmp.c` `strcmp`. Kind: D -/
def strcmp (a b : CharPtr) : Except Stop Int := strcmpFrom a b 0 a.room

/-- The loop of `memcmp`, with `left` bytes to go. Source: `libpi/libc/memcmp.c` `memcmp`. Kind: D -/
def memcmpFrom (s1 s2 : CharPtr) (i : Nat) : (left : Nat) → Except Stop Int
  | 0 => return 0
  | left + 1 => do
    let a ← s1.get i
    let b ← s2.get i
    let v : Int := (a.toNat : Int) - b.toNat
    if v != 0 then return v else memcmpFrom s1 s2 (i + 1) left

/-- Source: `libpi/libc/memcmp.c` `memcmp`. Kind: D -/
def memcmp (s1 s2 : CharPtr) (nbytes : Nat) : Except Stop Int := memcmpFrom s1 s2 0 nbytes

/-! ## Reading -/

/-- Reading inside. Source: none: infrastructure. Kind: L -/
theorem CharPtr.get_lt {p : CharPtr} {i : Nat} (h : i < p.room) : p.get i = .ok (p.char i) := by
  rw [CharPtr.get, if_pos h]
  rfl

/-- Reading outside. Source: none: infrastructure. Kind: L -/
theorem CharPtr.get_ge {p : CharPtr} {i : Nat} (h : p.room ≤ i) :
    p.get i = .error .outOfBounds := by
  rw [CharPtr.get, if_neg (by omega)]
  rfl

/-- The pointer, with only `k` bytes to be read. Source: none: infrastructure. Kind: D -/
def CharPtr.upTo (p : CharPtr) (k : Nat) : CharPtr := { p with room := k }

/-! ## The order of strings -/

/-- The sign of `r` is the lexicographic comparison of `a` and `b`, by unsigned bytes.
Source: none: infrastructure
Kind: D -/
def Signed (r : Int) (a b : List UInt8) : Prop :=
  (r < 0 ↔ a < b) ∧ (r = 0 ↔ a = b) ∧ (0 < r ↔ b < a)

/-- A string compared with itself. Source: none: infrastructure. Kind: L -/
theorem signed_refl (a : List UInt8) : Signed 0 a a := by
  simp [Signed, List.lt_irrefl]

/-- A common first character does not count. Source: none: infrastructure. Kind: L -/
theorem signed_cons {r : Int} {a b : List UInt8} (c : UInt8) :
    Signed r (c :: a) (c :: b) ↔ Signed r a b := by
  simp [Signed, List.cons_lt_cons_self]

/-- Two characters that differ decide. Source: none: infrastructure. Kind: L -/
theorem signed_of_ne {x y : UInt8} (h : x ≠ y) (a b : List UInt8) :
    Signed ((x.toNat : Int) - y.toNat) (x :: a) (y :: b) := by
  have hne : x.toNat ≠ y.toNat := fun he => h (UInt8.toNat_inj.mp he)
  simp only [Signed, List.cons_lt_cons_iff, List.cons.injEq, UInt8.lt_iff_toNat_lt, h, h.symm,
    false_and, or_false, iff_false]
  omega

/-- A string that ends is before one that goes on. Source: none: infrastructure. Kind: L -/
theorem signed_nil_cons {y : UInt8} (hy : y ≠ 0) (b : List UInt8) :
    Signed (((0 : UInt8).toNat : Int) - y.toNat) [] (y :: b) := by
  have hpos : 0 < y.toNat := Nat.pos_of_ne_zero fun he => hy (UInt8.toNat_inj.mp he)
  simp [Signed]
  omega

/-- Source: none: infrastructure. Kind: L -/
theorem signed_cons_nil {x : UInt8} (hx : x ≠ 0) (a : List UInt8) :
    Signed ((x.toNat : Int) - (0 : UInt8).toNat) (x :: a) [] := by
  have hpos : 0 < x.toNat := Nat.pos_of_ne_zero fun he => hx (UInt8.toNat_inj.mp he)
  simp [Signed]
  omega

/-- The sign says which of the two is first. Source: none: infrastructure. Kind: L -/
theorem Signed.sign_eq {r c : Int} {a b : List UInt8} (hr : Signed r a b) (hc : Signed c a b) :
    r.sign = c.sign := by
  obtain ⟨hlt, heq, hgt⟩ := hr
  obtain ⟨hlt', heq', hgt'⟩ := hc
  rcases Int.lt_trichotomy r 0 with h | h | h
  · rw [Int.sign_eq_neg_one_of_neg h, Int.sign_eq_neg_one_of_neg (hlt'.mpr (hlt.mp h))]
  · rw [h, heq'.mpr (heq.mp h)]
  · rw [Int.sign_eq_one_of_pos h, Int.sign_eq_one_of_pos (hgt'.mpr (hgt.mp h))]

/-! ## Two strings -/

section

variable {p q : CharPtr}

/-- A string that may only be read to its NUL. Source: none: infrastructure. Kind: L -/
theorem CharPtr.Spells.upTo {a : List UInt8} (h : p.Spells a) :
    (p.upTo (a.length + 1)).Spells a :=
  ⟨Nat.lt_succ_self _, h.2⟩

/-- The sign of `strcmp`. Source: `libpi/libc/strcmp.c` `strcmp`. Kind: L -/
theorem strcmpFrom_signed {a b : List UInt8} {i room : Nat} (hp : SpellsFrom p.char i a)
    (hq : SpellsFrom q.char i b) (hproom : i + a.length < p.room) (hqroom : i + b.length < q.room)
    (hroom : a.length < room) : ∃ r, strcmpFrom p q i room = .ok r ∧ Signed r a b := by
  induction a generalizing b i room with
  | nil =>
      obtain ⟨room, rfl⟩ : ∃ k, room = k + 1 := ⟨room - 1, by simp at hroom; omega⟩
      have hx : p.get i = .ok 0 := by rw [CharPtr.get_lt (by simpa using hproom), hp]
      have hy : q.get i = .ok (q.char i) := CharPtr.get_lt (by omega)
      refine ⟨((0 : UInt8).toNat : Int) - (q.char i).toNat, by simp [strcmpFrom, hx, hy], ?_⟩
      cases b with
      | nil =>
          rw [show q.char i = 0 from hq]
          exact signed_refl []
      | cons y b =>
          rw [hq.1]
          exact signed_nil_cons hq.2.1 b
  | cons x a ih =>
      obtain ⟨hx, hne, hrest⟩ := hp
      obtain ⟨room, rfl⟩ : ∃ k, room = k + 1 := ⟨room - 1, by simp at hroom; omega⟩
      have hpx : p.get i = .ok x := by rw [CharPtr.get_lt (by omega), hx]
      have hqy : q.get i = .ok (q.char i) := CharPtr.get_lt (by omega)
      simp only [strcmpFrom, hpx, hqy, ok_bind]
      cases b with
      | nil =>
          rw [show q.char i = 0 from hq]
          refine ⟨(x.toNat : Int) - (0 : UInt8).toNat, by simp [hne], signed_cons_nil hne a⟩
      | cons y b =>
          obtain ⟨hy, -, hrest'⟩ := hq
          rw [hy]
          by_cases hxy : x = y
          · subst hxy
            simp only [List.length_cons] at hproom hqroom hroom
            obtain ⟨r, hr, hs⟩ := ih hrest hrest' (by omega) (by omega) (Nat.lt_of_succ_lt_succ hroom)
            exact ⟨r, by simp [hne, hr], (signed_cons x).mpr hs⟩
          · exact ⟨(x.toNat : Int) - y.toNat, by simp [hxy], signed_of_ne hxy a b⟩

/-- The sign of `strcmp`. Source: `libpi/libc/strcmp.c` `strcmp`. Kind: P -/
theorem strcmp_signed {a b : List UInt8} (hp : p.Spells a) (hq : q.Spells b) :
    ∃ r, strcmp p q = .ok r ∧ Signed r a b :=
  strcmpFrom_signed hp.2 hq.2 (by simpa using hp.1) (by simpa using hq.1) hp.1

/-- The sign of `strncmp`, where the strings differ or `n` stops at their NUL: the loop goes on
behind a NUL only when both strings end there.
Source: `libpi/libc/strncmp.c` `strncmp`
Kind: L -/
theorem strncmpFrom_signed {a b : List UInt8} {i n : Nat} (hp : SpellsFrom p.char i a)
    (hq : SpellsFrom q.char i b) (hproom : i + a.length < p.room) (hqroom : i + b.length < q.room)
    (h : a ≠ b ∨ n ≤ a.length + 1) :
    ∃ r, strncmpFrom p q i n = .ok r ∧ Signed r (a.take n) (b.take n) := by
  induction n generalizing a b i with
  | zero => exact ⟨0, rfl, by simpa using signed_refl []⟩
  | succ n ih =>
      have hx : p.get i = .ok (p.char i) := CharPtr.get_lt (by omega)
      have hy : q.get i = .ok (q.char i) := CharPtr.get_lt (by omega)
      simp only [strncmpFrom, hx, hy, ok_bind]
      cases a with
      | nil =>
          rw [show p.char i = 0 from hp]
          cases b with
          | nil =>
              obtain rfl : n = 0 := by simpa using h
              rw [show q.char i = 0 from hq]
              exact ⟨0, rfl, by simpa using signed_refl []⟩
          | cons y b =>
              obtain ⟨hy, hne, -⟩ := hq
              rw [hy]
              refine ⟨((0 : UInt8).toNat : Int) - y.toNat, by simp [hne.symm], ?_⟩
              simpa using signed_nil_cons hne (b.take n)
      | cons x a =>
          obtain ⟨hx, hne, hrest⟩ := hp
          rw [hx]
          cases b with
          | nil =>
              rw [show q.char i = 0 from hq]
              refine ⟨(x.toNat : Int) - (0 : UInt8).toNat, by simp [hne], ?_⟩
              simpa using signed_cons_nil hne (a.take n)
          | cons y b =>
              obtain ⟨hy, -, hrest'⟩ := hq
              rw [hy]
              simp only [List.take_succ_cons]
              by_cases hxy : x = y
              · subst hxy
                simp only [List.length_cons] at hproom hqroom h
                have h' : a ≠ b ∨ n ≤ a.length + 1 := by
                  rcases h with h | h
                  · exact .inl fun hab => h (by rw [hab])
                  · exact .inr (by omega)
                obtain ⟨r, hr, hs⟩ := ih hrest hrest' (by omega) (by omega) h'
                exact ⟨r, by simpa using hr, (signed_cons x).mpr hs⟩
              · exact ⟨(x.toNat : Int) - y.toNat, by simp [hxy], signed_of_ne hxy _ _⟩

/-- Two equal strings that may only be read to their NULs: the loop leaves them.
Source: `libpi/libc/strncmp.c` `strncmp`
Kind: L -/
theorem strncmpFrom_past_nul {a : List UInt8} {i n : Nat} (hp : SpellsFrom p.char i a)
    (hq : SpellsFrom q.char i a) (hproom : p.room = i + a.length + 1)
    (hqroom : q.room = i + a.length + 1) (hn : a.length + 1 < n) :
    strncmpFrom p q i n = .error .outOfBounds := by
  induction a generalizing i n with
  | nil =>
      obtain ⟨n, rfl⟩ : ∃ k, n = k + 2 := ⟨n - 2, by simp at hn; omega⟩
      have hx : p.get i = .ok 0 := by rw [CharPtr.get_lt (by simp at hproom; omega), hp]
      have hy : q.get i = .ok 0 := by rw [CharPtr.get_lt (by simp at hqroom; omega), hq]
      have hpast : p.get (i + 1) = .error .outOfBounds :=
        CharPtr.get_ge (by simp at hproom; omega)
      simp [strncmpFrom, hx, hy, hpast]
  | cons x a ih =>
      obtain ⟨hx, -, hrest⟩ := hp
      obtain ⟨hx', -, hrest'⟩ := hq
      simp only [List.length_cons] at hproom hqroom hn
      obtain ⟨n, rfl⟩ : ∃ k, n = k + 1 := ⟨n - 1, by omega⟩
      have hpx : p.get i = .ok x := by rw [CharPtr.get_lt (by omega), hx]
      have hqx : q.get i = .ok x := by rw [CharPtr.get_lt (by omega), hx']
      simp only [strncmpFrom, hpx, hqx, ok_bind, bne_self_eq_false, Bool.false_eq_true, if_false]
      exact ih hrest hrest' (by omega) (by omega) (by omega)

/-- A read of fewer bytes is a read of more. Source: none: infrastructure. Kind: L -/
theorem CharPtr.get_of_upTo {k i : Nat} (hk : k ≤ p.room) {c : UInt8}
    (h : (p.upTo k).get i = .ok c) : p.get i = .ok c := by
  by_cases hi : i < k
  · rw [CharPtr.get_lt (show i < (p.upTo k).room from hi)] at h
    rw [CharPtr.get_lt (by omega)]
    exact h
  · rw [CharPtr.get_ge (show (p.upTo k).room ≤ i from Nat.le_of_not_lt hi)] at h
    simp at h

/-- What lies behind the bytes that are read does not count.
Source: `libpi/libc/strncmp.c` `strncmp`
Kind: L -/
theorem strncmpFrom_of_upTo {k l i n : Nat} {r : Int} (hk : k ≤ p.room) (hl : l ≤ q.room)
    (h : strncmpFrom (p.upTo k) (q.upTo l) i n = .ok r) : strncmpFrom p q i n = .ok r := by
  induction n generalizing i with
  | zero => exact h
  | succ n ih =>
      unfold strncmpFrom at h ⊢
      cases hx : (p.upTo k).get i with
      | error e => simp [hx] at h
      | ok x =>
          cases hy : (q.upTo l).get i with
          | error e => simp [hx, hy] at h
          | ok y =>
              rw [hx, hy] at h
              rw [CharPtr.get_of_upTo hk hx, CharPtr.get_of_upTo hl hy]
              simp only [ok_bind] at h ⊢
              split at h
              · rename_i hne
                rwa [if_pos hne]
              · rename_i heq
                rw [if_neg heq]
                exact ih h

/-! ## The specification -/

/-- `strncmp` is the comparison of the strings `a` and `b`, each cut to `n` characters; it reads
nothing behind their NULs, agrees with `strcmp` when `n` cuts nothing off, and takes equal strings
for equal. Source: `libpi/libc/strncmp.c` `strncmp`. Kind: D -/
def StrncmpAgrees (p q : CharPtr) (a b : List UInt8) (n : Nat) : Prop :=
  ∃ r, strncmp p q n = .ok r ∧ Signed r (a.take n) (b.take n) ∧
    strncmp (p.upTo (a.length + 1)) (q.upTo (b.length + 1)) n = .ok r ∧
    (a.length < n → b.length < n → ∃ c, strcmp p q = .ok c ∧ r.sign = c.sign) ∧
    (a = b → r = 0)

/-- **When `strncmp` meets its specification**: the strings differ, or `n` stops at their NUL.
Source: `libpi/libc/strncmp.c` `strncmp`
Kind: P -/
theorem strncmp_agrees_iff {a b : List UInt8} (hp : p.Spells a) (hq : q.Spells b) (n : Nat) :
    StrncmpAgrees p q a b n ↔ a ≠ b ∨ n ≤ a.length + 1 := by
  constructor
  · rintro ⟨r, -, -, hcut, -, -⟩
    by_contra hcon
    obtain ⟨heq, hn⟩ := not_or.mp hcon
    obtain rfl := not_not.mp heq
    have hpast : strncmp (p.upTo (a.length + 1)) (q.upTo (a.length + 1)) n = .error .outOfBounds :=
      strncmpFrom_past_nul hp.2 hq.2 (by simp [CharPtr.upTo]) (by simp [CharPtr.upTo])
        (Nat.lt_of_not_le hn)
    simp [hpast] at hcut
  · intro h
    obtain ⟨r, hr, hs⟩ := strncmpFrom_signed (n := n) hp.upTo.2 hq.upTo.2 (by simp [CharPtr.upTo])
      (by simp [CharPtr.upTo]) h
    refine ⟨r, strncmpFrom_of_upTo hp.1 hq.1 hr, hs, hr, ?_, ?_⟩
    · intro ha hb
      obtain ⟨c, hc, hcs⟩ := strcmp_signed hp hq
      rw [List.take_of_length_le (Nat.le_of_lt ha), List.take_of_length_le (Nat.le_of_lt hb)] at hs
      exact ⟨c, hc, hs.sign_eq hcs⟩
    · rintro rfl
      exact hs.2.1.mpr rfl

/-- The theorem at `ab` and `ax`, cut to five characters.
Source: `libpi/libc/strncmp.c` `strncmp`. Kind: L -/
theorem strncmp_agrees_differing :
    StrncmpAgrees (.ofBuf ⟨[0x61, 0x62, 0], rfl⟩) (.ofBuf ⟨[0x61, 0x78, 0], rfl⟩)
      [0x61, 0x62] [0x61, 0x78] 5 := by
  have hab : (CharPtr.ofBuf ⟨[0x61, 0x62, 0], rfl⟩).Spells [0x61, 0x62] :=
    ⟨by decide, rfl, by decide, rfl, by decide, rfl⟩
  have hax : (CharPtr.ofBuf ⟨[0x61, 0x78, 0], rfl⟩).Spells [0x61, 0x78] :=
    ⟨by decide, rfl, by decide, rfl, by decide, rfl⟩
  exact (strncmp_agrees_iff hab hax 5).mpr (.inl (by decide))

/-- `a` and `a`, with `x` behind the one and `y` behind the other, are told apart.
Source: `libpi/libc/strncmp.c` `strncmp`. Kind: L -/
theorem strncmp_reads_on :
    (CharPtr.ofBuf ⟨[0x61, 0, 0x78], rfl⟩).Spells [0x61] ∧
      (CharPtr.ofBuf ⟨[0x61, 0, 0x79], rfl⟩).Spells [0x61] ∧
      strncmp (.ofBuf ⟨[0x61, 0, 0x78], rfl⟩) (.ofBuf ⟨[0x61, 0, 0x79], rfl⟩) 3 = .ok (-1) ∧
      ¬ StrncmpAgrees (.ofBuf ⟨[0x61, 0, 0x78], rfl⟩) (.ofBuf ⟨[0x61, 0, 0x79], rfl⟩)
        [0x61] [0x61] 3 := by
  have hrun : strncmp (.ofBuf ⟨[0x61, 0, 0x78], rfl⟩) (.ofBuf ⟨[0x61, 0, 0x79], rfl⟩) 3 =
      .ok (-1) := rfl
  refine ⟨⟨by decide, rfl, by decide, rfl⟩, ⟨by decide, rfl, by decide, rfl⟩, hrun, ?_⟩
  rintro ⟨r, hr, -, -, -, hequal⟩
  rw [hrun, hequal rfl] at hr
  simp at hr

end

/-! ## Blocks -/

section

variable {n : Nat} {b c : Buf UInt8 n}

/-- An array is read at an index. Source: none: infrastructure. Kind: L -/
theorem CharPtr.get_ofBuf {i : Nat} {x : UInt8} {xs : List UInt8} (h : b.elems.drop i = x :: xs) :
    (CharPtr.ofBuf b).get i = .ok x := by
  have hget : b.elems[i]? = some x := by
    rw [← Nat.add_zero i, ← List.getElem?_drop, h]
    rfl
  have hlt : i < n := by
    have hsize := b.size
    rw [← hsize]
    exact (List.getElem?_eq_some_iff.mp hget).1
  rw [CharPtr.get_lt (show i < (CharPtr.ofBuf b).room from hlt)]
  show Except.ok (b.elems.getD i 0) = _
  rw [List.getD_eq_getElem?_getD, hget, Option.getD_some]

/-- Source: `libpi/libc/memcmp.c` `memcmp`. Kind: L -/
theorem memcmpFrom_eq {i left : Nat} (h : i + left = n) :
    ∃ v, memcmpFrom (.ofBuf b) (.ofBuf c) i left = .ok v ∧
      (v = 0 ↔ b.elems.drop i = c.elems.drop i) := by
  have hb := b.size
  have hc := c.size
  induction left generalizing i with
  | zero =>
      refine ⟨0, rfl, ?_⟩
      rw [List.drop_of_length_le (by omega), List.drop_of_length_le (by omega)]
      simp
  | succ left ih =>
      obtain ⟨x, xs, hx⟩ := List.exists_cons_of_length_pos (l := b.elems.drop i) (by simp; omega)
      obtain ⟨y, ys, hy⟩ := List.exists_cons_of_length_pos (l := c.elems.drop i) (by simp; omega)
      have hxs : b.elems.drop (i + 1) = xs := by rw [← List.drop_drop, hx]; rfl
      have hys : c.elems.drop (i + 1) = ys := by rw [← List.drop_drop, hy]; rfl
      simp only [memcmpFrom, CharPtr.get_ofBuf hx, CharPtr.get_ofBuf hy, ok_bind]
      by_cases hxy : x = y
      · subst hxy
        obtain ⟨v, hv, hiff⟩ := ih (i := i + 1) (by omega)
        refine ⟨v, by simpa using hv, ?_⟩
        rw [hiff, hx, hy, hxs, hys]
        simp
      · have hne : (x.toNat : Int) - y.toNat ≠ 0 := by
          intro h0
          exact hxy (UInt8.toNat_inj.mp (by omega))
        refine ⟨(x.toNat : Int) - y.toNat, by simp [hne], ?_⟩
        rw [hx, hy]
        simp [hne, hxy]

/-- `memcmp` of two arrays is 0 exactly when they hold the same.
Source: `libpi/libc/memcmp.c` `memcmp`
Kind: P -/
theorem memcmp_eq (b c : Buf UInt8 n) :
    ∃ v, memcmp (.ofBuf b) (.ofBuf c) n = .ok v ∧ (v = 0 ↔ b = c) := by
  obtain ⟨v, hv, hiff⟩ := memcmpFrom_eq (b := b) (c := c) (i := 0) (Nat.zero_add n)
  exact ⟨v, hv, hiff.trans ⟨Buf.ext, congrArg Buf.elems⟩⟩

end

end Cs140e.Libpi
