import Cs140e.Lib.BitField
import Cs140e.Libpi.BitSupport

/-!
# Bit fields of a word

What `libpi/libc/bit-support.h` does to the fields of a word. Every function is first described by the
bits of its result, and the laws are then those of `Lib.BitField`.

* `bitsMask_eq`, `bitsGet_eq`, `bitsClr_eq`, `bitsSet_eq`, `bitCount_eq` — one spec a function; on a
  field of the word, and a value that fits, no check fails.
* `bit_field_laws` — the laws the device drivers rely on.
-/

namespace Cs140e.Libpi

open Cs140e.Lib

variable {x lb ub v : UInt32}

/-- Source: `libc/assert.h` `assert`. Kind: L -/
theorem assertThat_of {p : Prop} [Decidable p] (h : p) (expr : String) :
    assertThat (decide p) expr = .ok () := by
  rw [decide_eq_true h]
  rfl

/-- The field `[lb:ub]`. Source: `bit-support.h` `bits_get`. Kind: D -/
def field (lb ub : UInt32) (h : lb ≤ ub) : BitField := ⟨lb.toNat, ub.toNat, h⟩

/-- Source: `bit-support.h` `bits_get`. Kind: L -/
theorem mem_field {hle : lb ≤ ub} {i : Nat} :
    i ∈ field lb ub hle ↔ lb.toNat ≤ i ∧ i ≤ ub.toNat := Iff.rfl

/-- Source: `bit-support.h` `bits_get`. Kind: L -/
theorem width_field (hle : lb ≤ ub) : (field lb ub hle).width = ub.toNat - lb.toNat + 1 := rfl

/-- Source: `bit-support.h` `bits_get`. Kind: L -/
theorem width_toNat (hle : lb ≤ ub) (hub : ub < 32) :
    (ub - lb + 1).toNat = (field lb ub hle).width := by
  have hub' : ub.toNat < 32 := hub
  rw [UInt32.toNat_add, UInt32.toNat_sub_of_le _ _ hle, Nat.mod_eq_of_lt]
  · rfl
  · rw [UInt32.toNat_one]
    omega

/-- Source: `bit-support.h` `bits_get`. Kind: L -/
theorem width_le (hle : lb ≤ ub) (hub : ub < 32) : (field lb ub hle).width ≤ 32 - lb.toNat := by
  have hub' : ub.toNat < 32 := hub
  have hle' : lb.toNat ≤ ub.toNat := hle
  rw [width_field]
  omega

/-! ### One spec a function -/

/-- The mask that is shifted together, and the one that is a case of its own at full width.
Source: `bit-support.h` `bits_mask`
Kind: P -/
theorem bitsMask_eq (nbits : UInt32) (h : nbits.toNat ≤ 32) :
    ∃ mask, bitsMask nbits = .ok mask ∧ ∀ i, bits mask i = decide (i < nbits.toNat) := by
  by_cases hfull : nbits = 32
  · subst hfull
    refine ⟨0xffffffff, rfl, fun i => ?_⟩
    exact Nat.testBit_two_pow_sub_one 32 i
  · have hne : nbits.toNat ≠ 32 := fun heq => hfull (UInt32.toNat_inj.mp heq)
    have hlt : nbits.toNat < 32 := by omega
    have hone : ((1 : UInt32) <<< nbits).toNat = 2 ^ nbits.toNat := by
      rw [UInt32.toNat_shiftLeft, Nat.mod_eq_of_lt hlt, UInt32.toNat_one, Nat.one_shiftLeft]
      exact Nat.mod_eq_of_lt (Nat.pow_lt_pow_right (by decide) hlt)
    have hmask : ((1 : UInt32) <<< nbits - 1).toNat = 2 ^ nbits.toNat - 1 := by
      rw [UInt32.toNat_sub_of_le, hone, UInt32.toNat_one]
      rw [UInt32.le_iff_toNat_le, hone]
      exact Nat.one_le_two_pow
    refine ⟨1 <<< nbits - 1, ?_, fun i => ?_⟩
    · have hcheck : (decide (0 ≤ nbits) && decide (nbits < 32)) = true := by
        rw [decide_eq_true UInt32.zero_le, decide_eq_true (show nbits < 32 from hlt)]
        rfl
      unfold bitsMask
      rw [if_neg (by simpa using hfull), hcheck]
      rfl
    · unfold bits
      rw [hmask, Nat.testBit_two_pow_sub_one]

/-- Source: `bit-support.h` `bits_get`. Kind: P -/
theorem bitsGet_eq (x : UInt32) (hle : lb ≤ ub) (hub : ub < 32) :
    ∃ y, bitsGet x lb ub = .ok y ∧ bits y = (field lb ub hle).get (bits x) := by
  have hwidth := width_toNat hle hub
  have hlt : lb.toNat < 32 := Nat.lt_of_le_of_lt hle hub
  obtain ⟨mask, hmask, hbits⟩ := bitsMask_eq (ub - lb + 1) (by
    rw [hwidth]
    exact Nat.le_trans (width_le hle hub) (Nat.sub_le _ _))
  refine ⟨(x >>> lb) &&& mask, ?_, ?_⟩
  · unfold bitsGet
    rw [assertThat_of hle, assertThat_of hub, hmask]
    rfl
  · funext i
    rw [bits_and, hbits, bits_shiftRight hlt, hwidth, Bool.and_comm]
    rfl

/-- Source: `bit-support.h` `bits_clr`. Kind: P -/
theorem bitsClr_eq (x : UInt32) (hle : lb ≤ ub) (hub : ub < 32) :
    ∃ y, bitsClr x lb ub = .ok y ∧ bits y = (field lb ub hle).set (bits x) (bits 0) := by
  have hwidth := width_toNat hle hub
  have hle' : lb.toNat ≤ ub.toNat := hle
  have hub' : ub.toNat < 32 := hub
  obtain ⟨mask, hmask, hbits⟩ := bitsMask_eq (ub - lb + 1) (by
    rw [hwidth]
    exact Nat.le_trans (width_le hle hub) (Nat.sub_le _ _))
  refine ⟨x &&& ~~~(mask <<< lb), ?_, ?_⟩
  · unfold bitsClr
    rw [assertThat_of hle, assertThat_of hub, hmask]
    rfl
  · funext i
    by_cases hi : i < 32
    · rw [bits_and, bits_not hi, bits_shiftLeft (by omega), hbits, hwidth, decide_eq_true hi,
        Bool.true_and]
      by_cases hmem : i ∈ field lb ub hle
      · obtain ⟨hlb, hub⟩ := mem_field.mp hmem
        have hin : i - lb.toNat < (field lb ub hle).width := by
          rw [width_field]
          omega
        rw [BitField.set_of_mem hmem, bits_zero, decide_eq_true hlb, decide_eq_true hin]
        exact Bool.and_false _
      · have hout : ¬ (lb.toNat ≤ i ∧ i - lb.toNat < (field lb ub hle).width) := by
          rw [width_field]
          intro h
          exact hmem (mem_field.mpr ⟨h.1, by omega⟩)
        rw [BitField.set_of_not_mem hmem, ← Bool.decide_and, decide_eq_false hout, Bool.not_false,
          Bool.and_true]
    · have hmem : i ∉ field lb ub hle := fun h => hi (Nat.lt_of_le_of_lt h.2 hub')
      rw [BitField.set_of_not_mem hmem, bits_of_le (by omega), bits_of_le (by omega)]

/-- Source: `bit-support.h` `bits_set`. Kind: P -/
theorem bitsSet_eq (x : UInt32) (hle : lb ≤ ub) (hub : ub < 32)
    (hv : v.toNat < 2 ^ (ub.toNat - lb.toNat + 1)) :
    ∃ y, bitsSet x lb ub v = .ok y ∧ bits y = (field lb ub hle).set (bits x) (bits v) := by
  have hwidth := width_toNat hle hub
  have hle' : lb.toNat ≤ ub.toNat := hle
  have hub' : ub.toNat < 32 := hub
  have hn : (ub - lb + 1).toNat ≤ 32 := by
    rw [hwidth]
    exact Nat.le_trans (width_le hle hub) (Nat.sub_le _ _)
  obtain ⟨mask, hmask, hbits⟩ := bitsMask_eq _ hn
  obtain ⟨y, hclr, hy⟩ := bitsClr_eq x hle hub
  have hfits : mask &&& v = v := by
    apply bits_inj
    funext i
    rw [bits_and, hbits, hwidth]
    by_cases hi : i < (field lb ub hle).width
    · rw [decide_eq_true hi, Bool.true_and]
    · rw [bits_of_lt hv (Nat.le_of_not_lt hi), Bool.and_false]
  refine ⟨y ||| (v <<< lb), ?_, ?_⟩
  · have hcheck : assertThat ((mask &&& v) == v) "(bits_mask(n) & v) == v" = .ok () := by
      rw [hfits, beq_self_eq_true]
      rfl
    unfold bitsSet
    rw [assertThat_of hle, assertThat_of hub]
    simp only [ok_bind, assertThat_of (show ub - lb + 1 ≤ 32 from hn), hmask, hcheck, hclr]
    rfl
  · funext i
    rw [bits_or, hy, bits_shiftLeft (by omega)]
    by_cases hmem : i ∈ field lb ub hle
    · obtain ⟨hlb, hub⟩ := mem_field.mp hmem
      rw [BitField.set_of_mem hmem, BitField.set_of_mem hmem, bits_zero, Bool.false_or,
        decide_eq_true (show i < 32 by omega), decide_eq_true hlb]
      rfl
    · rw [BitField.set_of_not_mem hmem, BitField.set_of_not_mem hmem]
      by_cases hlb : lb.toNat ≤ i
      · -- above the field: the shifted value has no bit there
        have habove : ub.toNat - lb.toNat + 1 ≤ i - lb.toNat := by
          have hgt : ¬ i ≤ ub.toNat := fun h => hmem ⟨hlb, h⟩
          omega
        rw [bits_of_lt hv habove, Bool.and_false, Bool.and_false, Bool.or_false]
      · rw [decide_eq_false hlb, Bool.false_and, Bool.and_false, Bool.or_false]

/-- Source: `bit-support.h` `bit_is_on`. Kind: P -/
theorem bitIsOn_eq (x : UInt32) {i : Nat} (hi : i < 32) :
    bitIsOn x (UInt32.ofNat i) = .ok (if bits x i then 1 else 0) := by
  have hi' : (UInt32.ofNat i).toNat = i := UInt32.toNat_ofNat_of_lt' (Nat.lt_trans hi (by decide))
  have hlt : UInt32.ofNat i < 32 := by
    rw [UInt32.lt_iff_toNat_lt, hi']
    exact hi
  have hbit : (x >>> UInt32.ofNat i) &&& 1 = if bits x i then 1 else 0 := by
    apply UInt32.toNat_inj.mp
    rw [UInt32.toNat_and, UInt32.toNat_shiftRight, hi', Nat.mod_eq_of_lt hi, UInt32.toNat_one,
      Nat.and_one_is_mod, Nat.shiftRight_eq_div_pow]
    unfold bits
    rw [Nat.testBit_eq_decide_div_mod_eq]
    by_cases hone : x.toNat / 2 ^ i % 2 = 1
    · simp [hone]
    · have hzero : x.toNat / 2 ^ i % 2 = 0 := by omega
      simp [hzero]
  unfold bitIsOn
  rw [assertThat_of hlt, ok_bind, hbit]
  rfl

/-- Source: `bit-support.h` `bit_count`. Kind: P -/
theorem bitCount_eq (x : UInt32) : bitCount x = .ok (UInt32.ofNat (count 32 (bits x))) := by
  have hloop : ∀ n ≤ 32, (List.range n).foldlM (fun cnt i => do
      let on ← bitIsOn x (UInt32.ofNat i)
      return if on != 0 then cnt + 1 else cnt) (0 : UInt32) = .ok (UInt32.ofNat (count n (bits x))) := by
    intro n
    induction n with
    | zero => exact fun _ => rfl
    | succ n ih =>
        intro hn
        rw [List.range_succ, List.foldlM_append, ih (by omega), ok_bind, List.foldlM_cons,
          bitIsOn_eq x (by omega), count_succ]
        cases bits x n with
        | true => simp [UInt32.ofNat_add]
        | false => simp
  exact hloop 32 (Nat.le_refl 32)

/-- Source: `bit-support.h` `bit_count`. Kind: L -/
theorem bitCount_toNat (x : UInt32) : ∃ c, bitCount x = .ok c ∧ c.toNat = count 32 (bits x) :=
  ⟨_, bitCount_eq x, UInt32.toNat_ofNat_of_lt' (Nat.lt_of_le_of_lt count_le (by decide))⟩

/-! ### The laws -/

/-- The value fits in the field. Source: `bit-support.h` `bits_set`. Kind: L -/
theorem fits_of_lt (hle : lb ≤ ub) (hv : v.toNat < 2 ^ (ub.toNat - lb.toNat + 1)) :
    (field lb ub hle).Fits (bits v) := fun _ hi => bits_of_lt hv hi

/-- What is read from a field fits in it. Source: `bit-support.h` `bits_get`. Kind: L -/
theorem lt_of_get {g : UInt32} (hle : lb ≤ ub) (h : bits g = (field lb ub hle).get (bits x)) :
    g.toNat < 2 ^ (ub.toNat - lb.toNat + 1) := by
  apply Nat.lt_pow_two_of_testBit
  intro i hi
  have hbit : bits g i = false := by
    rw [h, BitField.get, width_field, decide_eq_false (Nat.not_lt.mpr hi), Bool.false_and]
  exact hbit

/-- What holds of one field `[lb:ub]` of `x` and a value `v` that fits in it.
Source: `bit-support.h` `bits_get`, `bits_set`, `bits_clr`
Kind: D -/
structure FieldLaws (x lb ub v : UInt32) : Prop where
  /-- What is stored is read back, and no bit outside of the field changes. -/
  get_set : ∃ y, bitsSet x lb ub v = .ok y ∧ bitsGet y lb ub = .ok v ∧
    ∀ i, ¬ (lb.toNat ≤ i ∧ i ≤ ub.toNat) → y.toNat.testBit i = x.toNat.testBit i
  /-- Storing what was read changes nothing. -/
  set_get : ∃ g, bitsGet x lb ub = .ok g ∧ bitsSet x lb ub g = .ok x
  /-- A store to the same field overwrites. -/
  set_set : ∀ u : UInt32, u.toNat < 2 ^ (ub.toNat - lb.toNat + 1) → ∃ y z,
    bitsSet x lb ub u = .ok y ∧ bitsSet y lb ub v = .ok z ∧ bitsSet x lb ub v = .ok z
  /-- Clearing is storing 0. -/
  clr : ∃ y, bitsClr x lb ub = .ok y ∧ bitsSet x lb ub 0 = .ok y
  /-- Stores to fields that do not meet commute. -/
  comm : ∀ lb' ub' v' : UInt32, lb' ≤ ub' → ub' < 32 →
    v'.toNat < 2 ^ (ub'.toNat - lb'.toNat + 1) → ub < lb' ∨ ub' < lb → ∃ y y' z,
      bitsSet x lb ub v = .ok y ∧ bitsSet y lb' ub' v' = .ok z ∧
        bitsSet x lb' ub' v' = .ok y' ∧ bitsSet y' lb ub v = .ok z

/-- What holds of the number of set bits: it is that, and the sum over fields that cover each of the
32 bits once. Source: `bit-support.h` `bit_count`. Kind: D -/
structure CountLaws (x : UInt32) : Prop where
  count : ∃ c, bitCount x = .ok c ∧ c.toNat = (List.range 32).countP x.toNat.testBit
  fields : ∀ fs : List (UInt32 × UInt32), (∀ f ∈ fs, f.1 ≤ f.2 ∧ f.2 < 32) →
    (∀ i < 32, fs.countP (fun f => decide (f.1.toNat ≤ i ∧ i ≤ f.2.toNat)) = 1) →
    ∃ c cs, bitCount x = .ok c ∧ fs.mapM (fun f => bitsGet x f.1 f.2 >>= bitCount) = .ok cs ∧
      (cs.map UInt32.toNat).sum = c.toNat

/-- Source: `bit-support.h` `bits_get`, `bits_set`, `bits_clr`. Kind: P -/
theorem fieldLaws (x : UInt32) (hle : lb ≤ ub) (hub : ub < 32)
    (hv : v.toNat < 2 ^ (ub.toNat - lb.toNat + 1)) : FieldLaws x lb ub v := by
  obtain ⟨y, hset, hy⟩ := bitsSet_eq x hle hub hv
  refine ⟨⟨y, hset, ?_, ?_⟩, ?_, fun u hu => ?_, ?_, fun lb' ub' v' hle' hub' hv' hapart => ?_⟩
  · obtain ⟨g, hget, hg⟩ := bitsGet_eq y hle hub
    have heq : g = v := by
      apply bits_inj
      rw [hg, hy]
      exact BitField.get_set (fits_of_lt hle hv)
    rw [hget, heq]
  · intro i hi
    have hbit : bits y i = bits x i := by
      rw [hy]
      exact BitField.set_of_not_mem hi
    exact hbit
  · obtain ⟨g, hget, hg⟩ := bitsGet_eq x hle hub
    obtain ⟨z, hback, hz⟩ := bitsSet_eq x hle hub (lt_of_get hle hg)
    have heq : z = x := by
      apply bits_inj
      rw [hz, hg]
      exact BitField.set_get
    exact ⟨g, hget, by rw [hback, heq]⟩
  · obtain ⟨z, hfirst, hz⟩ := bitsSet_eq x hle hub hu
    obtain ⟨z', hsecond, hz'⟩ := bitsSet_eq z hle hub hv
    have heq : z' = y := by
      apply bits_inj
      rw [hz', hz, hy]
      exact BitField.set_set
    exact ⟨z, z', hfirst, hsecond, by rw [hset, heq]⟩
  · obtain ⟨z, hclr, hz⟩ := bitsClr_eq x hle hub
    obtain ⟨z', hzero, hz'⟩ := bitsSet_eq x (v := 0) hle hub (Nat.two_pow_pos _)
    exact ⟨z, hclr, by rw [hzero, bits_inj (hz'.trans hz.symm)]⟩
  · obtain ⟨z, hz, hbz⟩ := bitsSet_eq y hle' hub' hv'
    obtain ⟨y', hset', hy'⟩ := bitsSet_eq x hle' hub' hv'
    obtain ⟨z', hz', hbz'⟩ := bitsSet_eq y' hle hub hv
    have hfields : (field lb ub hle).Apart (field lb' ub' hle') := hapart
    have heq : z' = z := by
      apply bits_inj
      rw [hbz', hbz, hy', hy]
      exact BitField.set_comm hfields
    exact ⟨y, y', z, hset, hz, hset', by rw [hz', heq]⟩

/-- The counts of some fields. Source: `bit-support.h` `bits_get`, `bit_count`. Kind: L -/
theorem counts_eq (x : UInt32) {fs : List (UInt32 × UInt32)} (h : ∀ f ∈ fs, f.1 ≤ f.2 ∧ f.2 < 32) :
    ∃ cs, fs.mapM (fun f => bitsGet x f.1 f.2 >>= bitCount) = .ok cs ∧
      cs.map UInt32.toNat =
        fs.attach.map fun f => count 32 ((field f.1.1 f.1.2 (h f.1 f.2).1).get (bits x)) := by
  induction fs with
  | nil => exact ⟨[], rfl, rfl⟩
  | cons f fs ih =>
      obtain ⟨hle, hub⟩ := h f List.mem_cons_self
      obtain ⟨cs, hcs, hmap⟩ := ih fun g hg => h g (List.mem_cons_of_mem f hg)
      obtain ⟨g, hget, hg⟩ := bitsGet_eq x hle hub
      obtain ⟨c, hc, hcount⟩ := bitCount_toNat g
      refine ⟨c :: cs, ?_, ?_⟩
      · rw [List.mapM_cons, hget, ok_bind, hc, ok_bind, hcs]
        rfl
      · rw [List.map_cons, hmap, hcount, hg, List.attach_cons, List.map_cons, List.map_map]
        rfl

/-- Source: `bit-support.h` `bit_count`. Kind: P -/
theorem countLaws (x : UInt32) : CountLaws x := by
  obtain ⟨c, hc, hcount⟩ := bitCount_toNat x
  refine ⟨⟨c, hc, hcount⟩, fun fs hfs hcover => ?_⟩
  obtain ⟨cs, hcs, hmap⟩ := counts_eq x hfs
  refine ⟨c, cs, hc, hcs, ?_⟩
  have htiles : Tiles 32 (fs.attach.map fun f => field f.1.1 f.1.2 (hfs f.1 f.2).1) := by
    refine ⟨fun g hg => ?_, fun i hi => ?_⟩
    · obtain ⟨f, -, rfl⟩ := List.mem_map.mp hg
      exact (hfs f.1 f.2).2
    · rw [List.countP_map, ← hcover i hi]
      exact List.countP_attach (p := fun f : UInt32 × UInt32 => decide (f.1.toNat ≤ i ∧ i ≤ f.2.toNat))
  rw [hmap, hcount, ← count_tiles htiles, List.map_map]
  rfl

/-- **The bit-field algebra**, up to the field of all 32 bits. Source: `bit-support.h`. Kind: P -/
theorem bit_field_laws (x : UInt32) (hle : lb ≤ ub) (hub : ub < 32)
    (hv : v.toNat < 2 ^ (ub.toNat - lb.toNat + 1)) : FieldLaws x lb ub v ∧ CountLaws x :=
  ⟨fieldLaws x hle hub hv, countLaws x⟩

/-- The field of all bits. Source: `labs/9-debug-hardware/code/0-example-bitops.c` `notmain`.
Kind: L -/
theorem bit_field_laws_full : FieldLaws 0 0 31 0xffffffff ∧ CountLaws 0 :=
  bit_field_laws 0 (by decide) (by decide) (by decide)

end Cs140e.Libpi
