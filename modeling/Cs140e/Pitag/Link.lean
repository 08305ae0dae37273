import Cs140e.Lib.Bytes
import Cs140e.Libpi.Memcpy
import Cs140e.Libpi.Str

/-!
# Linking a user program behind an OS image

`pitag-linker` appends a user program and its name to an OS image; when the image runs, its
`custom_loader` finds both at `__data_end__`.

* `main`, with `main_iff` — the file the linker writes; `linked` is its contents.
* `customLoader` — the loader, on a byte memory. `linked_loads` — it loads what was linked.

`read_file` is left open by the source; here it is a parameter.
-/

namespace Cs140e.Pitag

open Cs140e.Lib Cs140e.Libpi

/-! ## The linker -/

/-- What `read_file` returns: its size is an `unsigned`. Source: `libunix/read-file.c` `read_file`.
Kind: D -/
structure File where
  bytes : List UInt8
  size_lt : bytes.length < 2 ^ 32

/-- Source: `libunix/read-file.c` `size`. Kind: D -/
def File.nbytes (f : File) : UInt32 := UInt32.ofNat f.bytes.length

/-- Source: `pitag-linker.c` `BIN_TAG`. Kind: D -/
def binTag : UInt32 := 0x12345678

/-- What is in the file afterwards. Source: `libunix/write-exact.c` `write_exact`. Kind: D -/
def writeExact (fd data : List UInt8) (n : UInt32) : Except Stop (List UInt8) := do
  if n == 0 then
    throw (.assert "n")
  return fd ++ data.take n.toNat

/-- The name and the contents of the file written. Source: `pitag-linker.c` `main`. Kind: D -/
def main (readFile : List UInt8 → Except Stop File) (argv : List (List UInt8)) :
    Except Stop (List UInt8 × List UInt8) :=
  match argv with
  | [_, A, B, pi] => do
    let a ← readFile A
    let b ← readFile B
    let piNbytes := UInt32.ofNat B.length + 1 + b.nbytes + 4
    let fd ← writeExact [] a.bytes a.nbytes
    let fd ← writeExact fd (leBytes 4 binTag.toNat) 4
    let fd ← writeExact fd (leBytes 4 piNbytes.toNat) 4
    let fd ← writeExact fd (leBytes 4 b.nbytes.toNat) 4
    let fd ← writeExact fd (leBytes 4 a.nbytes.toNat) 4
    let fd ← writeExact fd b.bytes b.nbytes
    let fd ← writeExact fd (B ++ [0]) (UInt32.ofNat (B.length + 1))
    return (pi, fd)
  | _ => throw (.panic "invalid number of arguments: expected 2, have %d\n" [.num argv.length])

/-- The words before the user program. Source: `pitag-linker.c` `main`. Kind: D -/
def header (a b : File) (name : List UInt8) : List UInt8 :=
  leBytes 4 binTag.toNat ++ leBytes 4 (UInt32.ofNat name.length + 1 + b.nbytes + 4).toNat ++
    leBytes 4 b.nbytes.toNat ++ leBytes 4 a.nbytes.toNat

/-- A linked file. Source: `pitag-linker.c` `main`. Kind: D -/
def linked (a b : File) (name : List UInt8) : List UInt8 :=
  a.bytes ++ header a b name ++ (b.bytes ++ (name ++ [0]))

/-- Source: `libunix/read-file.c` `size`. Kind: L -/
@[simp] theorem File.nbytes_toNat (f : File) : f.nbytes.toNat = f.bytes.length :=
  UInt32.toNat_ofNat_of_lt' f.size_lt

/-- Source: `pitag-linker.c` `main`. Kind: L -/
@[simp] theorem header_length (a b : File) (name : List UInt8) : (header a b name).length = 16 := by
  simp [header]

/-- Writing a whole block. Source: `libunix/write-exact.c` `write_exact`. Kind: L -/
theorem writeExact_eq {fd data : List UInt8} {n : UInt32} (hn : n.toNat = data.length)
    (hdata : data ≠ []) : writeExact fd data n = .ok (fd ++ data) := by
  have hpos : ¬ (n == 0) = true := by
    intro h
    rw [beq_iff_eq.mp h] at hn
    exact hdata (List.eq_nil_of_length_eq_zero hn.symm)
  rw [writeExact, if_neg hpos, hn, List.take_length]
  rfl

/-- Nothing is not written. Source: `libunix/write-exact.c` `write_exact`. Kind: L -/
theorem writeExact_zero (fd data : List UInt8) : writeExact fd data 0 = .error (.assert "n") := rfl

/-- The linker writes a file exactly for programs that are not empty.
Source: `pitag-linker.c` `main`
Kind: P -/
theorem main_iff {readFile : List UInt8 → Except Stop File} {arg0 A name pi pi' fd : List UInt8}
    {a b : File} (ha : readFile A = .ok a) (hb : readFile name = .ok b)
    (hname : name.length + 1 < 2 ^ 32) : main readFile [arg0, A, name, pi] = .ok (pi', fd) ↔
      a.bytes ≠ [] ∧ b.bytes ≠ [] ∧ pi' = pi ∧ fd = linked a b name := by
  have hword : ∀ (out : List UInt8) (v : Nat),
      writeExact out (leBytes 4 v) 4 = .ok (out ++ leBytes 4 v) := by
    intro out v
    exact writeExact_eq (by simp) (by simp [leBytes])
  have hlast : ∀ out : List UInt8, writeExact out (name ++ [0]) (UInt32.ofNat (name.length + 1)) =
      .ok (out ++ (name ++ [0])) := by
    intro out
    exact writeExact_eq (by rw [UInt32.toNat_ofNat_of_lt' hname]; simp) (by simp)
  have hempty : ∀ (out : List UInt8) (f : File), f.bytes = [] →
      writeExact out f.bytes f.nbytes = .error (.assert "n") := by
    intro out f hf
    rw [File.nbytes, hf]
    exact writeExact_zero out []
  unfold main
  simp only [ha, hb, ok_bind, hword, hlast]
  by_cases ha₀ : a.bytes = []
  · rw [hempty _ _ ha₀, error_bind]
    simp [ha₀]
  rw [writeExact_eq (File.nbytes_toNat a) ha₀, ok_bind]
  by_cases hb₀ : b.bytes = []
  · rw [hempty _ _ hb₀, error_bind]
    simp [hb₀]
  rw [writeExact_eq (File.nbytes_toNat b) hb₀, ok_bind]
  simp [ha₀, hb₀, linked, header, eq_comm]

/-! ## The loader -/

/-- Source: `staff-loader.c` `PROG_NAME_MAX`. Kind: D -/
def progNameMax : Nat := 128

/-- What the loader works on. `prog_name` and `code` are in the image's own data, below
`__data_end__`; they are kept apart from the memory the loader copies.
Source: `staff-loader.c` `prog_name`, `code`
Kind: D -/
structure Loader where
  mem : Memory
  progName : Buf UInt8 progNameMax
  code : UInt32

/-- A load through a `uint32_t *`, which C leaves undefined off a word boundary.
Source: `staff-loader.c` `bin`
Kind: D -/
def loadWord (m : Memory) (a : UInt32) : Except Stop UInt32 :=
  if aligned4 a then return UInt32.ofNat (leValue (m.bytes a 4)) else throw .outOfBounds

/-- A `char *`, up to the end of the address space. Source: `staff-loader.c` `p`. Kind: D -/
def charPtr (m : Memory) (p : UInt32) : CharPtr :=
  ⟨2 ^ 32 - p.toNat, fun i => m (p + UInt32.ofNat i)⟩

/-- Source: `staff-loader.c` `custom_loader`. Kind: D -/
def customLoader (dataEnd : UInt32) (s : Loader) : Except Stop Loader := do
  let bin (i : Nat) : UInt32 := dataEnd + UInt32.ofNat (4 * i)
  let bNbytes ← loadWord s.mem (bin 2)
  let bAddr ← loadWord s.mem (bin 4)
  if ¬ bAddr == 0x400000 then
    throw (.assert "b_addr == 0x400000")
  let off ← loadWord s.mem (bin 2)
  let p := bin 4 + off
  let mem ← memcpy s.mem bAddr (bin 4) bNbytes
  if ¬ bAddr == 0x400000 then
    throw (.assert "b_addr == 0x400000")
  let len ← strlen (charPtr mem p)
  if ¬ len < progNameMax then
    throw (.assert "strlen(p) < PROG_NAME_MAX")
  let progName ← strcpy s.progName (charPtr mem p)
  return { mem, progName, code := bAddr + 4 }

/-- A word the memory holds. Source: `staff-loader.c` `bin`. Kind: L -/
theorem loadWord_eq {m : Memory} {x : UInt32} {w : UInt32} (hx : x.toNat % 4 = 0)
    (h : m.bytes x 4 = leBytes 4 w.toNat) : loadWord m x = .ok w := by
  rw [loadWord, if_pos (by simpa [aligned4] using hx), h,
    leValue_leBytes_of_lt (by exact w.toNat_lt)]
  simp

/-- A string the memory holds. Source: `staff-loader.c` `p`. Kind: L -/
theorem spells_charPtr {m : Memory} {p : UInt32} {s : List UInt8} (hs : 0 ∉ s)
    (h : m.bytes p (s ++ [0]).length = s ++ [0]) (hroom : p.toNat + s.length < 2 ^ 32) :
    (charPtr m p).Spells s := by
  refine ⟨show s.length < 2 ^ 32 - p.toNat by omega, spellsFrom_of_getElem hs fun k hk => ?_⟩
  have hk' : k < (m.bytes p (s ++ [0]).length).length := by rwa [Memory.bytes_length]
  have hget : (m.bytes p (s ++ [0]).length)[k] = (s ++ [0])[k] := by
    congr 1
  rw [← hget, Memory.bytes_getElem]
  show m (p + UInt32.ofNat (0 + k)) = _
  rw [Nat.zero_add]

/-- What the loader does with what it finds. Source: `staff-loader.c` `custom_loader`. Kind: P -/
theorem customLoader_loads {dataEnd n : UInt32} {s : Loader} {name : List UInt8}
    (hn : loadWord s.mem (dataEnd + 8) = .ok n)
    (hlma : loadWord s.mem (dataEnd + 16) = .ok 0x400000)
    (hapart : Memory.Apart 0x400000 (dataEnd + 16) n.toNat)
    (hname : (charPtr (s.mem.copied 0x400000 (dataEnd + 16) n.toNat) (dataEnd + 16 + n)).Spells name)
    (hlen : name.length < progNameMax) :
    ∃ s', customLoader dataEnd s = .ok s' ∧
      s'.mem = s.mem.copied 0x400000 (dataEnd + 16) n.toNat ∧
      (∃ rest, s'.progName.elems = name ++ 0 :: rest) ∧ s'.code = 0x400004 := by
  obtain ⟨progName, post, hcpy, helems⟩ := strcpy_split s.progName hname hlen
  refine ⟨⟨s.mem.copied 0x400000 (dataEnd + 16) n.toNat, progName, 0x400004⟩, ?_, rfl,
    ⟨post, helems⟩, rfl⟩
  unfold customLoader
  simp only [show UInt32.ofNat (4 * 2) = 8 from rfl, show UInt32.ofNat (4 * 4) = 16 from rfl, hn,
    hlma, ok_bind, beq_self_eq_true, not_true_eq_false, if_false, pure_eq_ok, memcpy_eq hapart,
    strlen_eq hname, hlen, hcpy]
  rfl

/-! ## The loader on a linked file -/

section

variable {a b : File} {name : List UInt8} {m : Memory} {base : UInt32}

/-- Where the loader finds the parts of a linked file. Source: `staff-loader.c` `bin`. Kind: P -/
theorem linked_parts (h : m.bytes base (linked a b name).length = linked a b name) :
    m.bytes (base + a.nbytes + 8) 4 = leBytes 4 b.nbytes.toNat ∧
      m.bytes (base + a.nbytes + 16) b.bytes.length = b.bytes ∧
      m.bytes (base + a.nbytes + 16 + b.nbytes) (name ++ [0]).length = name ++ [0] := by
  have hoff : ∀ pre : List UInt8, base + a.nbytes + UInt32.ofNat pre.length =
      base + UInt32.ofNat (a.bytes ++ pre).length := by
    intro pre
    rw [List.length_append, Memory.add_ofNat_add, File.nbytes]
  refine ⟨?_, ?_, ?_⟩
  · have hcut : linked a b name = (a.bytes ++ (leBytes 4 binTag.toNat ++
        leBytes 4 (UInt32.ofNat name.length + 1 + b.nbytes + 4).toNat)) ++
        (leBytes 4 b.nbytes.toNat ++
          (leBytes 4 a.nbytes.toNat ++ (b.bytes ++ (name ++ [0])))) := by
      simp only [linked, header, List.append_assoc]
    rw [hcut] at h
    have hmid := Memory.bytes_mid h
    rw [← hoff] at hmid
    simpa using hmid
  · have hcut : linked a b name = (a.bytes ++ header a b name) ++ (b.bytes ++ (name ++ [0])) := rfl
    rw [hcut] at h
    have hmid := Memory.bytes_mid h
    rw [← hoff] at hmid
    simpa using hmid
  · have hcut : linked a b name =
        (a.bytes ++ (header a b name ++ b.bytes)) ++ ((name ++ [0]) ++ []) := by
      simp only [linked, List.append_assoc, List.append_nil]
    rw [hcut] at h
    have hmid := Memory.bytes_mid h
    have hlength : (header a b name ++ b.bytes).length = 16 + b.bytes.length := by simp
    rw [← hoff, hlength, Memory.add_ofNat_add] at hmid
    simpa [File.nbytes, UInt32.add_assoc] using hmid

/-- The loader loads what was linked. Source: `staff-loader.c` `custom_loader`. Kind: P -/
theorem linked_loads {readFile : List UInt8 → Except Stop File} {arg0 A pi pi' file : List UInt8}
    (hA : readFile A = .ok a) (hB : readFile name = .ok b)
    (hlink : main readFile [arg0, A, name, pi] = .ok (pi', file))
    (halign : 4 ∣ a.bytes.length) (hlma : b.bytes.take 4 = leBytes 4 0x400000)
    (hname : 0 ∉ name) (hlen : name.length < progNameMax)
    (hfit : 0x8000 + file.length ≤ 0x400000) {s : Loader}
    (hmem : s.mem.bytes 0x8000 file.length = file) :
    ∃ s', customLoader (0x8000 + UInt32.ofNat a.bytes.length) s = .ok s' ∧
      s'.mem.bytes 0x400000 b.bytes.length = b.bytes ∧
      (∃ rest, s'.progName.elems = name ++ 0 :: rest) ∧ s'.code = 0x400004 := by
  have hmax : progNameMax = 128 := rfl
  obtain ⟨-, -, -, rfl⟩ := (main_iff hA hB (by omega)).mp hlink
  have hsize : (linked a b name).length =
      a.bytes.length + 16 + (b.bytes.length + (name.length + 1)) := by
    simp only [linked, List.length_append, header_length, List.length_singleton]
  have hb₄ : 4 ≤ b.bytes.length := by
    have hlength := congrArg List.length hlma
    rw [List.length_take, leBytes_length] at hlength
    omega
  obtain ⟨hsizeWord, hprog, hstr⟩ := linked_parts hmem
  -- the addresses
  have hend : (0x8000 + a.nbytes).toNat = 0x8000 + a.bytes.length :=
    Memory.add_ofNat_toNat (show 0x8000 + a.bytes.length < 2 ^ 32 by omega)
  have h₈ : (0x8000 + a.nbytes + 8).toNat = 0x8000 + a.bytes.length + 8 := by
    rw [UInt32.toNat_add, hend]
    exact Nat.mod_eq_of_lt (show 0x8000 + a.bytes.length + 8 < 2 ^ 32 by omega)
  have h₁₆ : (0x8000 + a.nbytes + 16).toNat = 0x8000 + a.bytes.length + 16 := by
    rw [UInt32.toNat_add, hend]
    exact Nat.mod_eq_of_lt (show 0x8000 + a.bytes.length + 16 < 2 ^ 32 by omega)
  have hp : (0x8000 + a.nbytes + 16 + b.nbytes).toNat =
      0x8000 + a.bytes.length + 16 + b.bytes.length := by
    rw [UInt32.toNat_add, h₁₆, File.nbytes_toNat]
    exact Nat.mod_eq_of_lt (by omega)
  have hdst : (0x400000 : UInt32).toNat = 0x400000 := rfl
  -- the words of the header
  have hn : loadWord s.mem (0x8000 + a.nbytes + 8) = .ok b.nbytes :=
    loadWord_eq (by omega) hsizeWord
  have hfirst : s.mem.bytes (0x8000 + a.nbytes + 16) 4 = leBytes 4 0x400000 := by
    rw [← hlma, ← hprog, Memory.bytes_take hb₄]
  have hlma : loadWord s.mem (0x8000 + a.nbytes + 16) = .ok 0x400000 :=
    loadWord_eq (by omega) hfirst
  have hapart : Memory.Apart 0x400000 (0x8000 + a.nbytes + 16) b.nbytes.toNat :=
    Memory.apart_of_le (by rw [File.nbytes_toNat]; omega) (by rw [File.nbytes_toNat]; omega)
  -- the name, which the copy leaves alone
  have hbelow : ((s.mem.copied 0x400000 (0x8000 + a.nbytes + 16) b.nbytes.toNat).bytes
      (0x8000 + a.nbytes + 16 + b.nbytes) (name ++ [0]).length) = name ++ [0] := by
    rw [Memory.bytes_copied_below _ (by rw [File.nbytes_toNat]; omega), hstr]
    rw [hp, List.length_append, List.length_singleton]
    omega
  obtain ⟨s', hrun, hcopied, hprogName, hcode⟩ := customLoader_loads hn hlma hapart
    (spells_charPtr hname hbelow (by omega)) hlen
  refine ⟨s', hrun, ?_, hprogName, hcode⟩
  rw [hcopied, File.nbytes_toNat]
  exact (Memory.bytes_copied _ _ _ (by omega)).trans hprog

end

/-- The files `"A"` and `"B"`. Source: `libunix/read-file.c` `read_file`. Kind: D -/
def twoFiles (name : List UInt8) : Except Stop File :=
  if name == [65] then return ⟨[1, 2, 3, 4], by decide⟩
  else return ⟨[0, 0, 0x40, 0, 5, 6], by decide⟩

/-- Their linked file. Source: `pitag-linker.c` `main`. Kind: L -/
theorem six_linked : main twoFiles [[], [65], [66], [67]] =
    .ok ([67], linked ⟨[1, 2, 3, 4], by decide⟩ ⟨[0, 0, 0x40, 0, 5, 6], by decide⟩ [66]) :=
  (main_iff rfl rfl (by decide)).mpr ⟨by decide, by decide, rfl, rfl⟩

/-- An image of one word and a program of six bytes, linked under the name `"B"`.
Source: `pitag-linker.c` `main`
Kind: P -/
theorem linked_loads_six :
    ∃ s', customLoader (0x8000 + UInt32.ofNat 4)
      ⟨fun x => (linked ⟨[1, 2, 3, 4], by decide⟩ ⟨[0, 0, 0x40, 0, 5, 6], by decide⟩ [66]).getD
        (x - 0x8000).toNat 0, .fill progNameMax 7, 4⟩ = .ok s' ∧
      s'.mem.bytes 0x400000 6 = [0, 0, 0x40, 0, 5, 6] ∧
      (∃ rest, s'.progName.elems = [66] ++ 0 :: rest) ∧ s'.code = 0x400004 :=
  linked_loads (a := ⟨[1, 2, 3, 4], by decide⟩) (b := ⟨[0, 0, 0x40, 0, 5, 6], by decide⟩)
    (show twoFiles [65] = _ from rfl) (show twoFiles [66] = _ from rfl) six_linked
    (by decide) (by decide) (by decide) (by decide) (by decide) (by decide +kernel)

end Cs140e.Pitag
