import Cs140e.Fat32.Dirent
import Cs140e.Fat32.Utf8

/-!
# Long file names

`fat32-lfn-helpers.c`. A long name is kept in entries in front of the short one, last part first;
the same 32 bytes are read as a `Fat32Dirent` or as an `LfnDir`. What is printed is left out, but for
the functions that are called for it.

* `lfnGetName` — the decoder; `lfnPrint`, `fat32DirFilename` and `fat32LfnPrint` — its callers.
* `Fat32Dirent.asLfn` and `LfnDir.asDirent` — the two readings of an entry.
-/

namespace Cs140e.Fat32

open Cs140e.Lib Cs140e.Libpi

/-! ## Entries -/

/-- Source: `fat32-helpers.h` `lfn_dir_t`. Kind: D -/
@[ext] structure LfnDir where
  seqno : UInt8
  name1_5 : Buf UInt8 10
  attr : UInt8
  reserved : UInt8
  cksum : UInt8
  name6_11 : Buf UInt8 12
  reserved1 : Buf UInt8 2
  name12_13 : Buf UInt8 4
  deriving DecidableEq

/-- `(lfn_dir_t *)d`. Source: `fat32-lfn-helpers.c` `fat32_dirent_is_deleted_lfn`. Kind: D -/
def Fat32Dirent.asLfn (d : Fat32Dirent) : LfnDir where
  seqno := d.filename.elems.getD 0 0
  name1_5 := ⟨d.filename.elems.drop 1, by simp [d.filename.size]⟩
  attr := d.rest.elems.getD 0 0
  reserved := d.rest.elems.getD 1 0
  cksum := d.rest.elems.getD 2 0
  name6_11 := ⟨(d.rest.elems.drop 3).take 12, by simp [d.rest.size]⟩
  reserved1 := ⟨(d.rest.elems.drop 15).take 2, by simp [d.rest.size]⟩
  name12_13 := ⟨d.rest.elems.drop 17, by simp [d.rest.size]⟩

/-- `(fat32_dirent_t *)l`. Source: `fat32-helpers.h` `lfn_dir_t`. Kind: D -/
def LfnDir.asDirent (l : LfnDir) : Fat32Dirent where
  filename := ⟨l.seqno :: l.name1_5.elems, by simp [l.name1_5.size]⟩
  rest := ⟨l.attr :: l.reserved :: l.cksum ::
    (l.name6_11.elems ++ l.reserved1.elems ++ l.name12_13.elems), by
      simp [l.name6_11.size, l.reserved1.size, l.name12_13.size]⟩

/-- The readings agree. Source: `fat32-helpers.h` `lfn_dir_t`. Kind: L -/
@[simp] theorem LfnDir.asDirent_asLfn (l : LfnDir) : l.asDirent.asLfn = l := by
  have h6 := l.name6_11.size
  have h1 := l.reserved1.size
  have hn6 : (l.name6_11.elems ++ l.reserved1.elems ++ l.name12_13.elems).take 12 =
      l.name6_11.elems := by
    rw [List.append_assoc, List.take_left' h6]
  have hr1 : ((l.name6_11.elems ++ l.reserved1.elems ++ l.name12_13.elems).drop 12).take 2 =
      l.reserved1.elems := by
    rw [List.append_assoc, List.drop_left' h6, List.take_left' h1]
  have hn12 : (l.name6_11.elems ++ l.reserved1.elems ++ l.name12_13.elems).drop 14 =
      l.name12_13.elems := List.drop_left' (by simp [h6, h1])
  exact LfnDir.ext rfl rfl rfl rfl rfl (Buf.ext hn6) (Buf.ext hr1) (Buf.ext hn12)

/-- `reserved0`. Source: `fat32-helpers.h` `fat32_dirent_t`. Kind: D -/
def Fat32Dirent.reserved0 (d : Fat32Dirent) : UInt8 := d.rest.elems.getD 1 0

/-- Source: `fat32-lfn-helpers.c` `lfn_checksum`. Kind: D -/
def lfnChecksum (pFCBName : Buf UInt8 11) : UInt8 :=
  pFCBName.elems.foldl (fun sum c => ((sum &&& 1) <<< 7) + (sum >>> 1) + c) 0

/-- Source: `fat32-lfn-helpers.c` `lfn_is_last`. Kind: D -/
def lfnIsLast (seqno : UInt8) : Bool := seqno &&& 0x40 != 0

/-- Source: `fat32-lfn-helpers.c` `lfn_is_first`. Kind: D -/
def lfnIsFirst (seqno : UInt8) : Bool := seqno &&& ~~~0x40 == 1

/-! ## The decoder -/

/-- The static buffers. Source: `fat32-lfn-helpers.c`, `fat32-helpers.c`, `unicode-utf8.c`. Kind: D -/
structure Statics where
  /-- `filename` of `lfn_get_name`. -/
  filename : Buf UInt8 512
  /-- `ret` of `to_utf8`. -/
  ret : Buf UInt8 5
  /-- `s` of `to_8dot3`. -/
  short : Buf UInt8 14
  /-- `s` of `add_nul`. -/
  raw : Buf UInt8 14

/-- The buffers when the program starts. Source: C, static storage. Kind: D -/
def Statics.init : Statics := ⟨.fill 512 0, .fill 5 0, .fill 14 0, .fill 14 0⟩

/-- Source: `fat32-lfn-helpers.c` `lfn_terminator`. Kind: D -/
def lfnTerminator (x0 x1 : UInt8) : Bool :=
  if x0 == 0 && x1 == 0 then true
  else if x0 == 0xff && x1 == 0xff then true
  else false

/-- The loop of `utf8_append` over what is left of the units; `buf` is an offset in `filename`.
Source: `fat32-lfn-helpers.c` `utf8_append`
Kind: D -/
def utf8AppendFrom (st : Statics) (buf : Nat) : (unicode : List UInt8) →
    Except Stop (Statics × Nat)
  | [] => return (st, buf)
  | [_] => throw .outOfBounds
  | x0 :: x1 :: unicode =>
    if lfnTerminator x0 x1 then return (st, buf)
    else do
      let utf8 ← toUtf8 st.ret (x0.toUInt32 ||| x1.toUInt32 <<< 8)
      let ret ← inBounds utf8
      let filename ← strcat st.filename buf (.ofBuf ret)
      let len ← strlen (.ofBuf ret)
      utf8AppendFrom { st with filename, ret } (buf + len) unicode

/-- Source: `fat32-lfn-helpers.c` `utf8_append`. Kind: D -/
def utf8Append (st : Statics) (buf : Nat) (unicode : List UInt8) :
    Except Stop (Statics × Nat) := do
  if unicode.length % 2 != 0 then throw (.assert "nbytes%2 == 0")
  utf8AppendFrom st buf unicode

/-- The loop of `lfn_get_name`, with `i` entries to go. Source: `fat32-lfn-helpers.c`
`lfn_get_name`. Kind: D -/
def lfnGetNameFrom (s : List LfnDir) (st : Statics) (buf : Nat) : (i : Nat) →
    Except Stop (Statics × Nat)
  | 0 => return (st, buf)
  | i + 1 => do
    let l ← inBounds s[i]?
    if l.attr != longFileName then throw (.assert "l->attr == FAT32_LONG_FILE_NAME")
    let (st, buf) ← utf8Append st buf l.name1_5.elems
    let (st, buf) ← utf8Append st buf l.name6_11.elems
    let (st, buf) ← utf8Append st buf l.name12_13.elems
    lfnGetNameFrom s st buf i

/-- The name is left in `filename`. Source: `fat32-lfn-helpers.c` `lfn_get_name`. Kind: D -/
def lfnGetName (st : Statics) (s : List LfnDir) (cnt : Nat) : Except Stop Statics := do
  let filename ← inBounds (st.filename.write 0 [0])
  let (st, buf) ← lfnGetNameFrom s { st with filename } 0 cnt
  let filename ← inBounds (st.filename.write buf [0])
  return { st with filename }

/-! ## Its callers -/

/-- The loop of `lfn_print`, from entry `i` on. Source: `fat32-lfn-helpers.c` `lfn_print`. Kind: D -/
def lfnPrintFrom (s : List LfnDir) (cksum : UInt8) (i : Nat) : (left : Nat) → Except Stop Unit
  | 0 => return ()
  | left + 1 => do
    let l ← inBounds s[i]?
    if lfnIsDeleted l.seqno then throw (.assert "!lfn_is_deleted((s+i)->seqno)")
    if l.cksum != cksum then throw (.assert "s[i].cksum == cksum")
    lfnPrintFrom s cksum (i + 1) left

/-- With `print_ent_p` 0, as in the only call. Source: `fat32-lfn-helpers.c` `lfn_print`. Kind: D -/
def lfnPrint (s : List LfnDir) (cnt : Nat) (cksum : UInt8) : Except Stop Unit := do
  if ¬ cnt ≥ 1 then throw (.assert "cnt >= 1")
  if ¬ (cnt > 0 ∧ cnt < 3) then
    throw (.panic "FALSE(<cnt > 0 && cnt < 3>): weird for cs140e if larger!\n" [])
  lfnPrintFrom s cksum 0 cnt
  let first ← inBounds s[0]?
  if !lfnIsLast first.seqno then throw (.assert "lfn_is_last(s->seqno)")
  let last ← inBounds s[cnt - 1]?
  if !lfnIsFirst last.seqno then throw (.assert "lfn_is_first((s+cnt-1)->seqno)")

/-- `cnt` when the loop over the long-name entries ends, with `d[cnt]` the first of the list.
Source: `fat32-lfn-helpers.c` `fat32_dir_filename`, `fat32_lfn_print`
Kind: D -/
def lfnRunEnd (cnt : Nat) : List Fat32Dirent → Nat
  | [] => cnt
  | e :: es => if e.attr != longFileName then cnt else lfnRunEnd (cnt + 1) es

/-- `if(lower_case_p && c >= 'A' && c <= 'Z') c += 32;`
Source: `fat32-lfn-helpers.c` `fat32_dir_filename`
Kind: D -/
def lowerCase (lowerCaseP : Bool) (c : UInt8) : UInt8 :=
  if lowerCaseP && c ≥ 0x41 && c ≤ 0x5a then c + 32 else c

/-- `d` are the entries from the pointer to `end`; the result is the offset of the entry returned.
Source: `fat32-lfn-helpers.c` `fat32_dir_filename`
Kind: D -/
def fat32DirFilename {m : Nat} (st : Statics) (name : Buf UInt8 m) (d : List Fat32Dirent) :
    Except Stop (Statics × Buf UInt8 m × Nat) := do
  let d0 ← inBounds d[0]?
  let free ← fat32DirentFree d0
  if free then throw (.assert "!fat32_dirent_free(d)")
  let x := d0.attr
  if x == longFileName then
    let cnt := lfnRunEnd 1 (d.drop 1)
    let n := d.length
    if ¬ cnt < n then throw (.assert "cnt < n")
    let e ← inBounds d[cnt]?
    if !(isAttr e.attr dirAttr || isAttr e.attr archive) then
      throw (.assert "is_attr(d[cnt].attr, FAT32_DIR) || is_attr(d[cnt].attr, FAT32_ARCHIVE)")
    let st ← lfnGetName st (d.map Fat32Dirent.asLfn) cnt
    let name ← strcpy name (.ofBuf st.filename)
    return (st, name, cnt)
  else
    if !(isAttr x dirAttr || isAttr x archive || isAttr x volumeLabel) then
      throw (.assert
        "is_attr(x, FAT32_DIR) || is_attr(x, FAT32_ARCHIVE) || is_attr(x, FAT32_VOLUME_LABEL)")
    let lowerCaseP := d0.reserved0 == 0x18
    let base := ((d0.filename.elems.take 8).filter (· != space)).map (lowerCase lowerCaseP)
    let ext := (d0.filename.elems.drop 8).map (lowerCase lowerCaseP)
    let name ← inBounds (name.write 0 (base ++ dot :: ext ++ [0]))
    return (st, name, 0)

/-- Source: `fat32-helpers.c` `fat32_dir_attr_str`. Kind: D -/
def fat32DirAttrStr (attr : UInt8) : Except Stop String :=
  if attr == longFileName then return " LONG FILE NAME"
  else
    let (buf, attr) := if isAttr attr readOnly then ("R/O", attr &&& ~~~readOnly) else ("", attr)
    let (buf, attr) :=
      if isAttr attr hidden then (buf ++ " HIDDEN", attr &&& ~~~hidden) else (buf, attr)
    if attr == systemFile then return buf ++ " SYSTEM FILE"
    else if attr == volumeLabel then return buf ++ " VOLUME LABEL"
    else if attr == dirAttr then return buf ++ " DIR"
    else if attr == archive then return buf ++ " ARCHIVE"
    else throw (.panic "unhandled attr=%x\n" [.num attr.toNat])

/-- Source: `fat32-helpers.c` `fat32_dirent_print_helper`. Kind: D -/
def fat32DirentPrintHelper (st : Statics) (d : Fat32Dirent) : Except Stop Statics := do
  let free ← fat32DirentFree d
  if free then return st
  if d.attr == longFileName then return st
  if !isAttr d.attr archive && !isAttr d.attr dirAttr then
    let _ ← fat32DirAttrStr d.attr
  let raw ← inBounds (st.raw.write 0 (d.filename.elems ++ [0]))
  let short ← to8dot3 st.short d.filename
  return { st with raw, short }

/-- `d` are the entries left in the directory; the result is the number of entries to advance.
Source: `fat32-lfn-helpers.c` `fat32_lfn_print`
Kind: D -/
def fat32LfnPrint (st : Statics) (d : List Fat32Dirent) : Except Stop (Statics × Nat) := do
  let d0 ← inBounds d[0]?
  if d0.attr != longFileName then
    let st ← fat32DirentPrintHelper st d0
    return (st, 1)
  else
    let cnt := lfnRunEnd 0 d
    if ¬ cnt < d.length then throw (.assert "cnt < left")
    let e ← inBounds d[cnt]?
    if !(isAttr e.attr dirAttr || isAttr e.attr archive) then
      throw (.assert "is_attr(d[cnt].attr, FAT32_DIR) || is_attr(d[cnt].attr, FAT32_ARCHIVE)")
    lfnPrint (d.map Fat32Dirent.asLfn) cnt (lfnChecksum e.filename)
    let st ← lfnGetName st (d.map Fat32Dirent.asLfn) cnt
    let st ← fat32DirentPrintHelper st e
    return (st, cnt + 1)

end Cs140e.Fat32
