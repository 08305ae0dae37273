import Cs140e.Lib.Hoare
import Cs140e.Lib.Bytes
import Cs140e.Stop

/-!
# libunix: reading integers from the Pi

`put-get.c` over `read-exact.c`. The state is what `read` will return on the descriptor, byte by
byte, and a history of what was printed to `stderr`, as the calls of `output`.

* `getUint8`, `getUint32` — with `getUint8_runs`, `getUint32_runs`, what they return.
* `output_keeps`, `getUint8_keeps`, `getUint32_keeps` — what has been printed stays printed.
-/

namespace Cs140e.Libunix

open Cs140e.Lib Cs140e.Lib.Prog

/-- A call of `output`: the format and the arguments. Source: `libunix/demand.h` `output`. Kind: D -/
abbrev Output := String × List PanicArg

/-- The unix side of the connection. Source: `libunix/put-get.c` `fd`. Kind: D -/
structure Tty where
  /-- What is still to be read. -/
  input : List UInt8
  /-- History: what was printed, oldest first. -/
  out : List Output

/-- Source: `libunix/demand.h` `output`. Kind: D -/
def output (fmt : String) (args : List PanicArg) : Prog Tty Stop Unit :=
  store fun s => { s with out := s.out ++ [(fmt, args)] }

/-- `read(fd, &b, 1)`: nothing at the end of the stream. Source: `libunix/read-exact.c` `read`.
Kind: D -/
def read1 : Prog Tty Stop (Option UInt8) :=
  access fun s => (s.input.head?, { s with input := s.input.tail })

/-- One byte, with `read_exact` inlined. Source: `libunix/put-get.c` `get_uint8`. Kind: D -/
def getUint8 : Prog Tty Stop UInt8 := do
  let got ← read1
  match got with
  | some b => return b
  | none => raise (.panic "attempted to read %d bytes, got %d\n" [.num 1, .num 0])

/-- Source: `libunix/put-get.c` `get_uint32`. Kind: D -/
def getUint32 : Prog Tty Stop UInt32 := do
  let b ← getUint8
  let u := b.toUInt32
  let b ← getUint8
  let u := u ||| b.toUInt32 <<< 8
  let b ← getUint8
  let u := u ||| b.toUInt32 <<< 16
  let b ← getUint8
  let u := u ||| b.toUInt32 <<< 24
  return u

variable {r : List UInt8} {out : List Output}

/-- Source: `libunix/put-get.c` `get_uint8`. Kind: L -/
theorem getUint8_runs (b : UInt8) : Runs getUint8 ⟨b :: r, out⟩ (.ok b) ⟨r, out⟩ := by
  simp [getUint8, read1, access]

/-- Four bytes are read as a word, least significant first. Source: `libunix/put-get.c` `get_uint32`.
Kind: P -/
theorem getUint32_runs (u : UInt32) :
    Runs getUint32 ⟨leBytes 4 u.toNat ++ r, out⟩ (.ok u) ⟨r, out⟩ := by
  obtain ⟨b₀, b₁, b₂, b₃, hbytes⟩ : ∃ b₀ b₁ b₂ b₃, leBytes 4 u.toNat = [b₀, b₁, b₂, b₃] :=
    ⟨_, _, _, _, rfl⟩
  have hu : b₀.toUInt32 ||| b₁.toUInt32 <<< 8 ||| b₂.toUInt32 <<< 16 ||| b₃.toUInt32 <<< 24 = u := by
    apply UInt32.toNat_inj.mp
    rw [word_toNat, ← hbytes]
    exact leValue_leBytes_of_lt u.toNat_lt
  rw [hbytes]
  refine (getUint8_runs b₀).bind ((getUint8_runs b₁).bind ((getUint8_runs b₂).bind
    ((getUint8_runs b₃).bind ?_)))
  simp [hu]

/-- Source: `libunix/demand.h` `output`. Kind: L -/
theorem output_runs (fmt : String) (args : List PanicArg) :
    Runs (output fmt args) ⟨r, out⟩ (.ok ()) ⟨r, out ++ [(fmt, args)]⟩ := by
  simp [output, store, access]

/-! ## What is printed stays -/

variable {L : List Output}

/-- What was printed starts with `L`. Source: none: infrastructure. Kind: D -/
abbrev Begins (L : List Output) (s : Tty) : Prop := L <+: s.out

/-- Source: `libunix/demand.h` `output`. Kind: L -/
theorem output_keeps (fmt : String) (args : List PanicArg) : Keeps (Begins L) (output fmt args) :=
  .store fun _ h => h.trans (List.prefix_append _ _)

/-- Source: `libunix/put-get.c` `get_uint8`. Kind: L -/
theorem getUint8_keeps : Keeps (Begins L) getUint8 := by
  refine .bind (.access fun _ h => h) ?_
  intro got
  cases got with
  | none => exact .raise
  | some b => exact .ret

/-- Source: `libunix/put-get.c` `get_uint32`. Kind: L -/
theorem getUint32_keeps : Keeps (Begins L) getUint32 :=
  .bind getUint8_keeps fun _ => .bind getUint8_keeps fun _ => .bind getUint8_keeps fun _ =>
    .bind getUint8_keeps fun _ => .ret

end Cs140e.Libunix
