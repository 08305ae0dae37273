import Cs140e.Lib.View
import Cs140e.Esp.Lex
import Mathlib.Logic.Function.Basic

/-!
# The lexer as a position in one stream

A `View` forgets how the input is cut: it keeps the whole stream, what of it lies behind the lexer's
position, and the rest of the machine. `Reads v w` says that the world `w` is one way of buffering
the stream of `v`.

* `lexGetc_ends`, `lexPeek_ends` — reading a byte, with `_block` for the end of the stream.
* `lexRestoreCkpt_ends` — going back to a checkpoint, from anywhere behind it.
* `onHost_ends` — a change of the rest of the machine.
* `*_settles` — none of them sees the cutting.
-/

namespace Cs140e.Esp

open Cs140e.Lib Cs140e.Lib.Prog

/-- What the parser can see of a world. Source: none: infrastructure. Kind: D -/
structure View where
  /-- Everything the device ever sends. -/
  all : List UInt8
  /-- What of it is not consumed. -/
  rest : List UInt8
  /-- Everything but the lexer. -/
  host : Host

namespace View

/-- The same stream, further on. Source: none: infrastructure. Kind: D -/
def seek (v : View) (r : List UInt8) : View := { v with rest := r }

/-- The same position, with a changed host. Source: none: infrastructure. Kind: D -/
def on (v : View) (f : Host → Host) : View := { v with host := f v.host }

/-- The position. Source: `esp-lex-simple.h` `l->pos`. Kind: D -/
def pos (v : View) : Nat := v.all.length - v.rest.length

variable (v : View) (r r' : List UInt8) (f : Host → Host)

@[simp] theorem seek_rest : (v.seek r).rest = r := rfl
@[simp] theorem seek_all : (v.seek r).all = v.all := rfl
@[simp] theorem seek_host : (v.seek r).host = v.host := rfl
@[simp] theorem seek_seek : (v.seek r).seek r' = v.seek r' := rfl
@[simp] theorem seek_self : v.seek v.rest = v := rfl
@[simp] theorem on_rest : (v.on f).rest = v.rest := rfl
@[simp] theorem on_all : (v.on f).all = v.all := rfl
@[simp] theorem on_host : (v.on f).host = f v.host := rfl
@[simp] theorem on_seek : (v.on f).seek r = (v.seek r).on f := rfl

end View

/-- The world buffers the stream of the view, and is at its position.
Source: `esp-lex-simple.h` `lex_t`
Kind: D -/
structure Reads (v : View) (w : World) : Prop where
  all : w.lex.stream ++ w.lex.input.flatten = v.all
  pos_le : w.lex.pos ≤ w.lex.stream.length
  rest : v.all.drop w.lex.pos = v.rest
  chunks : ∀ c ∈ w.lex.input, c ≠ []
  small : v.all.length < lexMaxbuf
  host : w.host = v.host

variable {v v' : View} {w : World}

/-- The buffer is a prefix of the stream. Source: `esp-lex-simple.h` `lex_t`. Kind: L -/
theorem Reads.stream_length_le (h : Reads v w) : w.lex.stream.length ≤ v.all.length := by
  rw [← h.all, List.length_append]
  omega

/-- The view determines the position. Source: `esp-lex-simple.h` `l->pos`. Kind: L -/
theorem Reads.pos_eq (h : Reads v w) : w.lex.pos = v.pos := by
  have := h.stream_length_le
  have := h.pos_le
  rw [View.pos, ← h.rest, List.length_drop]
  omega

/-- What is consumed and what is not. Source: none: infrastructure. Kind: L -/
theorem Reads.rest_length (h : Reads v w) : w.lex.pos + v.rest.length = v.all.length := by
  have := h.stream_length_le
  have := h.pos_le
  rw [← h.rest, List.length_drop]
  omega

/-- The byte at the position, when one is buffered. Source: `esp-lex-simple.h` `l->stream`.
Kind: L -/
theorem Reads.head (h : Reads v w) (hlt : w.lex.pos < w.lex.stream.length) :
    v.rest = w.lex.stream.getD w.lex.pos 0 :: v.all.drop (w.lex.pos + 1) := by
  have hall := h.stream_length_le
  have hcell : w.lex.stream.getD w.lex.pos 0 = v.all[w.lex.pos] := by
    simp only [← h.all]
    rw [List.getElem_append_left hlt, List.getD_eq_getElem?_getD, List.getElem?_eq_getElem hlt,
      Option.getD_some]
  rw [← h.rest, List.drop_eq_getElem_cons (by omega), hcell]

/-- A lexer that has read nothing, with its input still to come. Source: `esp-lex-simple.c`
`lex_init_simple`. Kind: D -/
def start (input : List (List UInt8)) (host : Host) : World := ⟨⟨0, [], input⟩, host⟩

/-- A fresh lexer reads the stream from its start. Source: `esp-lex-simple.c` `lex_init_simple`.
Kind: L -/
theorem start_reads {input : List (List UInt8)} (hne : ∀ c ∈ input, c ≠ [])
    (hsmall : input.flatten.length < lexMaxbuf) (host : Host) :
    Reads ⟨input.flatten, input.flatten, host⟩ (start input host) :=
  ⟨rfl, Nat.le_refl 0, rfl, hne, hsmall, rfl⟩

/-- What a world has not consumed. Source: `esp-lex-simple.h` `lex_t`. Kind: D -/
def World.unread (w : World) : List UInt8 :=
  (w.lex.stream ++ w.lex.input.flatten).drop w.lex.pos

/-- Source: `esp-lex-simple.h` `lex_t`. Kind: L -/
theorem Reads.unread (h : Reads v w) : w.unread = v.rest := by
  rw [World.unread, h.all, h.rest]

/-- The same stream, no earlier position. Source: none: infrastructure. Kind: D -/
structure Forward (v v' : View) : Prop where
  all : v'.all = v.all
  rest : v'.rest.length ≤ v.rest.length

/-- Source: none: infrastructure. Kind: L -/
theorem Forward.refl (v : View) : Forward v v := ⟨rfl, Nat.le_refl _⟩

/-- Source: none: infrastructure. Kind: L -/
theorem Forward.trans {v₁ v₂ v₃ : View} (h : Forward v₁ v₂) (h' : Forward v₂ v₃) : Forward v₁ v₃ :=
  ⟨h'.all.trans h.all, Nat.le_trans h'.rest h.rest⟩

/-! ## Reading -/

section

variable {α : Type} {t : World} {o : Except Stop α}

/-- Source: `esp-lex-simple.h` `lex_empty`. Kind: L -/
theorem runs_lexEmpty_iff (h : w.lex.pos ≤ w.lex.stream.length) {k : Bool → Prog World Stop α} :
    Runs (lexEmpty.bind k) w o t ↔ Runs (k (w.lex.pos == w.lex.stream.length)) w o t := by
  simp [lexEmpty, cAssert, check, seq_seq, h]

/-- Source: `esp-lex-simple.h` `lex_nstream`. Kind: L -/
theorem runs_lexNstream_iff (h : w.lex.pos ≤ w.lex.stream.length) {k : Nat → Prog World Stop α} :
    Runs (lexNstream.bind k) w o t ↔ Runs (k (w.lex.stream.length - w.lex.pos)) w o t := by
  simp [lexNstream, cAssert, check, seq_seq, h]

/-- A read of the device from an exhausted buffer appends the next chunk.
Source: `esp-lex.c` `lex_readin`
Kind: L -/
theorem lexReadin_runs {c : List UInt8} {cs : List (List UInt8)}
    (hpos : w.lex.pos = w.lex.stream.length) (hin : w.lex.input = c :: cs) (hc : c ≠ [])
    (hsmall : w.lex.stream.length + c.length < lexMaxbuf) :
    Runs lexReadin w (.ok c.length)
      { w with lex := ⟨w.lex.pos, w.lex.stream ++ c, cs⟩ } := by
  have hlen : 0 < c.length := List.length_pos_iff.mpr hc
  have hle : w.lex.pos ≤ w.lex.stream.length := by omega
  simp only [lexReadin, bind_eq_seq, runs_lexEmpty_iff hle, cAssert, check, hpos, beq_self_eq_true,
    if_true, ret_bind, runs_lexNstream_iff hle, Nat.sub_self]
  simp [espHasDataTimeout, espRead, access, hin, hc, lexPushN, cAssert, check, seq_seq, hsmall,
    hpos, hlen]

/-- A read of an exhausted buffer with nothing to come waits. Source: `esp-lex.c` `lex_readin`.
Kind: L -/
theorem lexReadin_block (hpos : w.lex.pos = w.lex.stream.length) (hin : w.lex.input = []) :
    Runs lexReadin w (.error .block) w := by
  have hle : w.lex.pos ≤ w.lex.stream.length := by omega
  simp only [lexReadin, bind_eq_seq, runs_lexEmpty_iff hle, cAssert, check, hpos, beq_self_eq_true,
    if_true, ret_bind, runs_lexNstream_iff hle, Nat.sub_self]
  simp [espHasDataTimeout, hin]

end

/-- A read that succeeds has appended a chunk. Source: `esp-lex.c` `lex_readin`. Kind: L -/
theorem lexReadin_ok {w w' : World} {n : Nat} (h : Runs lexReadin w (.ok n) w') :
    w.lex.pos = w.lex.stream.length ∧ ∃ c cs, w.lex.input = c :: cs ∧ c ≠ [] ∧
      w.lex.stream.length + c.length < lexMaxbuf ∧ n = c.length ∧
        w' = { w with lex := ⟨w.lex.pos, w.lex.stream ++ c, cs⟩ } := by
  by_cases hle : w.lex.pos ≤ w.lex.stream.length
  · by_cases hpos : w.lex.pos = w.lex.stream.length
    · refine ⟨hpos, ?_⟩
      rcases hin : w.lex.input with _ | ⟨c, cs⟩
      · have := (h.det (lexReadin_block hpos hin)).1
        simp at this
      · have hread : c ≠ [] ∧ w.lex.stream.length + c.length < lexMaxbuf := by
          rw [lexReadin, bind_eq_seq, runs_lexEmpty_iff hle] at h
          simp only [bind_eq_seq, cAssert, check, hpos, beq_self_eq_true, if_true, ret_bind,
            runs_lexNstream_iff hle, Nat.sub_self, espHasDataTimeout, runs_load_bind_iff, hin] at h
          by_cases hc : c = []
          · simp [hc, espRead, access, hin] at h
          · refine ⟨hc, ?_⟩
            by_contra hbig
            have hlen : 0 < c.length := List.length_pos_iff.mpr hc
            simp [hc, espRead, access, hin, lexPushN, cAssert, check, seq_seq, hlen, hbig] at h
        obtain ⟨hn, hw⟩ := h.det (lexReadin_runs hpos hin hread.1 hread.2)
        exact ⟨c, cs, rfl, hread.1, hread.2, Except.ok.inj hn, hw⟩
    · have hempty : (w.lex.pos == w.lex.stream.length) = false := beq_eq_false_iff_ne.mpr hpos
      rw [lexReadin, bind_eq_seq, runs_lexEmpty_iff hle] at h
      simp [hempty, cAssert, check] at h
  · simp [lexReadin, lexEmpty, cAssert, check, seq_seq, hle] at h

/-- Filling a buffer that has a byte left reads nothing. Source: `esp-lex-simple.c`
`lex_getc_simple`. Kind: L -/
theorem lexFill_buffered (hlt : w.lex.pos < w.lex.stream.length) : Runs lexFill w (.ok ()) w := by
  have hempty : (w.lex.pos == w.lex.stream.length) = false := beq_eq_false_iff_ne.mpr (by omega)
  simp only [lexFill, bind_eq_seq, runs_lexEmpty_iff (Nat.le_of_lt hlt)]
  simp [hempty, runs_lexEmpty_iff (Nat.le_of_lt hlt), cAssert, check]

/-- With a byte left, filling the buffer succeeds and leaves one at the position.
Source: `esp-lex-simple.c` `lex_getc_simple`
Kind: L -/
theorem lexFill_runs (h : Reads v w) (hne : v.rest ≠ []) :
    ∃ w', Runs lexFill w (.ok ()) w' ∧ Reads v w' ∧ w'.lex.pos < w'.lex.stream.length := by
  have hle := h.pos_le
  by_cases hlt : w.lex.pos < w.lex.stream.length
  · exact ⟨w, lexFill_buffered hlt, h, hlt⟩
  · -- the buffer is exhausted: the next chunk is read
    simp only [lexFill, bind_eq_seq, runs_lexEmpty_iff hle]
    have hpos : w.lex.pos = w.lex.stream.length := by omega
    have hall := h.all
    rcases hin : w.lex.input with _ | ⟨c, cs⟩
    · rw [hin, List.flatten_nil, List.append_nil] at hall
      exact absurd (by rw [← h.rest, hpos, ← hall, List.drop_length]) hne
    · rw [hin, List.flatten_cons] at hall
      have hc : c ≠ [] := h.chunks c (by rw [hin]; exact List.mem_cons_self)
      have hlen : 0 < c.length := List.length_pos_iff.mpr hc
      have hsmall : w.lex.stream.length + c.length < lexMaxbuf := by
        have hs := h.small
        rw [← hall] at hs
        simp only [List.length_append] at hs
        omega
      have hrest : w.lex.pos < (w.lex.stream ++ c).length := by
        rw [List.length_append]
        omega
      refine ⟨{ w with lex := ⟨w.lex.pos, w.lex.stream ++ c, cs⟩ }, ?_, ?_, hrest⟩
      · rw [hpos, beq_self_eq_true, if_pos rfl]
        refine (lexReadin_runs hpos hin hc hsmall).bind ?_
        rw [runs_lexEmpty_iff (Nat.le_of_lt hrest)]
        simp [cAssert, check, hpos, hc]
      · refine ⟨?_, Nat.le_of_lt hrest, h.rest, ?_, h.small, h.host⟩
        · rw [← hall]
          simp
        · intro d hd
          exact h.chunks d (by rw [hin]; exact List.mem_cons_of_mem _ hd)

/-- At the end of the stream, filling the buffer waits. Source: `esp-lex.c` `lex_readin`.
Kind: L -/
theorem lexFill_block (hne : v.rest = []) : Ends Reads lexFill v (.error .block) (· = v) := by
  intro w h
  have hlen := h.rest_length
  have hle := h.pos_le
  have hall := congrArg List.length h.all
  rw [hne] at hlen
  simp only [List.length_append, List.length_nil] at hlen hall
  have hpos : w.lex.pos = w.lex.stream.length := by omega
  have hin : w.lex.input = [] := by
    have hflat : w.lex.input.flatten = [] := List.length_eq_zero_iff.mp (by omega)
    rcases hin : w.lex.input with _ | ⟨c, cs⟩
    · rfl
    · rw [hin, List.flatten_cons] at hflat
      exact absurd (List.append_eq_nil_iff.mp hflat).1 (h.chunks c (by rw [hin]; simp))
  refine ⟨w, ?_, v, h, rfl⟩
  simp only [lexFill, bind_eq_seq, runs_lexEmpty_iff hle]
  rw [hpos, beq_self_eq_true, if_pos rfl]
  exact (lexReadin_block hpos hin).bind_error

/-- **Reading a byte** takes the next one of the stream. Source: `esp-lex-simple.c`
`lex_getc_simple`. Kind: P -/
theorem lexGetc_ends {c : UInt8} {r : List UInt8} (hr : v.rest = c :: r) :
    Ends Reads lexGetc v (.ok c) (· = v.seek r) := by
  intro w h
  obtain ⟨w', hrun, hw', hlt⟩ := lexFill_runs h (by simp [hr])
  have hhead := hw'.head hlt
  rw [hr, List.cons.injEq] at hhead
  refine ⟨{ w' with lex := { w'.lex with pos := w'.lex.pos + 1 } }, ?_, v.seek r, ?_, rfl⟩
  · refine hrun.bind ?_
    simp [access, hhead.1]
  · exact ⟨hw'.all, hlt, hhead.2.symm, hw'.chunks, hw'.small, hw'.host⟩

/-- Source: `esp-lex-simple.c` `lex_getc_simple`. Kind: L -/
theorem lexGetc_block (hr : v.rest = []) : Ends Reads lexGetc v (.error .block) (· = v) :=
  (lexFill_block hr).bind_error

/-- **Peeking** shows the next byte of the stream. Source: `esp-lex-simple.c` `lex_peek_simple`.
Kind: P -/
theorem lexPeek_ends {c : UInt8} {r : List UInt8} (hr : v.rest = c :: r) :
    Ends Reads lexPeek v (.ok c) (· = v) := by
  intro w h
  obtain ⟨w', hrun, hw', hlt⟩ := lexFill_runs h (by simp [hr])
  have hhead := hw'.head hlt
  rw [hr, List.cons.injEq] at hhead
  refine ⟨w', hrun.bind ?_, v, hw', rfl⟩
  simp [load, access, hhead.1]

/-- Source: `esp-lex-simple.c` `lex_peek_simple`. Kind: L -/
theorem lexPeek_block (hr : v.rest = []) : Ends Reads lexPeek v (.error .block) (· = v) :=
  (lexFill_block hr).bind_error

/-! ## Checkpoints and the rest of the machine -/

section

variable {α : Type} {o : Except Stop α} {Q : View → Prop}

/-- A checkpoint is the position. Source: `esp-lex-simple.h` `lex_get_ckpt`. Kind: L -/
theorem lexGetCkpt_ends {k : Nat → Prog World Stop α}
    (hk : v.rest <:+ v.all → Ends Reads (k v.pos) v o Q) :
    Ends Reads (lexGetCkpt.bind k) v o Q := by
  intro w h
  have hsuf : v.rest <:+ v.all := h.rest ▸ List.drop_suffix _ _
  exact Ends.load (fun _ h => h.pos_eq) (hk hsuf) w h

/-- Going back to a checkpoint replays the stream from there.
Source: `esp-lex-simple.h` `lex_restore_ckpt`
Kind: L -/
theorem lexRestoreCkpt_ends {k : Unit → Prog World Stop α} (hsuf : v.rest <:+ v.all)
    (hv : Forward v v')
    (hk : Ends Reads (k ()) (v'.seek v.rest) o Q) :
    Ends Reads ((lexRestoreCkpt v.pos).bind k) v' o Q := by
  refine .store (fun w h => ?_) hk
  have hp := h.pos_le
  have hl := h.rest_length
  have hle := hv.rest
  rw [hv.all] at hl
  refine ⟨h.all, ?_, ?_, h.chunks, h.small, h.host⟩
  · show v.pos ≤ w.lex.stream.length
    rw [View.pos]
    omega
  · show v'.all.drop v.pos = v.rest
    rw [hv.all, View.pos]
    exact (List.suffix_iff_eq_drop.mp hsuf).symm

/-- A change of the rest of the machine. Source: none: infrastructure. Kind: L -/
theorem onHost_ends {f : Host → Host} {k : Unit → Prog World Stop α}
    (hk : Ends Reads (k ()) (v.on f) o Q) : Ends Reads ((onHost f).bind k) v o Q := by
  refine .store (fun w h => ?_) hk
  exact ⟨h.all, h.pos_le, h.rest, h.chunks, h.small, congrArg f h.host⟩

/-- A load from the rest of the machine. Source: none: infrastructure. Kind: L -/
theorem host_ends {ρ : Type} {f : Host → ρ} {k : ρ → Prog World Stop α}
    (hk : Ends Reads (k (f v.host)) v o Q) :
    Ends Reads ((load fun w : World => f w.host).bind k) v o Q :=
  .load (fun _ h => congrArg f h.host) hk

/-- An assertion that holds. Source: `libunix/demand.h` `assert`. Kind: L -/
theorem cAssert_ends {b : Bool} {e : String} {k : Unit → Prog World Stop α} (hb : b = true)
    (hk : Ends Reads (k ()) v o Q) : Ends Reads ((cAssert b e).bind k) v o Q := by
  unfold cAssert
  rw [check_of_true hb]
  exact hk

end

/-! ## Independence of the cutting -/

section

variable {α : Type} {P : α → View → Prop}

/-- What is read next settles if it does so for every byte. Source: `esp-lex-simple.c`
`lex_getc_simple`. Kind: L -/
theorem lexGetc_settles {k : UInt8 → Prog World Stop α}
    (hk : ∀ c v', Forward v v' → Settles Reads (k c) v' P) :
    Settles Reads (lexGetc.bind k) v P := by
  refine Settles.bind (P := fun _ => Forward v) ?_ hk
  rcases hr : v.rest with _ | ⟨c, r⟩
  · exact (lexGetc_block hr).settles_error
  · exact (lexGetc_ends hr).settles ⟨rfl, by simp [hr]⟩

/-- Source: `esp-lex-simple.c` `lex_peek_simple`. Kind: L -/
theorem lexPeek_settles {k : UInt8 → Prog World Stop α}
    (hk : ∀ c, Settles Reads (k c) v P) : Settles Reads (lexPeek.bind k) v P := by
  refine Settles.bind (P := fun _ => (· = v)) ?_ (by rintro c _ rfl; exact hk c)
  rcases hr : v.rest with _ | ⟨c, r⟩
  · exact (lexPeek_block hr).settles_error
  · exact (lexPeek_ends hr).settles rfl

/-- Source: `libunix/demand.h` `assert`. Kind: L -/
theorem cAssert_settles {b : Bool} {e : String} {k : Unit → Prog World Stop α}
    (hk : Settles Reads (k ()) v P) : Settles Reads ((cAssert b e).bind k) v P := by
  cases b with
  | true => exact hk
  | false => exact Settles.raise

/-- Source: none: infrastructure. Kind: L -/
theorem onHost_settles {f : Host → Host} {k : Unit → Prog World Stop α}
    (hk : ∀ v', Forward v v' → Settles Reads (k ()) v' P) :
    Settles Reads ((onHost f).bind k) v P := by
  obtain ⟨o, v', h, hP⟩ := hk (v.on f) ⟨rfl, Nat.le_refl _⟩
  exact ⟨o, v', onHost_ends h, hP⟩

end

end Cs140e.Esp
