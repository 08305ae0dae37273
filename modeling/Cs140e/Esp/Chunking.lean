import Cs140e.Esp.ParseView

/-!
# The parser does not see how its input trickles in

The one difference that the cutting of the input can make is how many of the end-of-line characters
behind a matched line have been consumed, and every matcher starts by skipping blank lines.

* `Twin v v'` — views that differ in that only. `ReadsTwin` describes a world by any of them.
* `matchTok_settles`, `matchv_settles`, `matchLinev_settles` — each matcher has one outcome on all
  twins, and leaves twins.
* `Call`, `Trace` — a sequence of calls, and what can be seen of a run of it: each return value and
  the memory after the call, up to the first stop. `trace_unique`, `trace_exists`: it has exactly
  one trace, and it is that of the view. `trace_independent_of_chunks`: two cuttings of one stream
  have the same traces.
-/

namespace Cs140e.Esp

open Cs140e.Lib Cs140e.Lib.Prog

/-! ## Views up to ends of lines -/

/-- The same but for blanks and ends of lines in front of the next text.
Source: `esp-parse.c` `match_eol`
Kind: D -/
structure Twin (v v' : View) : Prop where
  all : v'.all = v.all
  host : v'.host = v.host
  text : v'.rest.dropWhile isBlankCh = v.rest.dropWhile isBlankCh

/-- Source: none: infrastructure. Kind: L -/
theorem Twin.refl (v : View) : Twin v v := ⟨rfl, rfl, rfl⟩

/-- Twins are at the same view once they are at one position. Source: none: infrastructure.
Kind: L -/
theorem Twin.to_eq {v v' : View} (h : Twin v v') (r : List UInt8) : v'.seek r = v.seek r := by
  obtain ⟨a, r₁, m⟩ := v
  obtain ⟨a', r₂, m'⟩ := v'
  obtain ⟨h₁, h₂, -⟩ := h
  subst h₁ h₂
  rfl

/-- The world is at a twin of the view. Source: none: infrastructure. Kind: D -/
def ReadsTwin (v : View) (w : World) : Prop := ∃ v', Twin v v' ∧ Reads v' w

/-- One outcome and one class of views for all twins. Source: none: infrastructure. Kind: L -/
theorem settles_of_twins {α : Type} {p : Prog World Stop α} {v u : View} {o : Except Stop α}
    (h : ∀ v', Twin v v' → Ends Reads p v' o (Twin u)) :
    Settles ReadsTwin p v fun _ _ => True := by
  refine ⟨o, u, ?_, fun _ _ => trivial⟩
  rintro w ⟨v', hv', hw⟩
  obtain ⟨t, ht, u', hu', htw⟩ := h v' hv' w hw
  exact ⟨t, ht, u, ⟨u', htw, hu'⟩, rfl⟩

/-! ## The matchers -/

variable (tgt : Target)

/-- A matcher that goes to the next text, tries to match there and goes back when that fails, has
one outcome on all twins.
Source: `esp-parse.c` `match_tok`, `matchv`
Kind: P -/
theorem checkpoint_settles {α β : Type} (p : Prog World Stop α)
    (f : Nat → α → Prog World Stop β) (hp : ∀ v, Settles Reads p v fun _ => Forward v)
    (hf : ∀ a, (∃ g, (∀ ck, f ck a = g) ∧ ∀ u, ∃ o u', Ends Reads g u o (Twin u')) ∨
      ∃ b, ∀ ck, f ck a = (lexRestoreCkpt ck).bind fun _ => ret b) (v : View) :
    Settles ReadsTwin (lexGetCkpt.bind fun ck => skipBlankLines.bind fun _ =>
      skipBlankSpace.bind fun _ => p.bind (f ck)) v fun _ _ => True := by
  rcases ht : v.rest.dropWhile isBlankCh with _ | ⟨c, r⟩
  · refine settles_of_twins (u := v.seek []) (o := .error .block) fun v' hv' =>
      lexGetCkpt_ends fun _ => ?_
    rw [← hv'.to_eq]
    have hblock := skipBlankLines_block (hv'.text.trans ht)
    exact (hblock.mono (by rintro _ rfl; exact .refl _)).bind_error
  · obtain ⟨o, u, hu, hP⟩ := hp (v.seek (c :: r))
    have hstart : ∀ v', Twin v v' → ∀ {γ : Type} {k : Unit → Prog World Stop γ} {o Q},
        Ends Reads (k ()) (v.seek (c :: r)) o Q →
        Ends Reads (skipBlankLines.bind fun _ => skipBlankSpace.bind k) v' o Q := by
      intro v' hv' γ k o Q hk
      rw [← hv'.to_eq] at hk
      exact skipToText_ends (hv'.text.trans ht) hk
    rcases o with e | a
    · refine settles_of_twins (u := u) (o := .error e) fun v' hv' => lexGetCkpt_ends fun _ => ?_
      exact hstart v' hv' (hu.bind_error.mono (by rintro _ rfl; exact .refl _))
    · rcases hf a with ⟨g, hg, hends⟩ | ⟨b, hb⟩
      · -- it matched: all twins are at one view now
        obtain ⟨o, u', h⟩ := hends u
        refine settles_of_twins (u := u') (o := o) fun v' hv' => lexGetCkpt_ends fun _ => ?_
        refine hstart v' hv' (hu.seq ?_)
        rw [hg]
        exact h
      · -- each twin goes back to where it was
        refine settles_of_twins (u := u.seek v.rest) (o := .ok b) fun v' hv' =>
          lexGetCkpt_ends fun hsuf => ?_
        refine hstart v' hv' (hu.seq ?_)
        rw [hb]
        have hfwd : Forward v' u := by
          have := hP a rfl
          refine ⟨this.all.trans hv'.all.symm, Nat.le_trans this.rest ?_⟩
          exact length_le_of_dropWhile (hv'.text.trans ht)
        exact lexRestoreCkpt_ends hsuf hfwd (.ret ⟨rfl, rfl, hv'.text⟩)

/-- Returning settles on twins. Source: none: infrastructure. Kind: L -/
theorem ret_twin {α : Type} (a : α) (u : View) :
    ∃ o u', Ends Reads (ret a : Prog World Stop α) u o (Twin u') :=
  ⟨_, u, .ret (.refl u)⟩

/-- Stopping settles on twins. Source: none: infrastructure. Kind: L -/
theorem raise_twin {α : Type} (e : Stop) (u : View) :
    ∃ o u', Ends Reads (raise e : Prog World Stop α) u o (Twin u') :=
  ⟨_, u, .raise (.refl u)⟩

/-- Source: `esp-parse.c` `match_tok`. Kind: P -/
theorem matchTok_settles (tok : List UInt8) (v : View) :
    Settles ReadsTwin (matchTok tgt tok) v fun _ _ => True := by
  have h := checkpoint_settles
    ((cAssert (tok != []) "*p").bind fun _ => tokScan tgt tok 0)
    (fun ck ok => if ok then ret true else (lexRestoreCkpt ck).bind fun _ => ret false)
    (fun v => cAssert_settles (tokScan_settles tgt tok 0 (.refl v))) ?_ v
  · simp only [seq_seq] at h
    exact h
  · rintro (_ | _)
    · exact .inr ⟨false, fun _ => rfl⟩
    · exact .inl ⟨_, fun _ => rfl, ret_twin true⟩

/-- What `matchv` does after its loop. Source: `esp-parse.c` `matchv`. Kind: D -/
def scanEnd (fmt : List UInt8) (ck : Nat) (r : Bool × ScanState) : Prog World Stop (Bool × Nat) :=
  if r.1 then ret (true, r.2.k)
  else if r.2.mustMatch then raise (.panic "must match failed: malformed value for <%s>!\n" [.str fmt])
  else (lexRestoreCkpt ck).bind fun _ => ret (false, r.2.k)

/-- `matchv`, with what follows its loop named. Source: `esp-parse.c` `matchv`. Kind: L -/
theorem matchv_eq (va : Nat → Ptr) (fmt : List UInt8) (k : Nat) :
    matchv tgt va fmt k = lexGetCkpt.bind fun ck => skipBlankLines.bind fun _ =>
      skipBlankSpace.bind fun _ => (loop (scanTurn tgt va fmt) ⟨fmt, false, k⟩ ret).bind
        (scanEnd fmt ck) := rfl

/-- Source: `esp-parse.c` `matchv`. Kind: P -/
theorem matchv_settles (va : Nat → Ptr) (fmt : List UInt8) (k : Nat) (v : View) :
    Settles ReadsTwin (matchv tgt va fmt k) v fun _ _ => True := by
  rw [matchv_eq]
  refine checkpoint_settles _ (scanEnd fmt) (scanLoop_settles tgt va fmt _) ?_ v
  rintro ⟨_ | _, _, _ | _, k'⟩
  · exact .inr ⟨(false, k'), fun _ => rfl⟩
  · exact .inl ⟨_, fun _ => rfl, raise_twin _⟩
  · exact .inl ⟨_, fun _ => rfl, ret_twin _⟩
  · exact .inl ⟨_, fun _ => rfl, ret_twin _⟩

/-- `match_eol` leaves twins. Source: `esp-parse.c` `match_eol`. Kind: L -/
theorem matchEol_twin (u : View) : ∃ o u', Ends Reads matchEol u o (Twin u') := by
  rcases hs : u.rest.dropWhile isSpaceCh with _ | ⟨c, r⟩
  · exact ⟨_, u.seek [], (matchEol_block hs).mono (by rintro _ rfl; exact .refl _)⟩
  · rcases hc : isEolCh c with _ | _
    · exact ⟨_, u, (matchEol_false hs hc).mono (by rintro _ rfl; exact .refl _)⟩
    · refine ⟨_, u.seek r, (matchEol_ends hs hc).mono fun v' hv' => ?_⟩
      obtain ⟨htext, hall, hhost, -⟩ := hv'.dropWhile isBlankCh_of_isEolCh
      exact ⟨hall, hhost, htext⟩

/-- What `match_linev` does after `matchv`. Source: `esp-parse.c` `match_linev`. Kind: D -/
def lineEnd (res : Bool × Nat) : Prog World Stop (Bool × Nat) :=
  if !res.1 then ret (false, res.2)
  else matchEol.bind fun eol =>
    if !eol then raise (.panic "did not match end of line\n" []) else ret (true, res.2)

/-- `match_linev`, with what follows `matchv` named. Source: `esp-parse.c` `match_linev`.
Kind: L -/
theorem matchLinev_eq (va : Nat → Ptr) (fmt : List UInt8) (k : Nat) :
    matchLinev tgt va fmt k = (matchv tgt va fmt k).bind lineEnd := rfl

/-- Source: `esp-parse.c` `match_linev`. Kind: L -/
theorem lineEnd_twin (k : Nat) (u : View) :
    ∃ o u', Ends Reads (lineEnd (true, k)) u o (Twin u') := by
  obtain ⟨o, u', h⟩ := matchEol_twin u
  rcases o with e | _ | _
  · exact ⟨.error e, u', h.bind_error⟩
  · exact ⟨_, u', h.bind fun _ hv => .raise hv⟩
  · exact ⟨_, u', h.bind fun _ hv => .ret hv⟩

/-- Source: `esp-parse.c` `match_linev`. Kind: P -/
theorem matchLinev_settles (va : Nat → Ptr) (fmt : List UInt8) (k : Nat) (v : View) :
    Settles ReadsTwin (matchLinev tgt va fmt k) v fun _ _ => True := by
  rw [matchLinev_eq, matchv_eq]
  have h := checkpoint_settles (loop (scanTurn tgt va fmt) ⟨fmt, false, k⟩ ret)
    (fun ck r => (scanEnd fmt ck r).bind lineEnd) (scanLoop_settles tgt va fmt _) ?_ v
  · simpa only [seq_seq] using h
  · rintro ⟨_ | _, _, _ | _, k'⟩
    · exact .inr ⟨(false, k'), fun _ => rfl⟩
    · exact .inl ⟨_, fun _ => rfl, raise_twin _⟩
    · exact .inl ⟨lineEnd (true, k'), fun _ => rfl, lineEnd_twin k'⟩
    · exact .inl ⟨lineEnd (true, k'), fun _ => rfl, lineEnd_twin k'⟩

/-! ## Sequences of calls -/

/-- A call of one of the four matchers. Source: `esp-parse.h`. Kind: D -/
inductive Call where
  /-- `match_tok(l, tok)`. -/
  | matchTok (tok : List UInt8)
  /-- `match(l, fmt, ...)`. -/
  | matchPartial (fmt : List UInt8) (va : Nat → Ptr)
  /-- `match_line(l, fmt, ...)`. -/
  | matchLine (fmt : List UInt8) (va : Nat → Ptr)
  /-- `matchv(l, fmt, args)`. -/
  | matchv (fmt : List UInt8) (va : Nat → Ptr)

/-- What a call returns. Source: `esp-parse.c`. Kind: D -/
def Call.run : Call → Prog World Stop Bool
  | matchTok tok => Esp.matchTok tgt tok
  | matchPartial fmt va => Esp.matchPartial tgt fmt va
  | matchLine fmt va => Esp.matchLine tgt fmt va
  | matchv fmt va => do
    let (res, _) ← Esp.matchv tgt va fmt 0
    return res

/-- What can be seen of a call: how it ended and the memory after it. Source: `esp-parse.c`.
Kind: D -/
structure Obs where
  outcome : Except Stop Bool
  uints : Ptr → UInt32
  bufs : Ptr → Nat → UInt8

/-- The observations of the calls made from `w`, up to the first one that stops.
Source: `esp-parse.c`
Kind: D -/
def Trace : List Call → World → List Obs → Prop
  | [], _, obs => obs = []
  | c :: cs, w, obs => ∃ o w' rest, Runs (c.run tgt) w o w' ∧
      obs = ⟨o, w'.host.uints, w'.host.bufs⟩ :: rest ∧
      match o with
      | .ok _ => Trace cs w' rest
      | .error _ => rest = []

/-- **Each call has one outcome on all twins.** Source: `esp-parse.c`. Kind: P -/
theorem call_settles (c : Call) (v : View) :
    Settles ReadsTwin (c.run tgt) v fun _ _ => True := by
  cases c with
  | matchTok tok => exact matchTok_settles tgt tok v
  | matchPartial fmt va =>
      exact (matchv_settles tgt va fmt 0 v).bind fun _ _ _ => Settles.ret trivial
  | matchLine fmt va =>
      exact (matchLinev_settles tgt va fmt 0 v).bind fun _ _ _ => Settles.ret trivial
  | matchv fmt va =>
      exact (matchv_settles tgt va fmt 0 v).bind fun _ _ _ => Settles.ret trivial

/-- A run of calls has at most one trace. Source: none: infrastructure. Kind: L -/
theorem trace_unique {calls : List Call} {w : World} {obs obs' : List Obs}
    (h : Trace tgt calls w obs) (h' : Trace tgt calls w obs') : obs = obs' := by
  induction calls generalizing w obs obs' with
  | nil => exact h.trans h'.symm
  | cons c cs ih =>
      obtain ⟨o, t, rest, hr, rfl, hrest⟩ := h
      obtain ⟨o', t', rest', hr', rfl, hrest'⟩ := h'
      obtain ⟨rfl, rfl⟩ := hr.det hr'
      rcases o with e | b
      · rw [show rest = [] from hrest, show rest' = [] from hrest']
      · rw [ih hrest hrest']

/-- **The view determines the trace.** Source: `esp-parse.c`. Kind: P -/
theorem trace_exists (calls : List Call) (v : View) :
    ∃ obs, ∀ w, ReadsTwin v w → Trace tgt calls w obs := by
  induction calls generalizing v with
  | nil => exact ⟨[], fun _ _ => rfl⟩
  | cons c cs ih =>
      obtain ⟨o, u, hu, -⟩ := call_settles tgt c v
      obtain ⟨obs, hobs⟩ := ih u
      have hrun : ∀ w, ReadsTwin v w → ∃ t, Runs (c.run tgt) w o t ∧ ReadsTwin u t ∧
          t.host = u.host := by
        intro w hw
        obtain ⟨t, ht, u₁, ⟨u', htwin, hread⟩, hu₁⟩ := hu w hw
        rw [hu₁] at htwin
        exact ⟨t, ht, ⟨u', htwin, hread⟩, hread.host.trans htwin.host⟩
      rcases o with e | b
      · refine ⟨[⟨.error e, u.host.uints, u.host.bufs⟩], fun w hw => ?_⟩
        obtain ⟨t, ht, -, hhost⟩ := hrun w hw
        exact ⟨_, t, [], ht, by rw [hhost], rfl⟩
      · refine ⟨⟨.ok b, u.host.uints, u.host.bufs⟩ :: obs, fun w hw => ?_⟩
        obtain ⟨t, ht, htwin, hhost⟩ := hrun w hw
        exact ⟨_, t, obs, ht, by rw [hhost], hobs t htwin⟩

/-- **The parser is independent of how input trickles in**: two ways of cutting one stream into
nonempty chunks give every sequence of calls the same observations.
Source: `esp-parse.c`, `esp-lex.c`
Kind: P -/
theorem trace_independent_of_chunks (calls : List Call) (host : Host)
    (input input' : List (List UInt8)) (hne : ∀ c ∈ input, c ≠ []) (hne' : ∀ c ∈ input', c ≠ [])
    (hsame : input.flatten = input'.flatten) (hsmall : input.flatten.length < lexMaxbuf) :
    (∃ obs, Trace tgt calls (start input host) obs) ∧
      ∀ obs, Trace tgt calls (start input host) obs ↔ Trace tgt calls (start input' host) obs := by
  obtain ⟨obs, hobs⟩ := trace_exists tgt calls ⟨input.flatten, input.flatten, host⟩
  have h := hobs (start input host) ⟨_, .refl _, start_reads hne hsmall host⟩
  have h' := hobs (start input' host)
    ⟨_, .refl _, hsame ▸ start_reads hne' (hsame ▸ hsmall) host⟩
  refine ⟨⟨obs, h⟩, fun obs' => ⟨fun h₁ => ?_, fun h₁ => ?_⟩⟩
  · rwa [trace_unique tgt h₁ h]
  · rwa [trace_unique tgt h₁ h']

/-- A line end split between two reads. Source: `esp-parse.c` `match_eol`. Kind: L -/
theorem trace_independent_of_split_eol : ∃ obs,
    Trace .unix [.matchLine (cstr "OK") fun _ => .nbytes, .matchTok (cstr "+IPD")]
        (start [cstr "OK\r\n+IPD,"] espMk) obs ∧
      Trace .unix [.matchLine (cstr "OK") fun _ => .nbytes, .matchTok (cstr "+IPD")]
        (start [cstr "OK\r", cstr "\n+IPD,"] espMk) obs := by
  obtain ⟨⟨obs, hobs⟩, hsame⟩ := trace_independent_of_chunks .unix
    [.matchLine (cstr "OK") fun _ => .nbytes, .matchTok (cstr "+IPD")] espMk [cstr "OK\r\n+IPD,"]
    [cstr "OK\r", cstr "\n+IPD,"] (by decide) (by decide) (by decide) (by decide)
  exact ⟨obs, hobs, (hsame obs).mp hobs⟩

end Cs140e.Esp
