import Cs140e.Esp.Onward

/-!
# The response loop makes progress

Every turn of `cmd_response` either ends the loop or consumes something: each matcher of a turn goes
back where it fails, and one of the two fallbacks behind them consumes the line.

* `otherLine_completes` — a line that nothing matched is consumed, or refused.
* `endTurn_completes` — one turn. `cmdResponse_progress` — the whole loop, from every state.
-/

namespace Cs140e.Esp

open Cs140e.Lib Cs140e.Lib.Prog

variable (tgt : Target) (stale : Nat → Ptr) {w : World}

/-- Source: `esp-run.c` `match_busy`. Kind: L -/
theorem matchBusy_completes : Completes Stopped (matchBusy tgt stale) w (Tries Advances w) := by
  refine (matchLine_completes tgt stale _).bind fun s t ht => ?_
  cases s with
  | true => exact .ret ht
  | false =>
      refine (matchLine_completes tgt stale _).mono fun p u hu => ?_
      cases p with
      | true => exact ht.toOnward.advances hu
      | false => exact ht.trans hu

/-- **The fallback of the loop** consumes a line or panics. Source: `esp-run.c` `cmd_response`.
Kind: P -/
theorem otherLine_completes (extraP : Bool) :
    Completes Stopped (otherLine extraP) w fun _ => Advances w := by
  have hline {t : World} : Completes Stopped (getNonblankLine 1024) t fun _ => Advances t :=
    getNonblankLine_completes (by decide)
  cases extraP with
  | true => exact hline.bind fun _ _ ht => .ret ht
  | false =>
      refine .bind matchBlankLine_completes fun blank t ht => ?_
      cases blank with
      | true => exact .ret ht
      | false => exact hline.bind fun _ _ _ => .ite (fun _ => panic_completes) fun _ => panic_completes

variable (end' : List UInt8) (canFailP extraP : Bool)

/-- **Every turn consumes something**, whether the loop goes on behind it or not.
Source: `esp-run.c` `cmd_response`
Kind: P -/
theorem endTurn_completes :
    Completes Stopped (endTurn tgt stale end' canFailP extraP) w fun _ => Advances w := by
  refine (matchLine_completes tgt stale end').bind fun res t₁ h₁ => ?_
  cases res with
  | true => exact .ret h₁
  | false =>
      refine (matchTok_completes tgt (cstr "ERROR")).bind fun error t₂ h₂ => ?_
      cases error with
      | true =>
          rw [if_pos rfl]
          exact .ite (fun _ => .ret (h₁.toOnward.advances h₂)) fun _ => panic_completes
      | false =>
          have hback := h₁.trans h₂
          refine (matchBusy_completes tgt stale).bind fun busy t₃ h₃ => ?_
          cases busy with
          | true => exact .ret (hback.toOnward.advances h₃)
          | false =>
              refine (otherLine_completes extraP).bind fun _ t₄ h₄ => .ret ?_
              exact (hback.trans h₃).toOnward.advances h₄

/-- **The response loop always makes progress.** From every state of the lexer, with whatever is
still to come: a turn behind which the loop goes on leaves the position further on, so the call is
at most one such turn for each byte that is left, and a last one in which it returns, panics, or
waits for a byte behind the last one.
Source: `esp-run.c` `cmd_response`
Kind: P -/
theorem cmdResponse_progress (w : World) :
    (∀ t u, Runs (endTurn tgt stale end' canFailP extraP) t (.ok (.inl ())) u →
      t.lex.pos < u.lex.pos) ∧
    ∃ n t o u, Turns (fun _ => endTurn tgt stale end' canFailP extraP) n () w () t ∧
      Runs (endTurn tgt stale end' canFailP extraP) t (o.map .inr) u ∧
      Runs (cmdResponse tgt stale end' canFailP extraP) w o u ∧
      n ≤ w.unread.length ∧ (∀ b, o = .ok b → n < w.unread.length) ∧
      ∀ e, o = .error e → Stopped e u := by
  have hturn (t : World) := endTurn_completes tgt stale (w := t) end' canFailP extraP
  have hbody : ∀ (i : Unit) (t : World), True →
      Completes Stopped (endTurn tgt stale end' canFailP extraP) t
        (Sum.elim (fun _ u => True ∧ u.unread.length < t.unread.length) fun _ _ => True) := by
    refine fun _ t _ => (hturn t).mono ?_
    rintro (_ | b) u hu
    · exact ⟨trivial, hu.unread_lt⟩
    · trivial
  refine ⟨fun t u h => ((hturn t).returns h).lt, ?_⟩
  obtain ⟨n, _, t, o, u, hturns, hle, hlast, hafter⟩ :=
    Completes.turns (i := ()) (s := w) (fun _ w => w.unread.length) (fun _ _ => True) hbody trivial
  refine ⟨n, t, o, u, hturns, hlast, hturns.runs_loop hlast.loop_last,
    Nat.le_of_add_right_le hle, ?_, ?_⟩
  · rintro b rfl
    have hlt := ((hturn t).returns hlast).unread_lt
    omega
  · rintro e rfl
    exact hafter

end Cs140e.Esp
