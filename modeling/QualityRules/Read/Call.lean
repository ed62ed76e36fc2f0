import Mathlib.Logic.Relation
import QualityRules.Read.Reading
import QualityRules.Token.Relay

/-!
# Read — Call

A reader that takes its tokens from a worker beside it.  Both go on at the same time, one single
step after the other in any order.  The reader asks for a token when none was put back and the end of
the text was not given.  When it is through, with a result or a failure, what is left of the tokens
is dropped; behind a failure the worker is asked to stop before.  At last the reader waits for the
worker to end, but not for ever.

* `Call.Step` are the single steps of both.
* `Call.Completes`: what may come of a reader, whatever the order of the steps is.
-/

namespace QualityRules

namespace Cursor

/-- A token was put back, or the end of the text was given; the next one is at hand. -/
def holds (c : Cursor) : Bool := !c.pushed.isEmpty || c.eof.isSome

/-- The same cursor before the tokens `ts`. -/
def before (c : Cursor) (ts : List Token) : Cursor := { c with unread := ts }

end Cursor

/-- Where a reader stands. -/
inductive Phase (ε α : Type) where
  /-- Reads on from a cursor; the tokens it did not take are those of the worker. -/
  | reading (p : Reading ε α) (c : Cursor)
  /-- Drops tokens up to the end of the text, or until there are none. -/
  | draining (out : Except ε α)
  /-- Waits for the worker to end. -/
  | joining (out : Except ε α)
  | ended (out : Except ε α)

/-- A token is asked for. -/
def Phase.wants {ε α : Type} : Phase ε α → Bool
  | reading (.pop _) c => !c.holds
  | draining _ => true
  | _ => false

/-- A reader and the worker beside it. -/
structure Call (ε α : Type) where
  relay : Relay
  phase : Phase ε α

namespace Call

variable {ε α : Type}

/-- The single steps of a call. -/
inductive Step : Call ε α → Call ε α → Prop
  | work {r r' : Relay} (phase : Phase ε α) (step : r.Step .work r') : Step ⟨r, phase⟩ ⟨r', phase⟩
  | ask {r r' : Relay} {phase : Phase ε α} (wants : phase.wants) (step : r.Step .ask r') :
      Step ⟨r, phase⟩ ⟨r', phase⟩
  /-- Takes a token that is at hand. -/
  | pop (r : Relay) (next : Except Refusal Token → Reading ε α) {c : Cursor} (holds : c.holds) :
      Step ⟨r, .reading (.pop next) c⟩ ⟨r, .reading (next c.pop.1) c.pop.2⟩
  /-- Takes what the worker gives. -/
  | take {r r' : Relay} {item : Option Token} (next : Except Refusal Token → Reading ε α)
      {c : Cursor} (lacks : c.holds = false) (step : r.Step (.give item) r') :
      Step ⟨r, .reading (.pop next) c⟩
        ⟨r', .reading (next (c.before item.toList).pop.1) (c.before item.toList).pop.2⟩
  | push (r : Relay) (t : Token) (next : Reading ε α) (c : Cursor) :
      Step ⟨r, .reading (.push t next) c⟩ ⟨r, .reading next (c.push t)⟩
  | succeed (r : Relay) (a : α) (c : Cursor) :
      Step ⟨r, .reading (.done a) c⟩ ⟨r, .draining (.ok a)⟩
  /-- Fails, and asks the worker to stop. -/
  | fail {r r' : Relay} (e : ε) (c : Cursor) (step : r.Step .cancel r') :
      Step ⟨r, .reading (.fail e) c⟩ ⟨r', .draining (.error e)⟩
  | drop {r r' : Relay} {t : Token} (out : Except ε α) (going : t.kind ≠ .eof)
      (step : r.Step (.give (some t)) r') : Step ⟨r, .draining out⟩ ⟨r', .draining out⟩
  | dropLast {r r' : Relay} {item : Option Token} (out : Except ε α)
      (last : ∀ t ∈ item, t.kind = .eof) (step : r.Step (.give item) r') :
      Step ⟨r, .draining out⟩ ⟨r', .joining out⟩
  /-- The worker has ended, or the wait for it timed out. -/
  | join (r : Relay) (out : Except ε α) :
      Step ⟨r, .joining out⟩ ⟨{ r with closed := true }, .ended out⟩

/-- Single steps in a row. -/
abbrev Steps : Call ε α → Call ε α → Prop := Relation.ReflTransGen Step

/-- A reader at the start of a text. -/
def start (source : String) (p : Reading ε α) : Call ε α :=
  ⟨Relay.start source, .reading p (Cursor.ofTokens [])⟩

/-- On that text the reader ends with `out`. -/
def Completes (source : String) (p : Reading ε α) (out : Except ε α) : Prop :=
  ∃ r, Steps (start source p) ⟨r, .ended out⟩

end Call

end QualityRules
