import QualityRules.Proofs.Failures
import QualityRules.Proofs.Relay
import QualityRules.Proofs.Unread
import QualityRules.Read.Call

/-!
# Proofs — Call

A reader that takes its tokens from a worker beside it comes to what it comes to on the tokens of
the text, whatever the order of the single steps is and whichever waits time out.

* `Call.Sound`: a reader that reads on will come to the same on the tokens that are left to give.
  Each step of a call keeps to that (`Step.sound`).
* `exists_ended`: every call can be brought to its end.
* `completes_iff` puts both together, and `Entry.completes_iff` says it of whole texts.
-/

namespace QualityRules

namespace Cursor

variable {c : Cursor}

/-- A token at hand is taken without a look at the tokens that were not taken yet. -/
theorem pop_before_of_holds (holds : c.holds) (ts : List Token) :
    (c.before ts).pop = (c.pop.1, c.pop.2.before ts) := by
  obtain ⟨_ | ⟨t, pushed⟩, _ | eof, unread, here⟩ := c
  · exact nomatch holds
  all_goals rfl

/-- Where none is at hand, no more than the first of those is looked at. -/
theorem pop_before_of_lacks (lacks : c.holds = false) (ts : List Token) :
    (c.before ts).pop = ((c.before ts.head?.toList).pop.1,
      (c.before ts.head?.toList).pop.2.before ts.tail) := by
  obtain ⟨_ | ⟨t, pushed⟩, _ | eof, unread, here⟩ := c
  · cases ts <;> rfl
  all_goals exact nomatch lacks

end Cursor

namespace Relay

variable {r r' : Relay} {a : Action} {cancelled : Bool}

/-- Nobody asks to stop but who does it by that step. -/
theorem Step.cancelled_eq (step : Step r a r') (other : a ≠ .cancel) :
    r'.cancelled = r.cancelled := by
  cases step <;> first | rfl | exact absurd rfl other

/-- A relay that stands between two items goes on doing so when somebody asks. -/
theorem Calm.cancel (calm : Calm cancelled r) : Calm true { r with cancelled := true } := by
  cases calm with
  | ready s => exact .ready s
  | spent => exact .spent

end Relay

namespace Call

variable {ε α : Type} {out : Except ε α} {x y : Call ε α}

/-- The reader comes to `out`: it did, or nobody asked the worker to stop and it will on the tokens
that are left to give. -/
inductive Sound (out : Except ε α) : Call ε α → Prop
  | reading {r : Relay} {p : Reading ε α} {c : Cursor} (unasked : r.cancelled = false)
      (sound : r.Sound) (comes : (p.run (c.before r.pending)).1 = out) : Sound out ⟨r, .reading p c⟩
  | draining (r : Relay) : Sound out ⟨r, .draining out⟩
  | joining (r : Relay) : Sound out ⟨r, .joining out⟩
  | ended (r : Relay) : Sound out ⟨r, .ended out⟩

/-- A step of the relay that gives nothing is none of the reader's business. -/
theorem Sound.relay {r r' : Relay} {a : Relay.Action} {phase : Phase ε α}
    (sound : Sound out ⟨r, phase⟩) (step : r.Step a r') (silent : a = .work ∨ a = .ask) :
    Sound out ⟨r', phase⟩ := by
  cases sound with
  | reading unasked sound comes =>
    have other : a ≠ .cancel := by rcases silent with rfl | rfl <;> nofun
    have unasked' := (step.cancelled_eq other).trans unasked
    obtain ⟨sound', delivers⟩ := step.sound sound unasked'
    have same : r'.pending = r.pending := by
      rcases silent with rfl | rfl <;> exact delivers
    exact .reading unasked' sound' (same ▸ comes)
  | draining => exact .draining r'
  | joining => exact .joining r'
  | ended => exact .ended r'

/-- **A single step of a call does not change what its reader comes to.** -/
theorem Step.sound (step : Step x y) (sound : Sound out x) : Sound out y := by
  cases step with
  | work phase step => exact sound.relay step (.inl rfl)
  | ask wants step => exact sound.relay step (.inr rfl)
  | pop r next holds =>
    cases sound with | reading unasked sound comes =>
    rw [Reading.run, Cursor.pop_before_of_holds holds] at comes
    exact .reading unasked sound comes
  | take next lacks step =>
    cases sound with | reading unasked sound comes =>
    have unasked' := (step.cancelled_eq (by simp)).trans unasked
    obtain ⟨sound', rfl, rest⟩ := step.sound sound unasked'
    rw [Reading.run, Cursor.pop_before_of_lacks lacks] at comes
    exact .reading unasked' sound' (rest ▸ comes)
  | push r t next c =>
    cases sound with | reading unasked sound comes => exact .reading unasked sound comes
  | succeed r a c =>
    cases sound with | reading unasked sound comes =>
    subst comes
    exact .draining r
  | fail e c step =>
    cases sound with | reading unasked sound comes =>
    subst comes
    exact .draining _
  | drop | dropLast | join =>
    cases sound
    constructor

/-- What the reader comes to in the end it comes to from the start. -/
theorem Steps.sound (steps : Steps x y) (sound : Sound out x) : Sound out y := by
  induction steps with
  | refl => exact sound
  | tail _ step ih => exact step.sound ih

/-! ### Every call can be brought to its end -/

/-- A reader that asks for tokens leaves the relay its way to the next item. -/
theorem steps_of_prepares {r s : Relay} {phase : Phase ε α} (prepares : r.Prepares s)
    (wants : phase.wants) : Steps ⟨r, phase⟩ ⟨s, phase⟩ := by
  induction prepares with
  | refl => exact .refl
  | work _ step ih => exact ih.tail (.work phase step)
  | ask _ step ih => exact ih.tail (.ask wants step)

/-- A drain ends, whoever asks. -/
theorem exists_ended_of_draining (out : Except ε α) {cancelled : Bool} {r : Relay}
    (calm : r.Calm cancelled) : ∃ s, Steps ⟨r, .draining out⟩ ⟨s, .ended out⟩ := by
  -- on what is left to scan, which is less behind every token that is dropped
  induction left : r.budget using Nat.strong_induction_on generalizing r with
  | h n ih =>
    obtain ⟨s, item, r', prepares, step, calm', less⟩ := calm.gives
    have steps : Steps ⟨r, .draining out⟩ ⟨s, .draining out⟩ := steps_of_prepares prepares rfl
    by_cases last : ∀ t ∈ item, t.kind = .eof
    · exact ⟨_, (steps.tail (.dropLast out last step)).tail (.join r' out)⟩
    · simp only [not_forall] at last
      obtain ⟨t, rfl, going⟩ := last
      obtain ⟨s', rest⟩ := ih _ (left ▸ less rfl) calm' rfl
      exact ⟨s', (steps.tail (.drop out going step)).trans rest⟩

/-- The reader is led through, and always given what it asks for. -/
theorem exists_ended (p : Reading ε α) {r : Relay} (calm : r.Calm false) (c : Cursor) :
    ∃ s out, Steps ⟨r, .reading p c⟩ ⟨s, .ended out⟩ := by
  induction p generalizing r c with
  | done a =>
    obtain ⟨s, rest⟩ := exists_ended_of_draining (.ok a : Except ε α) calm
    exact ⟨s, _, rest.head (.succeed r a c)⟩
  | fail e =>
    obtain ⟨s, rest⟩ := exists_ended_of_draining (.error e : Except ε α) calm.cancel
    exact ⟨s, _, rest.head (.fail e c (.cancel r))⟩
  | push t next ih =>
    obtain ⟨s, out, rest⟩ := ih calm (c.push t)
    exact ⟨s, out, rest.head (.push r t next c)⟩
  | pop next ih =>
    cases holds : c.holds with
    | true =>
      obtain ⟨s, out, rest⟩ := ih c.pop.1 calm c.pop.2
      exact ⟨s, out, rest.head (.pop r next holds)⟩
    | false =>
      obtain ⟨s, item, r', prepares, step, calm', -⟩ := calm.gives
      have wants : (Phase.reading (.pop next) c).wants = true := by simp [Phase.wants, holds]
      have steps := steps_of_prepares prepares wants
      obtain ⟨s', out, rest⟩ := ih _ calm' (c.before item.toList).pop.2
      exact ⟨s', out, (steps.tail (.take next holds step)).trans rest⟩

/-- **A call comes to what its reader comes to on the tokens of the text**, and to nothing else. -/
theorem completes_iff (source : String) (p : Reading ε α) :
    Completes source p out ↔ out = (p.run (Cursor.ofTokens (lex source))).1 := by
  have sound : Sound (p.run (Cursor.ofTokens (lex source))).1 (start source p) :=
    .reading rfl (Relay.sound_start source) rfl
  have eq : ∀ {out}, Completes source p out → out = (p.run (Cursor.ofTokens (lex source))).1 := by
    rintro out ⟨r, steps⟩
    cases steps.sound sound
    rfl
  refine ⟨eq, ?_⟩
  rintro rfl
  obtain ⟨r, out, steps⟩ := exists_ended p (.ready (Scanner.start source)) (Cursor.ofTokens [])
  have completes : Completes source p out := ⟨r, steps⟩
  exact eq completes ▸ completes

end Call

namespace Entry

/-- Read with a worker beside the reader, a text may come to `out`; any amount of fuel will do that
is more than the text has tokens. -/
def Completes (entry : Entry) (source : String) (options : Options) (out : Except Failure Node) :
    Prop :=
  ∃ fuel x, (lex source).length < fuel ∧ Call.Completes source (entry.reader fuel Tray.empty) x ∧
    out = match x with
      | .ok (n, _) => .ok n
      | .error (e, _) => .error (e.report source options.snippetWidth)

variable {source : String} {out : Except Failure Node}

/-- On the tokens of a text a reader does the same with any fuel that is enough. -/
theorem run_reader (entry : Entry) {fuel : Nat} (enough : (lex source).length < fuel) :
    ((entry.reader fuel Tray.empty).run (Cursor.ofTokens (lex source))).1
      = ((entry.reader ↑((lex source).length + 1) Tray.empty).along
          (Row.ofTokens (lex source))).1 := by
  have row := (entry.reading source).along_ofTokens (lex source)
  exact (entry.run_of_fuel source enough).2.trans (congrArg Prod.fst row).symm

/-- **A text comes to the same whether its tokens are scanned beside the reader or by it.** -/
theorem completes_iff (entry : Entry) (options : Options) :
    entry.Completes source options out ↔
      out = entry.read source { options with mode := .inline } := by
  rw [entry.read_eq "", Source.result_session]
  simp only [Completes, Call.completes_iff]
  constructor
  · rintro ⟨fuel, x, enough, rfl, rfl⟩
    rw [entry.run_reader enough]
    rcases (entry.reader _ _).along _ with ⟨⟨e, k⟩ | ⟨n, k⟩, s⟩ <;> rfl
  · rintro rfl
    refine ⟨_, _, Nat.lt_succ_self _, rfl, ?_⟩
    rw [entry.run_reader (Nat.lt_succ_self _)]
    rcases (entry.reader _ _).along _ with ⟨⟨e, k⟩ | ⟨n, k⟩, s⟩ <;> rfl

end Entry

/-- **Whether a text is scanned beside its reader or by it makes no difference.**  Every entry comes
to the same, in every order of the single steps; and while nobody asks to stop, what is given on the
way are the tokens of the text in order, and nothing behind the last one. -/
theorem Source.threaded_eq_inline (source : String) :
    (∀ (entry : Entry) (options : Options) (out : Except Failure Node),
      entry.Completes source options out ↔
        out = entry.read source { options with mode := .inline }) ∧
    ∀ items : List (Option Token),
      (∃ r, Relay.Runs (Relay.start source) items r ∧ r.cancelled = false) ↔
        ∃ n, items = (List.range n).map fun i => (lex source)[i]? :=
  ⟨fun entry options _ => entry.completes_iff options, Relay.given_iff source⟩

end QualityRules
