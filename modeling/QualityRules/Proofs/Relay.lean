import QualityRules.Token.Relay

/-!
# Proofs — Relay

What a relay gives while nobody asks to stop: the tokens of the text in their order, and then
nothing for ever, whatever the order of the single steps is and whichever waits time out.

* `Handoff.Step.delivers`: a step of the hand-off takes a token off the way when it is received, and
  only then.
* `Relay.Sound` is what every single step keeps to; `Step.sound` says so, and what is left to give.
* `Runs.sound` and `exists_runs`: a run gives the first tokens of the text, any number of them;
  `given_iff` puts both together.
-/

namespace QualityRules

/-- The items are the first of the tokens `ts`, in order, and nothing behind the last one; the
tokens `us` are left. -/
def Delivers : List (Option Token) → List Token → List Token → Prop
  | [], ts, us => us = ts
  | item :: items, ts, us => item = ts.head? ∧ Delivers items ts.tail us

namespace Delivers

variable {items items' : List (Option Token)} {ts us vs : List Token}

theorem append (h : Delivers items ts us) (k : Delivers items' us vs) :
    Delivers (items ++ items') ts vs := by
  induction items generalizing ts with
  | nil =>
    obtain rfl : us = ts := h
    exact k
  | cons item items ih => exact ⟨h.1, ih h.2⟩

/-- What is delivered is told by how much it is. -/
theorem iff_eq : Delivers items ts us ↔
    items = (List.range items.length).map (fun i => ts[i]?) ∧ us = ts.drop items.length := by
  induction items generalizing ts with
  | nil => simp [Delivers]
  | cons item items ih =>
    rw [Delivers, ih]
    simp [List.range_succ_eq_map, List.head?_eq_getElem?, and_assoc, Function.comp_def]

end Delivers

/-- Whoever pulls a token from a scanner leaves less to scan, also when it is told to stop. -/
theorem Scanner.budget_pull_lt (s : Scanner) (cancelled : Bool) :
    (s.pull cancelled).1.isSome → (s.pull cancelled).2.budget < s.budget := by
  cases finished : s.finished with
  | true => cases cancelled <;> simp [pull, cancel, next, finished]
  | false =>
    cases cancelled with
    | true => simp [pull, cancel, finished, budget]
    | false =>
      rw [pull, if_neg Bool.false_ne_true, next_of_not_finished finished]
      exact fun _ => budget_scan_lt finished

namespace Handoff

/-- The items that an action hands to the consumer. -/
def Action.items : Action → List (Option Token)
  | receive item => [item]
  | _ => []

/-- Unless somebody asks to stop, a step keeps the order of the items and delivers what the consumer
receives. -/
theorem Step.delivers {h k : Handoff} {a : Action} (step : Step h a k) (orderly : h.Orderly)
    (unasked : k.cancelled = false) : k.Orderly ∧ Delivers a.items h.tokens k.tokens := by
  cases a with
  | produce => exact (step.tokens_eq orderly).symm
  | cancel =>
    cases step
    cases unasked
  | receive item =>
    obtain ⟨going, marker⟩ := orderly
    cases step with
    | findEnded => exact ⟨⟨going, nofun⟩, rfl, rfl⟩
    | take p _ c =>
      refine ⟨⟨going, nofun⟩, ?_⟩
      cases item with
      | some t => exact ⟨rfl, rfl⟩
      | none =>
        obtain rfl : p = .ended := marker rfl
        exact ⟨rfl, rfl⟩

end Handoff

theorem Worker.Step.ne_dead {cancelled : Bool} {w w' : Worker} {slot slot' : Slot}
    (step : Worker.Step cancelled w slot w' slot') : w ≠ .dead := by
  cases step <;> nofun

namespace Relay

/-- The tokens that a relay has yet to give; it has given its last one when it is closed. -/
def pending (r : Relay) : List Token := if r.closed then [] else r.handoff.tokens

/-- The end marker is the last item, an asker looks once more only when the worker is dead, and none
asks who was given the end marker. -/
structure Sound (r : Relay) : Prop where
  orderly : r.handoff.Orderly
  lone : r.asker = .alone → r.worker = .dead
  asked : r.asker ≠ .idle → r.closed = false

variable {r r' : Relay} {a : Action} {items : List (Option Token)} {source : String}

theorem sound_start (source : String) : (start source).Sound where
  orderly := ⟨rfl, nofun⟩
  lone := nofun
  asked := fun asks => absurd rfl asks

/-- Who looks once more does so beside a dead worker, which takes no step. -/
theorem Step.lone (step : Step r a r') (lone : r.asker = .alone → r.worker = .dead) :
    r'.asker = .alone → r'.worker = .dead := by
  cases step with
  | work step => exact fun alone => absurd (lone alone) step.ne_dead
  | ask | take | timeOut | findAlive | takeLast | findNothing => nofun
  | giveClosed | cancel => exact lone
  | findDead late dead => exact fun _ => dead

theorem Step.asked (step : Step r a r') (asked : r.asker ≠ .idle → r.closed = false) :
    r'.asker ≠ .idle → r'.closed = false := by
  cases step with
  | work | giveClosed | cancel => exact asked
  | ask _ isOpen => exact fun _ => isOpen
  | take | takeLast | findNothing => exact fun asks => absurd rfl asks
  | timeOut asks | findAlive asks | findDead asks => exact fun _ => asked (by simp [asks])

/-- A single step keeps a relay sound unless somebody asks to stop, and delivers what it gives. -/
theorem Step.sound (step : Step r a r') (sound : r.Sound) (unasked : r'.cancelled = false) :
    r'.Sound ∧ Delivers a.items r.pending r'.pending := by
  have lone := step.lone sound.lone
  have asked := step.asked sound.asked
  have seen := step.refines sound.lone
  -- a step that gives nothing takes nothing off the way
  have silent : r'.closed = r.closed →
      r'.handoff = r.handoff ∨ Handoff.Step r.handoff .produce r'.handoff →
        r'.Sound ∧ r'.pending = r.pending := by
    rintro same (eq | step)
    · exact ⟨⟨eq ▸ sound.orderly, lone, asked⟩, by rw [pending, pending, same, eq]⟩
    · obtain ⟨orderly, tokens⟩ := step.delivers sound.orderly unasked
      have tokens : r'.handoff.tokens = r.handoff.tokens := tokens
      exact ⟨⟨orderly, lone, asked⟩, by rw [pending, pending, same, tokens]⟩
  cases a with
  | work => exact silent (by cases step <;> rfl) seen
  | ask => exact silent (by cases step; rfl) seen
  | cancel =>
    cases step
    exact nomatch unasked
  | give item =>
    rcases seen with ⟨closed, rfl, rfl⟩ | ⟨asks, closes, step⟩
    · exact ⟨sound, by simp [Action.items, Delivers, pending, closed]⟩
    · obtain ⟨orderly, head, tail⟩ := step.delivers sound.orderly unasked
      have tail : r'.handoff.tokens = r.handoff.tokens.tail := tail
      refine ⟨⟨orderly, lone, asked⟩, ?_⟩
      rw [pending, pending, sound.asked asks, closes, tail]
      rw [head]
      cases r.handoff.tokens <;> simp [Action.items, Delivers]

/-- **While nobody asks to stop a relay gives the tokens of the text in order**, and then nothing. -/
theorem Runs.sound (run : Runs (start source) items r) (unasked : r.cancelled = false) :
    r.Sound ∧ Delivers items (lex source) r.pending := by
  induction run with
  | refl => exact ⟨sound_start source, rfl⟩
  | @more items s s' a run step ih =>
    have before : s.cancelled = false := by
      cases step <;> first | exact unasked | exact nomatch unasked
    obtain ⟨sound, delivered⟩ := ih before
    obtain ⟨sound', delivers⟩ := step.sound sound unasked
    exact ⟨sound', delivered.append delivers⟩

/-! ### Any number of items can be given -/

/-- The relay stands between two items and nobody asks: the worker is about to scan, or the end
marker was given. -/
inductive Calm (cancelled : Bool) : Relay → Prop
  | ready (s : Scanner) : Calm cancelled ⟨.scanning s, none, cancelled, .idle, false⟩
  | spent : Calm cancelled ⟨.leaving, none, cancelled, .idle, true⟩

theorem Calm.cancelled_eq {cancelled : Bool} (calm : Calm cancelled r) :
    r.cancelled = cancelled := by
  cases calm <;> rfl

/-- What is left to scan. -/
def budget (r : Relay) : Nat :=
  match r.worker with
  | .scanning s => s.budget
  | _ => 0

/-- Steps that give nothing, with somebody asking among them. -/
inductive Prepares (r : Relay) : Relay → Prop
  | refl : Prepares r r
  | work {s s' : Relay} (before : Prepares r s) (step : Step s .work s') : Prepares r s'
  | ask {s s' : Relay} (before : Prepares r s) (step : Step s .ask s') : Prepares r s'

theorem Prepares.runs {s s' : Relay} (prepares : Prepares s s') (run : Runs r items s) :
    Runs r items s' := by
  induction prepares with
  | refl => exact run
  | work _ step ih => simpa [Action.items] using ih.more step
  | ask _ step ih => simpa [Action.items] using ih.more step

/-- Behind some steps a calm relay gives an item and is calm again; behind a token less is left to
scan. -/
theorem Calm.gives {cancelled : Bool} (calm : Calm cancelled r) :
    ∃ s item r', Prepares r s ∧ Step s (.give item) r' ∧ Calm cancelled r' ∧
      (item.isSome → r'.budget < r.budget) := by
  cases calm with
  | spent => exact ⟨_, none, _, .refl, .giveClosed rfl rfl, .spent, nofun⟩
  | ready s =>
    have scan : Step ⟨.scanning s, none, cancelled, .idle, false⟩ .work
        ⟨.scanned (s.pull cancelled), none, cancelled, .idle, false⟩ := .work (.scan s none)
    have less := s.budget_pull_lt cancelled
    rcases out : s.pull cancelled with ⟨_ | t, s'⟩
    · rw [out] at scan
      exact ⟨_, none, _, ((Prepares.refl.work scan).work (.work .mark)).ask (.ask rfl rfl),
        .take rfl rfl, .spent, nofun⟩
    · rw [out] at scan less
      exact ⟨_, some t, _, ((Prepares.refl.work scan).work (.work (.put t s'))).ask (.ask rfl rfl),
        .take rfl rfl, .ready s', less⟩

theorem exists_runs (source : String) (n : Nat) :
    ∃ items r, items.length = n ∧ Runs (start source) items r ∧ Calm false r := by
  induction n with
  | zero => exact ⟨[], start source, rfl, .refl, .ready _⟩
  | succ n ih =>
    obtain ⟨items, r, length, run, calm⟩ := ih
    obtain ⟨s, item, r', prepares, step, calm', -⟩ := calm.gives
    exact ⟨items ++ [item], r', by simp [length], (prepares.runs run).more step, calm'⟩

/-- **The items that can be given while nobody asks to stop** are the first tokens of the text, any
number of them, and nothing behind the last one. -/
theorem given_iff (source : String) (items : List (Option Token)) :
    (∃ r, Runs (start source) items r ∧ r.cancelled = false) ↔
      ∃ n, items = (List.range n).map fun i => (lex source)[i]? := by
  have eq : ∀ {items r}, Runs (start source) items r → r.cancelled = false →
      items = (List.range items.length).map fun i => (lex source)[i]? :=
    fun run unasked => (Delivers.iff_eq.mp (run.sound unasked).2).1
  constructor
  · rintro ⟨r, run, unasked⟩
    exact ⟨items.length, eq run unasked⟩
  · rintro ⟨n, rfl⟩
    obtain ⟨items, r, rfl, run, calm⟩ := exists_runs source n
    rw [← eq run calm.cancelled_eq]
    exact ⟨r, run, calm.cancelled_eq⟩

end Relay

end QualityRules
