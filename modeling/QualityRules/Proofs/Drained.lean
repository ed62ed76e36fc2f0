import Mathlib.Logic.Relation
import QualityRules.Proofs.Cancelled
import QualityRules.Read.Call

/-!
# Proofs — Drained

What a drain leaves behind.  Whoever drains a relay drops tokens up to the end of the text, or until
there are none; the end marker may still be missing then.  The worker has nothing else to put, and
finds the slot empty, so it ends by itself.  And nobody waits in vain: whoever asks can be given
something, so that every drain can return.

* `Worker.owes`: what a worker has yet to put; `Relay.Drained`: at most the end marker, into an
  empty slot.  `Step.drained`: that stays so.
* `Runs.drained`: a run is drained once the end of the text or nothing was given.
* `exists_gives`: from every state on some item can be given; `exists_drains`: a drain can return.
* `Relay.Runs.drain_frees` puts all of it together; `Call.Steps.closes` says it of whole calls.
-/

namespace QualityRules

namespace Worker

/-- The items that a worker has yet to put, unless somebody asks it to stop. -/
def owes : Worker → List (Option Token)
  | .scanning s => s.tokens.map some ++ [none]
  | .putting t s | .late t s => some t :: s.tokens.map some ++ [none]
  | .marking | .markingLate => [none]
  | .leaving | .dead => []

/-- The worker waits for an empty slot. -/
def Waits : Worker → Prop
  | .putting _ _ | .marking => True
  | _ => False

/-- A worker whose scanner gives a token holds it next. -/
theorem Step.pulls {cancelled : Bool} {s s' : Scanner} {t : Token}
    (out : s.pull cancelled = (some t, s')) (slot : Slot) :
    Step cancelled (.scanning s) slot (.putting t s') slot := by
  have step : Step cancelled (.scanning s) slot _ slot := .scan s slot
  rwa [out] at step

end Worker

/-- A scanner without tokens is finished. -/
theorem Scanner.finished_of_tokens {s : Scanner} (h : s.tokens = []) : s.finished = true := by
  by_contra going
  rw [Bool.not_eq_true] at going
  rw [tokens_of_not_finished going] at h
  cases h

namespace Relay

/-- The worker has at most the end marker to put and finds the slot empty then; no token waits. -/
structure Drained (r : Relay) : Prop where
  owes : r.worker.owes ≠ [] → r.worker.owes = [none] ∧ r.slot = none
  slot : ∀ t, r.slot ≠ some (some t)

/-- An item that ends a drain: the end of the text, or no token. -/
def Ends (item : Option Token) : Prop := ∀ t ∈ item, t.kind = .eof

/-- A drain of the relay `r` that returned `last`, and anything but the giving of items behind it;
what was given before is dropped. -/
def Drains (r : Relay) (last : Option Token) (s : Relay) : Prop :=
  ∃ dropped, Runs r (dropped ++ [last]) s ∧ (∀ item ∈ dropped, ¬ Ends item) ∧ Ends last

/-- Steps of the worker alone. -/
abbrev Works : Relay → Relay → Prop :=
  Relation.ReflTransGen fun r r' => ∃ worker slot,
    Worker.Step r.cancelled r.worker r.slot worker slot ∧ r' = { r with worker, slot }

variable {r r' s : Relay} {a : Action} {items items' : List (Option Token)} {source : String}
  {ts us : List Token}

/-- Two runs one behind the other are a run. -/
theorem Runs.trans (run : Runs r items s) (next : Runs s items' r') :
    Runs r (items ++ items') r' := by
  induction next with
  | refl => rwa [List.append_nil]
  | more _ step ih => exact List.append_assoc .. ▸ ih.more step

/-! ### A drained relay stays drained -/

/-- What the worker of a drained relay does: it finds no more tokens, it waits to put the end marker
or puts it, or it leaves. -/
theorem Drained.work {worker : Worker} {slot : Slot} (drained : r.Drained)
    (step : Worker.Step r.cancelled r.worker r.slot worker slot) :
    Drained { r with worker, slot } := by
  obtain ⟨w, full, cancelled, asker, closed⟩ := r
  obtain ⟨owes, unfilled⟩ := drained
  cases step with
  | scan s =>
    obtain ⟨last, empty⟩ := owes (by simp [Worker.owes])
    have none : s.tokens = [] := by simpa [Worker.owes] using last
    rw [Scanner.pull_of_finished (Scanner.finished_of_tokens none)]
    exact ⟨fun _ => ⟨rfl, empty⟩, unfilled⟩
  | @breakOff s _ going =>
    obtain ⟨last, -⟩ := owes (by simp [Worker.owes])
    have none : s.tokens = [] := by simpa [Worker.owes] using last
    exact nomatch (Scanner.finished_of_tokens none).symm.trans going
  | put | timeOut | putAgain | giveUp =>
    obtain ⟨last, -⟩ := owes (by simp [Worker.owes])
    simp [Worker.owes] at last
  | mark => exact ⟨fun some => absurd rfl some, by simp⟩
  | markTimeOut | markAgain => exact ⟨fun _ => ⟨rfl, (owes nofun).2⟩, unfilled⟩
  | markGiveUp | leave => exact ⟨fun some => absurd rfl some, unfilled⟩

/-- Nothing that anybody does brings another token into a drained relay. -/
theorem Step.drained (step : Step r a r') (drained : r.Drained) : r'.Drained := by
  cases step with
  | work step => exact drained.work step
  | take | takeLast =>
    exact ⟨fun owes => ⟨(drained.owes owes).1, rfl⟩, fun _ => (Option.some_ne_none _).symm⟩
  | ask | giveClosed | timeOut | findAlive | findDead | findNothing | cancel =>
    exact ⟨drained.owes, drained.slot⟩

/-- A relay stays drained. -/
theorem Runs.drained_of_drained (run : Runs r items s) (drained : r.Drained) : s.Drained := by
  induction run with
  | refl => exact drained
  | more _ step ih => exact step.drained ih

/-! ### A drain leaves a drained relay -/

end Relay

/-- Behind the last token of a text nothing begins it. -/
theorem Begins.nil_of_terminal {source : String} {us vs : List Token} {t : Token}
    (h : Begins (lex source) (us ++ vs)) (mem : t ∈ us) (terminal : t.kind.isTerminal = true) :
    vs = [] := by
  -- all but the last one of the tokens that begin a text are others
  have others : ∀ u ∈ (us ++ vs).dropLast, u.kind.isTerminal = false := by
    generalize us ++ vs = ws at h
    cases h with
    | first first =>
      obtain ⟨ts, last, eq, others, -⟩ := lex_eq source
      rw [eq, List.prefix_concat_iff] at first
      rcases first with rfl | first
      · simpa using others
      · exact fun u mem => others u (first.subset (List.dropLast_subset _ mem))
    | stopped _ going _ => simpa using going
  rcases List.eq_nil_or_concat vs with rfl | ⟨vs, v, rfl⟩
  · rfl
  · rw [List.concat_eq_append, ← List.append_assoc, List.dropLast_concat] at others
    exact nomatch (others t (List.mem_append_left _ mem)).symm.trans terminal

namespace Handoff

variable {h k : Handoff}

/-- The producer has ended, and the slot is empty. -/
def Spent (h : Handoff) : Prop := h.producer = .ended ∧ h.slot = none

/-- A producer that has ended does nothing. -/
theorem Spent.not_produce (spent : h.Spent) : ¬ Step h .produce k := by
  obtain ⟨p, slot, c⟩ := h
  obtain ⟨rfl, rfl⟩ := spent
  nofun

/-- Whoever receives the end marker finds that the producer has ended. -/
theorem Step.spent (step : Step h (.receive none) k) (marked : h.slot = some none →
    h.producer = .ended) : k.Spent := by
  cases step with
  | take => exact ⟨marked rfl, rfl⟩
  | findEnded => exact ⟨rfl, rfl⟩

end Handoff

namespace Relay

variable {r r' s : Relay} {a : Action} {items items' : List (Option Token)} {source : String}
  {ts us : List Token} {t : Token}

/-- Once the end of the text was given no token is on its way and none is left to scan. -/
theorem Clean.drained (clean : r.Clean (lex source) us) (mem : t ∈ us)
    (terminal : t.kind.isTerminal = true) : r.Drained := by
  obtain ⟨worker, slot, cancelled, asker, closed⟩ := r
  obtain ⟨begins, goesOn, marked⟩ := clean.handoff
  obtain ⟨waits, holds⟩ := List.append_eq_nil_iff.mp (begins.nil_of_terminal mem terminal)
  have unfilled : ∀ t, slot ≠ some (some t) := by
    rintro t rfl
    cases waits
  have empty : worker.producer ≠ .ended → slot = none := by
    intro going
    cases slot with
    | none => rfl
    | some item =>
      cases item with
      | none => exact absurd (marked rfl) going
      | some t => exact absurd rfl (unfilled t)
  refine ⟨fun owes => ?_, unfilled⟩
  cases worker with
  | scanning s =>
    have finished : s.finished = true := by
      rcases goesOn with finished | ⟨-, others⟩
      · exact finished
      · exact nomatch (others t (List.mem_append_left _ mem)).symm.trans terminal
    exact ⟨by rw [Worker.owes, Scanner.tokens_of_finished finished]; rfl, empty nofun⟩
  | putting | late => cases holds
  | marking | markingLate => exact ⟨rfl, empty nofun⟩
  | leaving | dead => exact absurd rfl owes

/-- Whoever was given nothing was given the end marker, or found that the worker is dead: the worker
has put its last item, and the slot is empty. -/
theorem Step.spent (step : Step r a r') (clean : r.Clean ts us)
    (spent : r.closed = true → r.handoff.Spent) : r'.closed = true → r'.handoff.Spent := by
  intro closed
  have seen := step.refines clean.lone
  have stepped := step.clean clean
  have silent : r'.closed = r.closed →
      r'.handoff = r.handoff ∨ Handoff.Step r.handoff .produce r'.handoff → r'.handoff.Spent := by
    rintro same (eq | step)
    · exact eq ▸ spent (same ▸ closed)
    · exact absurd step (spent (same ▸ closed)).not_produce
  cases a with
  | work | ask => exact silent stepped.2 seen
  | cancel =>
    cases step
    exact spent closed
  | give item =>
    obtain rfl : item = none := Option.isNone_iff_eq_none.mp (stepped.2.1 ▸ closed)
    rcases seen with ⟨-, -, rfl⟩ | ⟨-, -, step⟩
    · exact spent closed
    · exact step.spent clean.handoff.marked

/-- A relay that was closed has a producer that has ended. -/
theorem Runs.spent (run : Runs (start source) items r) : r.closed = true → r.handoff.Spent := by
  induction run with
  | refl => nofun
  | more run step ih =>
    obtain ⟨us, -, -, clean, -⟩ := run.clean
    exact step.spent clean ih

/-- Once the producer has ended nothing is left to drain. -/
theorem drained_of_spent (spent : r.handoff.Spent) : r.Drained := by
  obtain ⟨worker, slot, cancelled, asker, closed⟩ := r
  obtain ⟨producer, rfl⟩ := spent
  refine ⟨fun owes => ?_, by simp⟩
  cases worker with
  | leaving | dead => exact absurd rfl owes
  | _ => cases producer

/-- A run is drained once it gave the end of the text, or nothing. -/
theorem Runs.drained {item : Option Token} (run : Runs (start source) items r) (mem : item ∈ items)
    (ends : Ends item) : r.Drained := by
  obtain ⟨us, later, rfl, clean, closed⟩ := run.clean
  cases item with
  | none =>
    have pos : 0 < later := by
      rcases List.mem_append.mp mem with mem | mem
      · simp at mem
      · exact Nat.pos_of_ne_zero (List.mem_replicate.mp mem).1
    exact drained_of_spent (run.spent (closed.mpr pos))
  | some t =>
    have given : t ∈ us := by simpa using mem
    exact clean.drained given (by rw [ends t rfl]; rfl)

/-! ### Whoever asks can be given something -/

/-- Left to itself, the worker comes to put an item into an empty slot, or to its end. -/
theorem exists_works (r : Relay) :
    ∃ s, Works r s ∧ s.asker = r.asker ∧ (s.slot.isSome ∨ s.worker = .dead) := by
  obtain ⟨worker, slot, cancelled, asker, closed⟩ := r
  cases slot with
  | some item => exact ⟨_, .refl, rfl, .inl rfl⟩
  | none =>
  -- what is left to do before the worker puts something or ends is a scan or a late answer
  have leaves : ∃ s, Works ⟨.leaving, none, cancelled, asker, closed⟩ s ∧
      s.asker = asker ∧ (s.slot.isSome ∨ s.worker = .dead) :=
    ⟨_, .single ⟨_, _, .leave none, rfl⟩, rfl, .inr rfl⟩
  have marks : ∃ s, Works ⟨.marking, none, cancelled, asker, closed⟩ s ∧
      s.asker = asker ∧ (s.slot.isSome ∨ s.worker = .dead) :=
    ⟨_, .single ⟨_, _, .mark, rfl⟩, rfl, .inl rfl⟩
  have puts : ∀ t s', ∃ s, Works ⟨.putting t s', none, cancelled, asker, closed⟩ s ∧
      s.asker = asker ∧ (s.slot.isSome ∨ s.worker = .dead) :=
    fun t s' => ⟨_, .single ⟨_, _, .put t s', rfl⟩, rfl, .inl rfl⟩
  cases worker with
  | scanning s =>
    rcases out : s.pull cancelled with ⟨_ | t, s'⟩
    · obtain ⟨e, works, rest⟩ := marks
      have scan : Worker.Step cancelled (.scanning s) none _ none := .scan s none
      rw [out] at scan
      exact ⟨e, works.head ⟨_, _, scan, rfl⟩, rest⟩
    · obtain ⟨e, works, rest⟩ := puts t s'
      exact ⟨e, works.head ⟨_, _, .pulls out none, rfl⟩, rest⟩
  | putting t s => exact puts t s
  | marking => exact marks
  | leaving => exact leaves
  | dead => exact ⟨_, .refl, rfl, .inr rfl⟩
  | late t s =>
    cases asked : cancelled with
    | false =>
      obtain ⟨e, works, rest⟩ := puts t s
      exact ⟨e, asked ▸ works.head ⟨_, _, .putAgain asked t s none, rfl⟩, rest⟩
    | true =>
      obtain ⟨e, works, rest⟩ := marks
      exact ⟨e, asked ▸ works.head ⟨_, _, .giveUp asked t s none, rfl⟩, rest⟩
  | markingLate =>
    cases asked : cancelled with
    | false =>
      obtain ⟨e, works, rest⟩ := marks
      exact ⟨e, asked ▸ works.head ⟨_, _, .markAgain asked none, rfl⟩, rest⟩
    | true =>
      obtain ⟨e, works, rest⟩ := leaves
      exact ⟨e, asked ▸ works.head ⟨_, _, .markGiveUp asked none, rfl⟩, rest⟩

/-- Steps of the worker alone give nothing. -/
theorem Works.prepares (works : Works s r') (prepares : Prepares r s) : Prepares r r' := by
  induction works with
  | refl => exact prepares
  | tail _ step ih =>
    obtain ⟨worker, slot, step, rfl⟩ := step
    exact ih.work (.work step)

/-- Whoever looks once more finds an item or none. -/
theorem gives_of_alone (alone : r.asker = .alone) : ∃ item r', Step r (.give item) r' := by
  cases found : r.slot with
  | some item => exact ⟨item, _, .takeLast alone found⟩
  | none => exact ⟨none, _, .findNothing alone found⟩

/-- Where the consumer waits an item is given in the end, whoever asks. -/
theorem Prepares.exists_gives (prepares : Prepares r s) (waits : s.asker = .waiting) :
    ∃ s item r', Prepares r s ∧ Step s (.give item) r' := by
  obtain ⟨e, works, same, full | dead⟩ := s.exists_works
  · obtain ⟨item, full⟩ := Option.isSome_iff_exists.mp full
    exact ⟨e, item, _, works.prepares prepares, .take (same.trans waits) full⟩
  · obtain ⟨item, r', gives⟩ := gives_of_alone (r := { e with asker := .alone }) rfl
    have late := (works.prepares prepares).work (.timeOut (same.trans waits))
    exact ⟨_, item, r', late.work (.findDead rfl dead), gives⟩

/-- **Whoever asks can be given something**, wherever the worker stands. -/
theorem exists_gives (r : Relay) : ∃ s item r', Prepares r s ∧ Step s (.give item) r' := by
  cases asker : r.asker with
  | idle =>
    cases closed : r.closed with
    | true => exact ⟨r, none, r, .refl, .giveClosed asker closed⟩
    | false => exact (Prepares.refl.ask (.ask asker closed)).exists_gives rfl
  | waiting => exact Prepares.refl.exists_gives asker
  | late =>
    by_cases dead : r.worker = .dead
    · obtain ⟨item, r', gives⟩ := gives_of_alone (r := { r with asker := .alone }) rfl
      exact ⟨_, item, r', .work .refl (.findDead asker dead), gives⟩
    · exact (Prepares.refl.work (.findAlive asker dead)).exists_gives rfl
  | alone =>
    obtain ⟨item, r', gives⟩ := gives_of_alone asker
    exact ⟨r, item, r', .refl, gives⟩

/-- The worker of a drained relay can end by itself. -/
theorem Drained.exists_dead (drained : r.Drained) : ∃ s, Works r s ∧ s.worker = .dead := by
  obtain ⟨s, works, -, full | dead⟩ := r.exists_works
  · -- the end marker fills the slot, so it is not missing any more
    have run : Runs r [] s := (works.prepares .refl).runs .refl
    have drained := run.drained_of_drained drained
    obtain ⟨worker, slot, cancelled, asker, closed⟩ := s
    have put : worker.owes = [] := by
      by_contra owes
      exact Option.isSome_iff_ne_none.mp full (drained.owes owes).2
    cases worker with
    | leaving => exact ⟨_, works.tail ⟨_, _, .leave slot, rfl⟩, rfl⟩
    | dead => exact ⟨_, works, rfl⟩
    | _ => simp [Worker.owes] at put
  · exact ⟨s, works, dead⟩

/-! ### A drain can return -/

/-- The tokens that a relay can still give, at most. -/
def load (r : Relay) : Nat :=
  r.slot.join.toList.length + match r.worker with
    | .scanning s => s.budget
    | .putting _ s | .late _ s => s.budget + 1
    | _ => 0

/-- A step of the worker loads nothing on. -/
theorem load_work_le {worker : Worker} {slot : Slot}
    (step : Worker.Step r.cancelled r.worker r.slot worker slot) :
    load { r with worker, slot } ≤ r.load := by
  obtain ⟨w, full, cancelled, asker, closed⟩ := r
  cases step with
  | scan s =>
    have less := s.budget_pull_lt cancelled
    rcases out : s.pull cancelled with ⟨_ | t, s'⟩
    · simp [load, Worker.scanned]
    · rw [out] at less
      have less : s'.budget < s.budget := less rfl
      simp [load, Worker.scanned]
      omega
  | @breakOff s asked going => simp [load, Scanner.budget, going]
  | _ => simp [load] <;> omega

/-- A step loads nothing on, and a token that is given is loaded off. -/
theorem Step.load_le (step : Step r a r') :
    (a.items.filterMap id).length + r'.load ≤ r.load := by
  cases step with
  | work step => simpa [Action.items] using load_work_le step
  | take _ full | takeLast _ full =>
    rw [load, load, full]
    simp only [given, Action.items]
    cases ‹Option Token› <;> simp
  | _ => simp [Action.items, load, given]

/-- What is given in a run is no longer to give. -/
theorem Runs.load_le (run : Runs r items s) : (items.filterMap id).length + s.load ≤ r.load := by
  induction run with
  | refl => simp
  | more _ step ih =>
    have := step.load_le
    rw [List.filterMap_append, List.length_append]
    omega

/-- **A drain can return**, from wherever it starts. -/
theorem exists_drains (r : Relay) : ∃ last s, r.Drains last s := by
  -- on what can still be given, which is less behind every token that is dropped
  induction left : r.load using Nat.strong_induction_on generalizing r with
  | h n ih =>
    obtain ⟨s, item, r', prepares, step⟩ := r.exists_gives
    have run : Runs r [item] r' := (prepares.runs .refl).more step
    by_cases last : Ends item
    · exact ⟨item, r', [], run, List.forall_mem_nil _, last⟩
    · obtain ⟨t, rfl, going⟩ : ∃ t, item = some t ∧ t.kind ≠ .eof := by
        simpa [Ends] using last
      have less : r'.load < n := by
        have := run.load_le
        simp only [List.filterMap_cons, id_eq, List.filterMap_nil, List.length_singleton] at this
        omega
      obtain ⟨e, s', dropped, drain, others, ends⟩ := ih _ less r' rfl
      exact ⟨e, s', some t :: dropped, run.trans drain, List.forall_mem_cons.mpr ⟨last, others⟩,
        ends⟩

/-- **Closing never leaves the worker stuck**, in no order of the single steps, whenever somebody
asks to stop and whichever waits time out.  From every state on a drain can return.  In every state
behind that the worker has at most the end marker to put, finds the slot empty then, and can end by
itself.  And whenever the one who asks and the worker both wait, an item goes into the slot or out of
it. -/
theorem Runs.drain_frees {before : List (Option Token)} (reached : Runs (start source) before r) :
    (∃ last s, r.Drains last s) ∧
    (∀ last s items s', r.Drains last s → Runs s items s' →
      s'.Drained ∧ ∃ e, Works s' e ∧ e.worker = .dead) ∧
    (r.asker = .waiting → r.worker.Waits →
      (∃ item s, Step r (.give item) s) ∨ ∃ s, Step r .work s ∧ r.slot = none ∧ s.slot ≠ none) := by
  refine ⟨r.exists_drains, fun last s items s' drain later => ?_, fun asks waits => ?_⟩
  · obtain ⟨dropped, run, -, ends⟩ := drain
    have run := reached.trans run
    have given : last ∈ before ++ (dropped ++ [last]) := by simp
    have drained := later.drained_of_drained (run.drained given ends)
    exact ⟨drained, drained.exists_dead⟩
  · cases found : r.slot with
    | some item => exact .inl ⟨item, _, .take asks found⟩
    | none =>
      obtain ⟨worker, slot, cancelled, asker, closed⟩ := r
      obtain rfl : slot = none := found
      refine .inr ?_
      cases worker with
      | putting t s => exact ⟨_, .work (.put t s), rfl, nofun⟩
      | marking => exact ⟨_, .work .mark, rfl, nofun⟩
      | _ => exact waits.elim

/-- In a text of one name both wait at the full slot, and a drain drops the name. -/
theorem Runs.drain_frees_brimful :
    ∃ name r s e, Runs (start "A") [] r ∧ r.slot = some (some name) ∧ r.asker = .waiting ∧
      r.worker.Waits ∧ r.Drains (some e) s ∧ s.worker.owes = [none] ∧
      ((∃ item s, Step r (.give item) s) ∨
        ∃ s, Step r .work s ∧ r.slot = none ∧ s.slot ≠ none) ∧
      s.Drained ∧ ∃ e, Works s e ∧ e.worker = .dead := by
  let behind : Pos := ⟨1, 1, 2⟩
  let name : Token := ⟨.ident, "A", .origin, behind⟩
  let last : Token := ⟨.eof, "", behind, behind⟩
  let ends : Scanner := ⟨[], behind, true⟩
  have first : (Scanner.start "A").pull false = (some name, ⟨[], behind, false⟩) := by
    decide +kernel
  have second : (⟨[], behind, false⟩ : Scanner).pull false = (some last, ends) := by
    decide +kernel
  have asks : Runs (start "A") [] { start "A" with asker := .waiting } :=
    Runs.refl.more (.ask rfl rfl)
  have fills : Runs (start "A") [] ⟨.putting last ends, some (some name), false, .waiting, false⟩ :=
    ((asks.more (.work (.pulls first none))).more (.work (.put _ _))).more
      (.work (.pulls second _))
  have drops : Runs ⟨.putting last ends, some (some name), false, .waiting, false⟩
      [some name, some last] ⟨.scanning ends, none, false, .idle, false⟩ :=
    (((Runs.refl.more (.take rfl rfl)).more (.work (.put _ _))).more (.ask rfl rfl)).more
      (.take rfl rfl)
  have drain := show Drains _ (some last) _ from
    ⟨[some name], drops, by simp [Ends, name], by simp [Ends, last]⟩
  obtain ⟨-, drained, moves⟩ := Runs.drain_frees fills
  exact ⟨name, _, _, last, fills, rfl, rfl, trivial, drain, rfl, moves rfl trivial,
    drained _ _ _ _ drain .refl⟩

end Relay

namespace Call

variable {ε α : Type} {p : Reading ε α} {x y : Call ε α} {source : String}

/-- The tokens reach the reader by a run of the relay; once all are dropped the relay is drained. -/
def Closes (source : String) (x : Call ε α) : Prop :=
  match x.phase with
  | .reading _ _ | .draining _ => ∃ items, Relay.Runs (Relay.start source) items x.relay
  | .joining _ | .ended _ => x.relay.Drained

/-- **A step of a call keeps it on the way to a drained relay.** -/
theorem Step.closes (step : Step x y) (closes : Closes source x) : Closes source y := by
  cases step with
  | work phase step =>
    cases phase with
    | reading | draining =>
      obtain ⟨items, run⟩ := closes
      exact ⟨_, run.more step⟩
    | joining | ended => exact Relay.Step.drained step closes
  | @ask _ _ phase wants step =>
    cases phase with
    | reading | draining =>
      obtain ⟨items, run⟩ := closes
      exact ⟨_, run.more step⟩
    | joining | ended => exact nomatch wants
  | pop | push | succeed => exact closes
  | take _ _ step | fail _ _ step | drop _ _ step =>
    obtain ⟨items, run⟩ := closes
    exact ⟨_, run.more step⟩
  | dropLast out last step =>
    obtain ⟨items, run⟩ := closes
    exact (run.more step).drained (by simp [Relay.Action.items]) last
  | join r out =>
    have drained : r.Drained := closes
    exact ⟨drained.owes, drained.slot⟩

/-- **Whatever its reader came to, a call that waits for the worker does not wait in vain**: the
worker can end by itself, also when the wait was given up. -/
theorem Steps.closes (steps : Steps (start source p) x) :
    match x.phase with
    | .joining _ | .ended _ => ∃ e, x.relay.Works e ∧ e.worker = .dead
    | _ => True := by
  have closes : Closes source x := by
    induction steps with
    | refl => exact ⟨[], .refl⟩
    | tail _ step ih => exact step.closes ih
  obtain ⟨r, phase⟩ := x
  cases phase with
  | reading | draining => trivial
  | joining | ended => exact Relay.Drained.exists_dead closes

end Call

end QualityRules
