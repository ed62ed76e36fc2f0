import QualityRules.Proofs.Relay
import QualityRules.Proofs.Tokens

/-!
# Proofs — Cancelled

What a relay gives when somebody may ask to stop at any point: the first tokens of the text, and
behind them at most the word that the scanner was told to stop.  A token may be dropped on its way,
but none that comes behind it is given then.

* `Begins`: the first tokens of a text, with that word behind them or without it.
* `Handoff.Clean`: what was received and what is on its way begins the text, and whoever scans on
  scans on behind it.  Each step keeps to that (`Step.clean`).
* `Relay.Runs.clean`: so does each run of the single steps, and after an item without a token come
  only such items; `Relay.Runs.given_begins` says what was given.
-/

namespace QualityRules

/-- The word that a scanner was told to stop. -/
def Token.SaysCanceled (t : Token) : Prop := t.kind = .illegal ∧ t.text = "canceled"

/-- The first of the tokens `ts`, with a word behind them that the scanner was told to stop or
without it; the word stands behind no last token of a text. -/
inductive Begins (ts : List Token) : List Token → Prop
  | first {us : List Token} (first : us <+: ts) : Begins ts us
  | stopped {us : List Token} {word : Token} (first : us <+: ts)
      (going : ∀ t ∈ us, t.kind.isTerminal = false) (stops : word.SaysCanceled) :
      Begins ts (us ++ [word])

/-- What was begun was begun before as well. -/
theorem Begins.of_append {ts us vs : List Token} (h : Begins ts (us ++ vs)) : Begins ts us := by
  generalize eq : us ++ vs = ws at h
  cases h with
  | first first => exact .first ((List.prefix_append us vs).trans (eq ▸ first))
  | @stopped ws word first going stops =>
    rcases List.eq_nil_or_concat vs with rfl | ⟨vs, last, rfl⟩
    · rw [List.append_nil] at eq
      exact eq ▸ .stopped first going stops
    · rw [List.concat_eq_append, ← List.append_assoc] at eq
      obtain ⟨rfl, -⟩ := List.append_inj' eq rfl
      exact .first ((List.prefix_append us vs).trans first)

/-- The scanner gives what is left of `ts` behind `us`, none of which is a last token, or it is
finished. -/
def Scanner.Continues (ts us : List Token) (s : Scanner) : Prop :=
  s.finished = true ∨ ts = us ++ s.tokens ∧ ∀ t ∈ us, t.kind.isTerminal = false

/-- A scan goes on with the next token, or says that there is none. -/
theorem Scanner.Continues.scan {ts us : List Token} {s : Scanner} (h : s.Continues ts us)
    (going : s.finished = false) :
    us ++ [s.scan.1] <+: ts ∧ s.scan.2.Continues ts (us ++ [s.scan.1]) := by
  obtain ⟨eq, others⟩ := h.resolve_left (by simp [going])
  have eq : ts = us ++ [s.scan.1] ++ s.scan.2.tokens := by
    rw [eq, tokens_of_not_finished going, List.append_assoc]
    rfl
  refine ⟨⟨_, eq.symm⟩, ?_⟩
  cases last : s.scan.1.kind.isTerminal with
  | true => exact .inl (s.finished_scan.trans last)
  | false =>
    refine .inr ⟨eq, fun t mem => ?_⟩
    rcases List.mem_append.mp mem with mem | mem
    · exact others t mem
    · exact List.mem_singleton.mp mem ▸ last

/-- A scanner that is told to stop says so behind what it gave. -/
theorem Scanner.Continues.stop {ts us : List Token} {s : Scanner} (h : s.Continues ts us)
    (going : s.finished = false) {word : Token} (stops : word.SaysCanceled) :
    Begins ts (us ++ [word]) := by
  obtain ⟨eq, others⟩ := h.resolve_left (by simp [going])
  exact .stopped ⟨_, eq.symm⟩ others stops

/-- What a scanner says that was told to stop is that word. -/
theorem Scanner.saysCanceled_canceled (start stop : Pos) :
    { Scanner.canceled start with stop }.SaysCanceled :=
  ⟨rfl, show Reason.canceled.template.source = "canceled" by decide +kernel⟩

namespace Handoff

/-- The token that the producer holds. -/
def held : Producer → List Token
  | .offering t _ => [t]
  | _ => []

/-- The tokens between scanner and consumer. -/
def carried (h : Handoff) : List Token := h.slot.join.toList ++ held h.producer

/-- Where the producer goes on scanning, it goes on behind the tokens `us` of `ts`. -/
def GoesOn (ts us : List Token) : Producer → Prop
  | .scanning s | .offering _ s => s.Continues ts us
  | .closing | .ended => True

/-- The tokens `us` were received: they and those on the way to the consumer begin the tokens `ts`,
and the producer goes on behind them.  The end marker is the last item that is put. -/
structure Clean (ts us : List Token) (h : Handoff) : Prop where
  begins : Begins ts (us ++ h.carried)
  goesOn : GoesOn ts (us ++ h.carried) h.producer
  marked : h.slot = some none → h.producer = .ended

variable {ts us : List Token} {h k : Handoff}

/-- At the start nothing was received and all tokens are to come. -/
theorem clean_start (s : Scanner) (cancelled : Bool) : Clean s.tokens [] (start s cancelled) where
  begins := .first (List.nil_prefix)
  goesOn := .inr ⟨rfl, List.forall_mem_nil _⟩
  marked := nofun

/-- A step of the producer keeps the tokens on the way in their order, or drops the last of them and
puts no other. -/
theorem Step.clean_produce (step : Step h .produce k) (clean : Clean ts us h) : Clean ts us k := by
  obtain ⟨begins, goesOn, marked⟩ := clean
  cases step with
  | scan s slot c =>
    have unmarked : slot ≠ some none := fun full => absurd (marked full) (by simp)
    have carried : ∀ t s', (⟨.offering t s', slot, c⟩ : Handoff).carried =
        (⟨.scanning s, slot, c⟩ : Handoff).carried ++ [t] := by simp [Handoff.carried, held]
    -- a scan gives the next token, the word that it was told to stop, or nothing
    cases finished : s.finished with
    | true =>
      have none : scanned s c = .closing := by
        cases c <;> simp [scanned, Scanner.pull, Scanner.cancel, Scanner.next, finished]
      rw [none]
      exact ⟨begins, trivial, fun full => absurd full unmarked⟩
    | false =>
      cases c with
      | false =>
        have some : scanned s false = .offering s.scan.1 s.scan.2 := by
          simp [scanned, Scanner.pull, Scanner.next, finished]
        obtain ⟨first, continues⟩ := Scanner.Continues.scan goesOn finished
        rw [some]
        refine ⟨?_, ?_, fun full => absurd full unmarked⟩
        · rw [carried, ← List.append_assoc]
          exact .first first
        · rw [carried, ← List.append_assoc]
          exact continues
      | true =>
        have some : scanned s true =
            .offering (Scanner.canceled s.here) { s with finished := true } := by
          simp [scanned, Scanner.pull, Scanner.cancel, finished]
        rw [some]
        refine ⟨?_, .inl rfl, fun full => absurd full unmarked⟩
        rw [carried, ← List.append_assoc]
        exact Scanner.Continues.stop goesOn finished (Scanner.saysCanceled_canceled s.here s.here)
  | breakOff s slot first stop going =>
    refine ⟨?_, .inl rfl, fun full => absurd (marked full) (by simp)⟩
    have := Scanner.Continues.stop goesOn going (Scanner.saysCanceled_canceled first stop)
    simpa [Handoff.carried, held] using this
  | put t s c => exact ⟨begins, goesOn, by simp⟩
  | putEnd c => exact ⟨begins, trivial, fun _ => rfl⟩
  | giveUp t s slot =>
    refine ⟨?_, trivial, fun full => absurd (marked full) (by simp)⟩
    rw [Handoff.carried, ← List.append_assoc] at begins
    simpa [Handoff.carried, held] using begins.of_append
  | giveUpEnd slot => exact ⟨begins, trivial, fun _ => rfl⟩

/-- What is received was the first token on the way. -/
theorem Step.clean_receive {item : Option Token} (step : Step h (.receive item) k)
    (clean : Clean ts us h) : Clean ts (us ++ item.toList) k := by
  obtain ⟨begins, goesOn, -⟩ := clean
  cases step with
  | take p item c =>
    have moved : us ++ (⟨p, some item, c⟩ : Handoff).carried =
        us ++ item.toList ++ (⟨p, none, c⟩ : Handoff).carried := by
      simp [carried]
    rw [moved] at begins goesOn
    exact ⟨begins, goesOn, nofun⟩
  | findEnded c => exact ⟨by simpa using begins, trivial, nofun⟩

end Handoff

namespace Relay

/-- The tokens `us` were given: the hand-off is clean, an asker looks once more only when the worker
is dead, and none asks who was given the end marker. -/
structure Clean (ts us : List Token) (r : Relay) : Prop where
  handoff : r.handoff.Clean ts us
  lone : r.asker = .alone → r.worker = .dead
  asked : r.asker ≠ .idle → r.closed = false

variable {r r' : Relay} {a : Action} {items : List (Option Token)} {source : String}
  {ts us : List Token}

/-- A single step keeps a relay clean.  One that gives nothing leaves it open or closed; one that
gives an item finds it closed and gives none, or finds it open and closes it with the end marker. -/
theorem Step.clean (step : Step r a r') (clean : r.Clean ts us) :
    match a with
    | .give item => r'.Clean ts (us ++ item.toList) ∧ r'.closed = item.isNone ∧
        (r.closed = true → item = none)
    | _ => r'.Clean ts us ∧ r'.closed = r.closed := by
  have lone := step.lone clean.lone
  have asked := step.asked clean.asked
  have seen := step.refines clean.lone
  have silent : r'.handoff = r.handoff ∨ Handoff.Step r.handoff .produce r'.handoff →
      r'.Clean ts us := by
    rintro (eq | step)
    · exact ⟨eq ▸ clean.handoff, lone, asked⟩
    · exact ⟨step.clean_produce clean.handoff, lone, asked⟩
  cases a with
  | work => exact ⟨silent seen, by cases step <;> rfl⟩
  | ask => exact ⟨silent seen, by cases step; rfl⟩
  | cancel =>
    cases step
    obtain ⟨begins, goesOn, marked⟩ := clean.handoff
    exact ⟨⟨⟨begins, goesOn, marked⟩, lone, asked⟩, rfl⟩
  | give item =>
    rcases seen with ⟨closed, rfl, rfl⟩ | ⟨asks, closes, step⟩
    · exact ⟨by simpa using clean, closed, fun _ => rfl⟩
    · refine ⟨⟨step.clean_receive clean.handoff, lone, asked⟩, closes, fun closed => ?_⟩
      exact nomatch closed.symm.trans (clean.asked asks)

/-- A run gives tokens that begin the text and behind them only items without one. -/
theorem Runs.clean (run : Runs (start source) items r) :
    ∃ us later, items = us.map some ++ List.replicate later none ∧ r.Clean (lex source) us ∧
      (r.closed = true ↔ 0 < later) := by
  induction run with
  | refl =>
    refine ⟨[], 0, rfl, ⟨Handoff.clean_start _ _, nofun, fun asks => absurd rfl asks⟩, ?_⟩
    simp [start]
  | @more items s s' a run step ih =>
    obtain ⟨us, later, rfl, clean, closed⟩ := ih
    have stepped := step.clean clean
    cases a with
    | work | ask | cancel =>
      exact ⟨us, later, by simp [Action.items], stepped.1, by rw [stepped.2, closed]⟩
    | give item =>
      obtain ⟨clean', closes, ended⟩ := stepped
      cases item with
      | none =>
        refine ⟨us, later + 1, ?_, by simpa using clean', by simp [closes]⟩
        rw [List.replicate_succ', ← List.append_assoc]
        rfl
      | some t =>
        -- a token is given only while the relay is open, so none was missing before
        have isOpen : ¬ 0 < later := fun pos => absurd (ended (closed.mpr pos)) (by simp)
        obtain rfl : later = 0 := by omega
        exact ⟨us ++ [t], 0, by simp [Action.items], clean', by simp [closes]⟩

/-- **Whoever asks to stop cuts the tokens off**, whatever the order of the single steps is,
whenever somebody asks and whichever waits time out: the tokens that are given are the first of the
text, with the word behind them that the scanner was told to stop or without it; the word comes
behind no last token.  Who was given nothing is given nothing from then on, at once. -/
theorem Runs.given_begins (run : Runs (start source) items r) :
    ∃ given later, items = given.map some ++ List.replicate later none ∧
      (given <+: lex source ∨
        ∃ before word, given = before ++ [word] ∧ before <+: lex source ∧
          (∀ t ∈ before, t.kind.isTerminal = false) ∧ word.SaysCanceled) ∧
      (0 < later → Step r (.give none) r) := by
  obtain ⟨given, later, shape, clean, closed⟩ := run.clean
  refine ⟨given, later, shape, ?_, fun pos => ?_⟩
  · cases clean.handoff.begins.of_append with
    | first first => exact .inl first
    | stopped first going stops => exact .inr ⟨_, _, rfl, first, going, stops⟩
  · have isClosed := closed.mpr pos
    have idle : r.asker = .idle := by
      by_contra asks
      exact nomatch isClosed.symm.trans (clean.asked asks)
    exact .giveClosed idle isClosed

/-- Who asks is given what the worker pulls. -/
theorem Runs.pull {cancelled : Bool} {s s' : Scanner} {t : Token}
    (run : Runs r items ⟨.scanning s, none, cancelled, .idle, false⟩)
    (out : s.pull cancelled = (some t, s')) :
    Runs r (items ++ [some t]) ⟨.scanning s', none, cancelled, .idle, false⟩ := by
  have asks := run.more (.ask rfl rfl)
  have scans := asks.more (.work (.scan s none))
  rw [out] at scans
  have gives := (scans.more (.work (.put t s'))).more (.take rfl rfl)
  simp only [Action.items, List.append_nil] at gives
  exact gives

/-- Asked to stop behind its first token, a relay gives the word and then nothing. -/
theorem Runs.given_begins_broken :
    ∃ first word r, Runs (start "A B") [some first, some word, none, none] r ∧
      first.text = "A" ∧ word.text = "canceled" ∧
      ∃ given later,
        [some first, some word, none, none] = given.map some ++ List.replicate later none ∧
        (given <+: lex "A B" ∨
          ∃ before word, given = before ++ [word] ∧ before <+: lex "A B" ∧
            (∀ t ∈ before, t.kind.isTerminal = false) ∧ word.SaysCanceled) ∧
        (0 < later → Step r (.give none) r) := by
  let behind : Pos := ⟨1, 1, 2⟩
  have first : (Scanner.start "A B").pull false =
      (some ⟨.ident, "A", .origin, behind⟩, ⟨[' ', 'B'], behind, false⟩) := by
    decide +kernel
  have word : (⟨[' ', 'B'], behind, false⟩ : Scanner).pull true =
      (some (Scanner.canceled behind), ⟨[' ', 'B'], behind, true⟩) := rfl
  have cut := ((Runs.refl.pull first).more (.cancel _)).pull word
  have ends := ((cut.more (.ask rfl rfl)).more (.work (.scan _ _))).more (.work .mark)
  have run := (ends.more (.take rfl rfl)).more (.giveClosed rfl rfl)
  exact ⟨_, _, _, run, rfl, by decide +kernel, Runs.given_begins run⟩

end Relay

end QualityRules
