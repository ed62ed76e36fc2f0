import QualityRules.Proofs.Follows.Ruleset
import QualityRules.Read.Call

/-!
# Proofs — Unread

Tokens that no reader takes have no influence.  A reader takes a token only when none was put back
and the end of the text was not taken, so what comes of a text depends on the tokens that its reader
takes until then, and on nothing behind them.

* `Reading.taken`: the tokens that a reader takes for the first time.
* `Cursor.Alike`: two cursors before the same tokens, as far as these matter; `Alike.pop` takes one.
* `Reading.Follows.run_eq`: before such cursors a reader takes the same tokens and comes to the
  same, also with more fuel.  `Reading.Follows.exists_taken`: a fault that is reported was taken.
* `Entry.read_of_taken` says it of whole texts.
-/

namespace QualityRules

variable {ε α : Type} {c c' : Cursor} {n : Nat}

namespace Cursor

/-- The token that is taken for the first time when one is taken; none when one is at hand. -/
def fresh (c : Cursor) : List Token := if c.holds then [] else c.unread.take 1

/-- Two cursors between which nothing differs but the tokens behind the next `n` that were not taken
yet. -/
structure Alike (n : Nat) (c c' : Cursor) : Prop where
  pushed : c'.pushed = c.pushed
  eof : c'.eof = c.eof
  unread : c'.unread.take n = c.unread.take n

/-- A token can be taken, or a fault: the tokens that were not taken yet come to an end that says
so. -/
def Ready (c : Cursor) : Prop :=
  c.eof = none → ∃ us last, c.unread = us ++ [last] ∧ (∀ u ∈ us, u.kind.isTerminal = false) ∧
    last.kind.isTerminal

theorem Alike.refl (n : Nat) (c : Cursor) : Alike n c c := ⟨rfl, rfl, rfl⟩

theorem Alike.push (alike : Alike n c c') (t : Token) : Alike n (c.push t) (c'.push t) :=
  ⟨congrArg (t :: ·) alike.pushed, alike.eof, alike.unread⟩

/-- Before cursors that are alike the same is taken. -/
theorem Alike.pop (alike : Alike n c c') (ready : c.Ready) (few : c.fresh.length ≤ n) :
    c'.fresh = c.fresh ∧ c'.pop.1 = c.pop.1 ∧ Alike (n - c.fresh.length) c.pop.2 c'.pop.2 := by
  obtain ⟨pushed, eof, unread, here⟩ := c
  obtain ⟨pushed', eof', unread', here'⟩ := c'
  obtain ⟨rfl, rfl, same⟩ : pushed' = pushed ∧ eof' = eof ∧ unread'.take n = unread.take n :=
    ⟨alike.pushed, alike.eof, alike.unread⟩
  rcases pushed' with _ | ⟨t, pushed⟩
  · rcases eof' with _ | t
    · -- none is at hand, so the first is taken of those that were not taken yet
      obtain ⟨t, ts, rfl⟩ : ∃ t ts, unread = t :: ts := by
        obtain ⟨us, last, rfl, -⟩ := ready rfl
        cases us <;> exact ⟨_, _, rfl⟩
      obtain ⟨n, rfl⟩ : ∃ m, n = m + 1 := ⟨n - 1, by
        have : 1 ≤ n := few
        omega⟩
      rcases unread' with _ | ⟨t', ts'⟩
      · exact nomatch same
      · simp only [List.take_succ_cons, List.cons.injEq] at same
        obtain ⟨rfl, same⟩ := same
        exact ⟨rfl, rfl, rfl, rfl, same⟩
    · exact ⟨rfl, rfl, rfl, rfl, same⟩
  · exact ⟨rfl, rfl, rfl, rfl, same⟩

theorem ready_ofTokens (source : String) : (ofTokens (lex source)).Ready :=
  fun _ => lex_eq source

theorem Ready.push (ready : c.Ready) (t : Token) : (c.push t).Ready := ready

theorem Ready.pop (ready : c.Ready) {t : Token} (ok : c.pop.1 = .ok t) : c.pop.2.Ready := by
  obtain ⟨_ | ⟨u, pushed⟩, _ | eof, unread, here⟩ := c
  · obtain ⟨us, last, rfl, others, terminal⟩ := ready rfl
    rcases us with _ | ⟨u, us⟩
    · -- the last token is handed out, so it is the end of the text
      intro none
      cases kind : last.kind <;> simp_all [Cursor.pop, after, Kind.isTerminal]
    · exact fun _ => ⟨us, last, rfl, fun v mem => others v (List.mem_cons_of_mem _ mem), terminal⟩
  · intro none
    cases none
  · exact ready
  · intro none
    cases none

/-- What is taken in place of a token is a fault, and where one is ready it is one that was taken
for the first time. -/
theorem pop_eq_error {e : Refusal} (h : c.pop.1 = .error e) : e.isFault ∧
    ∀ text pos, e = .at (.scan text) pos →
      ∃ t ∈ c.fresh, t.kind = .illegal ∧ t.text = text ∧ t.start = pos := by
  obtain ⟨_ | ⟨u, pushed⟩, _ | eof, _ | ⟨t, ts⟩, here⟩ := c
  · cases h
    exact ⟨rfl, nofun⟩
  · have step : (Cursor.mk [] none (t :: ts) here).pop.1
        = if t.kind = .illegal then .error (.at (.scan t.text) t.start) else .ok t := rfl
    rw [step] at h
    split at h
    · next illegal =>
      cases h
      refine ⟨rfl, fun text pos eq => ⟨t, List.mem_singleton_self t, illegal, ?_⟩⟩
      cases eq
      exact ⟨rfl, rfl⟩
    · exact nomatch h
  all_goals exact nomatch h

end Cursor

namespace Reading

/-- The tokens that a reader takes for the first time. -/
def taken : Reading ε α → Cursor → List Token
  | done _, _ | fail _, _ => []
  | pop next, c => c.fresh ++ (next c.pop.1).taken c.pop.2
  | push t next, c => next.taken (c.push t)

variable [Shift ε] [Shift α] {ref : ε → Refusal} {p q : Reading ε α}

/-- Before a cursor that is alike as far as the tokens that are taken go, the same are taken, and
the same comes of it. -/
theorem Follows.run_eq (h : Follows 0 ref p q) (alike : c.Alike n c') (ready : c.Ready)
    (few : (p.taken c).length ≤ n)
    (enough : ∀ e, (p.run c).1 = .error e → ref e ≠ .overrun) :
    q.taken c' = p.taken c ∧ (q.run c').1 = (p.run c).1 := by
  -- on what the reader does; each token that it takes is one of the first `n`
  induction h generalizing c c' n with
  | done a => exact ⟨rfl, by rw [shift_zero]; rfl⟩
  | fail own => exact ⟨rfl, by rw [shift_zero]; rfl⟩
  | overrun spent q => exact absurd spent (enough _ rfl)
  | @pop next next' token fault ih =>
    have few : (c.fresh ++ (next c.pop.1).taken c.pop.2).length ≤ n := few
    rw [List.length_append] at few
    obtain ⟨fresh, popped, behind⟩ := alike.pop ready (by omega)
    change c'.fresh ++ (next' c'.pop.1).taken c'.pop.2 = c.fresh ++ (next c.pop.1).taken c.pop.2 ∧
      ((next' c'.pop.1).run c'.pop.2).1 = ((next c.pop.1).run c.pop.2).1
    rw [fresh, popped]
    cases item : c.pop.1 with
    | ok t =>
      have enough : ∀ e, ((next (.ok t)).run c.pop.2).1 = .error e → ref e ≠ .overrun :=
        fun e failed => enough e (by rw [run, item]; exact failed)
      rw [item] at few
      obtain ⟨same, result⟩ := ih t behind (ready.pop item) (by omega) enough
      rw [shift_zero] at same result
      exact ⟨by rw [same], result⟩
    | error e =>
      obtain ⟨failure, -, here, there⟩ := fault e (Cursor.pop_eq_error item).1
      rw [shift_zero, shift_zero] at there
      rw [here, there]
      exact ⟨rfl, rfl⟩
  | push t rest ih =>
    have := ih (alike.push t) (ready.push t) few enough
    rwa [shift_zero]

/-- A fault is reported only when it was taken. -/
theorem Follows.exists_taken {o : Offset} (h : Follows o ref p q) {e : ε} {text : String}
    {pos : Pos} (failed : (p.run c).1 = .error e) (reported : ref e = .at (.scan text) pos) :
    ∃ t ∈ p.taken c, t.kind = .illegal ∧ t.text = text ∧ t.start = pos := by
  induction h generalizing c with
  | done a => exact nomatch failed
  | fail own =>
    cases failed
    rw [reported] at own
    exact nomatch own
  | overrun spent q =>
    cases failed
    exact nomatch spent.symm.trans reported
  | @pop next next' token fault ih =>
    change ((next c.pop.1).run c.pop.2).1 = .error e at failed
    change ∃ t ∈ c.fresh ++ (next c.pop.1).taken c.pop.2, _
    cases item : c.pop.1 with
    | ok t =>
      rw [item] at failed
      obtain ⟨u, mem, holds⟩ := ih t failed
      exact ⟨u, List.mem_append_right _ mem, holds⟩
    | error e' =>
      obtain ⟨isFault, source⟩ := Cursor.pop_eq_error item
      obtain ⟨failure, refs, here, -⟩ := fault e' isFault
      rw [item, here] at failed
      cases failed
      obtain ⟨u, mem, holds⟩ := source text pos (refs.symm.trans reported)
      exact ⟨u, List.mem_append_left _ mem, holds⟩
  | push t rest ih => exact ih failed

end Reading

/-- A failure without the excerpt from the text. -/
def Failure.unquoted : Failure → Failure
  | diagnostic d => .diagnostic { d with snippet := "" }
  | f => f

/-- But for the excerpt a refusal is reported alike in all texts. -/
theorem Refusal.unquoted_report (e : Refusal) (source source' : String) (width : Int) :
    (e.report source width).unquoted = (e.report source' width).unquoted := by
  cases e with
  | «at» cause pos =>
    obtain ⟨message, filled, report⟩ := report_at source width cause pos
    obtain ⟨message', filled', report'⟩ := report_at source' width cause pos
    cases filled.symm.trans filled'
    rw [report, report']
    rfl
  | _ => rfl

/-- Only a fault is reported as one. -/
theorem Refusal.eq_scan_of_report {e : Refusal} {source : String} {width : Int} {d : Diagnostic}
    (h : e.report source width = .diagnostic d) (reported : d.reason = .scanError) :
    ∃ text, e = .at (.scan text) d.pos := by
  cases e with
  | «at» cause pos =>
    obtain ⟨message, -, report⟩ := report_at source width cause pos
    cases report.symm.trans h
    cases cause with
    | scan text => exact ⟨text, rfl⟩
    | _ => exact nomatch reported
  | _ => exact nomatch h

namespace Entry

variable (entry : Entry) (source : String)

/-- What an entry does with a text. -/
def reading : Reading (Refusal × Tray) (Node × Tray) :=
  entry.reader ↑((lex source).length + 1) Tray.empty

/-- The tokens that an entry takes of a text. -/
def taken : List Token := (entry.reading source).taken (Cursor.ofTokens (lex source))

/-- What an entry comes to on the tokens of a text. -/
def outcome : Except (Refusal × Tray) (Node × Tray) :=
  ((entry.reading source).run (Cursor.ofTokens (lex source))).1

/-- What is read of a text is what the reader comes to before its tokens, on any stack. -/
theorem readOn_eq_run (stack : Option Nat) (options : Options) :
    entry.readOn stack source options =
      match ((entry.reader (.on stack ((lex source).length + 1)) Tray.empty).run
        (Cursor.ofTokens (lex source))).1 with
      | .ok (a, _) => .ok a
      | .error (e, _) => .error (e.report source options.snippetWidth) := by
  rw [entry.readOn_eq "", Source.result_session, Reading.along_ofTokens]
  rcases ((entry.reader _ Tray.empty).run (Cursor.ofTokens (lex source))).1 with
    ⟨x, k⟩ | ⟨a, k⟩ <;> rfl

theorem read_eq_outcome (options : Options) : entry.read source options =
    match entry.outcome source with
    | .ok (a, _) => .ok a
    | .error (e, _) => .error (e.report source options.snippetWidth) :=
  (entry.readOn_none source options).symm.trans (entry.readOn_eq_run source none options)

theorem outcome_ne_overrun {e : Refusal × Tray} (failed : entry.outcome source = .error e) :
    e.1 ≠ .overrun := by
  have documented := (entry.spends_reader (Row.Remains.of_lex source) (le_refl _)).allowed_of_lt
    (Nat.lt_succ_self _) (Reading.fails_of_run failed)
  exact fun short => Refusal.not_documented_overrun (short ▸ documented)

/-- More fuel makes no difference to the tokens that are taken, nor to what comes of them. -/
theorem run_of_fuel {fuel : Nat} (le : (lex source).length + 1 ≤ fuel) :
    (entry.reader fuel Tray.empty).taken (Cursor.ofTokens (lex source)) = entry.taken source ∧
      ((entry.reader fuel Tray.empty).run (Cursor.ofTokens (lex source))).1
        = entry.outcome source :=
  (entry.follows_reader le Tray.empty).run_eq (.refl _ _) (Cursor.ready_ofTokens source) le_rfl
    fun _ => entry.outcome_ne_overrun source

/-- What is given of the tokens of a text does not depend on the fuel, when it is enough. -/
theorem exists_gives_iff {fuel : Nat} (le : (lex source).length + 1 ≤ fuel) (x : Node) :
    (∃ k s, (entry.reader fuel).Gives Tray.empty (Row.ofTokens (lex source)) x k s) ↔
      ∃ k, entry.outcome source = .ok (x, k) := by
  have row := (entry.reader fuel Tray.empty).along_ofTokens (lex source)
  rw [(entry.run_of_fuel source le).2] at row
  refine exists_congr fun k => ⟨fun ⟨s, gives⟩ => congrArg Prod.fst (row.symm.trans gives), ?_⟩
  intro ok
  exact ⟨_, row.trans (congrArg (·, _) ok)⟩

variable {source} {source' : String}

/-- **Tokens that are not taken have no influence.**  When two texts have the first `n` tokens in
common and of the first text no more than these are taken, the same are taken of the second, and it
is read as the same tree or refused for the same cause, with the same message and at the same place.
A fault is reported only when it was taken, so one behind the tokens that are taken neither is
reported nor hides what is. -/
theorem read_of_taken (options : Options) (alike : (lex source).take n = (lex source').take n)
    (few : (entry.taken source).length ≤ n) :
    entry.taken source' = entry.taken source ∧
    (entry.read source' options).mapError Failure.unquoted
      = (entry.read source options).mapError Failure.unquoted ∧
    ∀ d, entry.read source options = .error (.diagnostic d) → d.reason = .scanError →
      ∃ t ∈ entry.taken source, t.kind = .illegal ∧ t.start = d.pos := by
  -- with fuel for the longer text both are read to their ends
  let fuel := max ((lex source).length + 1) ((lex source').length + 1)
  obtain ⟨took, came⟩ := entry.run_of_fuel source (le_max_left _ _ : _ ≤ fuel)
  obtain ⟨took', came'⟩ := entry.run_of_fuel source' (le_max_right _ _ : _ ≤ fuel)
  obtain ⟨same, outcome⟩ := (entry.follows_reader (le_refl fuel) Tray.empty).run_eq
    (⟨rfl, rfl, alike.symm⟩ : Cursor.Alike n (.ofTokens (lex source)) (.ofTokens (lex source')))
    (Cursor.ready_ofTokens source) (took ▸ few)
    fun e failed => entry.outcome_ne_overrun source (came ▸ failed)
  rw [shift_zero] at same outcome
  rw [took, took'] at same
  rw [came, came'] at outcome
  refine ⟨same, ?_, fun d refused reported => ?_⟩
  · rw [entry.read_eq_outcome source', entry.read_eq_outcome source, outcome]
    rcases entry.outcome source with ⟨e, k⟩ | ⟨a, k⟩
    · exact congrArg Except.error (e.unquoted_report source' source options.snippetWidth)
    · rfl
  · rw [entry.read_eq_outcome source] at refused
    rcases failed : entry.outcome source with ⟨e, k⟩ | ⟨a, k⟩
    · rw [failed] at refused
      obtain ⟨text, rfl⟩ := Refusal.eq_scan_of_report (Except.error.inj refused) reported
      obtain ⟨t, mem, illegal, -, start⟩ :=
        Reading.Follows.exists_taken (entry.follows_reader (o := 0) le_rfl Tray.empty) failed rfl
      exact ⟨t, mem, illegal, start⟩
    · rw [failed] at refused
      exact nomatch refused

/-- A ruleset with a name behind it, and then a fault. -/
def faultyText : String := "Rules = [A] B $"

theorem read_of_taken_faultyText :
    (lex faultyText).take 6 = (lex "Rules = [A] B ]").take 6 ∧
    (ruleset.taken faultyText).length = 6 ∧ (∃ t ∈ lex faultyText, t.kind = .illegal) ∧
    ruleset.taken "Rules = [A] B ]" = ruleset.taken faultyText ∧
    (ruleset.read "Rules = [A] B ]" Options.default).mapError Failure.unquoted
      = (ruleset.read faultyText Options.default).mapError Failure.unquoted ∧
    ∀ d, ruleset.read faultyText Options.default = .error (.diagnostic d) →
      d.reason = .scanError →
      ∃ t ∈ ruleset.taken faultyText, t.kind = .illegal ∧ t.start = d.pos := by
  have alike : (lex faultyText).take 6 = (lex "Rules = [A] B ]").take 6 := by decide +kernel
  have few : (ruleset.taken faultyText).length = 6 := by decide +kernel
  exact ⟨alike, few, by decide +kernel,
    read_of_taken ruleset Options.default alike (Nat.le_of_eq few)⟩

end Entry

end QualityRules
