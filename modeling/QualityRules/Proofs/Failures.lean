import QualityRules.Proofs.Coordinates
import QualityRules.Proofs.NoRules

/-!
# Proofs — Failures

What can come of a text where there is room for all the conditions that it opens: a tree, that there
is no ruleset, or a report at the start of one of its tokens.  Nothing else does, for the tokens
never starve, no wording is left with an empty hole, what is in parentheses always makes a rule, and
no loop runs out of fuel.

* `Entry` are the ways to read a text; `Entry.reader` is what each does with the tokens, and
  `Entry.readOn_eq` says so.
* `Entry.documented_read` and `Entry.read_eq_noRules_iff` are the main results.
-/

namespace QualityRules

/-- The ways to read a text. -/
inductive Entry where
  | rule
  | ruleset
  | file (filename : String)
deriving DecidableEq

/-- What may come of a text; a report is at the start of a token, with the excerpt there and with
the wording of its cause. -/
inductive Documented (source : String) (width : Int) : Except Failure Node → Prop
  | tree (n : Node) : Documented source width (.ok n)
  | noRules : Documented source width (.error .noRules)
  | report {t : Token} {cause : Cause} {message : String} (mem : t ∈ lex source)
      (filled : cause.reason.template.fill cause.values = .ok message) :
      Documented source width
        (.error (.diagnostic ⟨cause.reason, message, t.start, Excerpt.near source t.start width⟩))

/-- A text of comments up to its end. -/
def OnlyComments (ts : List Token) : Prop :=
  ∃ us last, ts = us ++ [last] ∧ (∀ u ∈ us, u.kind = .comment) ∧ last.kind = .eof

variable {source : String} {options : Options}

/-- Only comments are left at the start when the text holds nothing else. -/
theorem Row.exists_commented_iff :
    (∃ us t s, (ofTokens (lex source)).Commented us t s) ↔ OnlyComments (lex source) := by
  obtain ⟨ts, last, eq, others, terminal⟩ := lex_eq source
  constructor
  · rintro ⟨us, t, s, row, all, isEnd⟩
    rw [eq, ofTokens_eq others terminal] at row
    have row : behind ts (ending last) = behind (us ++ [t]) s := by
      rw [row, behind_append]
      rfl
    have going : ∀ u ∈ us.getLast?, u.kind ≠ .eof := fun u mem => by
      simp [all u (List.mem_of_getLast? mem)]
    exact ⟨us, t, eq.trans (eq_of_behind others terminal row isEnd going), all, isEnd⟩
  · rintro ⟨us, t, same, all, isEnd⟩
    obtain ⟨rfl, one⟩ := List.append_inj' (same.symm.trans eq) rfl
    obtain rfl : t = last := List.head_eq_of_cons_eq one
    refine ⟨us, t, ending t, ?_, all, isEnd⟩
    rw [eq, ofTokens_eq others terminal, ← ending_eof isEnd]

namespace Entry

/-- What an entry does with the tokens of a text. -/
def reader (entry : Entry) (fuel : Read.Fuel) : ParseRules Node :=
  match entry with
  | rule => return .rule (← Read.rule fuel false)
  | ruleset => return .ruleset (← Read.ruleset fuel)
  | file filename => return .file (← Read.file fuel filename)

/-- What comes of a text, on a stack with room for so many open conditions. -/
def readOn (entry : Entry) (stack : Option Nat) (source : String) (options : Options) :
    Except Failure Node :=
  match entry with
  | rule => (Source.ruleOn stack source options).result.map .rule
  | ruleset => (Source.rulesetOn stack source options).result.map .ruleset
  | file filename => (Source.fileOn stack filename source options).result.map .file

/-- What comes of a text. -/
def read (entry : Entry) (source : String) (options : Options) : Except Failure Node :=
  match entry with
  | rule => (Source.rule source options).result.map .rule
  | ruleset => (Source.ruleset source options).result.map .ruleset
  | file filename => (Source.file filename source options).result.map .file

/-- To read a text is to read it on a stack without an end. -/
theorem readOn_none (entry : Entry) (source : String) (options : Options) :
    entry.readOn none source options = entry.read source options := by
  cases entry <;> rfl

/-- A result may be seen as a tree behind a session or in it, whatever its name is. -/
theorem result_session_map {α : Type} (name name' : String) (p : Nat → ParseRules α)
    (f : α → Node) :
    (Source.session name source options fun fuel => do return f (← p fuel)).result
      = (Source.session name' source options p).result.map f := by
  rw [Source.result_session, Source.result_session]
  generalize (lex source).length + 1 = fuel
  have seen : ((do return f (← p fuel) : ParseRules Node) Tray.empty)
      = p fuel Tray.empty >>= fun x => pure (f x.1, x.2) := rfl
  rw [seen, Reading.along_bind]
  rcases (p fuel Tray.empty).along (Row.ofTokens (lex source)) with ⟨⟨x, k⟩ | ⟨b, k⟩, s⟩ <;> rfl

/-- An entry reads a text with its reader, on any stack. -/
theorem readOn_eq (entry : Entry) (name : String) (stack : Option Nat) (source : String)
    (options : Options) : entry.readOn stack source options
      = (Source.session name source options fun steps => entry.reader (.on stack steps)).result := by
  cases entry with
  | rule =>
    exact (result_session_map name _ (fun steps => Read.rule (.on stack steps) false) _).symm
  | ruleset => exact (result_session_map name _ (fun steps => Read.ruleset (.on stack steps)) _).symm
  | file filename =>
    rw [readOn, Source.result_fileOn]
    exact (result_session_map name _ (fun steps => Read.file (.on stack steps) filename) _).symm

/-- An entry reads a text with its reader. -/
theorem read_eq (entry : Entry) (name source : String) (options : Options) :
    entry.read source options
      = (Source.session name source options fun steps => entry.reader steps).result :=
  (entry.readOn_none source options).symm.trans (entry.readOn_eq name none source options)

/-- Whatever entry reads a text, it is refused for want of a ruleset or at one of its tokens, or it
is stopped for want of steps and took as many tokens as it had steps. -/
theorem spends_reader (entry : Entry) {ts : List Token} {r : Row} {b n fuel : Nat}
    (remains : r.Remains ts n) (le : b ≤ fuel) :
    ParseRules.Spends (Refusal.Documented ts) ts b n (entry.reader fuel) r fun _ _ => True := by
  cases entry with
  | rule => exact (Read.spends_rule remains le).documented.bind fun _ _ _ => .done trivial
  | ruleset => exact (Read.spends_ruleset remains le).bind fun _ _ _ => .done trivial
  | file filename => exact (Read.spends_file filename remains le).bind fun _ _ _ => .done trivial

/-- Only comments are left where an entry fails for want of rules, and it reads no single rule. -/
theorem reader_fails_iff (entry : Entry) {r : Row} {ts : List Token} {n fuel : Nat} {k : Tray}
    (remains : r.Remains ts n) (enough : n < fuel) :
    (∃ l s, (entry.reader fuel k).Fails r (.noRules, l) s) ↔
      entry ≠ rule ∧ ∃ us t s, r.Commented us t s := by
  -- a result that is seen as a tree is no failure
  have seen : ∀ {α : Type} (p : ParseRules α) (f : α → Node) {l s},
      ((do return f (← p) : ParseRules Node) k).Fails r (.noRules, l) s ↔
        (p k).Fails r (.noRules, l) s := by
    intro α p f l s
    rw [ParseRules.fails_bind]
    exact ⟨fun h => h.resolve_right fun ⟨_, _, _, _, f⟩ => (nomatch f), .inl⟩
  cases entry with
  | rule =>
    refine iff_of_false ?_ (fun h => h.1 rfl)
    rintro ⟨l, s, f⟩
    exact Refusal.not_located_noRules
      ((Read.spends_rule remains (le_refl fuel)).allowed ((seen _ _).mp f)
        Refusal.noRules_ne_overrun)
  | ruleset =>
    simp only [reader, seen, Read.ruleset_fails_iff remains enough, ne_eq, reduceCtorEq,
      not_false_eq_true, true_and]
  | file filename =>
    simp only [reader, seen, Read.file_fails_iff filename remains enough, ne_eq, reduceCtorEq,
      not_false_eq_true, true_and]

/-- Every text is read, or it holds no ruleset, or it is reported at one of its tokens. -/
theorem documented_read (entry : Entry) (source : String) (options : Options) :
    Documented source options.snippetWidth (entry.read source options) := by
  rw [entry.read_eq ""]
  cases out : (Source.session "" source options fun steps => entry.reader steps).result with
  | ok n => exact .tree n
  | error failure =>
    obtain ⟨e, k, s, f, rfl⟩ := Source.session_eq_error_iff.mp out
    have remains := Row.Remains.of_lex source
    rcases (entry.spends_reader remains (le_refl _)).allowed_of_lt (Nat.lt_succ_self _) f
      with rfl | ⟨cause, t, mem, rfl⟩
    · exact .noRules
    · obtain ⟨message, filled, report⟩ :=
        Refusal.report_at source options.snippetWidth cause t.start
      rw [report]
      exact .report mem filled

/-- A text holds no ruleset just if it holds only comments, and it is not read as a rule. -/
theorem read_eq_noRules_iff (entry : Entry) (source : String) (options : Options) :
    entry.read source options = .error .noRules ↔ entry ≠ .rule ∧ OnlyComments (lex source) := by
  rw [entry.read_eq "", Source.session_eq_error_iff, ← Row.exists_commented_iff,
    ← entry.reader_fails_iff (k := Tray.empty) (Row.Remains.of_lex source) (Nat.lt_succ_self _)]
  constructor
  · rintro ⟨e, k, s, f, reported⟩
    cases e with
    | noRules => exact ⟨k, s, f⟩
    | «at» cause pos =>
      obtain ⟨message, -, report⟩ := Refusal.report_at source options.snippetWidth cause pos
      cases reported.trans report
    | _ => cases reported
  · rintro ⟨k, s, f⟩
    exact ⟨.noRules, k, s, f, rfl⟩

/-- A string has a quote on either side, so the place of the right one is in the text. -/
theorem moveColumns_of_string {t : Token} (mem : t ∈ lex source) (kind : t.kind = .string) :
    t.start.moveColumns ((t.text.length : Int) - 1)
      = .ok (t.start.addColumns (t.text.length - 1)) := by
  have spells := spells_of_mem_lex mem (by rw [kind]; rfl)
  rw [kind] at spells
  obtain ⟨body, -, text⟩ := spells
  have length : t.text.length = body.length + 2 := by
    rw [← String.length_toList, text]
    simp
  have forward : ((t.text.length : Int) - 1) = ((t.text.length - 1 : Nat) : Int) := by omega
  have inText : ¬ (t.start.index : Int) + ((t.text.length - 1 : Nat) : Int) < 0 := by omega
  rw [forward, Pos.moveColumns, Pos.ofInts, if_neg inText]
  rfl

end Entry

end QualityRules
