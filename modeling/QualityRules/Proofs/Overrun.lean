import Mathlib.Order.Nat
import QualityRules.Proofs.Complete
import QualityRules.Proofs.Printed
import QualityRules.Proofs.Room.Readers
import QualityRules.Proofs.Unread

/-!
# Proofs — Overrun

What comes of a text on a stack that has an end.  Behind `with threshold` any condition is read, and
only then it is refused if it is no bound; so a text can have as many conditions opened inside one
another as it likes, and where the stack has no room for them it is not reported but overrun.

* `Entry.Needs`: how much room a text needs; `Entry.exists_needs` says that there is such a number.
* `Entry.documented_iff_room`: what comes of a text is a tree, that there is no ruleset, or a report
  at one of its tokens, just if there is room.
* `nestedText`: a text that needs more room than a given stack has, for any stack.
-/

namespace QualityRules

namespace Entry

variable (entry : Entry) (source : String)

/-- The room that a text needs.  With less it is overrun, and with more nothing else comes of it; a
condition that is open inside another one costs a word `with`, and what is read needs two at
most. -/
structure Needs (room : Nat) : Prop where
  few : room ≤ withs (lex source) + 1
  reads (depth : Nat) (enough : room ≤ depth) (options : Options) :
    entry.readOn (some depth) source options = entry.read source options
  overruns (depth : Nat) (short : depth < room) (options : Options) :
    entry.readOn (some depth) source options = .error .overrun
  accepts (options : Options) (n : Node) (read : entry.read source options = .ok n) : room ≤ 2

/-- The reader of an entry on the tokens of a text, with room for so many conditions. -/
def runOn (depth : Nat) : Except (Refusal × Tray) (Node × Tray) × Cursor :=
  (entry.reader ⟨(lex source).length + 1, depth⟩ Tray.empty).run (Cursor.ofTokens (lex source))

/-- The reader is stopped on a stack with room for so many conditions. -/
def Overruns (depth : Nat) : Prop := ∃ k, (entry.runOn source depth).1 = .error (.overrun, k)

variable {entry source} {depth depth' : Nat}

/-- With more room a reader comes to the same, unless it is stopped with less. -/
theorem runOn_eq_or_overruns (le : depth ≤ depth') :
    entry.runOn source depth = entry.runOn source depth' ∨ entry.Overruns source depth := by
  rcases (prunes_reader le).run_or_stops (Cursor.ofTokens (lex source)) with
    same | ⟨⟨e, k⟩, c, stopped, rfl⟩
  · exact .inl same
  · exact .inr ⟨k, congrArg Prod.fst stopped⟩

/-- With more room a reader is not stopped earlier. -/
theorem Overruns.mono (h : entry.Overruns source depth') (le : depth ≤ depth') :
    entry.Overruns source depth := by
  have compared : entry.runOn source depth = _ ∨ _ := runOn_eq_or_overruns le
  obtain same | stopped := compared
  · rwa [Overruns, same]
  · exact stopped

/-- With as much room as steps a reader is not stopped, so it is not with more. -/
theorem not_overruns_of_le (le : (lex source).length + 1 ≤ depth) :
    ¬ entry.Overruns source depth := by
  intro stopped
  obtain ⟨k, stopped⟩ := stopped.mono le
  exact entry.outcome_ne_overrun source stopped rfl

/-- A reader that is not stopped comes to what it comes to with any room. -/
theorem runOn_eq_outcome (stays : ¬ entry.Overruns source depth) :
    (entry.runOn source depth).1 = entry.outcome source := by
  rcases Nat.le_total depth ((lex source).length + 1) with le | le
  · exact congrArg Prod.fst ((runOn_eq_or_overruns le).resolve_right stays)
  · have all : ¬ entry.Overruns source ((lex source).length + 1) :=
      not_overruns_of_le (Nat.le_refl _)
    exact congrArg Prod.fst ((runOn_eq_or_overruns le).resolve_right all).symm

/-- Room for one condition more than there are words `with` is enough. -/
theorem not_overruns_of_withs (lt : withs (lex source) < depth) :
    ¬ entry.Overruns source depth := by
  have wide := le_max_left depth ((lex source).length + 1)
  have same : entry.runOn source depth = entry.runOn source (max depth ((lex source).length + 1)) :=
    (prunes_reader wide).run_eq (Cursor.Within.ofTokens (lex source)) (Int.ofNat_lt.mpr lt)
  rw [Overruns, same]
  exact not_overruns_of_le (le_max_right _ _)

/-- Room for two conditions is enough for a tree. -/
theorem not_overruns_of_read {options : Options} {n : Node}
    (read : entry.read source options = .ok n) : ¬ entry.Overruns source 2 := by
  obtain ⟨k, s, given⟩ :=
    Source.session_eq_ok_iff.mp ((entry.read_eq "" source options).symm.trans read)
  have some : 2 ≤ (lex source).length + 1 := by
    obtain ⟨us, last, eq, -, -⟩ := lex_eq source
    simp [eq]
  have kept : (entry.reader ⟨(lex source).length + 1, 2⟩).Gives Tray.empty
      (Row.ofTokens (lex source)) n k s :=
    reader_keeps (Nat.le_refl 2) some (Row.Remains.of_lex source) (Nat.lt_succ_self _) given
  rw [ParseRules.Gives, Reading.Gives, Reading.along_ofTokens] at kept
  have tree : (entry.runOn source 2).1 = .ok (n, k) := congrArg Prod.fst kept
  rintro ⟨l, stopped⟩
  cases stopped.symm.trans tree

/-- What comes of a text on a stack is what its reader comes to on it. -/
theorem readOn_some (options : Options) : entry.readOn (some depth) source options =
    match (entry.runOn source depth).1 with
    | .ok (n, _) => .ok n
    | .error (e, _) => .error (e.report source options.snippetWidth) :=
  entry.readOn_eq_run source (some depth) options

variable (entry source)

/-- Every text needs some room. -/
theorem exists_needs : ∃ room, entry.Needs source room := by
  classical
  have enough : ∃ depth, ¬ entry.Overruns source depth := ⟨_, not_overruns_of_le (Nat.le_refl _)⟩
  refine ⟨Nat.find enough, ?_, ?_, ?_, ?_⟩
  · exact Nat.find_min' enough (not_overruns_of_withs (Nat.lt_succ_self _))
  · intro depth le options
    have stays : ¬ entry.Overruns source depth := fun stopped =>
      Nat.find_spec enough (stopped.mono le)
    have same : entry.readOn (some depth) source options = _ := readOn_some options
    rw [runOn_eq_outcome stays] at same
    exact same.trans (entry.read_eq_outcome source options).symm
  · intro depth short options
    obtain ⟨k, stopped⟩ := Classical.not_not.mp (Nat.find_min enough short)
    rw [readOn_some, stopped]
    rfl
  · intro options n read
    exact Nat.find_min' enough (not_overruns_of_read read)

/-- **Every text is read, or it holds no ruleset, or it is reported at one of its tokens, just if
the stack has room for the conditions that the text opens inside one another**; where it has not,
the text is overrun.  It holds no ruleset just if it holds only comments and is not read as a rule.  The
one place that is not found by going on over the text, that of the right quote of a string, is never
before its start. -/
theorem documented_iff_room :
    (∃ room, entry.Needs source room ∧ ∀ (options : Options) (depth : Nat),
      (Documented source options.snippetWidth (entry.readOn (some depth) source options) ↔
        room ≤ depth) ∧
      (0 < depth → (entry.readOn (some depth) source options = .error .noRules ↔
        entry ≠ .rule ∧ OnlyComments (lex source)))) ∧
    ∀ t ∈ lex source, t.kind = .string →
      t.start.moveColumns ((t.text.length : Int) - 1)
        = .ok (t.start.addColumns (t.text.length - 1)) := by
  obtain ⟨room, needs⟩ := entry.exists_needs source
  refine ⟨⟨room, needs, fun options depth => ?_⟩, fun _ => moveColumns_of_string⟩
  rcases Nat.lt_or_ge depth room with short | enough
  · rw [needs.overruns depth short options]
    refine ⟨iff_of_false nofun (Nat.not_le.mpr short), fun some => iff_of_false nofun ?_⟩
    -- comments open no condition, so one is all the room they could need
    rintro ⟨-, us, last, eq, all, isEnd⟩
    have none : withs (lex source) = 0 := by
      rw [eq, withs, List.countP_eq_zero]
      intro t mem
      obtain mem | mem := List.mem_append.mp mem
      · simp [all t mem]
      · simp [List.mem_singleton.mp mem, isEnd]
    have few := needs.few
    omega
  · rw [needs.reads depth enough options]
    exact ⟨iff_of_true (entry.documented_read source options) enough,
      fun _ => entry.read_eq_noRules_iff source options⟩

-- a condition inside one that is inside another: it is refused where there is room for all three
example : rule.readOn (some 2) "A in [] with threshold in [] with threshold = 1" .default
      = .error .overrun ∧
    rule.readOn (some 3) "A in [] with threshold in [] with threshold = 1" .default
      = rule.read "A in [] with threshold in [] with threshold = 1" .default := by
  decide +kernel

end Entry

/-! ### A text that is overrun -/

namespace Read
open Reading (fails_bind)

/-- At least so many conditions are inside one another, with a pattern before each `with threshold`;
the token `t` starts the first one. -/
inductive Nested : Nat → Token → Row → Prop
  | bottom (t r) : Nested 0 t r
  | inside {n t pattern word word' next r} (kind : t.kind = .kwMatches)
      (quoted : pattern.kind = .string) (is : word.kind = .kwWith) (is' : word'.kind = .kwThreshold)
      (starts : next.kind.startsExpression) (deeper : Nested n next r) :
      Nested (n + 1) t (Row.cons pattern (Row.cons word (Row.cons word' (Row.cons next r))))

variable {steps depth n : Nat} {t word : Token} {r : Row}

/-- Where there is room for fewer conditions, the innermost one is not reached. -/
theorem Nested.fails (h : Nested n t r) (some : 0 < steps) (rulePos : Pos) :
    ∃ s, (expressionLoop steps rulePos n t).Fails r .overrun s := by
  induction h with
  | bottom t r => exact ⟨r, rfl⟩
  | @inside n t pattern word word' next r kind quoted is is' starts deeper ih =>
    obtain ⟨s, deep⟩ := ih
    have apart : Quiet (Row.cons word (Row.cons word' (Row.cons next r))) :=
      quiet_cons (by simp [is]) _
    have target : (patternMatch steps t rulePos).Gives _ (_, _) _ := patternMatch_gives.mpr
      ⟨pattern, [], .none, quoted, apart.popTrailing some (by simp [quoted]), by simp, rfl, rfl⟩
    have noComment : next.kind ≠ .comment := fun comment => by
      simp [comment, Kind.startsExpression] at starts
    have bound : (expect steps .kwThreshold).Gives _ (word', []) (Row.cons next r) :=
      (quiet_cons noComment r).expect some is' (by decide)
    refine ⟨s, ?_⟩
    simp only [expressionLoop, kind, Comparator.ofKind?]
    refine fails_bind.mpr (.inr ⟨_, _, target, ?_⟩)
    refine fails_bind.mpr (.inr ⟨word, _, gives_pop.mpr rfl, ?_⟩)
    rw [if_neg (by simp [is])]
    refine fails_bind.mpr (.inr ⟨_, _, bound, ?_⟩)
    refine fails_bind.mpr (.inr ⟨next, _, gives_pop.mpr rfl, ?_⟩)
    rw [if_neg (by simp [starts])]
    exact fails_bind.mpr (.inl deep)

/-- A condition behind the type of a rule is overrun with it. -/
theorem takeToken_fails {place : Place} {d : Draft} {k : Tray} {ty : Ident} {s : Row}
    (typed : d.ruleType = some ty) (first : d.expression = none) (starts : t.kind.startsExpression)
    (failed : (expressionLoop steps ty.pos depth t).Fails r .overrun s) :
    (takeToken ⟨steps, depth⟩ place d t k).Fails r (.overrun, k) s := by
  have taken : takeToken ⟨steps, depth⟩ place d t = takeExpression ⟨steps, depth⟩ d t := by
    cases kind : t.kind <;> simp_all [takeToken, Kind.startsExpression, Kind.startsParameter]
  have condition : ((expression ⟨steps, depth⟩ t ty.pos).mapError fun e => (e, k)).Fails r
      (.overrun, k) s := by
    rw [Reading.Fails, Reading.along_mapError, expression, show _ = _ from failed]
    rfl
  rw [taken, takeExpression, typed]
  simp only [first, Option.isSome_none, Bool.false_eq_true, if_false]
  exact ParseRules.fails_bind.mpr (.inl (fails_bind.mpr (.inl condition)))

/-- A rule with such conditions behind its type is not read to its end. -/
theorem Nested.rule_fails (h : Nested depth t r) (type : word.kind = .ident)
    (starts : t.kind.startsExpression) (two : 2 ≤ steps) (inRuleset : Bool) (k : Tray) :
    ∃ l s, (rule ⟨steps, depth⟩ inRuleset k).Fails (Row.cons word (Row.cons t r)) (.overrun, l)
      s := by
  obtain ⟨n, rfl⟩ : ∃ n, steps = n + 1 + 1 := ⟨steps - 2, by omega⟩
  obtain ⟨s, failed⟩ := h.fails (Nat.succ_pos (n + 1)) word.start
  have noComment : t.kind ≠ .comment := fun comment => by
    simp [comment, Kind.startsExpression] at starts
  obtain ⟨d, l, named, typed, first⟩ : ∃ d l, (takeToken ⟨n + 1 + 1, depth⟩ ⟨inRuleset, false⟩
      Draft.empty word).Gives k (Row.cons t r) (.more d) l (Row.cons t r) ∧
      d.ruleType = some ⟨word.start, word.text, none⟩ ∧ d.expression = none := by
    have read : (takeRuleType (n + 1 + 1) Draft.empty word).Gives k (Row.cons t r) _ _ _ :=
      takeRuleType_gives.mpr ⟨rfl, [], trailing_gives_nil (Nat.succ_pos _) noComment r, rfl, rfl⟩
    exact ⟨_, _, by simpa only [takeToken, type] using read, rfl, rfl⟩
  have next : (leadLoop ⟨n + 1 + 1, depth⟩ ⟨inRuleset, false⟩ (n + 1) d l).Fails (Row.cons t r)
      (.overrun, l) s :=
    ParseRules.fails_bind.mpr (.inr ⟨t, l, r, ParseRules.gives_lift.mpr ⟨rfl, gives_pop.mpr rfl⟩,
      ParseRules.fails_bind.mpr (.inl (takeToken_fails typed first starts failed))⟩)
  refine ⟨l, s, ParseRules.fails_bind.mpr (.inl ?_)⟩
  exact ParseRules.fails_bind.mpr (.inr ⟨word, k, _,
    ParseRules.gives_lift.mpr ⟨rfl, gives_pop.mpr rfl⟩,
    ParseRules.fails_bind.mpr (.inr ⟨_, l, _, named, next⟩)⟩)

end Read

/-- As many patterns before `with threshold`, each behind the one before, and a comparison. -/
def levels : Nat → List Spelling
  | 0 => [⟨.equal, "=", rfl⟩,
      ⟨.number, "1", ⟨['1'], List.cons_ne_nil _ _, List.forall_mem_singleton.mpr rfl, .inl rfl⟩⟩]
  | n + 1 => [⟨.kwMatches, "matches", rfl⟩, ⟨.string, "\"\"", ⟨[], List.not_mem_nil, rfl⟩⟩,
      ⟨.kwWith, "with", rfl⟩, ⟨.kwThreshold, "threshold", rfl⟩] ++ levels n

/-- A rule with as many conditions inside one another, and one more inside them. -/
def nestedText (depth : Nat) : String :=
  Spelling.print (⟨.ident, "A", ⟨List.cons_ne_nil _ _, List.forall_mem_singleton.mpr rfl, rfl⟩⟩ ::
    levels depth)

/-- The tokens of its conditions are inside one another. -/
theorem nested_of_labels {n : Nat} {ts : List Token}
    (labels : ts.map Token.label = (levels n).map Spelling.label ++ [(.eof, "")]) :
    ∃ t us, ts = t :: us ∧ t.kind.startsExpression ∧ Read.Nested n t (Row.ofTokens us) := by
  induction n generalizing ts with
  | zero =>
    obtain ⟨t, us, rfl, label, -⟩ := List.map_eq_cons_iff.mp labels
    have kind : t.kind = .equal := congrArg Prod.fst label
    exact ⟨t, us, rfl, by rw [kind]; rfl, .bottom t _⟩
  | succ n ih =>
    obtain ⟨t, _, rfl, label₀, labels⟩ := List.map_eq_cons_iff.mp labels
    obtain ⟨pattern, _, rfl, label₁, labels⟩ := List.map_eq_cons_iff.mp labels
    obtain ⟨word, _, rfl, label₂, labels⟩ := List.map_eq_cons_iff.mp labels
    obtain ⟨word', _, rfl, label₃, labels⟩ := List.map_eq_cons_iff.mp labels
    obtain ⟨next, us, rfl, starts, deeper⟩ := ih labels
    have kind : t.kind = .kwMatches := congrArg Prod.fst label₀
    have quoted : pattern.kind = .string := congrArg Prod.fst label₁
    have is : word.kind = .kwWith := congrArg Prod.fst label₂
    have is' : word'.kind = .kwThreshold := congrArg Prod.fst label₃
    have going : next.kind ≠ .eof ∧ next.kind ≠ .illegal := by
      constructor <;> intro terminal <;> simp [terminal, Kind.startsExpression] at starts
    refine ⟨t, _, rfl, by rw [kind]; rfl, ?_⟩
    simp only [Row.ofTokens, quoted, is, is', going, reduceCtorEq, if_false]
    exact .inside kind quoted is is' starts deeper

/-- The tokens of a nested text: the name, and those of its levels. -/
theorem label_lex_nestedText (depth : Nat) : (lex (nestedText depth)).map Token.label
    = (.ident, "A") :: ((levels depth).map Spelling.label ++ [(.eof, "")]) :=
  Spelling.label_lex_print _

namespace Entry

/-- A rule with as many conditions inside one another as there is room for is overrun. -/
theorem overruns_nestedText (depth : Nat) (options : Options) :
    rule.readOn (some depth) (nestedText depth) options = .error .overrun := by
  obtain ⟨word, ts, tokens, label, labels⟩ :=
    List.map_eq_cons_iff.mp (label_lex_nestedText depth)
  obtain ⟨t, us, rfl, starts, nested⟩ := nested_of_labels labels
  have type : word.kind = .ident := congrArg Prod.fst label
  have going : t.kind ≠ .eof ∧ t.kind ≠ .illegal := by
    constructor <;> intro terminal <;> simp [terminal, Kind.startsExpression] at starts
  have row : Row.ofTokens (lex (nestedText depth))
      = Row.cons word (Row.cons t (Row.ofTokens us)) := by
    simp only [tokens, Row.ofTokens, type, going, reduceCtorEq, if_false]
  have two : 2 ≤ (lex (nestedText depth)).length + 1 := by simp [tokens]
  obtain ⟨l, s, failed⟩ := nested.rule_fails type starts two false Tray.empty
  rw [rule.readOn_eq "", Source.session_eq_error_iff, row]
  exact ⟨.overrun, l, s, ParseRules.fails_bind.mpr (.inl failed), rfl⟩

/-- There is no stack on which every text is read or reported. -/
theorem not_documented_nestedText : ¬ ∃ depth, ∀ (entry : Entry) (source : String)
    (options : Options), Documented source options.snippetWidth
      (entry.readOn (some depth) source options) := by
  rintro ⟨depth, all⟩
  have documented := all rule (nestedText depth) .default
  rw [overruns_nestedText] at documented
  cases documented

end Entry

end QualityRules
