import QualityRules.Read.Rule

/-!
# Proofs — Grammar

The language of rules and rulesets, apart from comments: which tokens make up a value, a condition,
a rule or a combined rule, a ruleset or a file, and which part of a tree they stand for.  The readers
do not occur here.

* `IsValue` … `IsCondition`: values and conditions.
* `IsPlain`, `IsMember`, `IsChain`, `IsDecl`: a rule by itself, one in parentheses, several of them
  that one connective joins, and any of these.
* `IsText`: a declaration with the end of the text behind it.
* `IsBody`, `IsRuleset`, `IsRulesets`, `IsFile`: declarations with commas between, these in the
  brackets of a ruleset, rulesets in a row, and a text of them.
-/

namespace QualityRules.Grammar
open Read (Member)

/-- A value: a string, a number, a whole number with a unit, a truth value or `now()`. -/
inductive IsValue : List Token → Parameter → Prop
  | string {t} (kind : t.kind = .string) :
      IsValue [t] (.string
        ⟨t.start, t.start.addColumns (t.text.length - 1), Read.unquote t.text, none⟩)
  | number {t} (kind : t.kind = .number) : IsValue [t] (.number ⟨t.start, t.text, none⟩)
  | duration {t u unit} (kind : t.kind = .number) (whole : Read.hasPoint t.text = false)
      (unit_kind : TimeUnit.ofKind? u.kind = some unit) :
      IsValue [t, u] (.duration ⟨t.start, u.start, t.text, unit, none⟩)
  | yes {t} (kind : t.kind = .kwTrue) : IsValue [t] (.bool ⟨t.start, true, none⟩)
  | no {t} (kind : t.kind = .kwFalse) : IsValue [t] (.bool ⟨t.start, false, none⟩)
  | now {t} (kind : t.kind = .kwNow) : IsValue [t] (.date ⟨t.start, none, none, none, none, none⟩)

/-- A value that is no date. -/
def IsOperand (ts : List Token) (p : Parameter) : Prop :=
  IsValue ts p ∧ ∀ t ∈ ts, t.kind ≠ .kwNow

/-- A date before now: `now()`, a minus sign and a duration in parentheses. -/
inductive IsMoment : List Token → DateParameter → Prop
  | mk {paren now minus ts d close} (opens : paren.kind = .leftParen) (now_kind : now.kind = .kwNow)
      (minus_kind : minus.kind = .minus) (less : IsValue ts (.duration d))
      (closes : close.kind = .rightParen) :
      IsMoment (paren :: now :: minus :: ts ++ [close])
        ⟨now.start, some paren.start, some minus.start, some d, some close.start, none⟩

/-- A comparison with a value or with a date before now, or two values with `between`. -/
inductive IsBound : List Token → Bound → Prop
  | comparison {sign operator ts p} (kind : Comparator.ofKind? sign.kind = some operator)
      (right : IsValue ts p) :
      IsBound (sign :: ts) (.comparison ⟨sign.start, operator, p, none⟩)
  | moment {sign operator ts d} (kind : Comparator.ofKind? sign.kind = some operator)
      (right : IsMoment ts d) :
      IsBound (sign :: ts) (.comparison ⟨sign.start, operator, .date d, none⟩)
  | between {word ts lower conj us upper} (kind : word.kind = .kwBetween)
      (left : IsOperand ts lower) (joins : conj.kind = .kwAnd) (right : IsOperand us upper) :
      IsBound (word :: ts ++ conj :: us) (.between ⟨word.start, lower, upper, none⟩)

/-- One value or more, with commas between. -/
inductive IsList : List Token → List Parameter → Prop
  | one {ts p} (only : IsOperand ts p) : IsList ts [p]
  | more {ts p comma us ps} (first : IsOperand ts p) (kind : comma.kind = .comma)
      (others : IsList us ps) : IsList (ts ++ comma :: us) (p :: ps)

/-- A list of values in brackets, which may be empty, behind `in`; or a pattern behind
`matches`. -/
inductive IsTarget : List Token → Target → Prop
  | empty {word left right} (kind : word.kind = .kwIn) (opens : left.kind = .leftBracket)
      (closes : right.kind = .rightBracket) :
      IsTarget [word, left, right] (.membership ⟨word.start, left.start, right.start, [], none⟩)
  | membership {word left ts ps right} (kind : word.kind = .kwIn) (opens : left.kind = .leftBracket)
      (values : IsList ts ps) (closes : right.kind = .rightBracket) :
      IsTarget (word :: left :: ts ++ [right])
        (.membership ⟨word.start, left.start, right.start, ps, none⟩)
  | pattern {word t} (kind : word.kind = .kwMatches) (text : t.kind = .string) :
      IsTarget [word, t] (.pattern ⟨word.start, t.start, Read.unquote t.text, none⟩)

/-- A bound, a target, or a target with a bound behind `with threshold`. -/
inductive IsCondition : List Token → Expression → Prop
  | bound {ts e} (is : IsBound ts e) : IsCondition ts (.bound e)
  | target {ts e} (is : IsTarget ts e) : IsCondition ts (.target e)
  | withThreshold {ts target word word' us bound} (is : IsTarget ts target)
      (kind : word.kind = .kwWith) (kind' : word'.kind = .kwThreshold)
      (threshold : IsBound us bound) :
      IsCondition (ts ++ word :: word' :: us) (.withThreshold ⟨word.start, target, bound, none⟩)

/-- Values in a row. -/
inductive IsValues : List Token → List Parameter → Prop
  | nil : IsValues [] []
  | cons {ts p us ps} (first : IsValue ts p) (others : IsValues us ps) :
      IsValues (ts ++ us) (p :: ps)

/-- A condition, or nothing. -/
inductive IsTail : List Token → Option Expression → Prop
  | none : IsTail [] none
  | some {ts e} (is : IsCondition ts e) : IsTail ts (some e)

/-- The name of a rule type with values and perhaps a condition behind it. -/
inductive IsPlain : List Token → Rule → Prop
  | mk {t ts ps us e} (kind : t.kind = .ident) (values : IsValues ts ps) (condition : IsTail us e) :
      IsPlain (t :: (ts ++ us)) ⟨⟨t.start, t.text, Option.none⟩, ps, e, Option.none, Option.none⟩

/-- A rule in parentheses; in a ruleset it may have a comma behind it. -/
inductive IsMember (inRuleset : Bool) : List Token → Member → Prop
  | closed {paren ts r close} (opens : paren.kind = .leftParen) (plain : IsPlain ts r)
      (closes : close.kind = .rightParen) :
      IsMember inRuleset (paren :: (ts ++ [close])) ⟨paren.start, r, close.start⟩
  | comma {paren ts r comma close} (listed : inRuleset) (opens : paren.kind = .leftParen)
      (plain : IsPlain ts r) (separates : comma.kind = .comma) (closes : close.kind = .rightParen) :
      IsMember inRuleset (paren :: (ts ++ [comma, close])) ⟨paren.start, r, close.start⟩

/-- Rules in parentheses, one or more, with the same connective between them. -/
inductive IsChain (inRuleset : Bool) (operator : Connective) : List Token → List Member → Prop
  | one {ts m} (only : IsMember inRuleset ts m) : IsChain inRuleset operator ts [m]
  | more {ts m conj us ms} (first : IsMember inRuleset ts m)
      (joins : Connective.ofKind? conj.kind = some operator)
      (others : IsChain inRuleset operator us ms) :
      IsChain inRuleset operator (ts ++ conj :: us) (m :: ms)

/-- A rule by itself, a lone rule in parentheses, which is that rule, or at least two rules in
parentheses that one connective joins. -/
inductive IsDecl (inRuleset : Bool) : List Token → RuleDecl → Prop
  | plain {ts r} (is : IsPlain ts r) : IsDecl inRuleset ts (.single r)
  | lone {ts m} (is : IsMember inRuleset ts m) : IsDecl inRuleset ts (.single m.rule)
  | combined {operator ts m ms} (is : IsChain inRuleset operator ts (m :: ms)) (several : ms ≠ []) :
      IsDecl inRuleset ts (.combined ⟨m.leftParen, ((m :: ms).getLastD m).rightParen,
        (m :: ms).map Member.rule, operator, none, none⟩)

/-- A declaration with the end of the text behind it. -/
inductive IsText : List Token → RuleDecl → Prop
  | mk {ts d last} (is : IsDecl false ts d) (ends : last.kind = .eof) : IsText (ts ++ [last]) d

section
variable (decl : List Token → RuleDecl → Prop)

/-- Declarations with commas between; one more comma may stand behind the last.  What a declaration
is `decl` says. -/
inductive IsBody : List Token → List RuleDecl → Prop
  | nil : IsBody [] []
  | last {ts d} (only : decl ts d) : IsBody ts [d]
  | more {ts d comma us ds} (first : decl ts d) (kind : comma.kind = .comma)
      (others : IsBody us ds) : IsBody (ts ++ comma :: us) (d :: ds)

/-- Declarations in brackets, behind the word for rulesets and an equals sign. -/
inductive IsRuleset : List Token → Ruleset → Prop
  | mk {word sign left ts ds right} (kind : word.kind = .kwRules) (equal : sign.kind = .equal)
      (opens : left.kind = .leftBracket) (body : IsBody decl ts ds)
      (closes : right.kind = .rightBracket) :
      IsRuleset (word :: sign :: left :: (ts ++ [right]))
        ⟨word.start, left.start, right.start, ds, [], none, none, none⟩

/-- Rulesets in a row. -/
inductive IsRulesets : List Token → List Ruleset → Prop
  | nil : IsRulesets [] []
  | cons {ts x us xs} (first : IsRuleset decl ts x) (others : IsRulesets us xs) :
      IsRulesets (ts ++ us) (x :: xs)

/-- Rulesets, at least one, with the end of the text behind them. -/
inductive IsFile (filename : String) : List Token → RuleFile → Prop
  | mk {ts xs last} (all : IsRulesets decl ts xs) (some : xs ≠ []) (ends : last.kind = .eof) :
      IsFile filename (ts ++ [last]) ⟨filename, [], xs⟩

end

/-! ### What goes on -/

/-- Values behind values are values. -/
theorem IsValues.append {ts us : List Token} {ps qs : List Parameter} (h : IsValues ts ps)
    (k : IsValues us qs) : IsValues (ts ++ us) (ps ++ qs) := by
  induction h with
  | nil => exact k
  | cons first _ ih =>
    rw [List.append_assoc, List.cons_append]
    exact .cons first ih

/-- A value alone is values. -/
theorem IsValues.single {ts : List Token} {p : Parameter} (h : IsValue ts p) : IsValues ts [p] := by
  simpa using IsValues.cons h .nil

/-- A rule without a condition may get one more value. -/
theorem IsPlain.value {ts us : List Token} {r : Rule} {p : Parameter} (h : IsPlain ts r)
    (open_ : r.expression = none) (k : IsValue us p) :
    IsPlain (ts ++ us) { r with parameters := r.parameters ++ [p] } := by
  cases h with
  | @mk t vs ps ws e kind values condition =>
    cases condition with
    | none =>
      have := IsPlain.mk kind (values.append (.single k)) .none
      simpa using this
    | some is => exact nomatch open_

/-- A rule without a condition may get one. -/
theorem IsPlain.condition {ts us : List Token} {r : Rule} {e : Expression} (h : IsPlain ts r)
    (open_ : r.expression = none) (k : IsCondition us e) :
    IsPlain (ts ++ us) { r with expression := e } := by
  cases h with
  | @mk t vs ps ws e' kind values condition =>
    cases condition with
    | none =>
      have := IsPlain.mk kind values (.some k)
      simpa using this
    | some is => exact nomatch open_

end QualityRules.Grammar
