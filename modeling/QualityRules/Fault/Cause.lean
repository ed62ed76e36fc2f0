import QualityRules.Fault.Diagnostic
import QualityRules.Text.Quoted
import QualityRules.Tree.Rule

/-!
# Fault — Cause

Why the reading of a text stops: a cause from the catalogue with what was found, at a place; or
that there was nothing to read.

* `Cause.reason` and `Cause.values` give the catalogue entry of a cause and what goes into its
  holes; `Cause.fill_isOk` says that no hole stays empty.
* `Refusal.report` turns a refusal into the failure that a caller sees.
-/

namespace QualityRules

/-- Why the reading of a text stops at some place. -/
inductive Cause where
  /-- The tokens end in a fault, which says this. -/
  | scan (message : String)
  | unexpectedEof
  | unexpectedToken (found : String)
  | unexpectedSymbol (found : String)
  | expectedToken (expected found : String)
  | expectedString (found : String)
  | ruleTypeRequired (found : String)
  | ruleTypeAlreadyDefined
  | parameterAfterExpression
  | expressionAlreadyDefined
  | singleRuleMode
  | deepNestedRule
  | missingRightParen
  | mixedOperators (previous current : Connective)
  | fractionalDuration
  | noParameter
  | expectedDuration
  | expectedThreshold (found : String)
  | missingEqual
  | missingLeftBracket
  | missingRightBracket
deriving DecidableEq

namespace Cause

/-- The catalogue entry of a cause. -/
def reason : Cause → Reason
  | scan _ => .scanError
  | unexpectedEof => .unexpectedEof
  | unexpectedToken _ => .unexpectedToken
  | unexpectedSymbol _ => .unexpectedSymbol
  | expectedToken _ _ => .expectedToken
  | expectedString _ => .expectedString
  | ruleTypeRequired _ => .ruleTypeRequired
  | ruleTypeAlreadyDefined => .ruleTypeAlreadyDefined
  | parameterAfterExpression => .parameterAfterExpression
  | expressionAlreadyDefined => .expressionAlreadyDefined
  | singleRuleMode => .singleRuleMode
  | deepNestedRule => .deepNestedRule
  | missingRightParen => .missingRightParen
  | mixedOperators _ _ => .mixedOperators
  | fractionalDuration => .fractionalDuration
  | noParameter => .noParameter
  | expectedDuration => .expectedDuration
  | expectedThreshold _ => .expectedThreshold
  | missingEqual => .missingEqual
  | missingLeftBracket => .missingLeftBracket
  | missingRightBracket => .missingRightBracket

/-- What goes into the wording of a cause. -/
def values : Cause → Values
  | scan message => [("message", message)]
  | unexpectedToken found | unexpectedSymbol found | expectedString found | ruleTypeRequired found
  | expectedThreshold found => [("found", found)]
  | expectedToken expected found => [("expected", expected), ("found", found)]
  | mixedOperators previous current => [("previous", previous.text), ("current", current.text)]
  | _ => []

/-- A cause has a value for every hole of its wording. -/
theorem fill_isOk (c : Cause) : ∃ s, c.reason.template.fill c.values = .ok s := by
  cases c <;> exact ⟨_, rfl⟩

end Cause

/-- How the reading of a text ends without a result. -/
inductive Refusal where
  /-- The text is not in the language; this is the cause and the place. -/
  | at (cause : Cause) (pos : Pos)
  /-- The text holds no ruleset. -/
  | noRules
  /-- The tokens ended without saying so. -/
  | starved
  /-- So many members in parentheses, and no connective that would combine them. -/
  | memberCount (count : Nat)
  /-- A bound was reached, on the steps of a loop or on the conditions that are open inside one
  another. -/
  | overrun
deriving DecidableEq

/-- The failure that a caller sees. -/
inductive Failure where
  | diagnostic (d : Diagnostic)
  | noRules
  | starved
  | memberCount (count : Nat)
  | overrun
  /-- A wording was left with an empty hole. -/
  | missingValue (hole : String)
deriving DecidableEq

/-- A failure in one line. -/
def Failure.message : Failure → String
  | diagnostic d => d.render
  | noRules => Reason.noRulesFound.template.source
  | starved => "token stream closed before EOF"
  | memberCount n => "parentheses hold " ++ toString n ++ " members and no connective"
  | overrun => "maximum recursion depth exceeded"
  | missingValue hole => Quoted.text hole

/-- The report on a catalogue entry as a failure. -/
def Failure.ofReason (reason : Reason) (source : String) (pos : Pos) (width : Int)
    (values : Values) : Failure :=
  match Diagnostic.report reason source pos width values with
  | .ok d => .diagnostic d
  | .error hole => .missingValue hole.name

/-- The failure that a caller sees, with an excerpt of that width. -/
def Refusal.report (source : String) (width : Int) : Refusal → Failure
  | .at cause pos => Failure.ofReason cause.reason source pos width cause.values
  | noRules => .noRules
  | starved => .starved
  | memberCount n => .memberCount n
  | overrun => .overrun

/-- A cause at a place is always reported as such, with the excerpt at that place. -/
theorem Refusal.report_at (source : String) (width : Int) (cause : Cause) (pos : Pos) :
    ∃ message, cause.reason.template.fill cause.values = .ok message ∧
      (Refusal.at cause pos).report source width =
        .diagnostic ⟨cause.reason, message, pos, Excerpt.near source pos width⟩ := by
  obtain ⟨message, h⟩ := cause.fill_isOk
  exact ⟨message, h, by simp [report, Failure.ofReason, Diagnostic.report, h, bind, Except.bind,
    pure, Except.pure]⟩

end QualityRules
