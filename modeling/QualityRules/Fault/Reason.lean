import QualityRules.Fault.Template

/-!
# Fault — Reason

The catalogue of the reasons for which a text is refused.  Each has a code, a wording with holes,
perhaps a hint, and says whether the fault lies in the tokens or in how they are put together.

* `Reason.ofCode_code`: a reason is told by its code.
-/

namespace QualityRules

/-- How bad a report is. -/
inductive Severity where
  | error
  | warning
deriving DecidableEq

/-- The word for a severity. -/
def Severity.name : Severity → String
  | .error => "error"
  | .warning => "warning"

/-- Where a fault lies: in the tokens, or in how they are put together. -/
inductive Category where
  | lexer
  | parser
deriving DecidableEq

/-- The word for a category. -/
def Category.name : Category → String
  | .lexer => "lexer"
  | .parser => "parser"

/-- The reasons for which a text is refused. -/
inductive Reason where
  | scanError
  | unrecognizedCharacter
  | unterminatedString
  | invalidNumber
  | malformedNow
  | canceled
  | unexpectedEof
  | unexpectedToken
  | unexpectedSymbol
  | expectedToken
  | expectedString
  | ruleTypeRequired
  | ruleTypeAlreadyDefined
  | parameterAfterExpression
  | expressionAlreadyDefined
  | singleRuleMode
  | deepNestedRule
  | missingRightParen
  | mixedOperators
  | fractionalDuration
  | noParameter
  | expectedDuration
  | expectedThreshold
  | missingEqual
  | missingLeftBracket
  | missingRightBracket
  | noRulesFound
deriving DecidableEq

namespace Reason

/-- The whole catalogue. -/
def all : List Reason :=
  [scanError, unrecognizedCharacter, unterminatedString, invalidNumber, malformedNow, canceled,
    unexpectedEof, unexpectedToken, unexpectedSymbol, expectedToken, expectedString,
    ruleTypeRequired, ruleTypeAlreadyDefined, parameterAfterExpression, expressionAlreadyDefined,
    singleRuleMode, deepNestedRule, missingRightParen, mixedOperators, fractionalDuration,
    noParameter, expectedDuration, expectedThreshold, missingEqual, missingLeftBracket,
    missingRightBracket, noRulesFound]

theorem mem_all (r : Reason) : r ∈ all := by cases r <;> decide

/-- The code of a reason. -/
def code : Reason → String
  | scanError => "LEXER_SCAN_ERROR"
  | unrecognizedCharacter => "LEXER_UNRECOGNIZED_CHARACTER"
  | unterminatedString => "LEXER_UNTERMINATED_STRING"
  | invalidNumber => "LEXER_INVALID_NUMBER"
  | malformedNow => "LEXER_MALFORMED_NOW"
  | canceled => "LEXER_CANCELED"
  | unexpectedEof => "PARSER_UNEXPECTED_EOF"
  | unexpectedToken => "PARSER_UNEXPECTED_TOKEN"
  | unexpectedSymbol => "PARSER_UNEXPECTED_SYMBOL"
  | expectedToken => "PARSER_EXPECTED_TOKEN"
  | expectedString => "PARSER_EXPECTED_STRING"
  | ruleTypeRequired => "PARSER_RULE_TYPE_REQUIRED"
  | ruleTypeAlreadyDefined => "PARSER_RULE_TYPE_ALREADY_DEFINED"
  | parameterAfterExpression => "PARSER_PARAMETER_AFTER_EXPRESSION"
  | expressionAlreadyDefined => "PARSER_EXPRESSION_ALREADY_DEFINED"
  | singleRuleMode => "PARSER_SINGLE_RULE_MODE"
  | deepNestedRule => "PARSER_DEEP_NESTED_RULE"
  | missingRightParen => "PARSER_MISSING_RIGHT_PAREN"
  | mixedOperators => "PARSER_MIXED_OPERATORS"
  | fractionalDuration => "PARSER_DURATION_FLOAT"
  | noParameter => "PARSER_NO_PARAMETER"
  | expectedDuration => "PARSER_EXPECTED_DURATION"
  | expectedThreshold => "PARSER_EXPECTED_THRESHOLD_EXPRESSION"
  | missingEqual => "PARSER_MISSING_EQUAL"
  | missingLeftBracket => "PARSER_MISSING_LEFT_BRACKET"
  | missingRightBracket => "PARSER_MISSING_RIGHT_BRACKET"
  | noRulesFound => "PARSER_NO_RULES_FOUND"

/-- The wording of a reason. -/
def template : Reason → Template
  | scanError => [.hole "message"]
  | unrecognizedCharacter => [.text "unrecognized character: ", .hole "char"]
  | unterminatedString => [.text "unterminated string"]
  | invalidNumber => [.text "invalid number"]
  | malformedNow => [.text "expected '()' after NOW"]
  | canceled => [.text "canceled"]
  | unexpectedEof => [.text "unexpected EOF"]
  | unexpectedToken => [.text "unexpected token `", .hole "found", .text "`"]
  | unexpectedSymbol => [.text "unexpected `", .hole "found", .text "`"]
  | expectedToken =>
    [.text "expected `", .hole "expected", .text "` but got `", .hole "found", .text "`"]
  | expectedString => [.text "expected string but got `", .hole "found", .text "`"]
  | ruleTypeRequired => [.text "RuleType is required: unexpected ", .hole "found"]
  | ruleTypeAlreadyDefined => [.text "RuleType is already defined"]
  | parameterAfterExpression => [.text "parameters must be before expression"]
  | expressionAlreadyDefined => [.text "expression is already defined"]
  | singleRuleMode => [.text "parse mode is single rule"]
  | deepNestedRule => [.text "deep nested rule is not allowed"]
  | missingRightParen => [.text "must close `)`"]
  | mixedOperators =>
    [.text "can not mixed `", .hole "previous", .text "` and `", .hole "current", .text "`"]
  | fractionalDuration => [.text "duration parameter can not be float"]
  | noParameter => [.text "no parameter"]
  | expectedDuration => [.text "expected duration parameter"]
  | expectedThreshold => [.text "expected threshold expression but got `", .hole "found", .text "`"]
  | missingEqual => [.text "must equal after Rules"]
  | missingLeftBracket => [.text "missing `[`"]
  | missingRightBracket => [.text "missing `]`"]
  | noRulesFound => [.text "no rules found"]

/-- What helps against it. -/
def hint : Reason → Option String
  | unterminatedString => some "Close the string with a double quote."
  | invalidNumber => some "Numbers take at most one `.` and cannot be followed by a letter."
  | malformedNow => some "Write `now()` without spaces."
  | ruleTypeRequired => some "Start every rule with its rule type, e.g. `IsComplete`."
  | ruleTypeAlreadyDefined => some "Separate rules inside a ruleset with `,`."
  | singleRuleMode => some "`,` and `]` are only allowed inside `Rules = [ ... ]`."
  | mixedOperators => some "Use a single operator within one combined rule."
  | expectedDuration =>
    some "Write the date as `(now() - <integer> days)` or `(now() - <integer> hours)`."
  | expectedThreshold => some "A threshold is a comparison or a `between` expression."
  | _ => none

/-- Every reason refuses the text. -/
def severity : Reason → Severity
  | _ => .error

/-- The first six reasons are about tokens. -/
def category : Reason → Category
  | scanError | unrecognizedCharacter | unterminatedString | invalidNumber | malformedNow
  | canceled => .lexer
  | _ => .parser

/-- The reason of that code. -/
def ofCode (asked : String) : Option Reason := all.find? fun r => r.code = asked

theorem ofCode_code (r : Reason) : ofCode r.code = some r := by cases r <;> rfl

end Reason

end QualityRules
