import QualityRules.Read.Trailing

/-!
# Read — Parameter

Values.  A number takes the word `days` or `hours` that follows it and is a duration then.  Each
reader returns the value with the comments that go to the rule.

* `parameter` reads the value that starts with a given token.
* `relativeDate` reads `now()` less a duration, in parentheses.
* `operand` reads a value that is no date.
-/

namespace QualityRules.Read

/-- A text without its first and last character. -/
def unquote (text : String) : String := String.ofList (text.toList.drop 1).dropLast

/-- The text holds a point. -/
def hasPoint (text : String) : Bool := text.toList.contains '.'

/-- A number, or a duration if a unit follows. -/
def number (fuel : Nat) (t : Token) (rulePos : Pos) : Parse (Parameter × List Comment) := do
  let next ← pop
  match TimeUnit.ofKind? next.kind with
  | none =>
    push next
    let a ← trailingOf fuel t.start rulePos
    return (.number ⟨t.start, t.text, a.group⟩, a.forRule)
  | some unit =>
    if hasPoint t.text then refuse .fractionalDuration t.start
    else
      let a ← trailingOf fuel t.start rulePos
      return (.duration ⟨t.start, next.start, t.text, unit, a.group⟩, a.forRule)

/-- The value that starts with the token `t`. -/
def parameter (fuel : Nat) (t : Token) (rulePos : Pos) : Parse (Parameter × List Comment) := do
  match t.kind with
  | .string =>
    let a ← trailingOf fuel t.start rulePos
    let rightQuote := t.start.addColumns (t.text.length - 1)
    return (.string ⟨t.start, rightQuote, unquote t.text, a.group⟩, a.forRule)
  | .number => number fuel t rulePos
  | .kwTrue =>
    let a ← trailingOf fuel t.start rulePos
    return (.bool ⟨t.start, true, a.group⟩, a.forRule)
  | .kwFalse =>
    let a ← trailingOf fuel t.start rulePos
    return (.bool ⟨t.start, false, a.group⟩, a.forRule)
  | .kwNow =>
    let a ← trailingOf fuel t.start rulePos
    return (.date ⟨t.start, none, none, none, none, a.group⟩, a.forRule)
  | _ => refuse .noParameter t.start

/-- The next token, which has to be of that kind, with the comments that trail it. -/
def expect (fuel : Nat) (kind : Kind) : Parse (Token × List Comment) := do
  let (t, comments) ← popTrailing fuel
  if t.kind = kind then return (t, comments)
  else refuse (.expectedToken kind.display t.found) t.start

/-- A duration, with the comments that go to the rule. -/
def duration (fuel : Nat) (rulePos : Pos) : Parse (DurationParameter × List Comment) := do
  let t ← pop
  match ← parameter fuel t rulePos with
  | (.duration d, comments) => return (d, comments)
  | _ => refuse .expectedDuration t.start

/-- The rest of a relative date behind its opening parenthesis `paren`. -/
def relativeDate (fuel : Nat) (paren : Token) (rulePos : Pos) :
    Parse (DateParameter × List Comment) := do
  let (now, comments) ← expect fuel .kwNow
  let a := Attached.none.route comments now.start rulePos
  let (minus, comments) ← expect fuel .minus
  let a := a.route comments minus.start rulePos
  let (d, comments) ← duration fuel rulePos
  let a := a.addForRule comments
  let (close, comments) ← expect fuel .rightParen
  let a := a.route comments close.start rulePos
  return (⟨now.start, some paren.start, some minus.start, some d, some close.start, a.group⟩,
    a.forRule)

/-- A value that may stand in a list or between; dates may not. -/
def isOperand (t : Token) : Bool := t.kind.startsParameter && t.kind ≠ .kwNow

/-- The next value, which must not be a date. -/
def operand (fuel : Nat) (rulePos : Pos) : Parse (Parameter × List Comment) := do
  let t ← pop
  if isOperand t then parameter fuel t rulePos
  else refuse (.unexpectedToken t.kind.display) t.start

end QualityRules.Read
