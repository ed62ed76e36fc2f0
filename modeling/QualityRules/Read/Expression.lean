import QualityRules.Read.Parameter

/-!
# Read — Expression

Conditions.  A target may go on with `with threshold` and a bound.  What follows those two words is
read as any condition and only then has to be a bound; so conditions are opened inside one another
until one of them is read, and the stack of calls has to hold them all.

* `Fuel` says how many turns a loop may make, and how many conditions may be open.
* `expression` reads the condition that starts with a given token.
* `withThreshold` reads what may follow a target.
-/

namespace QualityRules.Read

/-- What a reader may use up: turns of each of its loops, and room for conditions that are open
inside one another.  A loop takes a token at each turn, so that turns are never wanting where there
are more than tokens; room is what the stack of calls has. -/
structure Fuel where
  steps : Nat
  depth : Nat
deriving DecidableEq

/-- As much room as a loop may make turns. -/
instance : Coe Nat Fuel := ⟨fun n => ⟨n, n⟩⟩

/-- So many turns, on a stack with room for so many conditions, or with as much room as turns. -/
def Fuel.on (stack : Option Nat) (steps : Nat) : Fuel := ⟨steps, stack.getD steps⟩

@[simp] theorem Fuel.on_none (steps : Nat) : Fuel.on none steps = steps := rfl

/-- The comparison behind its sign, the token `t`. -/
def comparison (fuel : Nat) (t : Token) (operator : Comparator) (rulePos : Pos) :
    Parse (Comparison × List Comment) := do
  let (value, comments) ← popTrailing fuel
  let a := Attached.none.route comments t.start rulePos
  if value.kind.startsParameter then
    let (right, comments) ← parameter fuel value rulePos
    let a := a.addForRule comments
    return (⟨t.start, operator, right, a.group⟩, a.forRule)
  else if value.kind = .leftParen then
    let (right, comments) ← relativeDate fuel value rulePos
    let a := a.addForRule comments
    return (⟨t.start, operator, .date right, a.group⟩, a.forRule)
  else refuse (.unexpectedToken value.kind.display) value.start

/-- The two values behind `between`, the token `t`. -/
def between (fuel : Nat) (t : Token) (rulePos : Pos) : Parse (Between × List Comment) := do
  let (lower, comments) ← operand fuel rulePos
  let a := Attached.none.addForRule comments
  let (conjunction, comments) ← expect fuel .kwAnd
  let a := a.route comments conjunction.start rulePos
  let (upper, comments) ← operand fuel rulePos
  let a := a.addForRule comments
  return (⟨t.start, lower, upper, a.group⟩, a.forRule)

/-- The next token that is no comment, in at most so many steps, with the comments before it. -/
def skipCommentsLoop : Nat → List Comment → Parse (Token × List Comment)
  | 0, _ => fail .overrun
  | n + 1, skipped => do
    let t ← pop
    if t.kind = .comment then skipCommentsLoop n (skipped ++ [Comment.ofToken t])
    else return (t, skipped)

/-- The next token that is no comment, with the comments before it. -/
def popSkipping (fuel : Nat) : Parse (Token × List Comment) := skipCommentsLoop fuel []

/-- The values of a list and its closing bracket, in at most so many steps. -/
def valuesLoop (fuel : Nat) (rulePos : Pos) : Nat → List Parameter → Attached →
    Parse (Token × List Parameter × Attached)
  | 0, _, _ => fail .overrun
  | n + 1, values, a => do
    let (item, skipped) ← popSkipping fuel
    let a := a.addOwn skipped
    if item.kind = .rightBracket && values.isEmpty then return (item, values, a)
    else if !isOperand item then refuse (.unexpectedToken item.kind.display) item.start
    else
      let (value, comments) ← parameter fuel item rulePos
      let a := a.addForRule comments
      let values := values ++ [value]
      let (separator, skipped) ← popSkipping fuel
      let a := a.addOwn skipped
      if separator.kind = .rightBracket then return (separator, values, a)
      else if separator.kind ≠ .comma then
        refuse (.expectedToken "," separator.found) separator.start
      else valuesLoop fuel rulePos n values a

/-- The list behind `in`, the token `t`. -/
def membership (fuel : Nat) (t : Token) (rulePos : Pos) : Parse (Membership × List Comment) := do
  let (bracket, comments) ← expect fuel .leftBracket
  let a := Attached.none.route comments bracket.start rulePos
  let (close, values, a) ← valuesLoop fuel rulePos fuel [] a
  let a := a.route (← trailing fuel close.start) close.start rulePos
  return (⟨t.start, bracket.start, close.start, values, a.group⟩, a.forRule)

/-- The pattern behind `matches`, the token `t`. -/
def patternMatch (fuel : Nat) (t : Token) (rulePos : Pos) :
    Parse (PatternMatch × List Comment) := do
  let (pattern, comments) ← popTrailing fuel
  if pattern.kind ≠ .string then refuse (.expectedString pattern.found) pattern.start
  else
    let a := Attached.none.route comments pattern.start rulePos
    return (⟨t.start, pattern.start, unquote pattern.text, a.group⟩, a.forRule)

/-- What may follow a target, where `inner` reads the condition behind `with threshold`; the
comments `forRule` go to the rule before all others. -/
def thresholdSuffix (fuel : Nat) (inner : Token → Parse (Expression × List Comment))
    (target : Target) (rulePos : Pos) (forRule : List Comment) :
    Parse (Expression × List Comment) := do
  let word ← pop
  if word.kind ≠ .kwWith then
    push word
    return (.target target, forRule)
  else
    let (_, comments) ← expect fuel .kwThreshold
    let a := (Attached.mk [] forRule).route comments word.start rulePos
    let start ← pop
    if !start.kind.startsExpression then
      refuse (.unexpectedToken start.kind.display) start.start
    else
      match ← inner start with
      | (.bound bound, comments) =>
        let a := a.addForRule comments
        return (.withThreshold ⟨word.start, target, bound, a.group⟩, a.forRule)
      | _ => refuse (.expectedThreshold start.kind.display) start.start

/-- The condition that starts with the token `t`, where so many conditions may be open inside one
another. -/
def expressionLoop (fuel : Nat) (rulePos : Pos) : Nat → Token → Parse (Expression × List Comment)
  | 0, _ => fail .overrun
  | n + 1, t => do
    match Comparator.ofKind? t.kind, t.kind with
    | some operator, _ =>
      let (e, comments) ← comparison fuel t operator rulePos
      return (.bound (.comparison e), comments)
    | none, .kwBetween =>
      let (e, comments) ← between fuel t rulePos
      return (.bound (.between e), comments)
    | none, .kwIn =>
      let (e, comments) ← membership fuel t rulePos
      thresholdSuffix fuel (expressionLoop fuel rulePos n) (.membership e) rulePos comments
    | none, .kwMatches =>
      let (e, comments) ← patternMatch fuel t rulePos
      thresholdSuffix fuel (expressionLoop fuel rulePos n) (.pattern e) rulePos comments
    | none, _ => refuse (.unexpectedToken t.kind.display) t.start

/-- The condition that starts with the token `t`. -/
def expression (fuel : Fuel) (t : Token) (rulePos : Pos) : Parse (Expression × List Comment) :=
  expressionLoop fuel.steps rulePos fuel.depth t

/-- A target with what may follow it. -/
def withThreshold (fuel : Fuel) (target : Target) (rulePos : Pos) :
    Parse (Expression × List Comment) :=
  thresholdSuffix fuel.steps (expressionLoop fuel.steps rulePos fuel.depth) target rulePos []

end QualityRules.Read
