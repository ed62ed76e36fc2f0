import QualityRules.Token.Kind
import QualityRules.Tree.Comment

/-!
# Tree — Parameter

The values that a rule is given and that an expression compares with: strings, numbers, truth
values, durations and dates.  Every value carries the comments that trail it.
-/

namespace QualityRules

/-- The units of a duration. -/
inductive TimeUnit where
  | days
  | hours
deriving DecidableEq

/-- The word for a unit. -/
def TimeUnit.text : TimeUnit → String
  | .days => "days"
  | .hours => "hours"

/-- The unit of that word. -/
def TimeUnit.ofText? : String → Option TimeUnit
  | "days" => some .days
  | "hours" => some .hours
  | _ => none

/-- The unit that a kind of token names. -/
def TimeUnit.ofKind? : Kind → Option TimeUnit
  | .kwDays => some .days
  | .kwHours => some .hours
  | _ => none

/-- A string, without its quotes. -/
structure StringParameter where
  leftQuote : Pos
  rightQuote : Pos
  value : String
  comments : Option CommentGroup
deriving DecidableEq

/-- A number, as it is written. -/
structure NumberParameter where
  pos : Pos
  value : String
  comments : Option CommentGroup
deriving DecidableEq

/-- A truth value. -/
structure BoolParameter where
  pos : Pos
  value : Bool
  comments : Option CommentGroup
deriving DecidableEq

/-- A number of days or hours. -/
structure DurationParameter where
  numberPos : Pos
  unitPos : Pos
  number : String
  unit : TimeUnit
  comments : Option CommentGroup
deriving DecidableEq

/-- The moment of evaluation, by itself or less a duration. -/
structure DateParameter where
  nowPos : Pos
  leftParen : Option Pos
  minus : Option Pos
  duration : Option DurationParameter
  rightParen : Option Pos
  comments : Option CommentGroup
deriving DecidableEq

/-- A value. -/
inductive Parameter where
  | string (p : StringParameter)
  | number (p : NumberParameter)
  | bool (p : BoolParameter)
  | duration (p : DurationParameter)
  | date (p : DateParameter)
deriving DecidableEq

/-- The place after the closing quote. -/
def StringParameter.stop (p : StringParameter) : Pos := p.rightQuote.addColumns 1

/-- The place after the last digit. -/
def NumberParameter.stop (p : NumberParameter) : Pos := p.pos.addColumns p.value.length

/-- A number without a point is an integer. -/
def NumberParameter.isInteger (p : NumberParameter) : Bool := !p.value.toList.contains '.'

/-- The place after `true` or `false`. -/
def BoolParameter.stop (p : BoolParameter) : Pos := p.pos.addColumns (if p.value then 4 else 5)

/-- The place after the unit. -/
def DurationParameter.stop (p : DurationParameter) : Pos :=
  p.unitPos.addColumns p.unit.text.length

/-- A duration with one blank between number and unit. -/
def DurationParameter.value (p : DurationParameter) : String := p.number ++ " " ++ p.unit.text

/-- The place of the opening parenthesis if there is one, else of `now()`. -/
def DateParameter.pos (p : DateParameter) : Pos := p.leftParen.getD p.nowPos

/-- The place after the closing parenthesis if there is one, else after `now()`. -/
def DateParameter.stop (p : DateParameter) : Pos :=
  match p.rightParen with
  | some paren => paren.addColumns 1
  | none => p.nowPos.addColumns 5

/-- A date is relative when a duration is taken off. -/
def DateParameter.isRelative (p : DateParameter) : Bool := p.duration.isSome

namespace Parameter

/-- The place of the first character of a value. -/
def pos : Parameter → Pos
  | string p => p.leftQuote
  | number p => p.pos
  | bool p => p.pos
  | duration p => p.numberPos
  | date p => p.pos

/-- The place after the last character of a value. -/
def stop : Parameter → Pos
  | string p => p.stop
  | number p => p.stop
  | bool p => p.stop
  | duration p => p.stop
  | date p => p.stop

end Parameter

end QualityRules
