import QualityRules.Tree.Parameter

/-!
# Tree — Expression

The condition of a rule.  A bound compares with one value or with two; a target asks whether a
value is in a list or matches a pattern, and may be asked to hold for so many values only, which is
a bound again: the threshold.
-/

namespace QualityRules

/-- The five comparisons. -/
inductive Comparator where
  | equal
  | greater
  | less
  | greaterEqual
  | lessEqual
deriving DecidableEq

namespace Comparator

/-- The sign of a comparison. -/
def text : Comparator → String
  | equal => "="
  | greater => ">"
  | less => "<"
  | greaterEqual => ">="
  | lessEqual => "<="

/-- The comparison of that sign. -/
def ofText? : String → Option Comparator
  | "=" => some equal
  | ">" => some greater
  | "<" => some less
  | ">=" => some greaterEqual
  | "<=" => some lessEqual
  | _ => none

/-- The comparison that a kind of token stands for. -/
def ofKind? : Kind → Option Comparator
  | .equal => some equal
  | .greater => some greater
  | .less => some less
  | .greaterEqual => some greaterEqual
  | .lessEqual => some lessEqual
  | _ => none

/-- The kinds that stand for a comparison are the comparisons among the kinds. -/
theorem isSome_ofKind? (k : Kind) : (ofKind? k).isSome = k.isComparison := by cases k <;> rfl

/-- A comparison is spelled like its kind. -/
theorem text_of_ofKind? {k : Kind} {c : Comparator} (h : ofKind? k = some c) :
    c.text = k.display := by
  cases k <;> cases h <;> rfl

end Comparator

/-- A comparison with one value. -/
structure Comparison where
  pos : Pos
  operator : Comparator
  right : Parameter
  comments : Option CommentGroup
deriving DecidableEq

/-- A comparison with a lower and an upper value. -/
structure Between where
  pos : Pos
  left : Parameter
  right : Parameter
  comments : Option CommentGroup
deriving DecidableEq

/-- A list to be in. -/
structure Membership where
  pos : Pos
  leftBracket : Pos
  rightBracket : Pos
  values : List Parameter
  comments : Option CommentGroup
deriving DecidableEq

/-- A pattern to match, without its quotes. -/
structure PatternMatch where
  pos : Pos
  patternPos : Pos
  value : String
  comments : Option CommentGroup
deriving DecidableEq

/-- A condition on a number. -/
inductive Bound where
  | comparison (e : Comparison)
  | between (e : Between)
deriving DecidableEq

/-- A condition on many values. -/
inductive Target where
  | membership (e : Membership)
  | pattern (e : PatternMatch)
deriving DecidableEq

/-- A condition on many values, and how many of them have to meet it. -/
structure WithThreshold where
  withPos : Pos
  target : Target
  threshold : Bound
  comments : Option CommentGroup
deriving DecidableEq

/-- The condition of a rule. -/
inductive Expression where
  | bound (e : Bound)
  | target (e : Target)
  | withThreshold (e : WithThreshold)
deriving DecidableEq

/-- The place after the value that a comparison compares with. -/
def Comparison.stop (e : Comparison) : Pos := e.right.stop

/-- The place after the upper value. -/
def Between.stop (e : Between) : Pos := e.right.stop

/-- The place after the closing bracket. -/
def Membership.stop (e : Membership) : Pos := e.rightBracket.addColumns 1

/-- The place after the pattern and its two quotes. -/
def PatternMatch.stop (e : PatternMatch) : Pos := e.patternPos.addColumns (e.value.length + 2)

/-- The place of a bound. -/
def Bound.pos : Bound → Pos
  | comparison e => e.pos
  | between e => e.pos

/-- The place after a bound. -/
def Bound.stop : Bound → Pos
  | comparison e => e.stop
  | between e => e.stop

/-- The place of a target. -/
def Target.pos : Target → Pos
  | membership e => e.pos
  | pattern e => e.pos

/-- The place after a target. -/
def Target.stop : Target → Pos
  | membership e => e.stop
  | pattern e => e.stop

/-- The place of the target. -/
def WithThreshold.pos (e : WithThreshold) : Pos := e.target.pos

/-- The place after the threshold. -/
def WithThreshold.stop (e : WithThreshold) : Pos := e.threshold.stop

namespace Expression

/-- The place of the first character of an expression. -/
def pos : Expression → Pos
  | bound e => e.pos
  | target e => e.pos
  | withThreshold e => e.pos

/-- The place after the last character of an expression. -/
def stop : Expression → Pos
  | bound e => e.stop
  | target e => e.stop
  | withThreshold e => e.stop

end Expression

end QualityRules
