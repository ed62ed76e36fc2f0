import QualityRules.Tree.Expression

/-!
# Tree — Rule

A rule has a type, values and perhaps a condition.  Rules in parentheses combine under one
connective.  A ruleset lists rules and combined rules, a file holds rulesets.  Comments that stand
right before a rule or a ruleset describe it, those behind it trail it, and those that do neither
float in the ruleset or in the file.
-/

namespace QualityRules

/-- The name of a rule type, with the comments that trail it. -/
structure Ident where
  pos : Pos
  name : String
  comments : Option CommentGroup
deriving DecidableEq

/-- A single rule. -/
structure Rule where
  ruleType : Ident
  parameters : List Parameter
  expression : Option Expression
  description : Option CommentGroup
  comments : Option CommentGroup
deriving DecidableEq

/-- What joins the members of a combined rule. -/
inductive Connective where
  | and
  | or
deriving DecidableEq

namespace Connective

/-- The word for a connective. -/
def text : Connective → String
  | and => "and"
  | or => "or"

/-- The connective of that word. -/
def ofText? : String → Option Connective
  | "and" => some and
  | "or" => some or
  | _ => none

/-- The connective that a kind of token stands for. -/
def ofKind? : Kind → Option Connective
  | .kwAnd => some and
  | .kwOr => some or
  | _ => none

end Connective

/-- Rules in parentheses, all joined by one connective. -/
structure CombinedRule where
  firstParen : Pos
  lastParen : Pos
  rules : List Rule
  operator : Connective
  description : Option CommentGroup
  comments : Option CommentGroup
deriving DecidableEq

/-- What a ruleset lists. -/
inductive RuleDecl where
  | single (r : Rule)
  | combined (r : CombinedRule)
deriving DecidableEq

/-- A list of rules in brackets. -/
structure Ruleset where
  declPos : Pos
  leftBracket : Pos
  rightBracket : Pos
  rules : List RuleDecl
  /-- The groups that float between the brackets. -/
  innerComments : List CommentGroup
  description : Option CommentGroup
  /-- The comments that trail the opening bracket. -/
  headerComments : Option CommentGroup
  comments : Option CommentGroup
deriving DecidableEq

/-- The rulesets of a file, with the groups that float around them. -/
structure RuleFile where
  filename : String
  commentGroups : List CommentGroup
  rulesets : List Ruleset
deriving DecidableEq

/-- The place after a name. -/
def Ident.stop (i : Ident) : Pos := i.pos.addColumns i.name.length

namespace Rule

/-- The place of the rule type. -/
def pos (r : Rule) : Pos := r.ruleType.pos

/-- The place after the last part that the rule has. -/
def stop (r : Rule) : Pos :=
  match r.expression, r.parameters.getLast? with
  | some e, _ => e.stop
  | none, some p => p.stop
  | none, none => r.ruleType.stop

end Rule

/-- The place of the first parenthesis. -/
def CombinedRule.pos (r : CombinedRule) : Pos := r.firstParen

/-- The place after the last parenthesis. -/
def CombinedRule.stop (r : CombinedRule) : Pos := r.lastParen.addColumns 1

/-- The place of the first character of a rule. -/
def RuleDecl.pos : RuleDecl → Pos
  | single r => r.pos
  | combined r => r.pos

/-- The place after the last character of a rule. -/
def RuleDecl.stop : RuleDecl → Pos
  | single r => r.stop
  | combined r => r.stop

/-- The place of the word that opens a ruleset. -/
def Ruleset.pos (r : Ruleset) : Pos := r.declPos

/-- The place after the comments that trail the closing bracket, or after the bracket. -/
def Ruleset.stop (r : Ruleset) : Pos :=
  match r.comments with
  | some g => g.stop
  | none => r.rightBracket.addColumns 1

namespace RuleFile

/-- The smaller of two places. -/
def earlier (p q : Pos) : Pos := if q < p then q else p

/-- The greater of two places. -/
def later (p q : Pos) : Pos := if p < q then q else p

/-- The place of the first group or ruleset, whichever comes first. -/
def pos (f : RuleFile) : Pos :=
  match f.commentGroups.head?, f.rulesets.head? with
  | some g, some r => earlier g.pos r.pos
  | some g, none => g.pos
  | none, some r => r.pos
  | none, none => Pos.nowhere

/-- The place after the last group or ruleset, whichever ends last. -/
def stop (f : RuleFile) : Pos :=
  match f.commentGroups.getLast?, f.rulesets.getLast? with
  | some g, some r => later g.stop r.stop
  | some g, none => g.stop
  | none, some r => r.stop
  | none, none => Pos.nowhere

end RuleFile

end QualityRules
