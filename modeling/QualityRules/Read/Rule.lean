import QualityRules.Read.Expression
import QualityRules.Read.Tray

/-!
# Read — Rule

Rules, with the comments that stand around them.  A rule ends at the end of the text, at a comma or
a closing bracket in a ruleset, and in parentheses at the closing one; what ends it has to be
allowed there.

* `ParseRules` is the monad of readers that put comments on a tray as well.
* `lead` reads up to the end of a rule, or up to the parenthesis that opens a group.
* `group` reads rules in parentheses, `rule` reads either.
-/

namespace QualityRules

/-- A reader that puts comments on a tray as well.  When it fails, the tray is part of the
failure. -/
abbrev ParseRules := StateT Tray (Reading (Refusal × Tray))

/-- A cursor and the tray for the comments that it meets. -/
structure Desk where
  cursor : Cursor
  tray : Tray
deriving DecidableEq

/-- The desk before the first of the tokens `ts`, with nothing on the tray. -/
def Desk.ofTokens (ts : List Token) : Desk := ⟨Cursor.ofTokens ts, Tray.empty⟩

/-- Lets a reader work at a desk. -/
def ParseRules.runAt {α : Type} (p : ParseRules α) (d : Desk) : Except Refusal α × Desk :=
  match (p d.tray).run d.cursor with
  | (.ok (a, tray), cursor) => (.ok a, ⟨cursor, tray⟩)
  | (.error (e, tray), cursor) => (.error e, ⟨cursor, tray⟩)

namespace Read

/-- A reader that leaves the tray alone. -/
def offTray {α : Type} (p : Parse α) : ParseRules α := fun tray =>
  (p.mapError fun e => (e, tray)) >>= fun a => pure (a, tray)

instance : MonadLift Parse ParseRules := ⟨offTray⟩

/-- A reader whose tray is changed by `enter` before and by `leave` after it, also when it
fails. -/
def onTray {α : Type} (enter : Tray → Tray) (leave : Tray → Tray → Tray) (p : ParseRules α) :
    ParseRules α := fun tray =>
  ((p (enter tray)).mapError fun (e, t) => (e, leave tray t)) >>=
    fun (a, t) => pure (a, leave tray t)

/-- A reader with a run of its own, which floats into the same place; what still waits at its end
is dropped. -/
def withFreshRun {α : Type} (p : ParseRules α) : ParseRules α :=
  onTray (fun tray => { tray with run := [] }) (fun tray t => { t with run := tray.run }) p

/-- A reader that works on another tray and returns it. -/
def withTray {α : Type} (inner : Tray) (p : ParseRules α) : ParseRules (α × Tray) :=
  onTray (fun _ => inner) (fun tray _ => tray) do return (← p, ← get)

/-- Lets the waiting comments float. -/
def spill : ParseRules Unit := modify Tray.spill

/-- Puts the comment that a token holds on the tray. -/
def addComment (t : Token) : ParseRules Unit := modify fun tray => tray.add (Comment.ofToken t)

/-- The waiting comments as the description of what starts at `pos`, if they describe it. -/
def takeDescription (pos : Pos) : ParseRules (Option CommentGroup) :=
  modifyGet fun tray => tray.takeDescription pos

/-- A rule as far as it was read. -/
structure Draft where
  ruleType : Option Ident
  parameters : List Parameter
  expression : Option Expression
  description : Option CommentGroup
  comments : List Comment
deriving DecidableEq

/-- Nothing of a rule was read yet. -/
def Draft.empty : Draft := ⟨none, [], none, none, []⟩

/-- The finished rule of that type. -/
def Draft.toRule (d : Draft) (ruleType : Ident) : Rule :=
  ⟨ruleType, d.parameters, d.expression, d.description, CommentGroup.ofList? d.comments⟩

/-- Where a rule stands. -/
structure Place where
  inRuleset : Bool
  /-- In the parentheses of a combined rule. -/
  nested : Bool
deriving DecidableEq

/-- What a token does to a draft. -/
inductive Effect where
  | more (d : Draft)
  | finish (r : Rule)
  | group
deriving DecidableEq

/-- What a value does to a draft. -/
def takeParameter (fuel : Nat) (d : Draft) (t : Token) : ParseRules Effect := do
  match d.ruleType with
  | none => refuse (.ruleTypeRequired "<Parameter>") t.start
  | some ruleType =>
    if d.expression.isSome then refuse .parameterAfterExpression t.start
    else
      let (p, comments) ← parameter fuel t ruleType.pos
      return .more { d with parameters := d.parameters ++ [p], comments := d.comments ++ comments }

/-- What a condition does to a draft. -/
def takeExpression (fuel : Fuel) (d : Draft) (t : Token) : ParseRules Effect := do
  match d.ruleType with
  | none => refuse (.ruleTypeRequired "<Expression>") t.start
  | some ruleType =>
    if d.expression.isSome then refuse .expressionAlreadyDefined t.start
    else
      let (e, comments) ← expression fuel t ruleType.pos
      return .more { d with expression := some e, comments := d.comments ++ comments }

/-- What the name of a rule type does to a draft. -/
def takeRuleType (fuel : Nat) (d : Draft) (t : Token) : ParseRules Effect := do
  if d.ruleType.isSome then refuse .ruleTypeAlreadyDefined t.start
  else
    let description ← takeDescription t.start
    let comments ← trailing fuel t.start
    let ruleType := ⟨t.start, t.text, CommentGroup.ofList? comments⟩
    return .more { d with ruleType := some ruleType, description }

/-- The finished rule, which needs a type; `found` stands where the type is missing. -/
def finishRule (d : Draft) (found : String) (t : Token) : ParseRules Effect := do
  match d.ruleType with
  | none => refuse (.ruleTypeRequired found) t.start
  | some ruleType => return .finish (d.toRule ruleType)

/-- The text of a token as a report quotes it. -/
def inTicks (t : Token) : String := "`" ++ t.text ++ "`"

/-- What a comma or a closing bracket does to a draft: the comma is taken, the bracket left. -/
def takeSeparator (place : Place) (d : Draft) (t : Token) : ParseRules Effect := do
  spill
  let effect ← finishRule d (inTicks t) t
  if !place.inRuleset then refuse .singleRuleMode t.start
  else if t.kind = .rightBracket then
    push t
    return effect
  else return effect

/-- What the token `t` does to a draft. -/
def takeToken (fuel : Fuel) (place : Place) (d : Draft) (t : Token) : ParseRules Effect := do
  match t.kind with
  | .leftParen => return .group
  | .eof =>
    spill
    finishRule d "EOF" t
  | .comma | .rightBracket => takeSeparator place d t
  | .rightParen =>
    if !place.nested then refuse (.unexpectedSymbol ")") t.start
    else
      push t
      finishRule d (inTicks t) t
  | .ident => takeRuleType fuel.steps d t
  | .comment =>
    addComment t
    return .more d
  | kind =>
    if kind.startsParameter then takeParameter fuel.steps d t
    else if kind.startsExpression then takeExpression fuel d t
    else refuse (.unexpectedToken kind.display) t.start

/-- How a rule starts: with the parenthesis that opens a group, which may come too late, or with
what turns out to be a rule. -/
inductive Lead where
  | group (d : Draft) (paren : Token)
  | rule (r : Rule)
deriving DecidableEq

/-- Reads on from a draft, in at most so many steps. -/
def leadLoop (fuel : Fuel) (place : Place) : Nat → Draft → ParseRules Lead
  | 0, _ => fail .overrun
  | n + 1, d => do
    let t ← pop
    match ← takeToken fuel place d t with
    | .more d => leadLoop fuel place n d
    | .finish r => return .rule r
    | .group => return .group d t

/-- Reads up to the end of a rule, or up to the parenthesis that opens a group. -/
def lead (fuel : Fuel) (place : Place) : ParseRules Lead :=
  leadLoop fuel place fuel.steps Draft.empty

/-- The rule in the parentheses of a combined rule; there are no groups in it. -/
def nestedRule (fuel : Fuel) (inRuleset : Bool) : ParseRules Rule := do
  match ← lead fuel ⟨inRuleset, true⟩ with
  | .rule r => return r
  | .group _ paren => refuse .deepNestedRule paren.start

/-- A rule in parentheses. -/
structure Member where
  leftParen : Pos
  rule : Rule
  rightParen : Pos
deriving DecidableEq

/-- A combined rule as far as it was read. -/
structure GroupDraft where
  members : List Member
  operator : Option Connective
  /-- A member has to follow. -/
  expectsMember : Bool
  trailing : List Comment
deriving DecidableEq

/-- Nothing of a combined rule was read yet. -/
def GroupDraft.empty : GroupDraft := ⟨[], none, true, []⟩

/-- The finished rule: a lone member is a rule by itself, several are combined. -/
def GroupDraft.toRule (d : GroupDraft) (description : Option CommentGroup) :
    ParseRules RuleDecl := do
  match d.operator, d.members with
  | none, [m] =>
    let comments := CommentGroup.listOf m.rule.comments ++ d.trailing
    return .single { m.rule with description, comments := CommentGroup.ofList? comments }
  | some operator, first :: others =>
    return .combined ⟨first.leftParen, ((first :: others).getLastD first).rightParen,
      (first :: others).map Member.rule, operator, description, CommentGroup.ofList? d.trailing⟩
  | _, members => fail (.memberCount members.length)

/-- The member behind its opening parenthesis `paren`. -/
def member (fuel : Fuel) (inRuleset : Bool) (paren : Token) : ParseRules Member := do
  let r ← withFreshRun (nestedRule fuel inRuleset)
  let close ← pop
  if close.kind ≠ .rightParen then refuse .missingRightParen close.start
  else return ⟨paren.start, r, close.start⟩

/-- What a token does to the draft of a combined rule. -/
inductive GroupEffect where
  | more (d : GroupDraft)
  | finish
deriving DecidableEq

/-- What a connective does to the draft of a combined rule. -/
def takeConnective (d : GroupDraft) (operator : Connective) (t : Token) :
    ParseRules GroupEffect := do
  if d.expectsMember then refuse (.unexpectedSymbol t.text) t.start
  else match d.operator with
    | some previous =>
      if previous ≠ operator then refuse (.mixedOperators previous operator) t.start
      else return .more { d with expectsMember := true }
    | none => return .more { d with operator := some operator, expectsMember := true }

/-- What the token `t` does to the draft of a combined rule. -/
def takeGroupToken (fuel : Fuel) (inRuleset : Bool) (d : GroupDraft) (t : Token) :
    ParseRules GroupEffect := do
  match t.kind with
  | .leftParen =>
    if !d.expectsMember then refuse (.unexpectedSymbol "(") t.start
    else
      let m ← member fuel inRuleset t
      return .more { d with members := d.members ++ [m], expectsMember := false }
  | .kwAnd => takeConnective d .and t
  | .kwOr => takeConnective d .or t
  | .eof =>
    if d.expectsMember then refuse .unexpectedEof t.start else return .finish
  | .comma | .rightBracket =>
    if d.expectsMember then refuse (.unexpectedSymbol t.text) t.start
    else if !inRuleset then refuse .singleRuleMode t.start
    else if t.kind = .rightBracket then
      push t
      return .finish
    else return .finish
  | .comment => return .more { d with trailing := d.trailing ++ [Comment.ofToken t] }
  | kind => refuse (.unexpectedToken kind.display) t.start

/-- Reads on from the draft of a combined rule, in at most so many steps. -/
def groupLoop (fuel : Fuel) (inRuleset : Bool) : Nat → GroupDraft → ParseRules GroupDraft
  | 0, _ => fail .overrun
  | n + 1, d => do
    let t ← pop
    match ← takeGroupToken fuel inRuleset d t with
    | .more d => groupLoop fuel inRuleset n d
    | .finish => return d

/-- Rules in parentheses, with the description that goes before them. -/
def group (fuel : Fuel) (inRuleset : Bool) (description : Option CommentGroup) :
    ParseRules RuleDecl := do
  let d ← groupLoop fuel inRuleset fuel.steps GroupDraft.empty
  d.toRule description

/-- A rule or a combined rule. -/
def rule (fuel : Fuel) (inRuleset : Bool) : ParseRules RuleDecl := do
  match ← lead fuel ⟨inRuleset, false⟩ with
  | .rule r => return .single r
  | .group d paren =>
    if d.ruleType.isSome then refuse (.unexpectedToken paren.kind.display) paren.start
    else
      let description ← takeDescription paren.start
      push paren
      group fuel inRuleset description

end Read

end QualityRules
