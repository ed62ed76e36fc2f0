import QualityRules.Read.Rule

/-!
# Read — Ruleset

Rulesets and files of them.  Comments before a ruleset that do not describe it float in the file,
those between its brackets that describe no rule float in the ruleset.

* `ruleset` reads one ruleset and leaves what follows it.
* `file` reads rulesets up to the end of the text, at least one.
-/

namespace QualityRules.Read

/-- How a ruleset opens. -/
structure Header where
  declPos : Pos
  leftBracket : Pos
  description : Option CommentGroup
  comments : List Comment
deriving DecidableEq

/-- A ruleset as far as it was read; the tray is for the comments between its brackets. -/
structure RulesetDraft where
  header : Option Header
  rules : List RuleDecl
  inner : Tray
deriving DecidableEq

/-- Nothing of a ruleset was read yet. -/
def RulesetDraft.empty : RulesetDraft := ⟨none, [], Tray.empty⟩

/-- What a token does to the draft of a ruleset. -/
inductive RulesetEffect where
  | more (d : RulesetDraft)
  | finish (r : Ruleset)
deriving DecidableEq

/-- The equals sign and the bracket behind `t`, the word that opens a ruleset. -/
def takeHeader (fuel : Nat) (t : Token) : ParseRules Header := do
  let equal ← pop
  if equal.kind ≠ .equal then refuse .missingEqual t.start
  else
    let (bracket, comments) ← popTrailing fuel
    if bracket.kind ≠ .leftBracket then refuse .missingLeftBracket t.start
    else
      let description ← takeDescription t.start
      return ⟨t.start, bracket.start, description, comments⟩

/-- The finished ruleset; `t` is its closing bracket. -/
def finishRuleset (fuel : Nat) (d : RulesetDraft) (h : Header) (t : Token) :
    ParseRules RulesetEffect := do
  let comments ← trailing fuel t.start
  return .finish ⟨h.declPos, h.leftBracket, t.start, d.rules, d.inner.spill.floating,
    h.description, CommentGroup.ofList? h.comments, CommentGroup.ofList? comments⟩

/-- What the token `t` does to the draft of a ruleset that was opened by `h`. -/
def takeInside (fuel : Fuel) (d : RulesetDraft) (h : Header) (t : Token) :
    ParseRules RulesetEffect := do
  match t.kind with
  | .eof => refuse .missingRightBracket t.start
  | .rightBracket => finishRuleset fuel.steps d h t
  | .kwRules => refuse (.unexpectedSymbol t.kind.display) t.start
  | .comment => return .more { d with inner := d.inner.add (Comment.ofToken t) }
  | _ =>
    push t
    let (r, inner) ← withTray d.inner (rule fuel true)
    return .more { d with rules := d.rules ++ [r], inner }

/-- What the token `t` does before a ruleset is opened. -/
def takeOutside (fuel : Fuel) (d : RulesetDraft) (t : Token) : ParseRules RulesetEffect := do
  match t.kind with
  | .eof =>
    spill
    fail .noRules
  | .rightBracket => refuse (.unexpectedSymbol "]") t.start
  | .kwRules =>
    let h ← takeHeader fuel.steps t
    return .more { d with header := some h }
  | .comment =>
    addComment t
    return .more d
  | kind => refuse (.unexpectedSymbol kind.display) t.start

/-- What the token `t` does to the draft of a ruleset. -/
def takeRulesetToken (fuel : Fuel) (d : RulesetDraft) (t : Token) : ParseRules RulesetEffect :=
  match d.header with
  | some h => takeInside fuel d h t
  | none => takeOutside fuel d t

/-- Reads on from the draft of a ruleset, in at most so many steps. -/
def rulesetLoop (fuel : Fuel) : Nat → RulesetDraft → ParseRules Ruleset
  | 0, _ => fail .overrun
  | n + 1, d => do
    let t ← pop
    match ← takeRulesetToken fuel d t with
    | .more d => rulesetLoop fuel n d
    | .finish r => return r

/-- One ruleset.  The comments before it wait on a run of their own. -/
def ruleset (fuel : Fuel) : ParseRules Ruleset :=
  withFreshRun (rulesetLoop fuel fuel.steps RulesetDraft.empty)

/-- One more ruleset, if there is one. -/
def ruleset? (fuel : Fuel) : ParseRules (Option Ruleset) := fun tray => do
  match ← (ruleset fuel tray).attempt with
  | .ok (r, tray) => return (some r, tray)
  | .error (.noRules, tray) => return (none, tray)
  | .error (e, tray) => .fail (e, tray)

/-- The rulesets up to the end of the text behind those that were read, in at most so many
steps. -/
def rulesetsLoop (fuel : Fuel) : Nat → List Ruleset → ParseRules (List Ruleset)
  | 0, _ => fail .overrun
  | n + 1, before => do
    match ← ruleset? fuel with
    | none => if before.isEmpty then fail .noRules else return before
    | some r =>
      let t ← pop
      if t.kind = .eof then return before ++ [r]
      else
        push t
        rulesetsLoop fuel n (before ++ [r])

/-- The rulesets of a text, at least one, as the file of that name. -/
def file (fuel : Fuel) (filename : String) : ParseRules RuleFile := do
  let rulesets ← rulesetsLoop fuel fuel.steps []
  return ⟨filename, (← get).floating, rulesets⟩

end QualityRules.Read
