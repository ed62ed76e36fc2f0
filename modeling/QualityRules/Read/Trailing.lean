import QualityRules.Read.Reading

/-!
# Read — Trailing

The comments that trail a token.  The first stands on the line of the token; each further one too,
or on the line below the one before it and in the same column.

* `trailing` takes that block and puts back the token behind it.
* Loops take a bound on their steps, their `fuel`; `Cursor.budget` is always enough.
* `Attached.route` gives comments to the rule when they trail something on the line of its type,
  and to the part that they trail otherwise.
-/

namespace QualityRules

/-- The comment that a token holds. -/
def Comment.ofToken (t : Token) : Comment := ⟨t.start, t.text⟩

namespace Read

/-- The token `t` goes on with the block of comments `taken` behind a token at `anchor`. -/
def extendsBlock (anchor : Pos) (taken : List Comment) (t : Token) : Bool :=
  t.kind = .comment && (t.start.line = anchor.line ||
    match taken.getLast? with
    | none => false
    | some last => last.pos.line + 1 = t.start.line && last.pos.column = t.start.column)

/-- The comments `taken` and those that go on with them, in at most so many steps. -/
def trailingLoop (anchor : Pos) : Nat → List Comment → Parse (List Comment)
  | 0, _ => fail .overrun
  | n + 1, taken => do
    let t ← pop
    if extendsBlock anchor taken t then
      trailingLoop anchor n (taken ++ [Comment.ofToken t])
    else
      push t
      return taken

/-- The comments that trail a token at `anchor`. -/
def trailing (fuel : Nat) (anchor : Pos) : Parse (List Comment) := trailingLoop anchor fuel []

/-- The next token with the comments that trail it; none trail the end of the text. -/
def popTrailing (fuel : Nat) : Parse (Token × List Comment) := do
  let t ← pop
  if t.kind = .eof then return (t, [])
  else return (t, ← trailing fuel t.start)

/-- Comments as they are shared out: those of the part itself, and those of the rule. -/
structure Attached where
  own : List Comment
  forRule : List Comment
deriving DecidableEq

namespace Attached

/-- No comments yet. -/
def none : Attached := ⟨[], []⟩

/-- Adds comments that trail something at `anchor`, in a rule whose type stands at `rulePos`. -/
def route (a : Attached) (comments : List Comment) (anchor rulePos : Pos) : Attached :=
  if anchor.line = rulePos.line then { a with forRule := a.forRule ++ comments }
  else { a with own := a.own ++ comments }

/-- Adds comments of the rule. -/
def addForRule (a : Attached) (comments : List Comment) : Attached :=
  { a with forRule := a.forRule ++ comments }

/-- Adds comments of the part itself. -/
def addOwn (a : Attached) (comments : List Comment) : Attached :=
  { a with own := a.own ++ comments }

/-- The comments of the part itself as a group. -/
def group (a : Attached) : Option CommentGroup := CommentGroup.ofList? a.own

end Attached

/-- The comments that trail a token at `anchor`, shared out. -/
def trailingOf (fuel : Nat) (anchor rulePos : Pos) : Parse Attached := do
  return Attached.none.route (← trailing fuel anchor) anchor rulePos

end Read

end QualityRules
