import QualityRules.Text.Pos
import QualityRules.Tree.Index

/-!
# Tree — Comment

A comment runs from a number sign to the end of its line.  Comments that follow each other with no
other token between make a group; a group is never empty.
-/

namespace QualityRules

/-- A comment, number sign included. -/
structure Comment where
  /-- The place of the number sign. -/
  pos : Pos
  text : String
deriving DecidableEq

/-- The place after the last character of a comment. -/
def Comment.stop (c : Comment) : Pos := c.pos.addColumns c.text.length

/-- A row of comments, at least one. -/
structure CommentGroup where
  comments : List Comment
  ne_nil : comments ≠ []
deriving DecidableEq

namespace CommentGroup

/-- What is wrong with a row of comments. -/
inductive Fault where
  | empty
deriving DecidableEq

/-- The wording of a fault in a row of comments. -/
def Fault.message : Fault → String
  | .empty => "CommentGroup cannot be empty"

/-- The group of a row of comments; none for the empty row. -/
def ofList? : List Comment → Option CommentGroup
  | [] => none
  | c :: cs => some ⟨c :: cs, List.cons_ne_nil c cs⟩

/-- The group of a row of comments; the empty row is refused. -/
def ofList (cs : List Comment) : Except Fault CommentGroup :=
  match ofList? cs with
  | some g => .ok g
  | none => .error .empty

/-- The place of the first comment. -/
def pos (g : CommentGroup) : Pos := (g.comments.head g.ne_nil).pos

/-- The place after the last comment. -/
def stop (g : CommentGroup) : Pos := (g.comments.getLast g.ne_nil).stop

/-- The texts of the comments. -/
def texts (g : CommentGroup) : List String := g.comments.map Comment.text

/-- The comment of that number. -/
def get (g : CommentGroup) (i : Int) : Except IndexFault Comment :=
  g.comments.get <$> Index.resolve g.comments.length i

@[simp] theorem ofList?_nil : ofList? [] = none := rfl

@[simp] theorem ofList?_cons (c : Comment) (cs : List Comment) :
    ofList? (c :: cs) = some ⟨c :: cs, List.cons_ne_nil c cs⟩ := rfl

/-- A group holds the comments that it is made of. -/
theorem comments_of_ofList? {cs : List Comment} {g : CommentGroup} (h : ofList? cs = some g) :
    g.comments = cs := by
  cases cs with
  | nil => exact nomatch h
  | cons c cs => cases h; rfl

/-- Only the empty row makes no group. -/
theorem ofList?_eq_none_iff {cs : List Comment} : ofList? cs = none ↔ cs = [] := by
  cases cs <;> simp

end CommentGroup

/-- The comments of a group that may be absent. -/
def CommentGroup.listOf : Option CommentGroup → List Comment
  | none => []
  | some g => g.comments

@[simp] theorem CommentGroup.listOf_ofList? (cs : List Comment) :
    CommentGroup.listOf (CommentGroup.ofList? cs) = cs := by
  cases cs <;> rfl

end QualityRules
