import QualityRules.Proofs.Tokens
import QualityRules.Tree.Node

/-!
# Proofs — Shift

Texts, and trees with them, move as a whole when something is put before them: all indices grow by
the same number of code points and all lines by the same number of lines, and the columns stay.

* `Offset` says how far, and `shift` moves whatever has places: a token, a comment, any part of a
  tree.
* `shift_zero`: to move nowhere changes nothing.  `shift_shift`: two moves of a token are one.
* `Pos.shift_addColumns` and `Pos.shift_past`: to move and to go on over a text is to go on and to
  move.
-/

namespace QualityRules

/-- How far places move. -/
structure Offset where
  index : Nat
  line : Nat
deriving DecidableEq

instance : Zero Offset := ⟨0, 0⟩

instance : Add Offset := ⟨fun o o' => ⟨o.index + o'.index, o.line + o'.line⟩⟩

/-- What has places, and can be moved with them. -/
class Shift (α : Type) where
  shift : Offset → α → α
  shift_zero (a : α) : shift 0 a = a

export Shift (shift shift_zero)

attribute [simp] Shift.shift_zero

variable {α β : Type} [Shift α] [Shift β] {o : Offset}

instance : Shift Pos where
  shift o p := ⟨p.index + o.index, p.line + o.line, p.column⟩
  shift_zero p := by
    change (⟨p.index + 0, p.line + ((0 : Nat) : Int), p.column⟩ : Pos) = p
    simp

instance : Shift Unit := ⟨fun _ a => a, fun _ => rfl⟩

instance : Shift (List α) := ⟨fun o => List.map (shift o), List.map_id'' shift_zero⟩

instance : Shift (Option α) := ⟨fun o => Option.map (shift o), fun a => by cases a <;> simp⟩

instance : Shift (α × β) := ⟨fun o x => (shift o x.1, shift o x.2), fun x => by simp⟩

@[simp] theorem shift_nil : shift o ([] : List α) = [] := rfl

@[simp] theorem shift_cons (a : α) (as : List α) :
    shift o (a :: as) = shift o a :: shift o as := rfl

@[simp] theorem shift_append (as bs : List α) : shift o (as ++ bs) = shift o as ++ shift o bs :=
  List.map_append

@[simp] theorem isEmpty_shift (as : List α) : (shift o as).isEmpty = as.isEmpty := by
  cases as <;> rfl

@[simp] theorem length_shift (as : List α) : (shift o as).length = as.length := List.length_map _

@[simp] theorem getLast?_shift (as : List α) :
    (shift o as).getLast? = as.getLast?.map (shift o) := List.getLast?_map

@[simp] theorem shift_none : shift o (none : Option α) = none := rfl

@[simp] theorem shift_some (a : α) : shift o (some a) = some (shift o a) := rfl

@[simp] theorem isSome_shift (a : Option α) : (shift o a).isSome = a.isSome := by cases a <;> rfl

@[simp] theorem shift_pair (a : α) (b : β) : shift o (a, b) = (shift o a, shift o b) := rfl

/-! ### Places -/

namespace Pos

variable (p : Pos)

@[simp] theorem index_shift : (shift o p).index = p.index + o.index := rfl

@[simp] theorem line_shift : (shift o p).line = p.line + o.line := rfl

@[simp] theorem column_shift : (shift o p).column = p.column := rfl

theorem shift_shift (o o' : Offset) : shift o (shift o' p) = shift (o' + o) p := by
  change Pos.mk _ _ _ = Pos.mk _ _ _
  simp only [Pos.mk.injEq, index_shift, line_shift, column_shift, and_true]
  change p.index + o'.index + o.index = p.index + (o'.index + o.index) ∧
    p.line + o'.line + o.line = p.line + ((o'.line + o.line : Nat) : Int)
  omega

theorem shift_addColumns (n : Nat) : shift o (p.addColumns n) = (shift o p).addColumns n := by
  simp only [addColumns, index_shift, line_shift, column_shift]
  change Pos.mk _ _ _ = _
  simp only [Pos.mk.injEq, and_true]
  omega

theorem shift_past (c : Char) : shift o (p.past c) = (shift o p).past c := by
  unfold past
  split
  · change Pos.mk _ _ _ = Pos.mk _ _ _
    simp only [Pos.mk.injEq, index_shift, line_shift, and_true]
    omega
  · exact shift_addColumns p 1

theorem shift_pastAll (cs : List Char) : shift o (p.pastAll cs) = (shift o p).pastAll cs := by
  induction cs generalizing p with
  | nil => rfl
  | cons c cs ih => rw [pastAll_cons, ih, shift_past, pastAll_cons]

end Pos

/-! ### Tokens -/

instance : Shift Token :=
  ⟨fun o t => { t with start := shift o t.start, stop := shift o t.stop }, fun t => by simp⟩

namespace Token

variable (t : Token)

@[simp] theorem kind_shift : (shift o t).kind = t.kind := rfl

@[simp] theorem text_shift : (shift o t).text = t.text := rfl

@[simp] theorem start_shift : (shift o t).start = shift o t.start := rfl

@[simp] theorem stop_shift : (shift o t).stop = shift o t.stop := rfl

@[simp] theorem found_shift : (shift o t).found = t.found := rfl

theorem shift_shift (o o' : Offset) : shift o (shift o' t) = shift (o' + o) t := by
  change Token.mk _ _ _ _ = Token.mk _ _ _ _
  simp [Pos.shift_shift]

end Token

/-! ### Comments -/

instance : Shift Comment := ⟨fun o c => { c with pos := shift o c.pos }, fun c => by simp⟩

@[simp] theorem Comment.pos_shift (c : Comment) : (shift o c).pos = shift o c.pos := rfl

instance : Shift CommentGroup where
  shift o g := ⟨shift o g.comments, fun none => g.ne_nil (List.map_eq_nil_iff.mp none)⟩
  shift_zero g := by simp

@[simp] theorem CommentGroup.ofList?_shift (cs : List Comment) :
    ofList? (shift o cs) = shift o (ofList? cs) := by
  cases cs <;> rfl

@[simp] theorem CommentGroup.listOf_shift (g : Option CommentGroup) :
    listOf (shift o g) = shift o (listOf g) := by
  cases g <;> rfl

/-! ### Values and conditions -/

instance : Shift StringParameter :=
  ⟨fun o p => ⟨shift o p.leftQuote, shift o p.rightQuote, p.value, shift o p.comments⟩,
    fun p => by simp⟩

instance : Shift NumberParameter :=
  ⟨fun o p => ⟨shift o p.pos, p.value, shift o p.comments⟩, fun p => by simp⟩

instance : Shift BoolParameter :=
  ⟨fun o p => ⟨shift o p.pos, p.value, shift o p.comments⟩, fun p => by simp⟩

instance : Shift DurationParameter :=
  ⟨fun o p => ⟨shift o p.numberPos, shift o p.unitPos, p.number, p.unit, shift o p.comments⟩,
    fun p => by simp⟩

instance : Shift DateParameter :=
  ⟨fun o p => ⟨shift o p.nowPos, shift o p.leftParen, shift o p.minus, shift o p.duration,
    shift o p.rightParen, shift o p.comments⟩, fun p => by simp⟩

instance : Shift Parameter where
  shift o
    | .string p => .string (shift o p)
    | .number p => .number (shift o p)
    | .bool p => .bool (shift o p)
    | .duration p => .duration (shift o p)
    | .date p => .date (shift o p)
  shift_zero p := by cases p <;> simp

instance : Shift Comparison :=
  ⟨fun o e => ⟨shift o e.pos, e.operator, shift o e.right, shift o e.comments⟩, fun e => by simp⟩

instance : Shift Between :=
  ⟨fun o e => ⟨shift o e.pos, shift o e.left, shift o e.right, shift o e.comments⟩,
    fun e => by simp⟩

instance : Shift Membership :=
  ⟨fun o e => ⟨shift o e.pos, shift o e.leftBracket, shift o e.rightBracket, shift o e.values,
    shift o e.comments⟩, fun e => by simp⟩

instance : Shift PatternMatch :=
  ⟨fun o e => ⟨shift o e.pos, shift o e.patternPos, e.value, shift o e.comments⟩,
    fun e => by simp⟩

instance : Shift Bound where
  shift o
    | .comparison e => .comparison (shift o e)
    | .between e => .between (shift o e)
  shift_zero e := by cases e <;> simp

instance : Shift Target where
  shift o
    | .membership e => .membership (shift o e)
    | .pattern e => .pattern (shift o e)
  shift_zero e := by cases e <;> simp

instance : Shift WithThreshold :=
  ⟨fun o e => ⟨shift o e.withPos, shift o e.target, shift o e.threshold, shift o e.comments⟩,
    fun e => by simp⟩

instance : Shift Expression where
  shift o
    | .bound e => .bound (shift o e)
    | .target e => .target (shift o e)
    | .withThreshold e => .withThreshold (shift o e)
  shift_zero e := by cases e <;> simp

/-! ### Rules, rulesets and files -/

instance : Shift Ident :=
  ⟨fun o i => ⟨shift o i.pos, i.name, shift o i.comments⟩, fun i => by simp⟩

@[simp] theorem Ident.pos_shift (i : Ident) : (shift o i).pos = shift o i.pos := rfl

instance : Shift Rule :=
  ⟨fun o r => ⟨shift o r.ruleType, shift o r.parameters, shift o r.expression,
    shift o r.description, shift o r.comments⟩, fun r => by simp⟩

instance : Shift CombinedRule :=
  ⟨fun o r => ⟨shift o r.firstParen, shift o r.lastParen, shift o r.rules, r.operator,
    shift o r.description, shift o r.comments⟩, fun r => by simp⟩

instance : Shift RuleDecl where
  shift o
    | .single r => .single (shift o r)
    | .combined r => .combined (shift o r)
  shift_zero r := by cases r <;> simp

instance : Shift Ruleset :=
  ⟨fun o r => ⟨shift o r.declPos, shift o r.leftBracket, shift o r.rightBracket, shift o r.rules,
    shift o r.innerComments, shift o r.description, shift o r.headerComments, shift o r.comments⟩,
    fun r => by simp⟩

instance : Shift RuleFile :=
  ⟨fun o f => ⟨f.filename, shift o f.commentGroups, shift o f.rulesets⟩, fun f => by simp⟩

instance : Shift Node where
  shift o
    | .file n => .file (shift o n)
    | .ruleset n => .ruleset (shift o n)
    | .rule n => .rule (shift o n)
    | .ident n => .ident (shift o n)
    | .parameter n => .parameter (shift o n)
    | .expression n => .expression (shift o n)
    | .group n => .group (shift o n)
    | .comment n => .comment (shift o n)
  shift_zero n := by cases n <;> simp

end QualityRules
