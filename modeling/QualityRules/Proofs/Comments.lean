import Mathlib.Algebra.BigOperators.Group.List.Basic
import Mathlib.Data.Multiset.OrderedMonoid
import Mathlib.Tactic.Abel
import QualityRules.Read.Source

/-!
# Proofs — Comments

The comments of a tree and those among tokens, counted with how often they occur.

* `Node.comments`: the comments that a visit of a tree meets; `Node.bag` counts them, and for each
  part of a tree one equation says of what its bag is made.
* `commentsOf` and `solid` share tokens out into comments and others.
* `Tray.bag` and `Attached.bag`: what is on a tray or shared out between a part and its rule;
  no operation on them loses a comment.
-/

namespace QualityRules

/-! ### Tokens -/

/-- The comments among tokens. -/
def commentsOf (ts : List Token) : List Comment :=
  (ts.filter fun t => t.kind = .comment).map Comment.ofToken

/-- The tokens that are no comments. -/
def solid (ts : List Token) : List Token := ts.filter fun t => t.kind ≠ .comment

@[simp] theorem commentsOf_nil : commentsOf [] = [] := rfl

@[simp] theorem solid_nil : solid [] = [] := rfl

@[simp] theorem commentsOf_append (ts us : List Token) :
    commentsOf (ts ++ us) = commentsOf ts ++ commentsOf us := by
  simp [commentsOf]

@[simp] theorem solid_append (ts us : List Token) : solid (ts ++ us) = solid ts ++ solid us := by
  simp [solid]

/-- Fewer tokens have fewer comments. -/
theorem commentsOf_sublist {ts us : List Token} (h : ts.Sublist us) :
    (commentsOf ts).Sublist (commentsOf us) := (h.filter _).map _

theorem commentsOf_flatMap {α : Type} (f : α → List Token) (as : List α) :
    commentsOf (as.flatMap f) = as.flatMap fun a => commentsOf (f a) := by
  simp only [commentsOf, List.filter_flatMap, List.map_flatMap]

variable {t : Token} {ts us : List Token}

/-- A comment is one of the comments. -/
theorem commentsOf_cons_comment (h : t.kind = .comment) (ts : List Token) :
    commentsOf (t :: ts) = Comment.ofToken t :: commentsOf ts := by
  simp [commentsOf, h]

/-- Any other token adds no comment. -/
theorem commentsOf_cons (h : t.kind ≠ .comment) (ts : List Token) :
    commentsOf (t :: ts) = commentsOf ts := by
  simp [commentsOf, h]

/-- A comment is left out. -/
theorem solid_cons_comment (h : t.kind = .comment) (ts : List Token) :
    solid (t :: ts) = solid ts := by
  simp [solid, h]

/-- Any other token is kept. -/
theorem solid_cons (h : t.kind ≠ .comment) (ts : List Token) : solid (t :: ts) = t :: solid ts := by
  simp [solid, h]

/-- Tokens that are all comments are comments one by one. -/
theorem commentsOf_eq_map (h : ∀ t ∈ ts, t.kind = .comment) :
    commentsOf ts = ts.map Comment.ofToken := by
  rw [commentsOf, List.filter_eq_self.mpr fun t m => by simpa using h t m]

theorem solid_eq_nil (h : ∀ t ∈ ts, t.kind = .comment) : solid ts = [] :=
  List.filter_eq_nil_iff.mpr fun t m => by simpa using h t m

theorem commentsOf_eq_nil (h : ∀ t ∈ ts, t.kind ≠ .comment) : commentsOf ts = [] := by
  rw [commentsOf, List.filter_eq_nil_iff.mpr fun t m => by simpa using h t m, List.map_nil]

theorem solid_eq_self (h : ∀ t ∈ ts, t.kind ≠ .comment) : solid ts = ts :=
  List.filter_eq_self.mpr fun t m => by simpa using h t m

/-- What is kept is no comment. -/
theorem kind_ne_of_mem_solid (h : t ∈ solid ts) : t.kind ≠ .comment := by
  simpa using (List.mem_filter.mp h).2

/-- The comments are those of the tokens. -/
theorem mem_commentsOf {c : Comment} :
    c ∈ commentsOf ts ↔ ∃ t ∈ ts, t.kind = .comment ∧ Comment.ofToken t = c := by
  simp [commentsOf, and_assoc]

/-! ### Trees -/

/-- The comment that a node is. -/
def Node.comment? : Node → Option Comment
  | .comment c => some c
  | _ => none

/-- The comments that a visit meets. -/
def Node.comments (n : Node) : List Comment := n.walk.filterMap Node.comment?

/-- The comments that a visit meets, counted. -/
def Node.bag (n : Node) : Multiset Comment := n.comments

/-- The comments of a group that may be absent, counted. -/
def CommentGroup.bag (g : Option CommentGroup) : Multiset Comment := CommentGroup.listOf g

@[simp] theorem CommentGroup.bag_none : CommentGroup.bag none = 0 := rfl

@[simp] theorem CommentGroup.bag_ofList? (cs : List Comment) :
    CommentGroup.bag (CommentGroup.ofList? cs) = cs := by
  rw [CommentGroup.bag, CommentGroup.listOf_ofList?]

namespace Node

/-- A node has its own comment and those of its parts. -/
theorem bag_eq (n : Node) :
    n.bag = (n.comment?.toList : Multiset Comment) + (n.children.map bag).sum := by
  have parts : ∀ ns : List Node,
      ((ns.flatMap walk).filterMap comment? : Multiset Comment) = (ns.map bag).sum := by
    intro ns
    induction ns with
    | nil => rfl
    | cons m ns ih =>
      rw [List.flatMap_cons, List.filterMap_append, ← Multiset.coe_add, ih]
      rfl
  rw [bag, comments, walk_eq, List.filterMap_cons, ← parts]
  cases n.comment? <;> rfl

@[simp] theorem bag_comment (c : Comment) : bag (comment c) = {c} := by
  simp [bag_eq, comment?, children]

@[simp] theorem bag_group (g : CommentGroup) : bag (group g) = g.comments := by
  have each : ∀ cs : List Comment, (cs.map (bag ∘ comment)).sum = (cs : Multiset Comment) := by
    intro cs
    induction cs with
    | nil => rfl
    | cons c cs ih => rw [List.map_cons, List.sum_cons, ih, Function.comp_apply, bag_comment]; rfl
  rw [bag_eq, children, List.map_map, each]
  rfl

@[simp] theorem sum_present (g : Option CommentGroup) :
    ((present g).map bag).sum = CommentGroup.bag g := by
  cases g <;> simp [present, CommentGroup.bag, CommentGroup.listOf]

@[simp] theorem bag_ident (i : Ident) : bag (ident i) = CommentGroup.bag i.comments := by
  rw [bag_eq, children, sum_present]
  rfl

section Parameter

@[simp] theorem bag_string (p : StringParameter) :
    bag (parameter (.string p)) = CommentGroup.bag p.comments := by
  simp [bag_eq, comment?, children, ofParameter]

@[simp] theorem bag_number (p : NumberParameter) :
    bag (parameter (.number p)) = CommentGroup.bag p.comments := by
  simp [bag_eq, comment?, children, ofParameter]

@[simp] theorem bag_bool (p : BoolParameter) :
    bag (parameter (.bool p)) = CommentGroup.bag p.comments := by
  simp [bag_eq, comment?, children, ofParameter]

@[simp] theorem bag_duration (p : DurationParameter) :
    bag (parameter (.duration p)) = CommentGroup.bag p.comments := by
  simp [bag_eq, comment?, children, ofParameter]

@[simp] theorem bag_date (p : DateParameter) :
    bag (parameter (.date p)) =
      CommentGroup.bag (p.duration.bind DurationParameter.comments) +
        CommentGroup.bag p.comments := by
  rw [bag_eq]
  cases h : p.duration <;> simp [comment?, children, ofParameter, h]

end Parameter

/-- The comments in values, counted. -/
def bagOfAll (ps : List Parameter) : Multiset Comment := (ps.map fun p => bag (parameter p)).sum

@[simp] theorem bagOfAll_nil : bagOfAll [] = 0 := rfl

@[simp] theorem bagOfAll_append (ps qs : List Parameter) :
    bagOfAll (ps ++ qs) = bagOfAll ps + bagOfAll qs := by
  simp [bagOfAll]

@[simp] theorem bagOfAll_cons (p : Parameter) (ps : List Parameter) :
    bagOfAll (p :: ps) = bag (parameter p) + bagOfAll ps := by
  simp [bagOfAll]

section Expression

@[simp] theorem bag_comparison (e : Comparison) : bag (expression (.bound (.comparison e))) =
    bag (parameter e.right) + CommentGroup.bag e.comments := by
  rw [bag_eq]
  simp [comment?, children, ofExpression]

@[simp] theorem bag_between (e : Between) : bag (expression (.bound (.between e))) =
    bag (parameter e.left) + (bag (parameter e.right) + CommentGroup.bag e.comments) := by
  rw [bag_eq]
  simp [comment?, children, ofExpression]

@[simp] theorem bag_membership (e : Membership) : bag (expression (.target (.membership e))) =
    bagOfAll e.values + CommentGroup.bag e.comments := by
  rw [bag_eq]
  simp [comment?, children, ofExpression, bagOfAll, Function.comp_def]

@[simp] theorem bag_pattern (e : PatternMatch) : bag (expression (.target (.pattern e))) =
    CommentGroup.bag e.comments := by
  rw [bag_eq]
  simp [comment?, children, ofExpression]

@[simp] theorem bag_withThreshold (e : WithThreshold) : bag (expression (.withThreshold e)) =
    bag (expression (.target e.target)) +
      (bag (expression (.bound e.threshold)) + CommentGroup.bag e.comments) := by
  rw [bag_eq]
  simp [comment?, children, ofExpression]

end Expression

/-- The comments in a condition that may be absent, counted. -/
def bagOfCondition (e : Option Expression) : Multiset Comment :=
  (e.map fun e => bag (expression e)).getD 0

@[simp] theorem bagOfCondition_none : bagOfCondition none = 0 := rfl

@[simp] theorem bagOfCondition_some (e : Expression) :
    bagOfCondition (some e) = bag (expression e) := rfl

/-- The comments of a rule are those of its description, of its parts and behind it. -/
theorem bag_single (r : Rule) : bag (single r) =
    CommentGroup.bag r.description + CommentGroup.bag r.ruleType.comments +
      bagOfAll r.parameters + bagOfCondition r.expression + CommentGroup.bag r.comments := by
  rw [bag_eq]
  cases h : r.expression <;>
    simp [comment?, single, children, ofRule, bagOfAll, Function.comp_def, h, add_assoc]

/-- The comments in rules, counted. -/
def bagOfRules (rs : List Rule) : Multiset Comment := (rs.map fun r => bag (single r)).sum

@[simp] theorem bagOfRules_nil : bagOfRules [] = 0 := rfl

@[simp] theorem bagOfRules_cons (r : Rule) (rs : List Rule) :
    bagOfRules (r :: rs) = bag (single r) + bagOfRules rs := by
  simp [bagOfRules]

/-- The comments of a combined rule are those of its description, of its members and behind it. -/
theorem bag_combined (r : CombinedRule) : bag (rule (.combined r)) =
    CommentGroup.bag r.description + bagOfRules r.rules + CommentGroup.bag r.comments := by
  rw [bag_eq]
  simp [comment?, children, ofRule, bagOfRules, Function.comp_def, add_assoc]

/-- The comments in what a ruleset lists, counted. -/
def bagOfDecls (ds : List RuleDecl) : Multiset Comment := (ds.map fun d => bag (rule d)).sum

@[simp] theorem bagOfDecls_nil : bagOfDecls [] = 0 := rfl

@[simp] theorem bagOfDecls_append (ds es : List RuleDecl) :
    bagOfDecls (ds ++ es) = bagOfDecls ds + bagOfDecls es := by
  simp [bagOfDecls]

@[simp] theorem bagOfDecls_singleton (d : RuleDecl) : bagOfDecls [d] = bag (rule d) := by
  simp [bagOfDecls]

/-- The comments in groups, counted. -/
def bagOfGroups (gs : List CommentGroup) : Multiset Comment := gs.flatMap CommentGroup.comments

/-- What the groups of a node count is what is in them. -/
theorem sum_groups (gs : List CommentGroup) :
    (gs.map fun g => bag (group g)).sum = bagOfGroups gs := by
  induction gs with
  | nil => rfl
  | cons g gs ih => rw [List.map_cons, List.sum_cons, ih, bag_group, bagOfGroups, bagOfGroups,
      List.flatMap_cons, Multiset.coe_add]

/-- Sorting nodes does not change what is in them. -/
theorem sum_inOrder (ns : List Node) : ((inOrder ns).map bag).sum = (ns.map bag).sum :=
  ((List.mergeSort_perm ns _).map bag).sum_eq

/-- The comments of a ruleset are those of its description, behind its bracket, of what it lists,
what floats between that, and behind it. -/
theorem bag_ruleset (r : Ruleset) : bag (ruleset r) =
    CommentGroup.bag r.description + CommentGroup.bag r.headerComments + bagOfDecls r.rules +
      bagOfGroups r.innerComments + CommentGroup.bag r.comments := by
  rw [bag_eq]
  simp [comment?, children, sum_inOrder, ← sum_groups, bagOfDecls, Function.comp_def, add_assoc]

/-- The comments in rulesets, counted. -/
def bagOfRulesets (rs : List Ruleset) : Multiset Comment := (rs.map fun r => bag (ruleset r)).sum

@[simp] theorem bagOfRulesets_append (rs qs : List Ruleset) :
    bagOfRulesets (rs ++ qs) = bagOfRulesets rs + bagOfRulesets qs := by
  simp [bagOfRulesets]

@[simp] theorem bagOfRulesets_singleton (r : Ruleset) : bagOfRulesets [r] = bag (ruleset r) := by
  simp [bagOfRulesets]

/-- The comments of a file are those that float in it and those of its rulesets. -/
theorem bag_file (f : RuleFile) : bag (file f) =
    bagOfGroups f.commentGroups + bagOfRulesets f.rulesets := by
  rw [bag_eq]
  simp [comment?, children, sum_inOrder, ← sum_groups, bagOfRulesets, Function.comp_def]

end Node

/-! ### Trays, and comments that are shared out -/

/-- The comments on a tray, counted. -/
def Tray.bag (k : Tray) : Multiset Comment := k.comments

namespace Tray

@[simp] theorem bag_spill (k : Tray) : k.spill.bag = k.bag := by rw [bag, comments_spill]; rfl

@[simp] theorem bag_add (k : Tray) (c : Comment) : (k.add c).bag = k.bag + {c} := by
  rw [bag, comments_add, ← Multiset.coe_add]
  rfl

/-- What is given and what stays on the tray were on the tray. -/
theorem bag_takeDescription (k : Tray) (pos : Pos) :
    (k.takeDescription pos).2.bag + CommentGroup.bag (k.takeDescription pos).1 = k.bag := by
  rw [bag, CommentGroup.bag, Multiset.coe_add, comments_takeDescription]
  rfl

/-- On a tray is what floats and what waits. -/
theorem bag_eq (k : Tray) : k.bag = Node.bagOfGroups k.floating + k.run := by
  rw [bag, comments, ← Multiset.coe_add]
  rfl

/-- Comments that are put on a tray one by one are all on it. -/
theorem bag_foldl_add (k : Tray) (cs : List Comment) : (cs.foldl add k).bag = k.bag + cs := by
  induction cs generalizing k with
  | nil => simp
  | cons c cs ih => rw [List.foldl_cons, ih, bag_add, add_assoc, Multiset.singleton_add]; rfl

end Tray

namespace Read.Attached

/-- The comments that were shared out, counted. -/
def bag (a : Attached) : Multiset Comment := a.own + a.forRule

variable (a : Attached) (cs : List Comment) (anchor rulePos : Pos)

@[simp] theorem bag_none : none.bag = 0 := rfl

@[simp] theorem bag_addForRule : (a.addForRule cs).bag = a.bag + cs := by
  simp [bag, addForRule, ← Multiset.coe_add, add_assoc]

@[simp] theorem bag_addOwn : (a.addOwn cs).bag = a.bag + cs := by
  simp [bag, addOwn, ← Multiset.coe_add, add_right_comm]

@[simp] theorem bag_route : (a.route cs anchor rulePos).bag = a.bag + cs := by
  unfold route
  split
  · exact a.bag_addForRule cs
  · exact a.bag_addOwn cs

/-- A part that keeps its own comments and gives the others to the rule keeps all. -/
theorem bag_group : CommentGroup.bag a.group + a.forRule = a.bag := by
  rw [group, CommentGroup.bag_ofList?, bag]

end Read.Attached

end QualityRules
