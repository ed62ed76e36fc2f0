import Mathlib.Algebra.Order.BigOperators.Group.List
import QualityRules.Proofs.Comments

/-!
# Proofs — Bare

Trees without their comments.  Every place and every text stays, and so does the structure; all
fields for comments are empty.

* `Rule.bare`, `RuleDecl.bare` and the others for the parts of a rule; `Ruleset.bare` and
  `RuleFile.bare` for what holds rules.
* `RuleDecl.bare_of_bag` and `RuleFile.bare_of_bag`: a tree in which there are no comments is bare.
* `Node.bare` is the same for any part of a tree.  `Node.parts` are the direct parts of a node but
  its comments; `Node.parts_bare` says that the bare node has the same, once they are bare.
-/

namespace QualityRules

/-- The name of a rule type without its comments. -/
def Ident.bare (i : Ident) : Ident := { i with comments := none }

/-- A duration without its comments. -/
def DurationParameter.bare (d : DurationParameter) : DurationParameter :=
  { d with comments := none }

/-- A date without its comments. -/
def DateParameter.bare (d : DateParameter) : DateParameter :=
  { d with duration := d.duration.map DurationParameter.bare, comments := none }

/-- A value without its comments. -/
def Parameter.bare : Parameter → Parameter
  | .string p => .string { p with comments := none }
  | .number p => .number { p with comments := none }
  | .bool p => .bool { p with comments := none }
  | .duration p => .duration p.bare
  | .date p => .date p.bare

/-- A bound without its comments. -/
def Bound.bare : Bound → Bound
  | .comparison e => .comparison { e with right := e.right.bare, comments := none }
  | .between e => .between { e with left := e.left.bare, right := e.right.bare, comments := none }

/-- A target without its comments. -/
def Target.bare : Target → Target
  | .membership e => .membership { e with values := e.values.map Parameter.bare, comments := none }
  | .pattern e => .pattern { e with comments := none }

/-- A condition without its comments. -/
def Expression.bare : Expression → Expression
  | .bound e => .bound e.bare
  | .target e => .target e.bare
  | .withThreshold e =>
    .withThreshold ⟨e.withPos, e.target.bare, e.threshold.bare, none⟩

/-- A rule without its comments. -/
def Rule.bare (r : Rule) : Rule :=
  ⟨r.ruleType.bare, r.parameters.map Parameter.bare, r.expression.map Expression.bare, none, none⟩

/-- A rule or a combined rule without its comments. -/
def RuleDecl.bare : RuleDecl → RuleDecl
  | .single r => .single r.bare
  | .combined r =>
    .combined { r with rules := r.rules.map Rule.bare, description := none, comments := none }

/-- A ruleset without its comments. -/
def Ruleset.bare (r : Ruleset) : Ruleset :=
  ⟨r.declPos, r.leftBracket, r.rightBracket, r.rules.map RuleDecl.bare, [], none, none, none⟩

/-- A file without its comments. -/
def RuleFile.bare (f : RuleFile) : RuleFile :=
  ⟨f.filename, [], f.rulesets.map Ruleset.bare⟩

/-- Where no comments are, there is no group. -/
theorem CommentGroup.eq_nil_of_bag {gs : List CommentGroup} (h : Node.bagOfGroups gs = 0) :
    gs = [] := by
  cases gs with
  | nil => rfl
  | cons g gs =>
    have none := List.flatMap_eq_nil_iff.mp (Multiset.coe_eq_zero _ |>.mp h)
    exact absurd (none g List.mem_cons_self) g.ne_nil

/-- A group without comments is no group. -/
theorem CommentGroup.eq_none_of_bag {g : Option CommentGroup} (h : CommentGroup.bag g = 0) :
    g = none := by
  cases g with
  | none => rfl
  | some g => exact absurd (Multiset.coe_eq_zero _ |>.mp h) g.ne_nil

open Node (bag)

/-- A value without comments is bare already. -/
theorem Parameter.bare_of_bag {p : Parameter} (h : bag (.parameter p) = 0) : p.bare = p := by
  cases p with
  | date p =>
    obtain ⟨now, left, minus, duration, right, comments⟩ := p
    simp only [Node.bag_date, add_eq_zero] at h
    obtain ⟨inner, own⟩ := h
    obtain rfl := CommentGroup.eq_none_of_bag own
    cases duration with
    | none => rfl
    | some d =>
      obtain ⟨_, _, _, _, comments⟩ := d
      obtain rfl : comments = none := CommentGroup.eq_none_of_bag inner
      rfl
  | string p | number p | bool p | duration p =>
    simp only [Node.bag_string, Node.bag_number, Node.bag_bool, Node.bag_duration] at h
    have own := CommentGroup.eq_none_of_bag h
    cases p
    simp_all [Parameter.bare, DurationParameter.bare]

theorem Parameter.map_bare_of_bag {ps : List Parameter} (h : Node.bagOfAll ps = 0) :
    ps.map Parameter.bare = ps := by
  induction ps with
  | nil => rfl
  | cons p ps ih =>
    simp only [Node.bagOfAll_cons, add_eq_zero] at h
    rw [List.map_cons, bare_of_bag h.1, ih h.2]

/-- A bound without comments is bare already. -/
theorem Bound.bare_of_bag {e : Bound} (h : bag (.expression (.bound e)) = 0) : e.bare = e := by
  cases e with
  | comparison e =>
    simp only [Node.bag_comparison, add_eq_zero] at h
    have own := CommentGroup.eq_none_of_bag h.2
    cases e
    simp_all [Bound.bare, Parameter.bare_of_bag]
  | between e =>
    simp only [Node.bag_between, add_eq_zero] at h
    have own := CommentGroup.eq_none_of_bag h.2.2
    cases e
    simp_all [Bound.bare, Parameter.bare_of_bag]

/-- A target without comments is bare already. -/
theorem Target.bare_of_bag {e : Target} (h : bag (.expression (.target e)) = 0) : e.bare = e := by
  cases e with
  | membership e =>
    simp only [Node.bag_membership, add_eq_zero] at h
    have own := CommentGroup.eq_none_of_bag h.2
    cases e
    simp_all [Target.bare, Parameter.map_bare_of_bag]
  | pattern e =>
    rw [Node.bag_pattern] at h
    have own := CommentGroup.eq_none_of_bag h
    cases e
    simp_all [Target.bare]

/-- A condition without comments is bare already. -/
theorem Expression.bare_of_bag {e : Expression} (h : bag (.expression e) = 0) : e.bare = e := by
  cases e with
  | bound e => rw [Expression.bare, Bound.bare_of_bag h]
  | target e => rw [Expression.bare, Target.bare_of_bag h]
  | withThreshold e =>
    simp only [Node.bag_withThreshold, add_eq_zero] at h
    have own := CommentGroup.eq_none_of_bag h.2.2
    cases e
    simp_all [Expression.bare, Target.bare_of_bag, Bound.bare_of_bag]

/-- A rule in which there are no comments is bare. -/
theorem Rule.bare_of_bag {r : Rule} (h : bag (.single r) = 0) : r.bare = r := by
  obtain ⟨⟨pos, name, comments⟩, parameters, expression, description, trailing⟩ := r
  simp only [Node.bag_single, add_eq_zero] at h
  obtain ⟨⟨⟨⟨before, type⟩, values⟩, condition⟩, behind⟩ := h
  obtain rfl := CommentGroup.eq_none_of_bag before
  obtain rfl := CommentGroup.eq_none_of_bag behind
  obtain rfl := CommentGroup.eq_none_of_bag type
  have condition_bare : expression.map Expression.bare = expression := by
    cases expression with
    | none => rfl
    | some e => exact congrArg some (Expression.bare_of_bag condition)
  simp only [Rule.bare, Ident.bare, Parameter.map_bare_of_bag values, condition_bare]

/-- Parts in which there are no comments are bare, one by one. -/
theorem map_eq_self_of_sum {α : Type} {node : α → Node} {bare : α → α} {xs : List α}
    (h : (xs.map fun x => bag (node x)).sum = 0) (each : ∀ x, bag (node x) = 0 → bare x = x) :
    xs.map bare = xs := by
  refine (List.map_congr_left fun x mem => each x ?_).trans (List.map_id xs)
  exact List.sum_eq_zero_iff.mp h _ (List.mem_map_of_mem mem)

/-- A tree in which there are no comments is bare. -/
theorem RuleDecl.bare_of_bag {d : RuleDecl} (h : bag (.rule d) = 0) : d.bare = d := by
  cases d with
  | single r => exact congrArg RuleDecl.single (Rule.bare_of_bag h)
  | combined r =>
    obtain ⟨first, last, rules, operator, description, comments⟩ := r
    simp only [Node.bag_combined, add_eq_zero] at h
    obtain ⟨⟨before, inner⟩, behind⟩ := h
    obtain rfl := CommentGroup.eq_none_of_bag before
    obtain rfl := CommentGroup.eq_none_of_bag behind
    have rules_bare : rules.map Rule.bare = rules :=
      map_eq_self_of_sum inner fun _ => Rule.bare_of_bag
    simp only [RuleDecl.bare, rules_bare]

/-- A ruleset without comments is bare already. -/
theorem Ruleset.bare_of_bag {x : Ruleset} (h : bag (.ruleset x) = 0) : x.bare = x := by
  obtain ⟨word, left, right, rules, inner, description, header, comments⟩ := x
  simp only [Node.bag_ruleset, add_eq_zero] at h
  obtain ⟨⟨⟨⟨before, first⟩, listed⟩, loose⟩, behind⟩ := h
  obtain rfl := CommentGroup.eq_none_of_bag before
  obtain rfl := CommentGroup.eq_none_of_bag first
  obtain rfl := CommentGroup.eq_nil_of_bag loose
  obtain rfl := CommentGroup.eq_none_of_bag behind
  have rules_bare : rules.map RuleDecl.bare = rules :=
    map_eq_self_of_sum listed fun _ => RuleDecl.bare_of_bag
  simp only [Ruleset.bare, rules_bare]

/-- A file without comments is bare already. -/
theorem RuleFile.bare_of_bag {f : RuleFile} (h : bag (.file f) = 0) : f.bare = f := by
  obtain ⟨name, groups, rulesets⟩ := f
  simp only [Node.bag_file, add_eq_zero] at h
  obtain ⟨loose, all⟩ := h
  obtain rfl := CommentGroup.eq_nil_of_bag loose
  have rulesets_bare : rulesets.map Ruleset.bare = rulesets :=
    map_eq_self_of_sum all fun _ => Ruleset.bare_of_bag
  simp only [RuleFile.bare, rulesets_bare]

/-! ### Parts of a tree -/

namespace Node

/-- A part of a tree without its comments. -/
def bare : Node → Node
  | file n => file n.bare
  | ruleset n => ruleset n.bare
  | rule n => rule n.bare
  | ident n => ident n.bare
  | parameter n => parameter n.bare
  | expression n => expression n.bare
  | group n => group n
  | comment n => comment n

/-- The node is a comment or a group of them. -/
def isRemark : Node → Bool
  | group _ | comment _ => true
  | _ => false

@[simp] theorem isRemark_ruleset (x : Ruleset) : (ruleset x).isRemark = false := rfl

@[simp] theorem isRemark_rule (d : RuleDecl) : (rule d).isRemark = false := rfl

@[simp] theorem isRemark_single (r : Rule) : (single r).isRemark = false := rfl

@[simp] theorem isRemark_ident (i : Ident) : (ident i).isRemark = false := rfl

@[simp] theorem isRemark_parameter (p : Parameter) : (parameter p).isRemark = false := rfl

@[simp] theorem isRemark_expression (e : Expression) : (expression e).isRemark = false := rfl

@[simp] theorem isRemark_group (g : CommentGroup) : (group g).isRemark = true := rfl

@[simp] theorem isRemark_comment (c : Comment) : (comment c).isRemark = true := rfl

variable {m n : Node}

/-- What holds of a tree and goes down from each part to those of which it consists holds of all
parts. -/
theorem walk_induction {P : Node → Prop} (root : P n)
    (down : ∀ n, P n → ∀ m ∈ n.children, P m) : ∀ m ∈ n.walk, P m := by
  generalize size : n.rank = r
  induction r using Nat.strongRecOn generalizing n with
  | ind r ih =>
    intro m mem
    rw [walk_eq] at mem
    rcases List.mem_cons.mp mem with rfl | mem
    · exact root
    · obtain ⟨c, child, mem⟩ := List.mem_flatMap.mp mem
      exact ih _ (size ▸ rank_lt_of_mem_children child) (down n root c child) rfl m mem

/-- What is met on a visit is where it starts or has a smaller rank. -/
theorem eq_or_rank_lt_of_mem_walk (h : m ∈ n.walk) : m = n ∨ m.rank < n.rank := by
  refine walk_induction (P := fun m => m = n ∨ m.rank < n.rank) (.inl rfl) ?_ m h
  rintro c (rfl | lt) m child
  · exact .inr (rank_lt_of_mem_children child)
  · exact .inr ((rank_lt_of_mem_children child).trans lt)

/-- No node is deeper than nine. -/
theorem rank_le (n : Node) : n.rank ≤ 9 := by
  cases n with
  | rule d => exact (rank_rule_le d).trans (by decide)
  | parameter p => exact (rank_parameter_le p).trans (by decide)
  | expression e => exact (rank_expression_le e).trans (by decide)
  | _ => simp [rank]

/-- There are no rulesets further down than right in a file. -/
theorem ruleset_of_mem_walk {x : Ruleset} (h : ruleset x ∈ n.walk) :
    n = ruleset x ∨ ruleset x ∈ n.children := by
  rw [walk_eq] at h
  rcases List.mem_cons.mp h with eq | h
  · exact .inl eq.symm
  · obtain ⟨c, child, mem⟩ := List.mem_flatMap.mp h
    rcases eq_or_rank_lt_of_mem_walk mem with rfl | lt
    · exact .inr child
    · have deeper : rank (ruleset x) + 1 < n.rank :=
        Nat.lt_of_le_of_lt lt (rank_lt_of_mem_children child)
      exact absurd (deeper.trans_le n.rank_le) (by simp [rank])

/-- A visit meets the node where it starts. -/
theorem self_mem_walk (n : Node) : n ∈ n.walk := by
  rw [walk_eq]
  exact List.mem_cons_self

/-- A visit meets the parts of each part that it meets. -/
theorem children_subset_walk (h : m ∈ n.walk) : m.children ⊆ n.walk := by
  generalize size : n.rank = r
  induction r using Nat.strongRecOn generalizing n with
  | ind r ih =>
    intro c child
    rw [walk_eq] at h ⊢
    rcases List.mem_cons.mp h with rfl | h
    · exact List.mem_cons_of_mem _ (List.mem_flatMap.mpr ⟨c, child, self_mem_walk c⟩)
    · obtain ⟨b, branch, h⟩ := List.mem_flatMap.mp h
      exact List.mem_cons_of_mem _ (List.mem_flatMap.mpr
        ⟨b, branch, ih _ (size ▸ rank_lt_of_mem_children branch) h rfl child⟩)

/-- A visit meets all that a visit of one of its parts meets. -/
theorem walk_subset_walk (h : m ∈ n.walk) : m.walk ⊆ n.walk := fun _ mem =>
  walk_induction (P := (· ∈ n.walk)) h (fun _ mem _ child => children_subset_walk mem child) _ mem

/-- A visit meets the node itself and what the visits of its children meet. -/
theorem mem_walk : m ∈ n.walk ↔ m = n ∨ ∃ c ∈ n.children, m ∈ c.walk := by
  rw [walk_eq]
  simp

/-- A group that is present is a remark. -/
theorem isRemark_of_mem_present {g : Option CommentGroup} (h : m ∈ present g) : m.isRemark := by
  cases g with
  | none => exact nomatch h
  | some g =>
    rw [List.mem_singleton.mp h]
    rfl

/-- What is in a remark is a remark. -/
theorem isRemark_of_mem_children (h : n.isRemark) (mem : m ∈ n.children) : m.isRemark := by
  cases n with
  | group g =>
    obtain ⟨c, -, rfl⟩ := List.mem_map.mp mem
    rfl
  | comment c => exact nomatch mem
  | _ => exact nomatch h

/-- A visit of a remark meets remarks only. -/
theorem isRemark_of_mem_walk (h : n.isRemark) : ∀ m ∈ n.walk, m.isRemark :=
  walk_induction h fun _ remark _ child => isRemark_of_mem_children remark child

/-- What holds something else than a remark is none. -/
theorem isRemark_eq_false_of_mem_walk (h : m ∈ n.walk) (solid : m.isRemark = false) :
    n.isRemark = false := by
  by_contra remark
  simpa [solid] using isRemark_of_mem_walk (by simpa using remark) m h

/-! ### Parts that are no comments -/

/-- The direct parts of a node but its comments, as the node lists them. -/
def parts : Node → List Node
  | file n => n.rulesets.map ruleset
  | ruleset n => n.rules.map rule
  | rule (.single r) =>
    ident r.ruleType :: (r.parameters.map parameter ++ (r.expression.map expression).toList)
  | rule (.combined r) => r.rules.map single
  | parameter (.date p) => (p.duration.map fun d => parameter (.duration d)).toList
  | expression (.bound (.comparison e)) => [parameter e.right]
  | expression (.bound (.between e)) => [parameter e.left, parameter e.right]
  | expression (.target (.membership e)) => e.values.map parameter
  | expression (.withThreshold e) =>
    [expression (.target e.target), expression (.bound e.threshold)]
  | _ => []

/-- The direct parts of a node but its comments, in the order of a visit. -/
def solids (n : Node) : List Node := n.children.filter fun m => !m.isRemark

/-- The solid parts are the children but for the remarks. -/
theorem mem_solids : m ∈ n.solids ↔ m ∈ n.children ∧ m.isRemark = false := by
  simp [solids]

theorem filter_present (g : Option CommentGroup) :
    (present g).filter (fun m => !m.isRemark) = [] :=
  List.filter_eq_nil_iff.mpr fun _ mem => by simp [isRemark_of_mem_present mem]

/-- Of nodes of one kind all are comments or none. -/
theorem filter_map {α : Type} (node : α → Node) {remark : Bool}
    (same : ∀ x, (node x).isRemark = remark) (xs : List α) :
    (xs.map node).filter (fun m => !m.isRemark) = if remark then [] else xs.map node := by
  induction xs <;> cases remark <;> simp_all

/-- Without the comments the children are the parts, or what is left of a row of nodes that is put
in order and in which they are listed. -/
theorem solids_eq_or (n : Node) : n.solids = n.parts ∨
    ∃ ms : List Node, ms.filter (fun m => !m.isRemark) = n.parts ∧
      n.solids = (inOrder ms).filter fun m => !m.isRemark := by
  unfold solids
  cases n with
  | file f =>
    refine .inr ⟨f.commentGroups.map group ++ f.rulesets.map ruleset, ?_, rfl⟩
    simp [parts, filter_map _ isRemark_group, filter_map _ isRemark_ruleset]
  | ruleset x =>
    refine .inr ⟨x.rules.map rule ++ x.innerComments.map group, ?_, ?_⟩
    · simp [parts, filter_map _ isRemark_group, filter_map _ isRemark_rule]
    · simp [children, filter_present]
  | rule d =>
    left
    cases d with
    | single r =>
      cases e : r.expression <;>
        simp [children, ofRule, parts, e, filter_present, filter_map _ isRemark_parameter]
    | combined r => simp [children, ofRule, parts, filter_present, filter_map _ isRemark_single]
  | ident i => exact .inl (filter_present _)
  | parameter p =>
    left
    cases p with
    | date p => cases e : p.duration <;> simp [children, ofParameter, parts, filter_present, e]
    | _ => simp [children, ofParameter, parts, filter_present]
  | expression e =>
    left
    cases e with
    | bound e => cases e <;> simp [children, ofExpression, parts, filter_present]
    | target e =>
      cases e <;>
        simp [children, ofExpression, parts, filter_present, filter_map _ isRemark_parameter]
    | withThreshold e => simp [children, ofExpression, parts, filter_present]
  | group g => exact .inl (filter_map _ isRemark_comment _)
  | comment c => exact .inl rfl

/-- The parts in the order of a visit are the parts in the order of the node. -/
theorem solids_perm (n : Node) : n.solids.Perm n.parts := by
  rcases n.solids_eq_or with eq | ⟨ms, listed, eq⟩
  · rw [eq]
  · rw [eq, ← listed]
    exact (List.mergeSort_perm ms _).filter _

/-- The parts are the children but for the remarks. -/
theorem mem_parts : m ∈ n.parts ↔ m ∈ n.children ∧ m.isRemark = false :=
  n.solids_perm.mem_iff.symm.trans mem_solids

/-- The parts of the bare node are those of the node once they are bare. -/
theorem parts_bare (n : Node) : n.bare.parts = n.parts.map bare := by
  cases n with
  | file f => simp [bare, RuleFile.bare, parts, Function.comp_def]
  | ruleset x => simp [bare, Ruleset.bare, parts, Function.comp_def]
  | rule d =>
    cases d with
    | single r =>
      cases e : r.expression <;>
        simp [bare, RuleDecl.bare, Rule.bare, parts, Function.comp_def, e]
    | combined r => simp [bare, RuleDecl.bare, single, parts, Function.comp_def]
  | parameter p =>
    cases p with
    | date p => cases e : p.duration <;> simp [bare, Parameter.bare, DateParameter.bare, parts, e]
    | _ => rfl
  | expression e =>
    cases e with
    | target e => cases e <;> simp [bare, Expression.bare, Target.bare, parts, Function.comp_def]
    | bound e => cases e <;> rfl
    | withThreshold e => rfl
  | _ => rfl

/-- A child of a node is a comment or one of its parts. -/
theorem isRemark_or_mem_parts (h : m ∈ n.children) : m.isRemark ∨ m ∈ n.parts := by
  cases remark : m.isRemark with
  | true => exact .inl rfl
  | false => exact .inr (mem_parts.mpr ⟨h, remark⟩)

/-- A child of a node is a comment, or a child of the bare node once it is bare itself. -/
theorem bare_mem_children (h : m ∈ n.children) : m.isRemark ∨ m.bare ∈ n.bare.children := by
  refine (isRemark_or_mem_parts h).imp_right fun part => ?_
  have part_bare : m.bare ∈ n.bare.parts := n.parts_bare ▸ List.mem_map_of_mem part
  exact (mem_parts.mp part_bare).1

end Node

end QualityRules
