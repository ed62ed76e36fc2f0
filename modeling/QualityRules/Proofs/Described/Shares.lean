import QualityRules.Proofs.Bare
import QualityRules.Proofs.Enclosed

/-!
# Proofs — Described — Shares

What a tree declares, and how its comments are shared out.  A comment trails a part, or it describes
a declaration or floats; no comment of a tree does both.

* `Node.declarations`: the rulesets, combined rules and rules of a tree; `Node.exists_declaration`
  and `Node.node_mem_walk`: these are all of them, and no others.
* `Declaration.Opens`: the first token of a declaration.
* `Node.bag_eq_shares`: the comments of a tree are those that trail its parts and those that do not.
-/

namespace QualityRules

open CommentGroup (listOf)

/-! ### Declarations -/

/-- A declaration of a tree.  A rule in the parentheses of a combined one is told apart from the
others. -/
inductive Declaration where
  | ruleset (x : Ruleset)
  | combined (c : CombinedRule)
  | member (r : Rule)
  | single (r : Rule)

namespace Declaration

/-- The node that declares. -/
def node : Declaration → Node
  | ruleset x => .ruleset x
  | combined c => .rule (.combined c)
  | member r => .single r
  | single r => .single r

/-- The description of a declaration. -/
def description : Declaration → Option CommentGroup
  | ruleset x => x.description
  | combined c => c.description
  | member r => r.description
  | single r => r.description

/-- Among the tokens `ts` the token `t`, behind the tokens `before`, is the first of a declaration:
the word that opens a ruleset, the first parenthesis of a combined rule, or the name of a rule type.
A rule that is no member may stand in parentheses by itself and then starts with the one that
opens. -/
inductive Opens (ts : List Token) : Declaration → List Token → Token → Prop
  | ruleset {x before t after} (split : ts = before ++ t :: after) (kind : t.kind = .kwRules)
      (start : t.start = x.declPos) : Opens ts (.ruleset x) before t
  | combined {c before t after} (split : ts = before ++ t :: after) (kind : t.kind = .leftParen)
      (start : t.start = c.firstParen) : Opens ts (.combined c) before t
  | member {r before t after} (split : ts = before ++ t :: after) (kind : t.kind = .ident)
      (start : t.start = r.pos) : Opens ts (.member r) before t
  | single {r before t after} (split : ts = before ++ t :: after) (kind : t.kind = .ident)
      (start : t.start = r.pos) (free : lastKind none before ≠ some .leftParen) :
      Opens ts (.single r) before t
  | lone {r before t us u after} (split : ts = before ++ t :: (us ++ u :: after))
      (kind : t.kind = .leftParen) (comments : ∀ v ∈ us, v.kind = .comment)
      (type : u.kind = .ident) (start : u.start = r.pos) : Opens ts (.single r) before t

end Declaration

/-- What a declaration in a ruleset declares. -/
def RuleDecl.declarations : RuleDecl → List Declaration
  | .single r => [.single r]
  | .combined c => .combined c :: c.rules.map .member

/-- What a ruleset declares. -/
def Ruleset.declarations (x : Ruleset) : List Declaration :=
  .ruleset x :: x.rules.flatMap RuleDecl.declarations

namespace Node

/-- What a tree declares. -/
def declarations : Node → List Declaration
  | file n => n.rulesets.flatMap Ruleset.declarations
  | ruleset n => n.declarations
  | rule n => n.declarations
  | _ => []

/-- The node is a ruleset, a rule or a combined rule. -/
def declares : Node → Bool
  | ruleset _ | rule _ => true
  | _ => false

variable {m n : Node}

/-- Only a file has rulesets for parts. -/
theorem ruleset_mem_children {x : Ruleset} (h : ruleset x ∈ n.children) :
    ∃ f, n = file f ∧ x ∈ f.rulesets := by
  have lt : 8 < n.rank := rank_lt_of_mem_children h
  cases n with
  | file f => exact ⟨f, rfl, by simpa [children, inOrder] using h⟩
  | rule d => exact absurd (rank_rule_le d) (by omega)
  | parameter p => exact absurd (rank_parameter_le p) (by omega)
  | expression e => exact absurd (rank_expression_le e) (by omega)
  | _ => simp [rank] at lt

/-- Only rulesets and combined rules have rules for parts. -/
theorem rule_mem_children {d : RuleDecl} (h : rule d ∈ n.children) :
    (∃ x, n = ruleset x ∧ d ∈ x.rules) ∨
      ∃ c r, n = rule (.combined c) ∧ r ∈ c.rules ∧ d = .single r := by
  have deep : 6 ≤ (rule d).rank := by cases d <;> simp [rank]
  have lt : 5 < n.rank := deep.trans (rank_lt_of_mem_children h).le
  cases n with
  | file f => simp [children, inOrder] at h
  | ruleset x => exact .inl ⟨x, rfl, by simpa [children, inOrder, present] using h⟩
  | rule e =>
    cases e with
    | single r => simp [children, ofRule, present] at h
    | combined c =>
      obtain ⟨r, listed, eq⟩ : ∃ r ∈ c.rules, single r = rule d := by
        simpa [children, ofRule, present] using h
      exact .inr ⟨c, r, rfl, listed, (Node.rule.inj eq).symm⟩
  | parameter p => exact absurd (rank_parameter_le p) (by omega)
  | expression e => exact absurd (rank_expression_le e) (by omega)
  | _ => simp [rank] at lt

/-- What a part declares, the whole declares. -/
theorem declarations_of_child (child : m ∈ n.children) :
    ∀ D ∈ m.declarations, ∃ D' ∈ n.declarations, D'.node = D.node := by
  intro D mem
  cases m with
  | ruleset x =>
    obtain ⟨f, rfl, listed⟩ := ruleset_mem_children child
    exact ⟨D, List.mem_flatMap.mpr ⟨x, listed, mem⟩, rfl⟩
  | rule d =>
    obtain ⟨x, rfl, listed⟩ | ⟨c, r, rfl, listed, rfl⟩ := rule_mem_children child
    · exact ⟨D, List.mem_cons_of_mem _ (List.mem_flatMap.mpr ⟨d, listed, mem⟩), rfl⟩
    · obtain rfl := List.mem_singleton.mp mem
      exact ⟨.member r, List.mem_cons_of_mem _ (List.mem_map_of_mem listed), rfl⟩
  | file f =>
    have lt : 9 < n.rank := rank_lt_of_mem_children child
    exact absurd n.rank_le (by omega)
  | _ => cases mem

/-- Every ruleset, rule and combined rule of a tree is among what the tree declares. -/
theorem exists_declaration (mem : m ∈ n.walk) (declares : m.declares) :
    ∃ D ∈ n.declarations, D.node = m := by
  have all : ∀ m ∈ n.walk, ∀ D ∈ m.declarations, ∃ D' ∈ n.declarations, D'.node = D.node := by
    refine walk_induction (fun D mem => ⟨D, mem, rfl⟩) fun p parts m child D mem => ?_
    obtain ⟨D', mem', eq⟩ := declarations_of_child child D mem
    obtain ⟨D'', mem'', eq'⟩ := parts D' mem'
    exact ⟨D'', mem'', eq'.trans eq⟩
  have self : ∃ D ∈ m.declarations, D.node = m := by
    cases m with
    | ruleset x => exact ⟨.ruleset x, List.mem_cons_self, rfl⟩
    | rule d =>
      cases d with
      | single r => exact ⟨.single r, List.mem_cons_self, rfl⟩
      | combined c => exact ⟨.combined c, List.mem_cons_self, rfl⟩
    | _ => cases declares
  obtain ⟨D, known, eq⟩ := self
  obtain ⟨D', mem', eq'⟩ := all m mem D known
  exact ⟨D', mem', eq'.trans eq⟩

/-- What a rule or combined rule of a tree declares is part of the tree. -/
theorem node_mem_walk_of_rule {d : RuleDecl} {D : Declaration} (inside : rule d ∈ n.walk)
    (mem : D ∈ d.declarations) : D.node ∈ n.walk := by
  cases d with
  | single r =>
    obtain rfl := List.mem_singleton.mp mem
    exact inside
  | combined c =>
    rcases List.mem_cons.mp mem with rfl | mem
    · exact inside
    · obtain ⟨r, listed, rfl⟩ := List.mem_map.mp mem
      refine children_subset_walk inside ?_
      simp only [children, ofRule]
      exact List.mem_append_left _ (List.mem_append_right _ (List.mem_map_of_mem listed))

/-- What a ruleset in a tree declares is in the tree. -/
theorem node_mem_walk_of_ruleset {x : Ruleset} {D : Declaration} (inside : ruleset x ∈ n.walk)
    (mem : D ∈ x.declarations) : D.node ∈ n.walk := by
  rcases List.mem_cons.mp mem with rfl | mem
  · exact inside
  · obtain ⟨d, listed, mem⟩ := List.mem_flatMap.mp mem
    refine node_mem_walk_of_rule (children_subset_walk inside ?_) mem
    simp [children, inOrder, listed]

/-- What a tree declares is part of it. -/
theorem node_mem_walk {D : Declaration} (mem : D ∈ n.declarations) : D.node ∈ n.walk := by
  have self := self_mem_walk n
  cases n with
  | file f =>
    obtain ⟨x, listed, mem⟩ := List.mem_flatMap.mp mem
    refine node_mem_walk_of_ruleset (children_subset_walk self ?_) mem
    simp [children, inOrder, listed]
  | ruleset x => exact node_mem_walk_of_ruleset self mem
  | rule d => exact node_mem_walk_of_rule self mem
  | _ => cases mem

/-! ### Comments -/

/-- The comments that trail a part, and for a ruleset also those that trail its opening bracket. -/
def trailing : Node → List Comment
  | file _ | group _ | comment _ => []
  | ruleset n => listOf n.headerComments ++ listOf n.comments
  | rule (.single n) => listOf n.comments
  | rule (.combined n) => listOf n.comments
  | ident n => listOf n.comments
  | parameter (.string n) => listOf n.comments
  | parameter (.number n) => listOf n.comments
  | parameter (.bool n) => listOf n.comments
  | parameter (.duration n) => listOf n.comments
  | parameter (.date n) => listOf n.comments
  | expression (.bound (.comparison n)) => listOf n.comments
  | expression (.bound (.between n)) => listOf n.comments
  | expression (.target (.membership n)) => listOf n.comments
  | expression (.target (.pattern n)) => listOf n.comments
  | expression (.withThreshold n) => listOf n.comments

/-- The comments that describe a part, and those that float in it. -/
def upright : Node → List Comment
  | file n => n.commentGroups.flatMap CommentGroup.comments
  | ruleset n => listOf n.description ++ n.innerComments.flatMap CommentGroup.comments
  | rule (.single n) => listOf n.description
  | rule (.combined n) => listOf n.description
  | _ => []

/-- The comments that describe a declaration are among those that trail no part. -/
theorem description_subset (D : Declaration) : listOf D.description ⊆ D.node.upright := by
  cases D with
  | ruleset x => exact List.subset_append_left _ _
  | _ => exact List.Subset.refl _

/-- A node that is a comment or a group counts with all its comments, any other with none. -/
def remarks (m : Node) : Multiset Comment := if m.isRemark then m.bag else 0

@[simp] theorem remarks_group (g : CommentGroup) : (group g).remarks = g.comments := by
  simp [remarks, isRemark]

@[simp] theorem remarks_ident (i : Ident) : (ident i).remarks = 0 := rfl

@[simp] theorem remarks_parameter (p : Parameter) : (parameter p).remarks = 0 := rfl

@[simp] theorem remarks_expression (e : Expression) : (expression e).remarks = 0 := rfl

@[simp] theorem sum_remarks_present (g : Option CommentGroup) :
    ((present g).map remarks).sum = listOf g := by
  cases g <;> simp [present, listOf]

@[simp] theorem sum_remarks_groups (gs : List CommentGroup) :
    (gs.map (remarks ∘ group)).sum = (gs.flatMap CommentGroup.comments : List Comment) := by
  induction gs with
  | nil => rfl
  | cons g gs ih => simp [ih, ← Multiset.coe_add]

/-- The order of a visit counts as the order of the parts. -/
theorem sum_remarks_inOrder (ns : List Node) :
    ((inOrder ns).map remarks).sum = (ns.map remarks).sum :=
  ((List.mergeSort_perm ns _).map remarks).sum_eq

/-- Parts that are no comments have none by themselves. -/
@[simp] theorem sum_remarks_map {α : Type} {node : α → Node} {xs : List α}
    (h : ∀ x, (node x).isRemark = false) : (xs.map (remarks ∘ node)).sum = 0 := by
  refine List.sum_eq_zero fun b mem => ?_
  obtain ⟨x, -, rfl⟩ := List.mem_map.mp mem
  simp [remarks, h x]

/-- A node has for its own parts the comments that trail it and those that do not. -/
theorem sum_remarks_children (other : n.isRemark = false) :
    (n.children.map remarks).sum = (n.trailing : Multiset Comment) + n.upright := by
  have values : ∀ ps : List Parameter, (ps.map (remarks ∘ parameter)).sum = 0 :=
    fun ps => sum_remarks_map fun _ => rfl
  cases n with
  | group | comment => cases other
  | file f =>
    have rulesets : (f.rulesets.map (remarks ∘ ruleset)).sum = 0 := sum_remarks_map fun _ => rfl
    simp [children, sum_remarks_inOrder, rulesets, trailing, upright]
  | ruleset x =>
    have rules : (x.rules.map (remarks ∘ rule)).sum = 0 := sum_remarks_map fun _ => rfl
    simp only [children, sum_remarks_inOrder, rules, trailing, upright, List.map_append,
      List.sum_append, sum_remarks_present, List.map_map, sum_remarks_groups, ← Multiset.coe_add]
    abel
  | rule d =>
    cases d with
    | single r =>
      have condition : ((r.expression.map expression).toList.map remarks).sum = 0 := by
        cases r.expression with
        | none => rfl
        | some e => simp
      simp only [children, ofRule, List.map_append, List.map_cons, List.sum_append, List.sum_cons,
        List.map_map, sum_remarks_present, remarks_ident, values, condition, trailing, upright]
      abel
    | combined c =>
      have members : (c.rules.map (remarks ∘ single)).sum = 0 := sum_remarks_map fun _ => rfl
      simp only [children, ofRule, List.map_append, List.sum_append, List.map_map,
        sum_remarks_present, members, trailing, upright]
      abel
  | ident i => simp [children, trailing, upright]
  | parameter p =>
    cases p with
    | date p =>
      cases known : p.duration <;> simp [children, ofParameter, trailing, upright, known]
    | _ => simp [children, ofParameter, trailing, upright]
  | expression e =>
    cases e with
    | bound e => cases e <;> simp [children, ofExpression, trailing, upright]
    | target e => cases e <;> simp [children, ofExpression, trailing, upright, values]
    | withThreshold e => simp [children, ofExpression, trailing, upright]

/-- The comments of a node are those of its children. -/
theorem bag_eq_sum_children (other : n.isRemark = false) : n.bag = (n.children.map bag).sum := by
  rw [bag_eq]
  cases n with
  | comment => cases other
  | _ => exact zero_add _

/-- The comments of all parts of a tree are those of the tree; comments and groups by themselves
have no such parts. -/
theorem sum_shares (n : Node) :
    (n.walk.map fun m => (m.trailing : Multiset Comment) + m.upright).sum =
      if n.isRemark then 0 else n.bag := by
  generalize size : n.rank = r
  induction r using Nat.strongRecOn generalizing n with
  | ind r ih =>
    let share : Node → Multiset Comment := fun m => m.trailing + m.upright
    let parts : Node → Multiset Comment := fun c => if c.isRemark then 0 else c.bag
    have below : (n.children.map fun c => (c.walk.map share).sum) = n.children.map parts :=
      List.map_congr_left fun c child => ih _ (size ▸ rank_lt_of_mem_children child) c rfl
    have whole : (n.walk.map share).sum = share n + (n.children.map parts).sum := by
      rw [walk_eq, List.map_cons, List.sum_cons, List.map_flatMap, List.flatMap_def,
        List.sum_flatten, List.map_map, ← below]
      rfl
    rw [whole]
    split
    · next remark =>
      have own : share n = 0 := by cases n <;> first | rfl | cases remark
      have none : n.children.map parts = n.children.map fun _ => 0 :=
        List.map_congr_left fun c child => if_pos (isRemark_of_mem_children remark child)
      rw [own, none, List.sum_map_zero, add_zero]
    · next other =>
      have each : ∀ c : Node, c.bag = c.remarks + parts c := by
        intro c
        by_cases h : c.isRemark <;> simp [remarks, parts, h]
      have other : n.isRemark = false := by simpa using other
      rw [bag_eq_sum_children other, funext each, List.sum_map_add, sum_remarks_children other]

/-- The comments of a tree are those that trail its parts, and those that describe or float. -/
theorem bag_eq_shares (other : n.isRemark = false) :
    n.bag = (n.walk.flatMap trailing : List Comment) + (n.walk.flatMap upright : List Comment) := by
  have sums : ∀ (f : Node → List Comment) (ns : List Node),
      (ns.map fun m => (f m : Multiset Comment)).sum = (ns.flatMap f : List Comment) := by
    intro f ns
    induction ns with
    | nil => rfl
    | cons m ns ih => rw [List.map_cons, List.sum_cons, ih, List.flatMap_cons, Multiset.coe_add]
  rw [← sums, ← sums, ← List.sum_map_add, sum_shares, other]
  rfl

end Node

end QualityRules
