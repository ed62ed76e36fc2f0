import QualityRules.Tree.Rule

/-!
# Tree — Node

All parts of a tree as one type, with the parts of which each consists.

* `Node.children`: the direct parts, comments with them.  Where comments float among rules or
  rulesets, both come in the order of their places.
* `Node.rank_lt_of_mem_children`: a part has a smaller rank than what it is part of, so a tree is
  only so deep.
* `Node.walk` visits a node and then, one after the other, the parts of each child;
  `Node.walk_eq` is that equation.
-/

namespace QualityRules

/-- A part of a tree. -/
inductive Node where
  | file (n : RuleFile)
  | ruleset (n : Ruleset)
  | rule (n : RuleDecl)
  | ident (n : Ident)
  | parameter (n : Parameter)
  | expression (n : Expression)
  | group (n : CommentGroup)
  | comment (n : Comment)
deriving DecidableEq

namespace Node

/-- The place of the first character of a node. -/
def pos : Node → Pos
  | file n => n.pos
  | ruleset n => n.pos
  | rule n => n.pos
  | ident n => n.pos
  | parameter n => n.pos
  | expression n => n.pos
  | group n => n.pos
  | comment n => n.pos

/-- The place after the last character of a node. -/
def stop : Node → Pos
  | file n => n.stop
  | ruleset n => n.stop
  | rule n => n.stop
  | ident n => n.stop
  | parameter n => n.stop
  | expression n => n.stop
  | group n => n.stop
  | comment n => n.stop

/-- A rule by itself. -/
def single (r : Rule) : Node := rule (.single r)

/-- The node is a value. -/
def isParameter : Node → Bool
  | parameter _ => true
  | _ => false

/-- The node is a condition. -/
def isExpression : Node → Bool
  | expression _ => true
  | _ => false

/-- The node may stand behind `with threshold`. -/
def isBound : Node → Bool
  | expression (.bound _) => true
  | _ => false

/-- The node may stand before `with threshold`. -/
def isTarget : Node → Bool
  | expression (.target _) => true
  | _ => false

/-- The node is a rule or a combined rule. -/
def isRule : Node → Bool
  | rule _ => true
  | _ => false

/-- A group that may be absent, as a row of nodes. -/
def present (g : Option CommentGroup) : List Node := (g.map group).toList

/-- Nodes in the order of their places; those at the same place keep their order. -/
def inOrder (ns : List Node) : List Node := ns.mergeSort fun a b => a.pos ≤ b.pos

/-- The direct parts of a value. -/
def ofParameter : Parameter → List Node
  | .string p => present p.comments
  | .number p => present p.comments
  | .bool p => present p.comments
  | .duration p => present p.comments
  | .date p => (p.duration.map fun d => parameter (.duration d)).toList ++ present p.comments

/-- The direct parts of a condition. -/
def ofExpression : Expression → List Node
  | .bound (.comparison e) => parameter e.right :: present e.comments
  | .bound (.between e) => parameter e.left :: parameter e.right :: present e.comments
  | .target (.membership e) => e.values.map parameter ++ present e.comments
  | .target (.pattern e) => present e.comments
  | .withThreshold e =>
    expression (.target e.target) :: expression (.bound e.threshold) :: present e.comments

/-- The direct parts of a rule. -/
def ofRule : RuleDecl → List Node
  | .single r =>
    present r.description ++ ident r.ruleType :: r.parameters.map parameter
      ++ (r.expression.map expression).toList ++ present r.comments
  | .combined r => present r.description ++ r.rules.map single ++ present r.comments

/-- The direct parts of a node. -/
def children : Node → List Node
  | file n => inOrder (n.commentGroups.map group ++ n.rulesets.map ruleset)
  | ruleset n =>
    present n.description ++ present n.headerComments
      ++ inOrder (n.rules.map rule ++ n.innerComments.map group) ++ present n.comments
  | rule n => ofRule n
  | ident n => present n.comments
  | parameter n => ofParameter n
  | expression n => ofExpression n
  | group n => n.comments.map comment
  | comment _ => []

/-- How deep a node can be nested inside. -/
def rank : Node → Nat
  | comment _ => 0
  | group _ => 1
  | ident _ => 2
  | parameter (.date _) => 3
  | parameter _ => 2
  | expression (.withThreshold _) => 5
  | expression _ => 4
  | rule (.single _) => 6
  | rule (.combined _) => 7
  | ruleset _ => 8
  | file _ => 9

attribute [simp] rank

/-- A visit that goes down at most `depth` steps. -/
def walkTo : Nat → Node → List Node
  | 0, n => [n]
  | depth + 1, n => n :: n.children.flatMap (walkTo depth)

/-- The nodes of a tree, each before its parts. -/
def walk (n : Node) : List Node := walkTo n.rank n

/-- An absent group is no part, a present one has the rank of groups. -/
theorem rank_present (g : Option CommentGroup) {m : Node} (h : m ∈ present g) : m.rank = 1 := by
  cases g with
  | none => exact nomatch h
  | some g => rw [List.mem_singleton.mp h]; rfl

theorem rank_parameter_le (p : Parameter) : rank (parameter p) ≤ 3 := by
  cases p <;> simp [rank]

theorem rank_expression_le (e : Expression) : rank (expression e) ≤ 5 := by
  cases e <;> simp [rank]

theorem rank_rule_le (r : RuleDecl) : rank (rule r) ≤ 7 := by
  cases r <;> simp [rank]

theorem rank_ofParameter {p : Parameter} {m : Node} (h : m ∈ ofParameter p) :
    m.rank < rank (parameter p) := by
  cases p with
  | date p =>
    rcases List.mem_append.mp h with h | h
    · cases d : p.duration with
      | none => rw [d] at h; exact nomatch h
      | some d' => rw [d] at h; rw [List.mem_singleton.mp h]; simp [rank]
    · rw [rank_present _ h]; simp [rank]
  | _ => rw [rank_present _ h]; simp [rank]

theorem rank_ofExpression {e : Expression} {m : Node} (h : m ∈ ofExpression e) :
    m.rank < rank (expression e) := by
  match e with
  | .bound (.comparison e) =>
    rcases List.mem_cons.mp h with rfl | h
    · exact Nat.lt_succ_of_le (rank_parameter_le _)
    · rw [rank_present _ h]; simp [rank]
  | .bound (.between e) =>
    rcases List.mem_cons.mp h with rfl | h
    · exact Nat.lt_succ_of_le (rank_parameter_le _)
    rcases List.mem_cons.mp h with rfl | h
    · exact Nat.lt_succ_of_le (rank_parameter_le _)
    · rw [rank_present _ h]; simp [rank]
  | .target (.membership e) =>
    rcases List.mem_append.mp h with h | h
    · obtain ⟨p, -, rfl⟩ := List.mem_map.mp h
      exact Nat.lt_succ_of_le (rank_parameter_le _)
    · rw [rank_present _ h]; simp [rank]
  | .target (.pattern e) => rw [rank_present _ h]; simp [rank]
  | .withThreshold e =>
    rcases List.mem_cons.mp h with rfl | h
    · simp [rank]
    rcases List.mem_cons.mp h with rfl | h
    · simp [rank]
    · rw [rank_present _ h]; simp [rank]

theorem rank_ofRule {r : RuleDecl} {m : Node} (h : m ∈ ofRule r) : m.rank < rank (rule r) := by
  cases r with
  | single r =>
    rcases List.mem_append.mp h with h | h
    · rcases List.mem_append.mp h with h | h
      · rcases List.mem_append.mp h with h | h
        · rw [rank_present _ h]; simp [rank]
        · rcases List.mem_cons.mp h with rfl | h
          · simp [rank]
          · obtain ⟨p, -, rfl⟩ := List.mem_map.mp h
            exact Nat.lt_of_le_of_lt (rank_parameter_le p) (by simp [rank])
      · cases e : r.expression with
        | none => rw [e] at h; exact nomatch h
        | some e' =>
          rw [e] at h
          rw [List.mem_singleton.mp h]
          exact Nat.lt_succ_of_le (rank_expression_le e')
    · rw [rank_present _ h]; simp [rank]
  | combined r =>
    rcases List.mem_append.mp h with h | h
    · rcases List.mem_append.mp h with h | h
      · rw [rank_present _ h]; simp [rank]
      · obtain ⟨r, -, rfl⟩ := List.mem_map.mp h
        simp [rank, single]
    · rw [rank_present _ h]; simp [rank]

/-- A part has a smaller rank than what it is part of. -/
theorem rank_lt_of_mem_children {n m : Node} (h : m ∈ n.children) : m.rank < n.rank := by
  cases n with
  | file n =>
    rcases List.mem_append.mp (List.mem_mergeSort.mp h) with h | h
    · obtain ⟨g, -, rfl⟩ := List.mem_map.mp h; simp [rank]
    · obtain ⟨r, -, rfl⟩ := List.mem_map.mp h; simp [rank]
  | ruleset n =>
    rcases List.mem_append.mp h with h | h
    · rcases List.mem_append.mp h with h | h
      · rcases List.mem_append.mp h with h | h <;> rw [rank_present _ h] <;> simp [rank]
      · rcases List.mem_append.mp (List.mem_mergeSort.mp h) with h | h
        · obtain ⟨r, -, rfl⟩ := List.mem_map.mp h
          exact Nat.lt_succ_of_le (rank_rule_le r)
        · obtain ⟨g, -, rfl⟩ := List.mem_map.mp h; simp [rank]
    · rw [rank_present _ h]; simp [rank]
  | rule n => exact rank_ofRule h
  | ident n => rw [rank_present _ h]; simp [rank]
  | parameter n => exact rank_ofParameter h
  | expression n => exact rank_ofExpression h
  | group n => obtain ⟨c, -, rfl⟩ := List.mem_map.mp h; simp [rank]
  | comment n => exact nomatch h

/-- A node of rank zero has no parts. -/
theorem children_of_rank_zero {n : Node} (h : n.rank = 0) : n.children = [] :=
  List.eq_nil_iff_forall_not_mem.mpr fun _ m => by
    have := rank_lt_of_mem_children m
    omega

/-- Going down further than the rank visits nothing more. -/
theorem walkTo_eq_walkTo (a b : Nat) (n : Node) (ha : n.rank ≤ a) (hb : n.rank ≤ b) :
    walkTo a n = walkTo b n := by
  induction a generalizing b n with
  | zero =>
    cases b with
    | zero => rfl
    | succ b => simp [walkTo, children_of_rank_zero (Nat.le_zero.mp ha)]
  | succ a ih =>
    cases b with
    | zero => simp [walkTo, children_of_rank_zero (Nat.le_zero.mp hb)]
    | succ b =>
      simp only [walkTo, List.cons.injEq, true_and, List.flatMap_def]
      refine congrArg _ (List.map_congr_left fun m mem => ?_)
      have := rank_lt_of_mem_children mem
      exact ih b m (by omega) (by omega)

/-- A node is visited first, then each child with its parts. -/
theorem walk_eq (n : Node) : n.walk = n :: n.children.flatMap walk := by
  rw [walk, walkTo_eq_walkTo n.rank (n.rank + 1) n (Nat.le_refl _) (Nat.le_succ _), walkTo]
  simp only [List.cons.injEq, true_and, List.flatMap_def]
  refine congrArg _ (List.map_congr_left fun m mem => ?_)
  exact walkTo_eq_walkTo _ _ m (Nat.le_of_lt (rank_lt_of_mem_children mem)) (Nat.le_refl _)

end Node

end QualityRules
