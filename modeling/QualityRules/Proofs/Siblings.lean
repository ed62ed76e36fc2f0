import QualityRules.Proofs.Described.Trees
import QualityRules.Proofs.Nested
import QualityRules.Proofs.Order.Layout

/-!
# Proofs — Siblings

In which order the children of a node come.  They come in the order of their places, but for the
comments that trail the node: a visit meets these last, and they may stand further up, say between
the values of a list.

* `Node.body` and `Node.own`: the children, and the comments that trail the node.
* `Source.Yields.pos_description`: a description stands before what it describes.
* `Source.Yields.apart_ruleset`: where the parts and the comments of a ruleset stand.
* `Source.Yields.pairwise_body` and `Source.Yields.siblings`: the order of the children.
-/

namespace QualityRules

open Grammar

variable {source : String} {options : Options} {t u w : Token} {m n : Node} {g : CommentGroup}

namespace Node

/-! ### Children -/

/-- The group that describes a node. -/
def description : Node → Option CommentGroup
  | ruleset n => n.description
  | rule (.single n) => n.description
  | rule (.combined n) => n.description
  | _ => none

/-- The group that trails a node. -/
def own : Node → Option CommentGroup
  | file _ | group _ | comment _ => none
  | ruleset n => n.comments
  | rule (.single n) => n.comments
  | rule (.combined n) => n.comments
  | ident n => n.comments
  | parameter (.string n) => n.comments
  | parameter (.number n) => n.comments
  | parameter (.bool n) => n.comments
  | parameter (.duration n) => n.comments
  | parameter (.date n) => n.comments
  | expression (.bound (.comparison n)) => n.comments
  | expression (.bound (.between n)) => n.comments
  | expression (.target (.membership n)) => n.comments
  | expression (.target (.pattern n)) => n.comments
  | expression (.withThreshold n) => n.comments

/-- The children of a node but for the group that trails it. -/
def body : Node → List Node
  | file n => inOrder (n.commentGroups.map group ++ n.rulesets.map ruleset)
  | ruleset n => present n.description ++ present n.headerComments
      ++ inOrder (n.rules.map rule ++ n.innerComments.map group)
  | rule d => present (rule d).description ++ (rule d).parts
  | group n => n.comments.map comment
  | n => n.parts

/-- A file, a ruleset, a group or a comment, or a node without parts. -/
def steady : Node → Bool
  | file _ | ruleset _ | group _ | comment _ => true
  | rule _ => false
  | n => n.parts.isEmpty

/-- The group that trails a node is the last of its children. -/
theorem children_eq (n : Node) : n.children = n.body ++ present n.own := by
  cases n with
  | rule d => cases d <;> simp [children, ofRule, body, description, own, parts]
  | parameter p => cases p <;> rfl
  | expression e =>
    cases e with
    | bound e => cases e <;> rfl
    | target e => cases e <;> rfl
    | withThreshold e => rfl
  | file | group | comment => simp [children, body, own, present, parts]
  | ruleset | ident => rfl

theorem mem_present {g : Option CommentGroup} : m ∈ present g ↔ ∃ x ∈ g, m = group x := by
  cases g <;> simp [present]

theorem pairwise_present (g : Option CommentGroup) :
    (present g).Pairwise fun a b => a.pos ≤ b.pos := by
  cases g with
  | none => exact .nil
  | some g => exact List.pairwise_singleton _ _

theorem pairwise_inOrder (ns : List Node) : (inOrder ns).Pairwise fun a b => a.pos ≤ b.pos := by
  have sorted : (inOrder ns).Pairwise fun a b => decide (a.pos ≤ b.pos) :=
    List.pairwise_mergeSort (by simpa using fun _ _ _ => Pos.le_trans)
      (by simpa using fun _ _ => Pos.le_total _ _) ns
  simpa using sorted

/-- If all other children are in order, then all are if none of them is behind the group that trails
the node. -/
theorem pairwise_children (h : n.body.Pairwise fun a b => a.pos ≤ b.pos) :
    n.children.Pairwise (fun a b => a.pos ≤ b.pos) ↔
      ∀ g ∈ n.own, ∀ c ∈ n.children, c.pos ≤ g.pos := by
  simp only [n.children_eq, List.pairwise_append, h, pairwise_present, true_and, mem_present,
    List.mem_append]
  constructor
  · rintro all g mem c (above | ⟨x, same, rfl⟩)
    · exact all c above (group g) ⟨g, mem, rfl⟩
    · obtain rfl := Option.mem_unique mem same
      exact Pos.le_refl _
  · rintro all c above _ ⟨g, mem, rfl⟩
    exact all g mem c (.inl above)

end Node

/-! ### Places of comments -/

/-- A group stands where one of its comments does. -/
theorem CommentGroup.exists_pos (g : CommentGroup) : ∃ c ∈ g.comments, g.pos = c.pos :=
  ⟨_, List.head_mem g.ne_nil, rfl⟩

/-- A group whose comments are among those of some tokens stands where one of these does. -/
theorem CommentGroup.exists_token {ts : List Token} (h : g.comments ⊆ commentsOf ts) :
    ∃ t ∈ ts, g.pos = t.start := by
  obtain ⟨c, mem, pos⟩ := g.exists_pos
  obtain ⟨t, among, -, rfl⟩ := mem_commentsOf.mp (h mem)
  exact ⟨t, among, pos⟩

/-- A group of comments in a row stands where one of their tokens does. -/
theorem CommentGroup.exists_token_of_ofList? {ts : List Token}
    (h : g ∈ CommentGroup.ofList? (ts.map Comment.ofToken)) : ∃ t ∈ ts, g.pos = t.start := by
  obtain ⟨c, mem, pos⟩ := g.exists_pos
  rw [CommentGroup.comments_of_ofList? h] at mem
  obtain ⟨t, among, rfl⟩ := List.mem_map.mp mem
  exact ⟨t, among, pos⟩

namespace Source

/-- A description stands before what it describes. -/
theorem Yields.pos_description (h : Yields source options n) (mem : m ∈ n.walk)
    (some : g ∈ m.description) : g.pos.index < m.pos.index := by
  have declares : m.declares := by cases m <;> first | rfl | cases some
  obtain ⟨D, declared, rfl⟩ := Node.exists_declaration mem declares
  obtain ⟨before, t, opens, describes⟩ := h.exists_opens declared
  obtain ⟨after, split⟩ := opens.split
  have described : g ∈ D.description := by cases D <;> exact some
  have inside : g.comments ⊆ commentsOf before := fun c of_g => by
    have leads := List.mem_of_mem_filter ((describes.run g described).suffix.subset of_g)
    obtain ⟨u, above, comment⟩ := mem_commentsOf.mp leads
    exact mem_commentsOf.mpr ⟨u, (List.rtakeWhile_suffix _ before).subset above, comment⟩
  obtain ⟨u, above, pos⟩ := CommentGroup.exists_token inside
  have first : t.start.index ≤ D.node.pos.index := by
    cases opens with
    | ruleset _ _ start | combined _ _ start | member _ _ start | single _ _ start =>
      exact (congrArg Pos.index start).le
    | @lone r _ _ us u rest split _ _ _ start =>
      -- the rule stands behind the parenthesis that opens it
      have row : lex source = (before ++ t :: us) ++ u :: rest := by rw [split]; simp
      have lt := index_lt_of_split row (u := t) (by simp)
      exact (lt.trans_eq (congrArg Pos.index start)).le
  exact pos ▸ (index_lt_of_split split above).trans_le first

end Source

/-! ### Rulesets -/

/-- The description of a ruleset stands before it, the header comments right behind the bracket that
opens it and before the index `i`, its rules and what floats between them behind that index and
before the bracket that closes it, and the comments that trail it behind that. -/
structure Ruleset.Apart (x : Ruleset) (i : Nat) : Prop where
  description : ∀ g ∈ x.description, g.pos.index < x.leftBracket.index
  header : ∀ g ∈ x.headerComments, x.leftBracket.index < g.pos.index ∧ g.pos.index < i
  opens : x.leftBracket.index < i
  rules : ∀ d ∈ x.rules, i ≤ d.pos.index ∧ d.pos.index < x.rightBracket.index
  inner : ∀ g ∈ x.innerComments, i ≤ g.pos.index ∧ g.pos.index < x.rightBracket.index
  closes : i ≤ x.rightBracket.index
  comments : ∀ g ∈ x.comments, x.rightBracket.index < g.pos.index

/-- The rules of a ruleset start and end between its brackets. -/
theorem Grammar.IsRuleset.rules_between {ts : List Token} {x : Ruleset}
    (h : IsRuleset (IsDecl true) ts x.bare) (inside : ts.Sublist (lex source)) :
    x.declPos.index < x.leftBracket.index ∧ ∀ d ∈ x.rules,
      (Node.rule d).stop.index ≤ x.rightBracket.index ∧ ∃ w ∈ ts, d.pos.index = w.start.index ∧
        x.leftBracket.index < w.start.index ∧ w.start.index < x.rightBracket.index := by
  have decl : x.bare.declPos = x.declPos := rfl
  have opening : x.bare.leftBracket = x.leftBracket := rfl
  have closing : x.bare.rightBracket = x.rightBracket := rfl
  have rules : x.bare.rules = x.rules.map RuleDecl.bare := rfl
  rw [← decl, ← opening, ← closing]
  generalize x.bare = y at *
  cases h with
  | @mk word sign left us ds right _ _ _ body _ =>
    have order := (pairwise_start_lex source).sublist inside
    have body_right : (us ++ [right]).Sublist (lex source) :=
      (((List.sublist_cons_self left _).cons sign).cons word).trans inside
    obtain ⟨behind, order⟩ := List.pairwise_cons.mp order
    refine ⟨behind left (by simp), fun d listed => ?_⟩
    have rules : ds = x.rules.map RuleDecl.bare := rules
    obtain ⟨ws, row, is⟩ := body.parts.mem (.rule d.bare)
      (List.mem_map_of_mem (rules ▸ List.mem_map_of_mem listed))
    obtain ⟨w, head, pos⟩ := Derives.index_pos (m := .rule d) is nofun
    obtain ⟨v, last, -, stop⟩ := Derives.index_stop (m := .rule d) is nofun fun t mem =>
      body_right.subset (List.mem_append_left _ (row.subset mem))
    have among : w ∈ us := row.subset (List.mem_of_head? head)
    have closing := (List.pairwise_append.mp ((pairwise_stop_lex source).sublist body_right)).2.2
      v (row.subset (List.mem_of_getLast? last)) right (List.mem_singleton_self _)
    rw [(Node.rule d).stop_bare nofun nofun] at stop
    obtain ⟨behind, order⟩ := List.pairwise_cons.mp (List.pairwise_cons.mp order).2
    exact ⟨stop.trans_le closing, w, by simp [among], pos, behind w (by simp [among]),
      (List.pairwise_append.mp order).2.2 w among right (List.mem_singleton_self _)⟩

namespace Source

theorem Yields.apart_ruleset {x : Ruleset} (h : Yields source options n)
    (mem : .ruleset x ∈ n.walk) : ∃ i, x.Apart i := by
  obtain ⟨ts, ⟨before, after, eq⟩, laid⟩ := h.laidOut mem
  obtain ⟨us, vs, part, is, -⟩ := h.ruleset_derives mem
  have tokens : (solid us).Sublist (solid (lex source)) :=
    ((List.sublist_append_left us vs).trans part.sublist).filter _
  obtain ⟨above, rules⟩ := is.rules_between (tokens.trans List.filter_sublist)
  cases laid with
  | @mk header between trail left right opens heading headed _ inner kind closes trailed =>
    -- the index is that of the first token behind the header comments
    obtain ⟨u, rest, first⟩ := List.exists_cons_of_ne_nil
      (List.append_ne_nil_of_right_ne_nil between (List.cons_ne_nil right (trail ++ after)))
    have text : lex source = before ++ left :: (header ++ u :: rest) := by
      rw [← eq, ← first]
      simp
    have order := pairwise_start_lex source
    rw [text] at order
    obtain ⟨behindLeft, order⟩ := List.pairwise_cons.mp (List.pairwise_append.mp order).2.1
    obtain ⟨-, order, behindHeader⟩ := List.pairwise_append.mp order
    have behind : ∀ w ∈ u :: rest, u.start.index ≤ w.start.index :=
      List.forall_mem_cons.mpr
        ⟨Nat.le_refl _, fun w mem => ((List.pairwise_cons.mp order).1 w mem).le⟩
    rw [← first] at order behind
    obtain ⟨-, order, behindBetween⟩ := List.pairwise_append.mp order
    refine ⟨u.start.index, ⟨fun g some => ?_, fun g some => ?_, ?_, fun d listed => ?_,
      fun g listed => ?_, ?_, fun g some => ?_⟩⟩
    · exact (h.pos_description mem some).trans above
    · obtain ⟨t, among, pos⟩ := CommentGroup.exists_token_of_ofList? (headed ▸ some)
      rw [← opens, pos]
      exact ⟨behindLeft t (by simp [among]), behindHeader t among u List.mem_cons_self⟩
    · rw [← opens]
      exact behindLeft u (by simp)
    · obtain ⟨-, w, among, pos, lt, gt⟩ := rules d listed
      rw [pos]
      have later := mem_after_comments text heading (tokens.subset among) (opens ▸ lt)
      exact ⟨behind w (first ▸ later), gt⟩
    · obtain ⟨t, among, pos⟩ := CommentGroup.exists_token (inner g listed).subset
      rw [pos, ← closes]
      exact ⟨behind t (by simp [among]), behindBetween t among right List.mem_cons_self⟩
    · rw [← closes]
      exact behind right (by simp)
    · obtain ⟨t, among, pos⟩ := CommentGroup.exists_token_of_ofList? (trailed.comments ▸ some)
      rw [pos, ← closes]
      exact (List.pairwise_cons.mp order).1 t (by simp [among])

/-- The children of a ruleset come in the order of their places. -/
theorem Yields.pairwise_ruleset {x : Ruleset} (h : Yields source options n)
    (mem : .ruleset x ∈ n.walk) :
    (Node.ruleset x).children.Pairwise fun a b => a.pos ≤ b.pos := by
  obtain ⟨i, apart⟩ := h.apart_ruleset mem
  have between : ∀ c ∈ Node.inOrder (x.rules.map .rule ++ x.innerComments.map .group),
      i ≤ c.pos.index ∧ c.pos.index < x.rightBracket.index := by
    intro c listed
    rcases List.mem_append.mp (Node.mem_inOrder.mp listed) with rule | floats
    · obtain ⟨d, among, rfl⟩ := List.mem_map.mp rule
      exact apart.rules d among
    · obtain ⟨g, among, rfl⟩ := List.mem_map.mp floats
      exact apart.inner g among
  simp only [Node.children, List.pairwise_append, Node.pairwise_present, Node.pairwise_inOrder,
    Node.mem_present, List.mem_append, true_and]
  refine ⟨⟨?_, ?_⟩, ?_⟩
  · rintro _ ⟨g, some, rfl⟩ _ ⟨g', some', rfl⟩
    exact Pos.le_of_index_lt ((apart.description g some).trans (apart.header g' some').1)
  · rintro _ (⟨g, some, rfl⟩ | ⟨g, some, rfl⟩) c listed
    · have before := (apart.description g some).trans apart.opens
      exact Pos.le_of_index_lt (before.trans_le (between c listed).1)
    · exact Pos.le_of_index_lt ((apart.header g some).2.trans_le (between c listed).1)
  · rintro c above _ ⟨g, some, rfl⟩
    have behind := apart.comments g some
    rcases above with (⟨g', some', rfl⟩ | ⟨g', some', rfl⟩) | listed
    · have before := (apart.description g' some').trans apart.opens
      exact Pos.le_of_index_lt ((before.trans_le apart.closes).trans behind)
    · have before := (apart.header g' some').2.trans_le apart.closes
      exact Pos.le_of_index_lt (before.trans behind)
    · exact Pos.le_of_index_lt ((between c listed).2.trans behind)

/-- The comments of a group come in the order of their places. -/
theorem Yields.pairwise_group (h : Yields source options n) (mem : .group g ∈ n.walk) :
    (Node.group g).children.Pairwise fun a b => a.pos ≤ b.pos := by
  refine List.pairwise_map.mpr (List.Pairwise.sublist (h.within g mem) ?_)
  rw [commentsOf, List.pairwise_map]
  exact ((pairwise_start_lex source).sublist List.filter_sublist).imp Pos.le_of_index_lt

/-- The children of a node come in the order of their places, but for the group that trails it. -/
theorem Yields.pairwise_body (h : Yields source options n) (mem : m ∈ n.walk) :
    m.body.Pairwise fun a b => a.pos ≤ b.pos := by
  have parts := h.pairwise_parts mem
  cases m with
  | file f => exact Node.pairwise_inOrder _
  | ruleset x =>
    have all := h.pairwise_ruleset mem
    rw [Node.children_eq] at all
    exact (List.pairwise_append.mp all).1
  | rule d =>
    refine List.pairwise_append.mpr ⟨Node.pairwise_present _, parts, fun a described b part => ?_⟩
    obtain ⟨g, some, rfl⟩ := Node.mem_present.mp described
    have before := h.pos_description mem some
    have inside := (h.nested_walk mem).inside b
      (Node.mem_solids.mpr (Node.mem_parts.mp part))
    exact Pos.le_of_index_lt (before.trans_le inside.1)
  | group g => exact h.pairwise_group mem
  | _ => exact parts

/-- **The children of a node come in the order of their places, but for the comments that trail
it.**  These come last, so all are in order just if no child stands behind them.  Files, rulesets
and groups are always in order, and so are the nodes that have no parts. -/
theorem Yields.siblings (h : Yields source options n) (mem : m ∈ n.walk) :
    m.children = m.body ++ Node.present m.own ∧ (m.body.Pairwise fun a b => a.pos ≤ b.pos) ∧
      ((m.children.Pairwise fun a b => a.pos ≤ b.pos) ↔
        ∀ g ∈ m.own, ∀ c ∈ m.children, c.pos ≤ g.pos) ∧
      (m.steady → m.children.Pairwise fun a b => a.pos ≤ b.pos) := by
  have body := h.pairwise_body mem
  refine ⟨m.children_eq, body, Node.pairwise_children body, fun steady => ?_⟩
  cases m with
  | file f => exact Node.pairwise_inOrder _
  | ruleset x => exact h.pairwise_ruleset mem
  | group g => exact h.pairwise_group mem
  | comment c => exact .nil
  | rule d => cases steady
  | ident i => exact Node.pairwise_present _
  | parameter p =>
    have none : (Node.parameter p).body = [] := List.isEmpty_iff.mp steady
    rw [Node.children_eq, none]
    exact Node.pairwise_present _
  | expression e =>
    have none : (Node.expression e).body = [] := List.isEmpty_iff.mp steady
    rw [Node.children_eq, none]
    exact Node.pairwise_present _

/-- A list with a comment before its value. -/
def listText : String := "A in [\n# c\n1]"

theorem Yields.siblings_listText : ∃ n, Yields listText Options.default n ∧
    ∃ m ∈ n.walk, m.own.isSome ∧
      m.children = m.body ++ Node.present m.own ∧ (m.body.Pairwise fun a b => a.pos ≤ b.pos) ∧
      ((m.children.Pairwise fun a b => a.pos ≤ b.pos) ↔
        ∀ g ∈ m.own, ∀ c ∈ m.children, c.pos ≤ g.pos) ∧
      (m.steady → m.children.Pairwise fun a b => a.pos ≤ b.pos) := by
  obtain ⟨d, read, m, mem, own⟩ : ∃ d, (Source.rule listText Options.default).result = .ok d ∧
      ∃ m ∈ (Node.rule d).walk, m.own.isSome := Outcome.exists_ok (by decide +kernel)
  exact ⟨_, .rule read, m, mem, own, Yields.siblings (.rule read) mem⟩

/-- **A comment before a value of a list comes behind that value in a visit.** -/
theorem Yields.not_pairwise_listText : ∃ n, Yields listText Options.default n ∧
    ∃ m ∈ n.walk, ¬ m.children.Pairwise fun a b => a.pos ≤ b.pos := by
  obtain ⟨d, read, mixed⟩ : ∃ d, (Source.rule listText Options.default).result = .ok d ∧
      ∃ m ∈ (Node.rule d).walk, ¬ m.children.Pairwise fun a b => a.pos ≤ b.pos :=
    Outcome.exists_ok (by decide +kernel)
  exact ⟨_, .rule read, mixed⟩

end Source

end QualityRules
