import QualityRules.Proofs.Floating.Trees
import QualityRules.Proofs.Siblings

/-!
# Proofs — Covered

What a file reaches over: its whole tree, but for the comments that describe the ruleset it starts
with.

* `Node.within_walk`: in nested trees what is no comment lies inside the root.
* `Node.Within.span`: comments among some tokens start and end with one of them.
* `Source.Yields.ruleset_covers`: a ruleset reaches over all of its tree but its description.
* `Source.exists_stack`, `Source.description_between`: where a description stands among the groups
  and rulesets of a file.
* `Source.file_covers`: how far a file reaches, and over what it does not.
-/

namespace QualityRules

variable {source name : String} {options : Options} {f : RuleFile} {n m c : Node} {x : Ruleset}
  {g : CommentGroup} {ts : List Token}

namespace Node

/-! ### Inside a node -/

/-- In a tree whose parts lie inside one another, all that is no comment lies inside the root. -/
theorem within_walk (h : ∀ m ∈ n.walk, m.Nested) : ∀ m ∈ n.walk, m.isRemark = false →
    n.pos.index ≤ m.pos.index ∧ m.stop.index ≤ n.stop.index := by
  have all := walk_induction (P := fun m => m ∈ n.walk ∧ (m.isRemark = false →
      n.pos.index ≤ m.pos.index ∧ m.stop.index ≤ n.stop.index))
    ⟨n.self_mem_walk, fun _ => ⟨Nat.le_refl _, Nat.le_refl _⟩⟩ ?_
  · exact fun m mem => (all m mem).2
  · refine fun m ⟨mem, outer⟩ c child => ⟨children_subset_walk mem child, fun solid => ?_⟩
    have inner := (h m mem).inside c (mem_solids.mpr ⟨child, solid⟩)
    -- a comment has only comments for its parts, so the parent is none
    have parent := isRemark_eq_false_of_mem_walk (children_subset_walk m.self_mem_walk child) solid
    have outer := outer parent
    omega

/-- Only a group has a comment for its part. -/
theorem exists_group_of_mem_children {d : Comment} (h : comment d ∈ n.children) :
    ∃ g, n = group g ∧ d ∈ g.comments := by
  have other : ∀ {g : Option CommentGroup}, comment d ∉ present g := by
    intro g mem
    obtain ⟨x, -, eq⟩ := mem_present.mp mem
    cases eq
  cases n with
  | group g => exact ⟨g, rfl, by simpa [children] using h⟩
  | comment d => cases h
  | parameter p => cases p <;> simp [children, ofParameter, other] at h
  | expression e =>
    rcases e with (e | e) | (e | e) | e <;> simp [children, ofExpression, other] at h
  | rule d => cases d <;> simp [children, ofRule, single, other] at h
  | _ => simp [children, other] at h

/-- Where the groups of a tree are made of comments among some tokens, each comment and each group
starts with one of these and ends with one of these. -/
theorem Within.span (h : n.Within (commentsOf ts)) (inside : ts ⊆ lex source)
    (other : ∀ d, n ≠ comment d) (mem : m ∈ n.walk) (remark : m.isRemark) :
    (∃ t ∈ ts, m.pos.index = t.start.index) ∧ ∃ t ∈ ts, m.stop.index = t.stop.index := by
  have comments := walk_induction
    (P := fun m => m ∈ n.walk ∧ ∀ d, m = comment d → d ∈ commentsOf ts)
    ⟨n.self_mem_walk, fun d eq => absurd eq (other d)⟩ ?_
  · cases m with
    | group g =>
      have among : (group g).Among ts := (h g mem).subset
      exact among.span inside
    | comment d =>
      obtain ⟨t, among, kind, rfl⟩ := mem_commentsOf.mp ((comments _ mem).2 d rfl)
      exact ⟨⟨t, among, rfl⟩, t, among, index_stop_ofToken (inside among) kind⟩
    | _ => cases remark
  · refine fun m ⟨mem, _⟩ c child => ⟨children_subset_walk mem child, ?_⟩
    rintro d rfl
    obtain ⟨g, rfl, listed⟩ := exists_group_of_mem_children child
    exact (h g mem).subset listed

end Node

/-! ### Rulesets -/

/-- But for its description, the comments of a ruleset are among its tokens. -/
theorem Ruleset.LaidOut.within (h : x.LaidOut ts) (child : c ∈ (Node.ruleset x).children) :
    (∃ g ∈ x.description, c = .group g) ∨ c.Within (commentsOf ts) := by
  cases h with
  | @mk header between trail left right _ heading headed rules inner _ _ trailed =>
    -- each stretch of the tokens has its comments among those of all of them
    have among : ∀ {us}, us.Sublist (header ++ (between ++ right :: trail)) →
        (commentsOf us).Sublist (commentsOf (left :: (header ++ (between ++ right :: trail)))) :=
      fun row => commentsOf_sublist (row.cons left)
    have behind : trail.Sublist (between ++ right :: trail) :=
      (List.sublist_cons_self right trail).trans (List.sublist_append_right between _)
    have body := among ((List.sublist_append_left between (right :: trail)).trans
      (List.sublist_append_right header _))
    simp only [Node.children, List.mem_append, Node.mem_present, Node.mem_inOrder, List.mem_map]
      at child
    obtain ((⟨g, some, rfl⟩ | ⟨g, some, rfl⟩) | ⟨d, listed, rfl⟩ | ⟨g, listed, rfl⟩) |
      ⟨g, some, rfl⟩ := child
    · exact .inl ⟨g, some, rfl⟩
    · have row := among (List.sublist_append_left header (between ++ right :: trail))
      rw [commentsOf_eq_map heading] at row
      rw [headed] at some
      exact .inr (Node.within_group.mpr (CommentGroup.comments_of_ofList? some ▸ row))
    · exact .inr ((rules d listed).mono body)
    · exact .inr (Node.within_group.mpr ((inner g listed).trans body))
    · have row := among (behind.trans (List.sublist_append_right header _))
      rw [commentsOf_eq_map trailed.kind] at row
      rw [trailed.comments] at some
      exact .inr (Node.within_group.mpr (CommentGroup.comments_of_ofList? some ▸ row))

/-- The tokens of a ruleset lie from its opening bracket on up to its end. -/
theorem Ruleset.LaidOut.inside (h : x.LaidOut ts) (inside : ts <:+: lex source) :
    ∀ t ∈ ts, x.leftBracket.index ≤ t.start.index ∧ t.stop.index ≤ x.stop.index := by
  cases h with
  | @mk header between trail left right opens _ _ _ _ kind closes trailed =>
    have mem : right ∈ lex source := inside.subset (by simp)
    obtain ⟨u, last, stop⟩ := trailed.index_stop (fun t mem => inside.subset (by simp [mem]))
      (Ruleset.index_bare_stop mem kind closes)
    have ends : u ∈ (left :: (header ++ (between ++ right :: trail))).getLast? := by
      rw [← List.append_assoc, ← List.cons_append]
      exact List.mem_getLast?_append_of_mem_getLast? last
    have stop : x.stop.index = u.stop.index := stop
    rw [← opens, stop]
    exact within_of_sublist inside.sublist rfl ends

namespace Source

/-- Comments, groups of them and rulesets end where their places say. -/
theorem Yields.faithful_stop (h : Yields source options n) (mem : m ∈ n.walk)
    (kind : m.isRemark ∨ ∃ x, m = .ruleset x) : m.stop.Faithful source := by
  rcases kind with remark | ⟨x, rfl⟩
  · cases m with
    | group | comment => exact (h.placed_of_isRemark mem rfl).stop.mpr rfl
    | _ => cases remark
  · exact (h.placed_of_ne_file mem nofun).stop.mpr rfl

/-- No comment ends before it starts, and no group of them. -/
theorem Yields.pos_le_stop_of_isRemark (h : Yields source options n) (mem : m ∈ n.walk)
    (remark : m.isRemark) : m.pos.index ≤ m.stop.index := by
  obtain ⟨⟨ts, spans⟩, -⟩ := h.spans_of_isRemark mem remark
  obtain ⟨t, head, pos⟩ := spans.starts
  obtain ⟨u, ends, stop⟩ := spans.stops
  have first := within_of_sublist spans.inOrder head ends u (List.mem_of_getLast? ends)
  have last := start_le_stop_of_mem_lex (spans.inOrder.subset (List.mem_of_getLast? ends))
  omega

/-- A group reaches over its comments. -/
theorem Yields.group_covers (h : Yields source options n) (mem : .group g ∈ n.walk)
    (inner : m ∈ (Node.group g).walk) : g.pos ≤ m.pos ∧ m.stop ≤ g.stop := by
  obtain rfl | ⟨c, child, below⟩ := Node.mem_walk.mp inner
  · exact ⟨Pos.le_refl _, Pos.le_refl _⟩
  obtain ⟨d, listed, rfl⟩ := List.mem_map.mp child
  obtain rfl : m = .comment d := by simpa [Node.walk_eq, Node.children] using below
  have walked : ∀ d ∈ g.comments, Node.comment d ∈ n.walk :=
    fun d listed => Node.children_subset_walk mem (List.mem_map_of_mem listed)
  have each : ∀ d ∈ g.comments, d.pos.index ≤ d.stop.index :=
    fun d listed => h.pos_le_stop_of_isRemark (walked d listed) rfl
  have order := (pairwise_commentsOf_lex source).sublist (h.within g mem)
  have inside := within_of_pairwise (fun d : Comment => d.pos.index) (fun d => d.stop.index)
    (order.imp Nat.le_of_lt) each (List.head_mem_head? g.ne_nil)
    (List.getLast_mem_getLast? g.ne_nil) d listed
  exact ⟨(h.faithful_pos mem).le (h.faithful_pos (walked d listed)) inside.1,
    (h.faithful_stop (walked d listed) (.inl rfl)).le (h.faithful_stop mem (.inl rfl)) inside.2⟩

/-- A ruleset starts before its opening bracket, and its rules lie between the brackets. -/
theorem Yields.rules_between (h : Yields source options n) (mem : .ruleset x ∈ n.walk) :
    x.declPos.index < x.leftBracket.index ∧ ∀ d ∈ x.rules,
      x.leftBracket.index < (Node.rule d).pos.index ∧
        (Node.rule d).stop.index ≤ x.rightBracket.index := by
  obtain ⟨us, vs, part, is, -⟩ := h.ruleset_derives mem
  obtain ⟨above, rules⟩ := is.rules_between
    (List.filter_sublist.trans ((List.sublist_append_left us vs).trans part.sublist))
  refine ⟨above, fun d listed => ?_⟩
  obtain ⟨closes, w, -, pos, opens, -⟩ := rules d listed
  exact ⟨opens.trans_eq pos.symm, closes⟩

/-- A ruleset reaches over all that is no comment. -/
theorem Yields.ruleset_covers_solid (h : Yields source options n) (mem : .ruleset x ∈ n.walk)
    (inner : m ∈ (Node.ruleset x).walk) (solid : m.isRemark = false) :
    x.pos ≤ m.pos ∧ m.stop ≤ x.stop := by
  obtain rfl | ⟨c, child, below⟩ := Node.mem_walk.mp inner
  · exact ⟨Pos.le_refl _, Pos.le_refl _⟩
  have part : c ∈ (Node.ruleset x).parts :=
    Node.mem_parts.mpr ⟨child, Node.isRemark_eq_false_of_mem_walk below solid⟩
  obtain ⟨d, listed, rfl⟩ := List.mem_map.mp part
  have walked := Node.walk_subset_walk (Node.children_subset_walk mem child)
  have reach := Node.within_walk (fun m mem => h.nested_walk (walked mem)) m below solid
  obtain ⟨above, rules⟩ := h.rules_between mem
  obtain ⟨opens, closes⟩ := rules d listed
  have longer : x.rightBracket.index + 1 ≤ x.stop.index := h.bare_stop_le mem nofun
  have start : x.declPos.Faithful source := h.faithful_pos mem
  exact ⟨start.le (h.faithful_pos (walked below)) (by omega), Pos.le_of_index_lt (by omega)⟩

/-- A ruleset reaches over all of its tree but what describes it. -/
theorem Yields.ruleset_covers (h : Yields source options n) (mem : .ruleset x ∈ n.walk)
    (inner : m ∈ (Node.ruleset x).walk) :
    (∃ g ∈ x.description, m ∈ (Node.group g).walk) ∨ x.pos ≤ m.pos ∧ m.stop ≤ x.stop := by
  cases remark : m.isRemark with
  | false => exact .inr (h.ruleset_covers_solid mem inner remark)
  | true =>
    obtain rfl | ⟨c, child, below⟩ := Node.mem_walk.mp inner
    · cases remark
    obtain ⟨ts, tokens, laid⟩ := h.laidOut mem
    obtain ⟨g, some, rfl⟩ | within := laid.within child
    · exact .inl ⟨g, some, below⟩
    have other : ∀ d, c ≠ .comment d := by
      rintro d rfl
      obtain ⟨g, eq, -⟩ := Node.exists_group_of_mem_children child
      cases eq
    obtain ⟨⟨t, first, pos⟩, u, last, stop⟩ := within.span tokens.subset other below remark
    have above := (h.rules_between mem).1
    have behind := (laid.inside tokens t first).1
    have ends := (laid.inside tokens u last).2
    have walked := Node.walk_subset_walk mem inner
    have start : x.declPos.Faithful source := h.faithful_pos mem
    exact .inr ⟨start.le (h.faithful_pos walked) (by omega),
      (h.faithful_stop walked (.inl remark)).le (h.faithful_stop mem (.inr ⟨x, rfl⟩))
        (stop.trans_le ends)⟩

/-! ### Files -/

/-- The children of a file are what floats in it and its rulesets. -/
theorem mem_children_file : c ∈ (Node.file f).children ↔
    (∃ g ∈ f.commentGroups, c = .group g) ∨ ∃ x ∈ f.rulesets, c = .ruleset x := by
  simp [Node.children, eq_comm]

/-- A child of a file stops at a place of the text. -/
theorem Yields.faithful_stop_child (h : Yields source options (.file f))
    (child : c ∈ (Node.file f).children) : c.stop.Faithful source := by
  refine h.faithful_stop (Node.children_subset_walk (Node.file f).self_mem_walk child) ?_
  obtain ⟨g, -, rfl⟩ | ⟨x, -, rfl⟩ := mem_children_file.mp child
  · exact .inl rfl
  · exact .inr ⟨x, rfl⟩

/-- A file stops at a place of the text. -/
theorem Yields.faithful_stop_file (h : Yields source options (.file f)) :
    f.stop.Faithful source := by
  obtain remark | ⟨ts, -, derived⟩ := h.derives (Node.file f).self_mem_walk
  · cases remark
  obtain ⟨c, child, stop⟩ := RuleFile.stop_eq derived.rulesets_ne_nil
  exact stop ▸ h.faithful_stop_child child

/-- A description is made of the tokens right before the word that opens its ruleset: all groups and
rulesets of the file stand before them, or not before the word. -/
theorem exists_stack (read : (Source.file name source options).result = .ok f)
    (listed : x ∈ f.rulesets) : ∃ stack, StackOf stack (CommentGroup.listOf x.description) ∧
      ∀ t ∈ stack, t ∈ lex source ∧ t.stop.index ≤ x.declPos.index ∧
        ∀ c ∈ (Node.file f).children,
          c.stop.index ≤ t.start.index ∨ x.declPos.index ≤ c.pos.index := by
  obtain ⟨us, s, row, inOrder⟩ := exists_inOrder read
  obtain ⟨before, stack, ts, after, rfl, is, reaches, groups, rulesets⟩ :=
    inOrder.strung.split listed
  have inside : ∀ t ∈ before ++ stack ++ ts ++ after, t ∈ lex source := fun t => mem_lex_of_row row
  -- what stands before the stack ends before it, what stands behind the ruleset starts behind
  have apart := pairwise_stop_of_row row
  rw [List.append_assoc, List.append_assoc] at apart
  obtain ⟨-, apart, front⟩ := List.pairwise_append.mp apart
  obtain ⟨-, apart, middle⟩ := List.pairwise_append.mp apart
  obtain ⟨-, -, back⟩ := List.pairwise_append.mp apart
  obtain ⟨⟨word, opens, start⟩, -⟩ := reaches.span fun t mem => inside t (by simp [mem])
  refine ⟨stack, is, fun t mem => ⟨inside t (by simp [mem]), ?_, fun c child => ?_⟩⟩
  · rw [start]
    exact middle t mem word (List.mem_append_left _ opens)
  have stands : c = .ruleset x ∨ c.Among before ∨ c.Among after := by
    obtain ⟨g, floats, rfl⟩ | ⟨y, other, rfl⟩ := mem_children_file.mp child
    · exact .inr (groups g floats)
    · exact (rulesets y other).imp_left (congrArg Node.ruleset)
  obtain rfl | early | late := stands
  · exact .inr (Nat.le_refl _)
  · obtain ⟨-, v, among, stop⟩ := early.span fun t mem => inside t (by simp [mem])
    have le := front v among t (List.mem_append_left _ mem)
    exact .inl (stop.trans_le le)
  · obtain ⟨⟨v, among, pos⟩, -⟩ := late.span fun t mem => inside t (by simp [mem])
    have le := back word opens v among
    have wide := start_le_stop_of_mem_lex (inside word (by simp [opens]))
    rw [start, pos]
    exact .inr (wide.trans le)

/-- What describes a ruleset stands right before it: all groups and rulesets of the file stand
before the description, or not before the ruleset. -/
theorem description_between (read : (Source.file name source options).result = .ok f)
    (listed : x ∈ f.rulesets) (some : g ∈ x.description) (mem : m ∈ (Node.group g).walk) :
    m.pos.index < x.declPos.index ∧ m.stop.index ≤ x.declPos.index ∧
      ∀ c ∈ (Node.file f).children,
        c.stop.index ≤ m.pos.index ∨ x.declPos.index ≤ c.pos.index := by
  obtain ⟨stack, is, stands⟩ := exists_stack read listed
  rw [Option.mem_def.mp some] at is
  have within : (Node.group g).Within (commentsOf stack) := by
    rw [Node.within_group, commentsOf_eq_map is.kind, ← is.made]
    exact .refl g.comments
  obtain ⟨⟨t, first, pos⟩, u, last, stop⟩ := within.span (fun t mem => (stands t mem).1) nofun mem
    (Node.isRemark_of_mem_walk rfl m mem)
  obtain ⟨inside, before, others⟩ := stands t first
  have going : t.kind.isTerminal = false := by simp [is.kind t first, Kind.isTerminal]
  have wide := start_lt_stop_of_mem_lex inside going
  exact ⟨by omega, stop.trans_le (stands u last).2.1, fun c child => pos ▸ others c child⟩

/-- A file reaches from the first group that floats to the last, or farther. -/
theorem index_file_group {a b : CommentGroup} (first : a ∈ f.commentGroups.head?)
    (last : b ∈ f.commentGroups.getLast?) :
    f.pos.index ≤ a.pos.index ∧ b.stop.index ≤ f.stop.index := by
  unfold RuleFile.pos RuleFile.stop
  rw [Option.mem_def.mp first, Option.mem_def.mp last]
  constructor
  · cases f.rulesets.head? with
    | none => exact Nat.le_refl _
    | some x => exact (index_earlier_le _ _).1
  · cases f.rulesets.getLast? with
    | none => exact Nat.le_refl _
    | some x => exact (le_index_later _ _).1

/-- A file reaches over its groups and its rulesets, in characters of the text. -/
theorem file_reaches (read : (Source.file name source options).result = .ok f)
    (child : c ∈ (Node.file f).children) :
    f.pos.index ≤ c.pos.index ∧ c.pos.index ≤ c.stop.index ∧ c.stop.index ≤ f.stop.index := by
  have h := Yields.file read
  have own := (Node.file f).self_mem_walk
  obtain ⟨g, floats, rfl⟩ | ⟨x, listed, rfl⟩ := mem_children_file.mp child
  · obtain ⟨us, s, row, inOrder⟩ := exists_inOrder read
    have each : ∀ g ∈ f.commentGroups, g.pos.index ≤ g.stop.index := fun g floats =>
      h.pos_le_stop_of_isRemark (m := .group g)
        (Node.children_subset_walk own (mem_children_file.mpr (.inl ⟨g, floats, rfl⟩))) rfl
    have some := List.ne_nil_of_mem floats
    have first := List.head_mem_head? some
    have last := List.getLast_mem_getLast? some
    have reach := index_file_group first last
    have inside := within_of_pairwise (fun g : CommentGroup => g.pos.index) (fun g => g.stop.index)
      ((inOrder.floating.floatIn row).inOrder.imp Nat.le_of_lt) each first last g floats
    exact ⟨reach.1.trans inside.1, each g floats, inside.2.trans reach.2⟩
  · have inside := (h.nested_walk own).inside _ (Node.mem_solids.mpr ⟨child, rfl⟩)
    have wide := (h.nested_walk (Node.children_subset_walk own child)).pos_lt_stop rfl
    exact ⟨inside.1, wide.le, inside.2⟩

end Source

/-- The node is one of the comments that describe the ruleset at whose word the file starts, or the
group of them. -/
def RuleFile.Ahead (f : RuleFile) (n : Node) : Prop :=
  ∃ x ∈ f.rulesets, x.declPos = f.pos ∧ ∃ g ∈ x.description, n ∈ (Node.group g).walk

namespace Source

/-- A file reaches over all of its tree but what describes its rulesets. -/
theorem file_covers_or (read : (Source.file name source options).result = .ok f)
    (mem : n ∈ (Node.file f).walk) :
    (∃ x ∈ f.rulesets, ∃ g ∈ x.description, n ∈ (Node.group g).walk) ∨
      f.pos ≤ n.pos ∧ n.stop ≤ f.stop := by
  have h := Yields.file read
  have own := (Node.file f).self_mem_walk
  obtain rfl | ⟨c, child, below⟩ := Node.mem_walk.mp mem
  · exact .inr ⟨Pos.le_refl _, Pos.le_refl _⟩
  have walked := Node.children_subset_walk own child
  have reach := file_reaches read child
  have starts : f.pos ≤ c.pos := (h.faithful_pos own).le (h.faithful_pos walked) reach.1
  have ends : c.stop ≤ f.stop := (h.faithful_stop_child child).le h.faithful_stop_file reach.2.2
  obtain ⟨g, floats, rfl⟩ | ⟨x, listed, rfl⟩ := mem_children_file.mp child
  · obtain ⟨first, last⟩ := h.group_covers walked below
    exact .inr ⟨Pos.le_trans starts first, Pos.le_trans last ends⟩
  · refine (h.ruleset_covers walked below).imp (fun described => ⟨x, listed, described⟩) ?_
    exact fun ⟨first, last⟩ => ⟨Pos.le_trans starts first, Pos.le_trans last ends⟩

/-- What describes the ruleset that a file starts with starts before the file. -/
theorem index_pos_lt_of_ahead (read : (Source.file name source options).result = .ok f)
    (ahead : f.Ahead n) : n.pos.index < f.pos.index := by
  obtain ⟨x, listed, starts, g, some, inner⟩ := ahead
  rw [← starts]
  exact (description_between read listed some inner).1

/-- What describes another ruleset stands behind the group or the ruleset that the file starts
with. -/
theorem pos_le_of_described (read : (Source.file name source options).result = .ok f)
    (listed : x ∈ f.rulesets) (some : g ∈ x.description) (inner : n ∈ (Node.group g).walk)
    (mem : n ∈ (Node.file f).walk) (other : x.declPos ≠ f.pos) : f.pos ≤ n.pos := by
  have h := Yields.file read
  have own := (Node.file f).self_mem_walk
  have starts : f.pos.Faithful source := h.faithful_pos own
  have word : Node.ruleset x ∈ (Node.file f).children :=
    mem_children_file.mpr (.inr ⟨x, listed, rfl⟩)
  obtain ⟨c, child, pos⟩ := RuleFile.pos_eq (List.ne_nil_of_mem listed)
  have pos := congrArg Pos.index pos
  obtain early | late := (description_between read listed some inner).2.2 c child
  · have wide := (file_reaches read child).2.1
    exact starts.le (h.faithful_pos mem) (by omega)
  · have first : f.pos.index ≤ x.declPos.index := (file_reaches read word).1
    have start : x.declPos.Faithful source := h.faithful_pos (Node.children_subset_walk own word)
    exact absurd (start.eq starts (by omega)) other

/-- **A file reaches over its whole tree, but for the comments that describe the ruleset it starts
with**: all parts end before the file does, and those that start before it are just these. -/
theorem file_covers (read : (Source.file name source options).result = .ok f) :
    ∀ n ∈ (Node.file f).walk, n.stop ≤ f.stop ∧ (f.pos ≤ n.pos ↔ ¬ f.Ahead n) := by
  intro n mem
  have apart : f.pos ≤ n.pos → ¬ f.Ahead n := fun le ahead =>
    Nat.not_lt.mpr (Pos.index_le_of_le le) (index_pos_lt_of_ahead read ahead)
  obtain ⟨x, listed, g, some, inner⟩ | ⟨starts, ends⟩ := file_covers_or read mem
  · obtain ⟨-, last, -⟩ := description_between read listed some inner
    have child : Node.ruleset x ∈ (Node.file f).children :=
      mem_children_file.mpr (.inr ⟨x, listed, rfl⟩)
    have walked := Node.children_subset_walk (Node.file f).self_mem_walk child
    have wide := ((Yields.file read).nested_walk walked).pos_lt_stop rfl
    have reach := (file_reaches read child).2.2
    refine ⟨Pos.le_of_index_lt (last.trans_lt (wide.trans_le reach)), apart, fun behind => ?_⟩
    refine pos_le_of_described read listed some inner mem fun same => behind ?_
    exact ⟨x, listed, same, g, some, inner⟩
  · exact ⟨ends, apart, fun _ => starts⟩

/-- Two rulesets, each with a description, and comments behind the brackets of both. -/
def heraldedText : String := "# a\nRules = [ # b\nA # c\n]\n# d\nRules = [B] # e\n\n# f"

/-- Such a file starts at the first of its two rulesets, whose description is ahead of it. -/
theorem file_covers_heraldedText : ∃ f : RuleFile,
    (Source.file "f" heraldedText Options.default).result = .ok f ∧ f.rulesets.length = 2 ∧
      (∃ x ∈ f.rulesets, x.declPos = f.pos ∧ x.description.isSome) ∧
      ∀ n ∈ (Node.file f).walk, n.stop ≤ f.stop ∧ (f.pos ≤ n.pos ↔ ¬ f.Ahead n) := by
  obtain ⟨f, read, two, described⟩ : ∃ f : RuleFile,
      (Source.file "f" heraldedText Options.default).result = .ok f ∧ f.rulesets.length = 2 ∧
        ∃ x ∈ f.rulesets, x.declPos = f.pos ∧ x.description.isSome :=
    Outcome.exists_ok (by decide +kernel)
  exact ⟨f, read, two, described, file_covers read⟩

/-- **A comment right above the first ruleset stands before the file.** -/
theorem not_pos_le_of_described : ∃ f : RuleFile,
    (Source.file "f" "# d\nRules = [A]" Options.default).result = .ok f ∧
      ∃ n ∈ (Node.file f).walk, ¬ f.pos ≤ n.pos := Outcome.exists_ok (by decide +kernel)

end Source

end QualityRules
