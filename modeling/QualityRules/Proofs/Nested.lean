import QualityRules.Proofs.Spans

/-!
# Proofs — Nested

The parts of a tree lie inside one another: where a part starts and where it ends, in characters of
the text.  Comments do not take part in this, as they may stand anywhere behind what they belong to.

* `Node.Nested`: the parts of a node lie inside it, one behind the other.
* `Derives.stop_le_pos` for two parts that are derived from tokens one behind the other;
  `Source.Yields.stop_ruleset` for a ruleset, which ends behind the comments that trail it.
* `Node.pairwise_solidWalk`: in nested trees, a visit meets the parts in the order of their places.
* `Source.Yields.nested`: all of this holds of whatever tree is read.
-/

namespace QualityRules

open Grammar

variable {source : String} {options : Options} {ts us vs : List Token} {t u w : Token}
  {m n a b : Node}

/-! ### Stretches of tokens -/

/-- Of things in a row, each of which starts before it ends and ends before the next one starts, the
first starts before all of them and the last ends behind them. -/
theorem within_of_pairwise {α : Type} (start stop : α → Nat) {xs : List α} {first last : α}
    (apart : xs.Pairwise fun x y => stop x ≤ start y) (each : ∀ x ∈ xs, start x ≤ stop x)
    (head : first ∈ xs.head?) (ends : last ∈ xs.getLast?) :
    ∀ x ∈ xs, start first ≤ start x ∧ stop x ≤ stop last := by
  intro x mem
  constructor
  · obtain ⟨ys, rfl⟩ := List.head?_eq_some_iff.mp head
    rcases List.mem_cons.mp mem with rfl | later
    · exact Nat.le_refl _
    · exact (each first List.mem_cons_self).trans ((List.pairwise_cons.mp apart).1 x later)
  · obtain ⟨ys, rfl⟩ := List.getLast?_eq_some_iff.mp ends
    rcases List.mem_append.mp mem with earlier | same
    · have before := (List.pairwise_append.mp apart).2.2 x earlier last (List.mem_singleton_self _)
      exact before.trans (each last (by simp))
    · rw [List.mem_singleton.mp same]

/-- Tokens in the order of the text lie between the start of the first and the end of the last. -/
theorem within_of_sublist (inside : ts.Sublist (lex source)) (head : u ∈ ts.head?)
    (ends : w ∈ ts.getLast?) :
    ∀ t ∈ ts, u.start.index ≤ t.start.index ∧ t.stop.index ≤ w.stop.index :=
  within_of_pairwise (fun t => t.start.index) (fun t => t.stop.index)
    ((pairwise_stop_lex source).sublist inside)
    (fun _ mem => start_le_stop_of_mem_lex (inside.subset mem)) head ends

/-! ### Parts that are derived -/

/-- Of two parts in a list the first one is derived from tokens further up. -/
theorem DerivesAll.pairwise {ms : List Node} (h : DerivesAll ts ms) : ms.Pairwise fun a b =>
    ∃ us vs, (us ++ vs).Sublist ts ∧ Derives us a ∧ Derives vs b := by
  induction h with
  | nil => exact .nil
  | @cons before us after m ms first others ih =>
    refine .cons (fun b mem => ?_) (ih.imp fun ⟨vs, ws, row, is⟩ => ⟨vs, ws, ?_, is⟩)
    · obtain ⟨vs, inside, is⟩ := others.mem b mem
      exact ⟨us, vs, ((List.Sublist.refl us).append inside.sublist).trans
        (List.sublist_append_right _ _), first, is⟩
    · exact row.trans ((List.sublist_append_right us after).trans (List.sublist_append_right _ _))

/-- A part starts where the first of its tokens does. -/
theorem Derives.index_pos (h : Derives ts m.bare) (other : ∀ f, m ≠ .file f) :
    ∃ t ∈ ts.head?, m.pos.index = t.start.index := by
  rw [← m.pos_bare other]
  exact (h.startsAt (m.bare_ne_file other)).index

/-- Without the comments that trail it, a part ends where the last of its tokens does. -/
theorem Derives.index_stop (h : Derives ts m.bare) (other : ∀ f, m ≠ .file f)
    (inside : ts ⊆ lex source) :
    ∃ t ∈ ts.getLast?, t.kind.isTerminal = false ∧ m.bare.stop.index = t.stop.index :=
  (h.endsAt (m.bare_ne_file other)).index inside

/-- A part that is derived from tokens of a text has some extent. -/
theorem Derives.pos_lt_stop (h : Derives ts m.bare) (other : ∀ f, m ≠ .file f)
    (inside : ts.Sublist (lex source)) : m.pos.index < m.bare.stop.index := by
  obtain ⟨t, head, starts⟩ := h.index_pos other
  obtain ⟨u, ends, kind, stops⟩ := h.index_stop other inside.subset
  have last := List.mem_of_getLast? ends
  have first := (within_of_sublist inside head ends u last).1
  have := start_lt_stop_of_mem_lex (inside.subset last) kind
  omega

/-- A part whose tokens are some of those of another one lies inside it. -/
theorem Derives.within (h : Derives ts n.bare) (other : ∀ f, n ≠ .file f) (k : Derives us m.bare)
    (other' : ∀ f, m ≠ .file f) (row : us.Sublist ts) (inside : ts.Sublist (lex source)) :
    n.pos.index ≤ m.pos.index ∧ m.bare.stop.index ≤ n.bare.stop.index := by
  obtain ⟨t, head, starts⟩ := h.index_pos other
  obtain ⟨u, ends, -, stops⟩ := h.index_stop other inside.subset
  obtain ⟨t', head', starts'⟩ := k.index_pos other'
  obtain ⟨u', ends', -, stops'⟩ := k.index_stop other' (row.trans inside).subset
  have first := within_of_sublist inside head ends t' (row.subset (List.mem_of_head? head'))
  have last := within_of_sublist inside head ends u' (row.subset (List.mem_of_getLast? ends'))
  omega

/-- Of two parts that are derived from tokens one behind the other the first ends before the second
starts, if no comments trail it. -/
theorem Derives.stop_le_pos (h : Derives us a.bare) (other : ∀ f, a ≠ .file f)
    (k : Derives vs b.bare) (other' : ∀ f, b ≠ .file f) (row : (us ++ vs).Sublist (lex source)) :
    a.bare.stop.index ≤ b.pos.index := by
  obtain ⟨t, ends, -, stops⟩ := h.index_stop other
    fun t mem => row.subset (List.mem_append_left _ mem)
  obtain ⟨u, head, starts⟩ := k.index_pos other'
  have pair : [t, u].Sublist (us ++ vs) :=
    (List.singleton_sublist.mpr (List.mem_of_getLast? ends)).append
      (List.singleton_sublist.mpr (List.mem_of_head? head))
  have apart := stop_le_start_of_sublist (pair.trans row)
  omega

/-! ### Rulesets -/

/-- The last token of a ruleset is its closing bracket. -/
theorem Grammar.IsRuleset.bracket {decl : List Token → RuleDecl → Prop} {x : Ruleset}
    (h : IsRuleset decl ts x) : ∃ us right, ts = us ++ [right] ∧ right.start = x.rightBracket := by
  cases h with
  | @mk word sign left us ds right => exact ⟨word :: sign :: left :: us, right, rfl, rfl⟩

/-- Behind the last token of a stretch that is no comment there are only comments. -/
theorem split_of_solid {ws : List Token} (h : solid us = ws ++ [t]) :
    ∃ front cs, us = front ++ t :: cs ∧ ∀ c ∈ cs, c.kind = .comment := by
  obtain ⟨us₁, us₂, rfl, -, rest⟩ := List.filter_eq_append_iff.mp h
  obtain ⟨front, cs, rfl, -, -, none⟩ := List.filter_eq_cons_iff.mp rest
  refine ⟨us₁ ++ front, cs, by simp, fun c mem => ?_⟩
  simpa using List.filter_eq_nil_iff.mp none c mem

/-- A token that is no comment and is behind another one is behind the comments that come right
after it. -/
theorem mem_after_comments {front cs after : List Token}
    (text : lex source = front ++ t :: (cs ++ after)) (comments : ∀ c ∈ cs, c.kind = .comment)
    (mem : w ∈ solid (lex source)) (lt : t.start.index < w.start.index) : w ∈ after := by
  have order := pairwise_start_lex source
  have other := kind_ne_of_mem_solid mem
  have mem := List.mem_of_mem_filter mem
  rw [text] at order mem
  rcases List.mem_append.mp mem with earlier | mem
  · have := (List.pairwise_append.mp order).2.2 w earlier t List.mem_cons_self
    omega
  rcases List.mem_cons.mp mem with rfl | mem
  · exact absurd lt (Nat.lt_irrefl _)
  rcases List.mem_append.mp mem with comment | later
  · exact absurd (comments w comment) other
  · exact later

namespace Source

/-- A ruleset ends where its closing bracket stops, or the last of the comments that trail it.  All
other tokens behind the bracket are behind these comments. -/
theorem Yields.stop_ruleset {x : Ruleset} (h : Yields source options n)
    (mem : .ruleset x ∈ n.walk) : ∃ right ∈ lex source, right.start = x.rightBracket ∧
      right.stop.index = (Node.ruleset x).bare.stop.index ∧ right.stop.index ≤ x.stop.index ∧
      ∀ w ∈ solid (lex source),
        right.start.index < w.start.index → x.stop.index ≤ w.start.index := by
  obtain ⟨us, vs, ⟨before, after, eq⟩, is, trailed⟩ := h.ruleset_derives mem
  obtain ⟨ws, right, row, start⟩ := is.bracket
  have solids : (solid us).Sublist (lex source) :=
    eq ▸ List.filter_sublist.trans ((List.sublist_append_left us vs).trans
      ((List.sublist_append_right before _).trans (List.sublist_append_left _ after)))
  obtain ⟨t, ends, -, bare⟩ := is.endsAt.index solids.subset
  obtain rfl : right = t := by rwa [row, List.getLast?_concat, Option.mem_some] at ends
  -- behind the closing bracket stand only comments, and the last of them may end the ruleset
  obtain ⟨front, cs, rfl, comments⟩ := split_of_solid row
  have text : lex source = (before ++ front) ++ right :: ((cs ++ vs) ++ after) := by
    rw [← eq]
    simp
  have behind : (right :: vs).Sublist (lex source) := by
    rw [text, List.append_assoc cs]
    exact (((List.sublist_append_left vs after).trans (List.sublist_append_right cs _)).cons_cons
      right).trans (List.sublist_append_right _ _)
  obtain ⟨last, ends, stop⟩ := trailed.index_stop
    (fun v mem => behind.subset (List.mem_cons_of_mem _ mem)) bare
  refine ⟨right, behind.subset List.mem_cons_self, start, bare.symm, ?_, fun w mem lt => ?_⟩
  · exact (within_of_sublist behind rfl ends right List.mem_cons_self).2.trans_eq stop.symm
  · have all : ∀ c ∈ cs ++ vs, c.kind = .comment :=
      List.forall_mem_append.mpr ⟨comments, trailed.kind⟩
    have later := mem_after_comments text all mem lt
    have apart := pairwise_stop_lex source
    rw [text, ← List.cons_append, ← List.append_assoc] at apart
    refine stop.trans_le ((List.pairwise_append.mp apart).2.2 last ?_ w later)
    refine List.mem_append_right _ ?_
    rcases List.mem_cons.mp (List.mem_of_getLast? ends) with rfl | mem
    · exact List.mem_cons_self
    · exact List.mem_cons_of_mem _ (List.mem_append_right _ mem)

/-- The comments that trail a part end before the next token that is none. -/
theorem Yields.stop_le (h : Yields source options n) (mem : m ∈ n.walk) (other : ∀ f, m ≠ .file f)
    (text : w ∈ solid (lex source)) (le : m.bare.stop.index ≤ w.start.index) :
    m.stop.index ≤ w.start.index := by
  by_cases isRuleset : ∃ x, m = .ruleset x
  · obtain ⟨x, rfl⟩ := isRuleset
    obtain ⟨right, -, start, -, -, behind⟩ := h.stop_ruleset mem
    have bare : (Node.ruleset x).bare.stop.index = x.rightBracket.index + 1 := rfl
    exact behind w text (by rw [start]; omega)
  · rwa [← m.stop_bare other fun x eq => isRuleset ⟨x, eq⟩]

/-- Comments only make a part longer. -/
theorem Yields.bare_stop_le (h : Yields source options n) (mem : m ∈ n.walk)
    (other : ∀ f, m ≠ .file f) : m.bare.stop.index ≤ m.stop.index := by
  by_cases isRuleset : ∃ x, m = .ruleset x
  · obtain ⟨x, rfl⟩ := isRuleset
    obtain ⟨right, -, -, bare, le, -⟩ := h.stop_ruleset mem
    exact bare ▸ le
  · rw [m.stop_bare other fun x eq => isRuleset ⟨x, eq⟩]

end Source

/-! ### Trees -/

namespace Node

/-- A file is in nothing else. -/
theorem ne_file_of_mem_children (h : m ∈ n.children) (f : RuleFile) : m ≠ .file f := by
  rintro rfl
  have := (rank_lt_of_mem_children h).trans_le n.rank_le
  simp [rank] at this

/-- Only in a file there are rulesets. -/
theorem ne_ruleset_of_mem_children (h : m ∈ n.children) (other : ∀ f, n ≠ .file f)
    (x : Ruleset) : m ≠ .ruleset x := by
  rintro rfl
  have lt := rank_lt_of_mem_children h
  cases n with
  | file f => exact other f rfl
  | rule d => exact absurd (lt.trans_le (rank_rule_le d)) (by simp [rank])
  | parameter p => exact absurd (lt.trans_le (rank_parameter_le p)) (by simp [rank])
  | expression e => exact absurd (lt.trans_le (rank_expression_le e)) (by simp [rank])
  | _ => simp [rank] at lt

/-- Where the parts are listed in the order of their places, a visit meets them as they are
listed. -/
theorem solids_eq_parts (h : n.parts.Pairwise fun a b => a.pos ≤ b.pos) : n.solids = n.parts := by
  rcases n.solids_eq_or with eq | ⟨ms, listed, eq⟩
  · exact eq
  have sorted : n.parts.Sublist (inOrder ms) :=
    List.sublist_mergeSort (by simpa using fun _ _ _ => Pos.le_trans)
      (by simpa using fun _ _ => Pos.le_total _ _) (by simpa using h) (listed ▸ List.filter_sublist)
  have kept : n.parts.filter (fun m => !m.isRemark) = n.parts := by
    rw [← listed, List.filter_filter]
    simp
  have row : n.parts.Sublist n.solids := by
    rw [eq, ← kept]
    exact sorted.filter _
  exact (row.eq_of_length n.solids_perm.length_eq.symm).symm


end Node

/-- The parts of a node but its comments lie inside it, in characters of the text, one behind the
other; none of them is empty. -/
structure Node.Nested (n : Node) : Prop where
  pos_lt_stop : n.isRemark = false → n.pos.index < n.stop.index
  inside : ∀ m ∈ n.solids, n.pos.index ≤ m.pos.index ∧ m.stop.index ≤ n.stop.index
  apart : n.solids.Pairwise fun a b => a.stop.index ≤ b.pos.index

namespace Source

/-- Each part of a node ends before the next one starts. -/
theorem Yields.apart (h : Yields source options n) (mem : m ∈ n.walk) :
    m.parts.Pairwise fun a b => a.stop.index ≤ b.pos.index := by
  obtain remark | ⟨ts, inside, derived⟩ := h.derives mem
  · cases m with
    | group | comment => exact .nil
    | _ => exact nomatch remark
  have row := derived.parts.pairwise
  rw [m.parts_bare, List.pairwise_map] at row
  refine row.imp_of_mem fun {a b} child child' ⟨us, vs, row, isA, isB⟩ => ?_
  have childA := (Node.mem_parts.mp child).1
  have childB := (Node.mem_parts.mp child').1
  have row := row.trans inside.sublist
  have before := isA.stop_le_pos (Node.ne_file_of_mem_children childA) isB
    (Node.ne_file_of_mem_children childB) (row.trans List.filter_sublist)
  obtain ⟨w, head, starts⟩ := isB.index_pos (Node.ne_file_of_mem_children childB)
  rw [starts] at before ⊢
  exact h.stop_le (Node.children_subset_walk mem childA) (Node.ne_file_of_mem_children childA)
    (row.subset (List.mem_append_right _ (List.mem_of_head? head))) before

/-- A part but a file is not empty, and its parts lie inside it. -/
theorem Yields.inside (h : Yields source options n) (mem : m ∈ n.walk)
    (derived : Derives ts m.bare) (other : ∀ f, m ≠ .file f) (text : ts.Sublist (lex source)) :
    m.pos.index < m.stop.index ∧
      ∀ c ∈ m.parts, m.pos.index ≤ c.pos.index ∧ c.stop.index ≤ m.stop.index := by
  have longer := h.bare_stop_le mem other
  refine ⟨(derived.pos_lt_stop other text).trans_le longer, fun c part => ?_⟩
  have child := (Node.mem_parts.mp part).1
  obtain ⟨us, row, is⟩ := derived.parts.mem c.bare (m.parts_bare ▸ List.mem_map_of_mem part)
  have reach := derived.within other is (Node.ne_file_of_mem_children child) row.sublist text
  rw [c.stop_bare (Node.ne_file_of_mem_children child)
    (Node.ne_ruleset_of_mem_children child other)] at reach
  exact ⟨reach.1, reach.2.trans longer⟩

/-- The earlier of two places is before both. -/
theorem index_earlier_le (p q : Pos) :
    (RuleFile.earlier p q).index ≤ p.index ∧ (RuleFile.earlier p q).index ≤ q.index := by
  unfold RuleFile.earlier
  split
  · next less => exact ⟨Pos.index_le_of_le (.inl less), Nat.le_refl _⟩
  · next notLess =>
    exact ⟨Nat.le_refl _, Nat.le_of_not_lt fun lt => notLess (Pos.lt_iff.mpr (.inl lt))⟩

/-- The later of two places is behind both. -/
theorem le_index_later (p q : Pos) :
    p.index ≤ (RuleFile.later p q).index ∧ q.index ≤ (RuleFile.later p q).index := by
  unfold RuleFile.later
  split
  · next less => exact ⟨Pos.index_le_of_le (.inl less), Nat.le_refl _⟩
  · next notLess =>
    exact ⟨Nat.le_refl _, Nat.le_of_not_lt fun lt => notLess (Pos.lt_iff.mpr (.inl lt))⟩

/-- A file reaches from its first ruleset to the last, or farther. -/
theorem index_file {f : RuleFile} {x y : Ruleset} (first : x ∈ f.rulesets.head?)
    (last : y ∈ f.rulesets.getLast?) :
    f.pos.index ≤ x.pos.index ∧ y.stop.index ≤ f.stop.index := by
  unfold RuleFile.pos RuleFile.stop
  rw [Option.mem_def.mp first, Option.mem_def.mp last]
  constructor
  · cases f.commentGroups.head? with
    | none => exact Nat.le_refl _
    | some g => exact (index_earlier_le _ _).2
  · cases f.commentGroups.getLast? with
    | none => exact Nat.le_refl _
    | some g => exact (le_index_later _ _).2

/-- No part of a node is empty. -/
theorem Yields.pos_lt_stop (h : Yields source options n) (mem : m ∈ n.walk) :
    ∀ c ∈ m.parts, c.pos.index < c.stop.index := by
  intro c part
  obtain ⟨child, solid⟩ := Node.mem_parts.mp part
  have mem := Node.children_subset_walk mem child
  obtain remark | ⟨ts, inside, derived⟩ := h.derives mem
  · exact nomatch solid.symm.trans remark
  · exact (h.inside mem derived (Node.ne_file_of_mem_children child)
      (inside.sublist.trans List.filter_sublist)).1

/-- The parts of a node are listed in the order of their places. -/
theorem Yields.pairwise_parts (h : Yields source options n) (mem : m ∈ n.walk) :
    m.parts.Pairwise fun a b => a.pos ≤ b.pos :=
  (h.apart mem).imp_of_mem fun part _ le =>
    Pos.le_of_index_lt ((h.pos_lt_stop mem _ part).trans_le le)

/-- In every tree the parts of a node lie inside it, one behind the other. -/
theorem Yields.nested_walk (h : Yields source options n) (mem : m ∈ n.walk) : m.Nested := by
  have apart := h.apart mem
  have each := h.pos_lt_stop mem
  have eq : m.solids = m.parts := Node.solids_eq_parts (h.pairwise_parts mem)
  obtain remark | ⟨ts, inside, derived⟩ := h.derives mem
  · have none : m.parts = [] := by
      cases m with
      | group | comment => rfl
      | _ => exact nomatch remark
    exact ⟨fun solid => (nomatch solid.symm.trans remark), by simp [eq, none], by simp [eq, none]⟩
  by_cases isFile : ∃ f, m = .file f
  · obtain ⟨f, rfl⟩ := isFile
    have some := derived.rulesets_ne_nil
    have first := List.head_mem_head? some
    have last := List.getLast_mem_getLast? some
    have reach := index_file first last
    have all := within_of_pairwise (fun x : Ruleset => x.pos.index) (fun x => x.stop.index)
      (List.pairwise_map.mp apart) (fun x mem => (each _ (List.mem_map_of_mem mem)).le) first last
    refine ⟨fun _ => ?_, fun m part => ?_, eq ▸ apart⟩
    · have := each _ (List.mem_map_of_mem (List.head_mem some))
      have := all _ (List.head_mem some)
      simp only [Node.pos, Node.stop] at *
      omega
    · obtain ⟨x, listed, rfl⟩ := List.mem_map.mp (eq ▸ part : m ∈ (Node.file f).parts)
      exact ⟨reach.1.trans (all x listed).1, (all x listed).2.trans reach.2⟩
  · have part := h.inside mem derived (fun f eq => isFile ⟨f, eq⟩)
      (inside.sublist.trans List.filter_sublist)
    exact ⟨fun _ => part.1, eq ▸ part.2, eq ▸ apart⟩

end Source

namespace Node

/-- The nodes of a tree but its comments, each before its parts. -/
def solidWalk (n : Node) : List Node := n.walk.filter fun m => !m.isRemark

/-- Of a remark nothing is visited but comments. -/
theorem solidWalk_of_isRemark (h : n.isRemark) : n.solidWalk = [] := by
  refine List.filter_eq_nil_iff.mpr fun m mem => ?_
  simp [isRemark_of_mem_walk h m mem]

/-- A visit meets the node and then its parts, one after the other. -/
theorem solidWalk_eq (h : n.isRemark = false) :
    n.solidWalk = n :: n.solids.flatMap solidWalk := by
  rw [solidWalk, walk_eq, List.filter_cons_of_pos (by simp [h]), List.filter_flatMap, solids]
  congr 1
  induction n.children with
  | nil => rfl
  | cons m ms ih =>
    rw [List.flatMap_cons, ih]
    cases remark : m.isRemark with
    | true =>
      rw [List.filter_cons_of_neg (by simp [remark])]
      exact congrArg (· ++ _) (solidWalk_of_isRemark remark)
    | false => rw [List.filter_cons_of_pos (by simp [remark])]; rfl

/-- In a tree whose parts lie inside one another, a visit meets them in the order of their
places. -/
theorem pairwise_solidWalk (h : ∀ m ∈ n.walk, m.Nested) (solid : n.isRemark = false) :
    n.solidWalk.Pairwise (fun a b => a.pos.index ≤ b.pos.index) ∧
      ∀ m ∈ n.solidWalk, n.pos.index ≤ m.pos.index ∧ m.pos.index < n.stop.index := by
  -- on the rank: what is met inside a part starts before the part ends, so before the next one
  generalize size : n.rank = r
  induction r using Nat.strongRecOn generalizing n with
  | ind r ih =>
    have own := h n n.self_mem_walk
    have below : ∀ c ∈ n.solids, c.solidWalk.Pairwise (fun a b => a.pos.index ≤ b.pos.index) ∧
        ∀ m ∈ c.solidWalk, c.pos.index ≤ m.pos.index ∧ m.pos.index < c.stop.index := by
      intro c part
      obtain ⟨child, solid⟩ := mem_solids.mp part
      refine ih _ (size ▸ rank_lt_of_mem_children child) (fun m mem => h m ?_) solid rfl
      rw [walk_eq]
      exact List.mem_cons_of_mem _ (List.mem_flatMap.mpr ⟨c, child, mem⟩)
    have inside : ∀ m ∈ n.solids.flatMap solidWalk,
        n.pos.index ≤ m.pos.index ∧ m.pos.index < n.stop.index := by
      intro m mem
      obtain ⟨c, part, mem⟩ := List.mem_flatMap.mp mem
      have outer := own.inside c part
      have inner := (below c part).2 m mem
      omega
    rw [solidWalk_eq solid]
    refine ⟨.cons (fun m mem => (inside m mem).1) ?_,
      List.forall_mem_cons.mpr ⟨⟨Nat.le_refl _, own.pos_lt_stop solid⟩, inside⟩⟩
    refine List.pairwise_flatMap.mpr ⟨fun c part => (below c part).1, ?_⟩
    refine own.apart.imp_of_mem fun {a b} partA partB apart x memX y memY => ?_
    have before := (below a partA).2 x memX
    have behind := (below b partB).2 y memY
    omega

end Node

/-- Places that are right are the same if they have the same index. -/
theorem Pos.Faithful.eq {p q : Pos} (h : p.Faithful source) (k : q.Faithful source)
    (same : p.index = q.index) : p = q := by
  rw [(Pos.faithful_iff.mp h).2, (Pos.faithful_iff.mp k).2, same]

/-- Of places that are right the one with the smaller index comes first. -/
theorem Pos.Faithful.le {p q : Pos} (h : p.Faithful source) (k : q.Faithful source)
    (le : p.index ≤ q.index) : p ≤ q := by
  rcases Nat.lt_or_eq_of_le le with lt | same
  · exact Pos.le_of_index_lt lt
  · exact h.eq k same ▸ Pos.le_refl _

namespace Source

/-- **In every tree the parts of a node lie inside it, one behind the other**, comments apart.  So a
visit meets them in the order of their places.  A ruleset reaches at least to the end of its closing
bracket. -/
theorem Yields.nested (h : Yields source options n) :
    (∀ m ∈ n.walk, m.Nested) ∧ n.solidWalk.Pairwise (fun a b => a.pos ≤ b.pos) ∧
      ∀ x, .ruleset x ∈ n.walk →
        x.pos.index ≤ x.rightBracket.index ∧ x.rightBracket.index + 1 ≤ x.stop.index := by
  have solid : n.isRemark = false := by cases h <;> rfl
  have nested : ∀ m ∈ n.walk, m.Nested := fun m mem => h.nested_walk mem
  refine ⟨nested, ?_, fun x mem => ?_⟩
  · refine (Node.pairwise_solidWalk nested solid).1.imp_of_mem fun {a b} memA memB le => ?_
    exact (h.faithful_pos (List.mem_of_mem_filter memA)).le
      (h.faithful_pos (List.mem_of_mem_filter memB)) le
  · have bare : (Node.ruleset x).bare.stop.index = x.rightBracket.index + 1 := rfl
    obtain remark | ⟨ts, inside, derived⟩ := h.derives mem
    · cases remark
    have starts := derived.pos_lt_stop nofun (inside.sublist.trans List.filter_sublist)
    have ends := h.bare_stop_le mem nofun
    rw [bare] at starts ends
    exact ⟨Nat.le_of_lt_succ starts, ends⟩

/-- Two rulesets, the first with a combined rule, a date before now, a list with a threshold and
comments behind the closing bracket. -/
def framedText : String :=
  "Rules = [(A > (now() - 3 days)) and (B in [1, 2] with threshold > 0.5)\n] # c\nRules = [C]"

/-- Such a text is read as a file in which all parts are nested. -/
theorem Yields.nested_framedText : ∃ n, Yields framedText Options.default n ∧
    (∀ m ∈ n.walk, m.Nested) ∧ n.solidWalk.Pairwise (fun a b => a.pos ≤ b.pos) ∧
      ∀ x, .ruleset x ∈ n.walk →
        x.pos.index ≤ x.rightBracket.index ∧ x.rightBracket.index + 1 ≤ x.stop.index := by
  obtain ⟨f, read, -⟩ : ∃ f, (Source.file "f" framedText Options.default).result = .ok f ∧
      f.rulesets.length = 2 := Outcome.exists_ok (by decide +kernel)
  exact ⟨_, .file read, Yields.nested (.file read)⟩

end Source

end QualityRules
