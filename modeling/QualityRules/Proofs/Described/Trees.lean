import Mathlib.Data.List.DropRight
import QualityRules.Proofs.Conservation
import QualityRules.Proofs.Described.Rulesets

/-!
# Proofs — Described — Trees

The comments right before a declaration describe it, whatever stands before them.  A comment that
trails a part does not count, and this is asked of the tree alone: none of those that describe or
float trails anything.

* `Declaration.Opens.unique`: a declaration has one first token.
* `Source.Yields.described_in`: all declarations of a tree are described.
* `Source.leading`: the comments right before a declaration, but for those that trail a part further
  up.
* `Source.Yields.described_by_leading`: descriptions are these comments, as far up as there is no
  gap.
-/

namespace QualityRules

variable {source : String} {options : Options} {n : Node} {A F cs : List Comment}
  {before before' after after' us ws : List Token} {t t' u : Token} {D : Declaration} {s : Row}

/-! ### Tokens of a text -/

/-- The comments at the end of tokens, up to the last token that is none. -/
theorem rtakeWhile_comments (ends : ∀ t ∈ ws.getLast?, t.kind ≠ .comment)
    (comments : ∀ t ∈ us, t.kind = .comment) :
    ((ws ++ us).rtakeWhile fun t => t.kind = .comment) = us := by
  induction us using List.reverseRecOn with
  | nil =>
    rw [List.append_nil, List.rtakeWhile_eq_nil_iff]
    intro some
    simpa using ends _ (List.getLast_mem_getLast? some)
  | append_singleton us u ih =>
    have all := List.forall_mem_append.mp comments
    rw [← List.append_assoc, List.rtakeWhile_concat_pos _ _ _ (by simpa using all.2), ih all.1]

/-- A token that stands before another one starts before it. -/
theorem index_lt_of_split (split : lex source = before ++ t :: after) (mem : u ∈ before) :
    u.start.index < t.start.index := by
  have starts : (lex source).Pairwise fun t u => t.start.index < u.start.index :=
    Scanner.pairwise_start _
  rw [split] at starts
  exact (List.pairwise_append.mp starts).2.2 u mem t List.mem_cons_self

/-- A token is found by its place. -/
theorem eq_of_split (split : lex source = before ++ t :: after)
    (split' : lex source = before' ++ t' :: after') (same : t.start = t'.start) :
    before = before' ∧ t = t' := by
  rcases List.append_eq_append_iff.mp (split.symm.trans split') with ⟨_ | ⟨v, ws⟩, eq, rest⟩ |
    ⟨_ | ⟨v, ws⟩, eq, rest⟩
  · exact ⟨by simpa using eq.symm, (List.cons.inj rest).1⟩
  · obtain ⟨rfl, -⟩ := List.cons.inj rest
    have lt := index_lt_of_split split' (u := t) (by simp [eq])
    exact absurd lt (by simp [same])
  · exact ⟨by simpa using eq, (List.cons.inj rest).1.symm⟩
  · obtain ⟨rfl, -⟩ := List.cons.inj rest
    have lt := index_lt_of_split split (u := t') (by simp [eq])
    exact absurd lt (by simp [same])

namespace Declaration

/-- Behind a parenthesis and comments a rule is in parentheses. -/
theorem lastKind_paren (before : List Token) (kind : t.kind = .leftParen)
    (comments : ∀ v ∈ us, v.kind = .comment) :
    lastKind none (before ++ t :: us) = some .leftParen := by
  rw [lastKind_append, lastKind_cons, lastKind_comments _ comments,
    kindBehind_of_kind (by simp [kind]), kind]

/-- What opens a declaration splits the tokens there. -/
theorem Opens.split {ts : List Token} (h : D.Opens ts before t) :
    ∃ after, ts = before ++ t :: after := by
  cases h <;> exact ⟨_, by assumption⟩

/-- A declaration has one first token. -/
theorem Opens.unique (h : D.Opens (lex source) before t) (h' : D.Opens (lex source) before' t') :
    before = before' ∧ t = t' := by
  -- the name of a rule's type may come behind the parenthesis that opens it
  have assoc : ∀ {before us after : List Token} {t u : Token},
      lex source = before ++ t :: (us ++ u :: after) →
        lex source = (before ++ t :: us) ++ u :: after := by
    intro before us after t u split
    simpa using split
  cases h with
  | ruleset split _ start =>
    cases h' with
    | ruleset split' _ start' => exact eq_of_split split split' (start.trans start'.symm)
  | combined split _ start =>
    cases h' with
    | combined split' _ start' => exact eq_of_split split split' (start.trans start'.symm)
  | member split _ start =>
    cases h' with
    | member split' _ start' => exact eq_of_split split split' (start.trans start'.symm)
  | single split _ start free =>
    cases h' with
    | single split' _ start' _ => exact eq_of_split split split' (start.trans start'.symm)
    | lone split' kind comments _ start' =>
      obtain ⟨rfl, -⟩ := eq_of_split split (assoc split') (start.trans start'.symm)
      exact absurd (lastKind_paren before' kind comments) free
  | lone split kind comments _ start =>
    cases h' with
    | single split' _ start' free =>
      obtain ⟨rfl, -⟩ := eq_of_split split' (assoc split) (start'.trans start.symm)
      exact absurd (lastKind_paren before kind comments) free
    | @lone _ _ _ us' _ _ split' kind' comments' _ start' =>
      obtain ⟨same, -⟩ := eq_of_split (assoc split) (assoc split') (start.trans start'.symm)
      have tail := congrArg (List.rtakeWhile fun t => t.kind = .comment) same
      rw [List.append_cons, List.append_cons before',
        rtakeWhile_comments (by simp [kind]) comments,
        rtakeWhile_comments (by simp [kind']) comments'] at tail
      subst tail
      rw [List.append_cons, List.append_cons before'] at same
      obtain ⟨rfl, eq⟩ := List.append_inj' (List.append_cancel_right same) rfl
      exact ⟨rfl, (List.cons.inj eq).1⟩

end Declaration

/-- What is read from the row of a text is read from the text, but for its end. -/
theorem split_of_row {us vs : List Token}
    (row : Row.ofTokens (lex source) = Row.behind (us ++ t :: vs) s) (kind : t.kind ≠ .eof) :
    ∃ ws, lex source = us ++ t :: ws := by
  obtain ⟨ts, last, eq, others, terminal⟩ := lex_eq source
  have split : us ++ t :: vs = us ++ [t] ++ vs := by simp
  rw [eq, Row.ofTokens_eq others terminal, split, Row.behind_append] at row
  obtain ⟨ws, rfl, -⟩ := Row.prefix_of_behind terminal row (by simpa using kind)
  exact ⟨ws ++ [last], by rw [eq]; simp⟩

/-- What is described by the first tokens of a text is described by all of them. -/
theorem Declaration.Described.of_row (h : D.Described A F us)
    (row : Row.ofTokens (lex source) = Row.behind us s) : D.Described A F (lex source) := by
  obtain ⟨before, t, cs, opens, rest⟩ := h
  exact ⟨before, t, cs, opens.imp fun split kind => split_of_row (split ▸ row) kind, rest⟩

/-- What stands behind a token has a greater index. -/
theorem StandBehind.index_lt {pos : Pos} {c : Comment} (h : StandBehind pos cs us)
    (row : Row.ofTokens (lex source) = Row.behind us s) (mem : c ∈ cs) :
    pos.index < c.pos.index := by
  obtain ⟨before, t, after, rfl, rfl, inside⟩ := h
  obtain ⟨u, among, kind, rfl⟩ := mem_commentsOf.mp (inside mem)
  obtain ⟨vs, ws, rfl⟩ := List.append_of_mem among
  have assoc : before ++ t :: (vs ++ u :: ws) = before ++ t :: vs ++ u :: ws := by simp
  obtain ⟨rest, split⟩ := split_of_row (assoc ▸ row) (by simp [kind])
  exact index_lt_of_split split (by simp)

namespace Source

/-! ### Trees -/

/-- The comments of a tree and those that still float are comments of the text. -/
theorem add_loose_le {k : Tray} {found lost : Multiset Comment}
    (row : Row.ofTokens (lex source) = Row.behind us s)
    (kept : found + k.bag + lost = Tray.empty.bag + commentsOf us) :
    found + k.loose ≤ commentsOf (lex source) := by
  have loose : (k.loose : Multiset Comment) ≤ k.bag := by
    rw [Tray.bag, k.comments_eq, ← Multiset.coe_add]
    exact Multiset.le_add_right _ _
  calc found + k.loose ≤ found + k.bag := add_le_add_right loose _
    _ ≤ found + k.bag + lost := Multiset.le_add_right _ _
    _ = commentsOf us := by rw [kept, show Tray.empty.bag = 0 from rfl, zero_add]
    _ ≤ commentsOf (lex source) := commentsOf_le row

/-- All that a tree declares is described by the comments before it.  Of these only such do not
count as trail a part further up; what describes, floats or is left over does not trail anything. -/
theorem Yields.described_in (h : Yields source options n) : ∃ A F : List Comment,
    (∀ c ∈ A, ∃ m ∈ n.walk, c ∈ m.trailing ∧ m.pos.index < c.pos.index) ∧
    n.bag + F ≤ commentsOf (lex source) ∧
    ∀ D ∈ n.declarations, D.Described A (n.walk.flatMap Node.upright ++ F) (lex source) := by
  have start : Tray.empty.Awaits [] [] := .of_empty (.nil []) rfl
  have upright : ∀ {n m : Node}, m ∈ n.walk → m.upright ⊆ n.walk.flatMap Node.upright :=
    fun mem c inside => List.mem_flatMap.mpr ⟨_, mem, inside⟩
  cases h with
  | @rule d h =>
    obtain ⟨k, s, g⟩ := session_eq_ok_iff.mp h
    obtain ⟨us, row, described, -, -⟩ := Read.rule_described g start nofun
    obtain ⟨vs, ms, row', account⟩ :=
      Read.rule_reads g (Row.final_ofTokens source) (K := none) rfl rfl
    refine ⟨[], k.loose, nofun, ?_, fun D mem => ((described D mem).of_row row).loose
      (List.subset_append_right _ _)⟩
    exact add_loose_le row' account.kept
  | @ruleset x h =>
    obtain ⟨k, s, g⟩ := session_eq_ok_iff.mp h
    obtain ⟨us, row, -, all⟩ := Read.ruleset_described g (.nil [])
    obtain ⟨vs, ms, row', -, -, account⟩ := Read.ruleset_reads g (Row.final_ofTokens source) none
    have self := Node.self_mem_walk (.ruleset x)
    refine ⟨(Node.ruleset x).trailing, k.loose,
      fun c mem => ⟨_, self, mem, all.behind.index_lt row mem⟩, ?_,
      fun D mem => ((all.all D mem).of_row row).loose ?_⟩
    · exact add_loose_le row' account.kept
    · exact List.append_subset.mpr ⟨List.subset_append_right _ _,
        List.subset_append_of_subset_left _ (upright self)⟩
  | @file name f h =>
    have le := (Yields.file h).bag_le
    rw [result_file] at h
    obtain ⟨k, s, g⟩ := session_eq_ok_iff.mp h
    obtain ⟨all, loop, rfl⟩ := Read.file_gives.mp g
    obtain ⟨us, row, described⟩ := Read.rulesetsLoop_described loop (Row.Remains.of_lex source)
      (.nil _) (.nil _)
    have self := Node.self_mem_walk (.file ⟨name, k.floating, all⟩)
    have listed : ∀ x ∈ all, .ruleset x ∈ (Node.file ⟨name, k.floating, all⟩).walk := fun x mem =>
      Node.children_subset_walk self (by simp [Node.children, Node.inOrder, mem])
    -- what trails one ruleset may stand right before the next one
    refine ⟨all.flatMap fun x => (Node.ruleset x).trailing, [], fun c mem => ?_, by simpa using le,
      fun D mem => ?_⟩
    · obtain ⟨x, mem, inside⟩ := List.mem_flatMap.mp mem
      exact ⟨_, listed x mem, inside, (described.behind x mem).index_lt row inside⟩
    · obtain ⟨x, mem, declared⟩ := List.mem_flatMap.mp mem
      refine ((described.all x mem D declared).of_row row).loose ?_
      rw [List.append_nil]
      refine List.append_subset.mpr ⟨upright self, fun c mem => ?_⟩
      obtain ⟨x, mem, inside⟩ := List.mem_flatMap.mp mem
      exact upright (listed x mem) inside

/-- The comments that trail a part of the tree which starts before the token `t`. -/
def trailingBefore (n : Node) (t : Token) : List Comment :=
  (n.walk.filter fun m => m.pos.index < t.start.index).flatMap Node.trailing

/-- A comment trails before a token when it trails some part that starts before it. -/
theorem mem_trailingBefore {c : Comment} : c ∈ trailingBefore n t ↔
    ∃ m ∈ n.walk, m.pos.index < t.start.index ∧ c ∈ m.trailing := by
  simp [trailingBefore, and_assoc]

/-- What comes right before a declaration that starts with the token `t`, behind the tokens
`before`: the comments there, but for those that trail a part further up. -/
def leading (n : Node) (before : List Token) (t : Token) : List Comment :=
  (commentsOf (before.rtakeWhile fun u => u.kind = .comment)).filter (· ∉ trailingBefore n t)

/-- What stands right before a declaration, when comments that trail come first. -/
theorem leading_eq (split : lex source = before ++ t :: after) (ends : EndsIn A before cs)
    (trail : ∀ c ∈ A, ∃ m ∈ n.walk, c ∈ m.trailing ∧ m.pos.index < c.pos.index)
    (apart : ∀ c ∈ cs, ∀ m ∈ n.walk, c ∉ m.trailing) : leading n before t = cs := by
  obtain ⟨base, us, vs, rfl, solid, comments, old, rfl⟩ := ends
  have first : ∀ c ∈ us.map Comment.ofToken, c ∈ trailingBefore n t := by
    intro c mem
    obtain ⟨m, listed, trails, lt⟩ := trail c (old mem)
    obtain ⟨u, among, rfl⟩ := List.mem_map.mp mem
    have lt' := index_lt_of_split split (u := u) (by simp [among])
    exact mem_trailingBefore.mpr ⟨m, listed, lt.trans lt', trails⟩
  have rest : ∀ c ∈ vs.map Comment.ofToken, c ∉ trailingBefore n t := fun c mem trails =>
    let ⟨m, listed, _, trails⟩ := mem_trailingBefore.mp trails
    apart c mem m listed trails
  rw [leading, rtakeWhile_comments solid comments, commentsOf_eq_map comments, List.map_append,
    List.filter_append, List.filter_eq_nil_iff.mpr fun c mem => by simpa using first c mem,
    List.filter_eq_self.mpr fun c mem => by simpa using rest c mem, List.nil_append]

/-- All that a tree declares has the description that the comments before it give. -/
theorem Yields.exists_opens (h : Yields source options n) (mem : D ∈ n.declarations) :
    ∃ before t, D.Opens (lex source) before t ∧
      Describes (leading n before t) t.start.line D.description := by
  obtain ⟨A, F, trail, le, described⟩ := h.described_in
  obtain ⟨before, t, cs, opens, ends, describes, inside⟩ := described D mem
  refine ⟨before, t, opens, ?_⟩
  obtain ⟨after, split⟩ := opens.split
  rwa [leading_eq split ends trail fun c of_cs m listed trails => ?_]
  -- a comment that describes or floats would be twice in the text if it also trailed a part
  have other : n.isRemark = false := by cases h <;> rfl
  rw [n.bag_eq_shares other, Multiset.coe_add, Multiset.coe_add] at le
  have nodup := Multiset.nodup_of_le le (Multiset.coe_nodup.mpr (nodup_commentsOf_lex source))
  rw [Multiset.coe_nodup, List.append_assoc] at nodup
  refine (List.nodup_append.mp nodup).2.2 c (List.mem_flatMap.mpr ⟨m, listed, trails⟩) c ?_ rfl
  rcases List.mem_append.mp (inside of_cs) with own | floats
  · exact List.mem_append_left _ (List.mem_flatMap.mpr
      ⟨D.node, Node.node_mem_walk mem, Node.description_subset D own⟩)
  · exact floats

/-- **Descriptions are the comments right before a declaration.**  Each ruleset, rule and combined
rule of a tree is a declaration and has a first token.  It has a description when the comments right
before that token end on the line above, and then that is the longest end of them on lines that
follow each other; comments that trail a part further up do not count. -/
theorem Yields.described_by_leading (h : Yields source options n) :
    (∀ m ∈ n.walk, m.declares → ∃ D ∈ n.declarations, D.node = m) ∧
      ∀ D ∈ n.declarations, (∃ before t, D.Opens (lex source) before t) ∧
        ∀ before t, D.Opens (lex source) before t →
          Describes (leading n before t) t.start.line D.description := by
  refine ⟨fun m => Node.exists_declaration, fun D mem => ?_⟩
  obtain ⟨before, t, opens, describes⟩ := h.exists_opens mem
  refine ⟨⟨before, t, opens⟩, fun before' t' opens' => ?_⟩
  obtain ⟨rfl, rfl⟩ := opens.unique opens'
  exact describes

/-- Comments with a gap before a ruleset, one that trails its bracket, and some before a rule,
before a combined rule and before one between its parentheses. -/
def stackedText : String :=
  "# a\n\n# b\n# c\nRules = [ # d\n# e\nA,\n# f\n(# g\nB) and (C)\n] # h"

/-- In such a text there are declarations with a description and some with none. -/
theorem Yields.described_by_leading_stackedText : ∃ n, Yields stackedText Options.default n ∧
    (∃ D ∈ n.declarations, D.description.isSome) ∧ (∃ D ∈ n.declarations, D.description.isNone) ∧
    (∀ m ∈ n.walk, m.declares → ∃ D ∈ n.declarations, D.node = m) ∧
      ∀ D ∈ n.declarations, (∃ before t, D.Opens (lex stackedText) before t) ∧
        ∀ before t, D.Opens (lex stackedText) before t →
          Describes (leading n before t) t.start.line D.description := by
  obtain ⟨f, read, some, none⟩ : ∃ f,
      (Source.file "f" stackedText Options.default).result = .ok f ∧
        (∃ D ∈ (Node.file f).declarations, D.description.isSome) ∧
        (∃ D ∈ (Node.file f).declarations, D.description.isNone) :=
    Outcome.exists_ok (by decide +kernel)
  exact ⟨_, .file read, some, none, Yields.described_by_leading (.file read)⟩

end Source

end QualityRules
