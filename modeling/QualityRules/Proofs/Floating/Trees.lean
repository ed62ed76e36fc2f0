import QualityRules.Proofs.Described.Trees
import QualityRules.Proofs.Floating.Rulesets
import QualityRules.Proofs.Order.Layout
import QualityRules.Proofs.Spans

/-!
# Proofs — Floating — Trees

What floats in a tree, and what describes, are comments that follow each other in the text.

* `FloatIn`: groups that stand in a text one behind the other, each in one piece.
* `Source.file_floats`: so do the groups that float in a file, outside of its rulesets, and those
  that float in a ruleset, between its brackets.
* `Comment.SharesLine`: a token that is no comment ends on the line of a comment, before it.
* `Source.Yields.sharesLine_iff`: a comment of a description has its line to itself, unless it is the
  first one and stands right behind a comma or an opening parenthesis.
-/

namespace QualityRules

variable {source : String} {options : Options} {n : Node} {us ws : List Token} {t u : Token}
  {gs : List CommentGroup} {g : CommentGroup} {x : Ruleset} {s : Row}

/-! ### Comments of a text -/

/-- A token that stands at the start of a row of the text is one of the text. -/
theorem mem_lex_of_row (row : Row.ofTokens (lex source) = Row.behind us s) (mem : t ∈ us) :
    t ∈ lex source := by
  obtain ⟨ts, last, eq, others, terminal⟩ := lex_eq source
  rw [eq, Row.ofTokens_eq others terminal] at row
  obtain ⟨n, first, -⟩ := Row.prefix_of_ending terminal row
  rw [eq]
  rcases List.mem_append.mp (first.subset mem) with inner | outer
  · exact List.mem_append_left _ inner
  · simp [(List.mem_replicate.mp outer).2]

/-- Of the tokens that a reader takes none starts before those before it stop. -/
theorem pairwise_stop_of_row (row : Row.ofTokens (lex source) = Row.behind us s) :
    us.Pairwise fun t u => t.stop.index ≤ u.start.index :=
  pairwise_of_row row (pairwise_stop_lex source) fun t mem isEnd => by
    obtain ⟨start, stop⟩ := index_of_eof mem isEnd
    omega

/-- Between two comments there is at least a line break. -/
theorem pairwise_commentsOf_lex (source : String) :
    (commentsOf (lex source)).Pairwise fun c d => c.stop.index < d.pos.index := by
  rw [commentsOf, List.pairwise_map]
  refine ((pairwise_stop_lex source).filter _).imp_of_mem fun {t u} mem mem' le => ?_
  obtain ⟨mem, kind⟩ := List.mem_filter.mp mem
  obtain ⟨mem', kind'⟩ := List.mem_filter.mp mem'
  have kind : t.kind = .comment := by simpa using kind
  have kind' : u.kind = .comment := by simpa using kind'
  rw [index_stop_ofToken mem kind]
  exact (stop_lt_start_of_comment mem mem' kind (by simp [kind']) le).1

/-- A stack that a reader takes is in one piece in the text. -/
theorem StackOf.split_of_row {before after : List Token} (stack : StackOf us g.comments)
    (row : Row.ofTokens (lex source) = Row.behind (before ++ us ++ after) s) :
    ∃ ws, lex source = before ++ us ++ ws := by
  have some : us ≠ [] := fun none => g.ne_nil (stack.eq_nil_iff.mpr none)
  obtain ⟨vs, u, rfl⟩ := (List.eq_nil_or_concat' us).resolve_left some
  have kind : u.kind = .comment := stack.kind u (by simp)
  have split : before ++ (vs ++ [u]) ++ after = before ++ vs ++ u :: after := by simp
  rw [split] at row
  obtain ⟨ws, eq⟩ := QualityRules.split_of_row row (by simp [kind])
  exact ⟨ws, by simp [eq]⟩

/-! ### What floats -/

/-- The groups stand in the text one behind the other.  The comments of each follow each other among
the tokens, and each stands on the line below the one before. -/
structure FloatIn (source : String) (gs : List CommentGroup) : Prop where
  inOrder : gs.Pairwise fun a b => a.stop.index < b.pos.index
  together : ∀ g ∈ gs, ∃ us, us <:+: lex source ∧ StackOf us g.comments

/-- Groups that float among tokens of a text float in the text. -/
theorem Floats.floatIn (h : Floats us gs) (row : Row.ofTokens (lex source) = Row.behind us s) :
    FloatIn source gs where
  inOrder :=
    have order := (pairwise_commentsOf_lex source).sublist (Row.commentsOf_sublist_lex row)
    (h.pairwise order).imp fun {a b} apart =>
      apart _ (List.getLast_mem a.ne_nil) _ (List.head_mem b.ne_nil)
  together := by
    intro g mem
    obtain ⟨before, stack, after, rfl, is⟩ := h.exists_stack mem
    obtain ⟨ws, eq⟩ := is.split_of_row row
    exact ⟨stack, ⟨before, ws, eq.symm⟩, is⟩

/-- But for the comments that trail it, a ruleset ends where its closing bracket stops. -/
theorem Ruleset.index_bare_stop (mem : t ∈ lex source) (kind : t.kind = .rightBracket)
    (closes : t.start = x.rightBracket) : x.bare.stop.index = t.stop.index := by
  have text := text_eq_display mem kind rfl fun _ => id
  rw [index_stop_of_mem_lex mem (by rw [kind]; rfl), text, closes]
  rfl

/-- A ruleset starts with the first of its tokens and ends with the last. -/
theorem Ruleset.Reaches.span {ts : List Token} (h : x.Reaches ts) (inside : ts ⊆ lex source) :
    (∃ t ∈ ts, x.declPos = t.start) ∧ ∃ t ∈ ts, x.stop.index = t.stop.index := by
  cases h with
  | @mk body trail word right starts kind closes trailed =>
    have mem : right ∈ lex source := inside (by simp)
    obtain ⟨u, last, eq⟩ := trailed.index_stop
      (fun t mem => inside (List.mem_cons_of_mem _ (List.mem_append_right _ (.tail _ mem))))
      (Ruleset.index_bare_stop mem kind closes)
    have among : u ∈ right :: trail := List.mem_of_mem_getLast? last
    exact ⟨⟨word, List.mem_cons_self, starts.symm⟩, u,
      List.mem_cons_of_mem _ (List.mem_append_right _ among), eq⟩

/-- What is among some tokens starts with one of them and ends with one of them. -/
theorem Node.Among.span {n : Node} (h : n.Among ws) (inside : ws ⊆ lex source) :
    (∃ t ∈ ws, n.pos.index = t.start.index) ∧ ∃ t ∈ ws, n.stop.index = t.stop.index := by
  cases n with
  | group g =>
    obtain ⟨t, first, -, pos⟩ := mem_commentsOf.mp (h (List.head_mem g.ne_nil))
    obtain ⟨u, last, kind, stop⟩ := mem_commentsOf.mp (h (List.getLast_mem g.ne_nil))
    refine ⟨⟨t, first, ?_⟩, u, last, ?_⟩
    · rw [Node.pos, CommentGroup.pos, ← pos]
      rfl
    · rw [Node.stop, CommentGroup.stop, ← stop, index_stop_ofToken (inside last) kind]
  | ruleset x =>
    obtain ⟨ts, row, reaches⟩ := h
    obtain ⟨⟨t, first, pos⟩, u, last, stop⟩ := reaches.span fun t mem => inside (row.subset mem)
    exact ⟨⟨t, row.subset first, congrArg Pos.index pos⟩, u, row.subset last, stop⟩
  | _ => exact h.elim

/-- What stands before or behind the tokens of a ruleset stands before or behind the ruleset. -/
theorem Ruleset.Reaches.outside {before ts after : List Token} (h : x.Reaches ts)
    (row : Row.ofTokens (lex source) = Row.behind (before ++ ts ++ after) s)
    (outside : g.comments ⊆ commentsOf before ∨ g.comments ⊆ commentsOf after) :
    g.stop.index ≤ x.declPos.index ∨ x.stop.index ≤ g.pos.index := by
  have inside : ∀ t ∈ before ++ ts ++ after, t ∈ lex source := fun t => mem_lex_of_row row
  obtain ⟨⟨word, first, start⟩, last, among, stop⟩ :=
    h.span fun t mem => inside t (by simp [mem])
  have apart := pairwise_stop_of_row row
  rw [List.append_assoc] at apart
  obtain ⟨-, behind, outer⟩ := List.pairwise_append.mp apart
  rcases outside with old | new
  · have old : (Node.group g).Among before := old
    obtain ⟨-, u, mem, eq⟩ := old.span fun t mem => inside t (by simp [mem])
    have le := outer u mem word (List.mem_append_left _ first)
    rw [← start] at le
    exact .inl (eq.trans_le le)
  · have new : (Node.group g).Among after := new
    obtain ⟨⟨u, mem, eq⟩, -⟩ := new.span fun t mem => inside t (by simp [mem])
    have le := (List.pairwise_append.mp behind).2.2 last among u mem
    rw [← stop] at le
    exact .inr (le.trans_eq eq.symm)

/-- What floats between the brackets of a ruleset stands between them in the text. -/
theorem Ruleset.LaidOut.between {ts : List Token} (h : x.LaidOut ts) (inside : ts <:+: lex source)
    (mem : g ∈ x.innerComments) :
    x.leftBracket.index < g.pos.index ∧ g.stop.index < x.rightBracket.index := by
  cases h with
  | @mk header between trail left right opens _ _ _ inner kind closes _ =>
    have all := inside.subset
    have starts : (left :: (header ++ (between ++ right :: trail))).Pairwise
        fun t u => t.start.index < u.start.index :=
      (Scanner.pairwise_start _).sublist inside.sublist
    have stops := (pairwise_stop_lex source).sublist inside.sublist
    have own := (inner g mem).subset
    obtain ⟨u, among, -, eq⟩ := mem_commentsOf.mp (own (List.head_mem g.ne_nil))
    obtain ⟨v, among', kind', eq'⟩ := mem_commentsOf.mp (own (List.getLast_mem g.ne_nil))
    constructor
    · rw [CommentGroup.pos, ← eq, ← opens]
      exact (List.pairwise_cons.mp starts).1 u (by simp [among])
    · have behind := (List.pairwise_append.mp (List.pairwise_cons.mp stops).2).2.1
      have le := (List.pairwise_append.mp behind).2.2 v among' right List.mem_cons_self
      have mem_v : v ∈ lex source := all (by simp [among'])
      rw [CommentGroup.stop, ← eq', index_stop_ofToken mem_v kind', ← closes]
      exact (stop_lt_start_of_comment mem_v (all (by simp)) kind' (by simp [kind]) le).1

namespace Source

/-- The rulesets of a file are in order with what floats. -/
theorem exists_inOrder {name : String} {f : RuleFile}
    (read : (Source.file name source options).result = .ok f) :
    ∃ us s, Row.ofTokens (lex source) = Row.behind us s ∧ InOrder f.commentGroups us f.rulesets := by
  rw [result_file] at read
  obtain ⟨k, s, g⟩ := session_eq_ok_iff.mp read
  obtain ⟨all, loop, rfl⟩ := Read.file_gives.mp g
  obtain ⟨us, row, inOrder⟩ := Read.rulesetsLoop_inOrder loop (Row.Remains.of_lex source)
    (Row.linedBehind_lex source) (.nil _) (.nil [])
  exact ⟨us, s, row, inOrder⟩

/-- **What floats is in order.**  The groups that float in a file come in the order of the text, and
so do those of each ruleset; each of them are comments that follow each other among the tokens, one
line below the other.  Those of a ruleset stand between its brackets, those of the file outside of
all rulesets. -/
theorem file_floats {name : String} {f : RuleFile}
    (read : (Source.file name source options).result = .ok f) :
    FloatIn source f.commentGroups ∧ ∀ x ∈ f.rulesets, FloatIn source x.innerComments ∧
      (∀ g ∈ x.innerComments, x.leftBracket.index < g.pos.index ∧
        g.stop.index < x.rightBracket.index) ∧
      ∀ g ∈ f.commentGroups, g.stop.index ≤ x.declPos.index ∨ x.stop.index ≤ g.pos.index := by
  obtain ⟨us, s, row, inOrder⟩ := exists_inOrder read
  refine ⟨inOrder.floating.floatIn row, fun x listed =>
    ⟨(inOrder.inner x listed).floatIn row, fun g mem => ?_, fun g mem => ?_⟩⟩
  · have walked : .ruleset x ∈ (Node.file f).walk :=
      Node.children_subset_walk (Node.self_mem_walk _) (by simp [Node.children, Node.inOrder, listed])
    obtain ⟨ts, inside, laid⟩ := (Yields.file read).laidOut walked
    exact laid.between inside mem
  · obtain ⟨before, ts, after, rfl, reaches, outside⟩ := inOrder.apart x listed
    exact reaches.outside row (outside g mem)

/-- Comments that float before, in, between and behind rulesets, some of them astray in a rule. -/
def driftingText : String :=
  "# a\n\n# b\n\nRules = [\n# c\n\n# d\n\nA 1 # e\n# f\n# g\n, B\n# h\n]\n# i\n\nRules = [C] # j\n\n# k"

/-- In such a file four groups float outside of the rulesets and four in one of them. -/
theorem file_floats_driftingText : ∃ f : RuleFile,
    (Source.file "f" driftingText Options.default).result = .ok f ∧
      f.commentGroups.length = 4 ∧ (∃ x ∈ f.rulesets, x.innerComments.length = 4) ∧
      FloatIn driftingText f.commentGroups ∧ ∀ x ∈ f.rulesets, FloatIn driftingText x.innerComments ∧
        (∀ g ∈ x.innerComments, x.leftBracket.index < g.pos.index ∧
          g.stop.index < x.rightBracket.index) ∧
        ∀ g ∈ f.commentGroups, g.stop.index ≤ x.declPos.index ∨ x.stop.index ≤ g.pos.index := by
  obtain ⟨f, read, outer, inner⟩ : ∃ f : RuleFile,
      (Source.file "f" driftingText Options.default).result = .ok f ∧
        f.commentGroups.length = 4 ∧ ∃ x ∈ f.rulesets, x.innerComments.length = 4 :=
    Outcome.exists_ok (by decide +kernel)
  exact ⟨f, read, outer, inner, file_floats read⟩

end Source

/-! ### What describes -/

/-- A token that is no comment ends on the line of the comment `c`, before it. -/
def Comment.SharesLine (source : String) (c : Comment) : Prop :=
  ∃ t ∈ lex source, t.kind ≠ .comment ∧ t.stop.line = c.pos.line ∧ t.stop.index ≤ c.pos.index

instance (source : String) (c : Comment) : Decidable (c.SharesLine source) :=
  inferInstanceAs (Decidable (∃ t ∈ lex source, _))

/-- The comment `c` is the first of a group, and right before it a comma or an opening parenthesis
stands on its line. -/
def CommentGroup.StartsBehind (source : String) (g : CommentGroup) (c : Comment) : Prop :=
  g.comments.head? = some c ∧ ∃ before p u after, lex source = before ++ p :: u :: after ∧
    Comment.ofToken u = c ∧ (p.kind = .comma ∨ p.kind = .leftParen) ∧ p.start.line = c.pos.line

/-- What is said of a description among the tokens that were read holds in the text. -/
theorem Headed.of_row {description : Option CommentGroup} (h : Headed us description)
    (row : Row.ofTokens (lex source) = Row.behind us s) : Headed (lex source) description := by
  intro g mem
  obtain ⟨before, stack, after, rfl, is, spared⟩ := h g mem
  obtain ⟨ws, eq⟩ := is.split_of_row row
  exact ⟨before, stack, ws, eq, is, spared⟩

/-- What stops before a token starts is one of those before it. -/
theorem mem_of_stop_le {before after : List Token} {v : Token}
    (split : lex source = before ++ u :: after) (mem : v ∈ lex source) (ne : v ≠ u)
    (le : v.stop.index ≤ u.start.index) : v ∈ before := by
  have starts := pairwise_start_lex source
  have within := start_le_stop_of_mem_lex mem
  rw [split] at starts mem
  rcases List.mem_append.mp mem with first | rest
  · exact first
  · obtain eq | behind := List.mem_cons.mp rest
    · exact absurd eq ne
    · have lt := (List.pairwise_cons.mp (List.pairwise_append.mp starts).2.1).1 v behind
      omega

/-- What stops on the line of a comment before it does not stand above the token `p` right before
the comment, and `p` is no comment. -/
theorem line_eq_of_stop_line {before after : List Token} {p v : Token}
    (split : lex source = before ++ p :: u :: after) (kind : u.kind = .comment)
    (mem : v ∈ before ++ [p]) (solid : v.kind ≠ .comment) (line : v.stop.line = u.start.line) :
    p.kind ≠ .comment ∧ p.kind.isTerminal = false ∧
      (p.kind ≠ .string → p.start.line = u.start.line) := by
  have inside : ∀ t ∈ before ++ p :: u :: after, t ∈ lex source := fun t mem => split ▸ mem
  have stops := pairwise_stop_lex source
  have lined := lined_lex source
  rw [split] at stops lined
  have next : p.Leads u := (List.pairwise_cons.mp lined.right).1 u List.mem_cons_self
  have going : p.kind.isTerminal = false := by
    by_contra terminal
    simpa [kind, Kind.isTerminal] using next.ends (by simpa using terminal)
  have mem_p : p ∈ lex source := inside p (by simp)
  rcases List.mem_append.mp mem with above | last
  · have le := line_stop_le_of_mem_lex (inside v (by simp [above])) mem_p
      ((List.pairwise_append.mp stops).2.2 v above p List.mem_cons_self)
    have same : p.start.line = u.start.line := by
      have := next.le
      omega
    refine ⟨fun comment => ?_, going, fun _ => same⟩
    have := next.lt comment (by simp [kind])
    omega
  · obtain rfl := List.mem_singleton.mp last
    exact ⟨solid, going, fun plain => (line_stop_of_mem_lex mem_p going plain).symm.trans line⟩

namespace CommentGroup.StartsBehind

variable {c : Comment}

/-- Behind a comma or a parenthesis on its line the comment shares it. -/
theorem sharesLine (h : g.StartsBehind source c) : c.SharesLine source := by
  obtain ⟨-, before, p, u, after, split, rfl, kind, line⟩ := h
  have mem : p ∈ lex source := by rw [split]; simp
  have solid : p.kind ≠ .comment ∧ p.kind ≠ .string ∧ p.kind.isTerminal = false := by
    rcases kind with kind | kind <;> simp [kind, Kind.isTerminal]
  have stops := pairwise_stop_lex source
  rw [split] at stops
  exact ⟨p, mem, solid.1, (line_stop_of_mem_lex mem solid.2.2 solid.2.1).trans line,
    (List.pairwise_cons.mp (List.pairwise_append.mp stops).2.1).1 u List.mem_cons_self⟩

end CommentGroup.StartsBehind

/-- A comment of a description that does not have its line to itself is the first one and stands
right behind a comma or an opening parenthesis. -/
theorem Headed.startsBehind {description : Option CommentGroup} {c : Comment}
    (h : Headed (lex source) description) (mem : g ∈ description) (inside : c ∈ g.comments)
    (shares : c.SharesLine source) : g.StartsBehind source c := by
  obtain ⟨before, stack, after, split, is, spared⟩ := h g mem
  obtain ⟨v, mem_v, solid, line, le⟩ := shares
  rw [is.made] at inside
  obtain ⟨u, among, rfl⟩ := List.mem_map.mp inside
  have kind := is.kind u among
  obtain ⟨above, below, rfl⟩ := List.append_of_mem among
  have parts : lex source = before ++ above ++ u :: (below ++ after) := by simp [split]
  -- the token `v` stands before `u`, so there is one right before `u`
  have first : v ∈ before ++ above :=
    mem_of_stop_le parts mem_v (fun eq => solid (eq ▸ kind)) le
  obtain ⟨vs, p, eq⟩ := (List.eq_nil_or_concat' (before ++ above)).resolve_left
    (List.ne_nil_of_mem first)
  rw [eq] at first parts
  rw [List.append_assoc] at parts
  obtain ⟨other, going, same⟩ := line_eq_of_stop_line parts kind first solid line
  -- no comment stands right before `u`, so `u` is the first of the description
  obtain rfl : above = [] := by
    by_contra some
    have last := congrArg List.getLast? eq
    rw [List.getLast?_append_of_ne_nil _ some, List.getLast?_concat] at last
    exact other (is.kind p (List.mem_append_left _ (List.mem_of_getLast? last)))
  have last : p ∈ before.getLast? := by
    rw [← List.append_nil before, eq]
    exact List.getLast?_concat
  refine ⟨by simp [is.made], vs, p, u, below ++ after, parts, rfl, ?_⟩
  rcases spared p last u rfl with comment | comma | paren | isEnd | ⟨plain, apart⟩
  · exact absurd comment other
  · exact ⟨.inl comma, same (by simp [comma])⟩
  · exact ⟨.inr paren, same (by simp [paren])⟩
  · simp [isEnd, Kind.isTerminal] at going
  · exact absurd (same plain) apart

namespace Source

/-- All that a tree declares has comments in a row for its description, and what stands right before
them spares the first. -/
theorem Yields.headed (h : Yields source options n) :
    ∀ D ∈ n.declarations, Headed (lex source) D.description := by
  have lined := Row.linedBehind_lex source
  cases h with
  | @rule d h =>
    obtain ⟨k, s, g⟩ := session_eq_ok_iff.mp h
    obtain ⟨us, row, headed, -⟩ :=
      Read.rule_headed g lined (.of_empty (.start [] _ []) rfl (.nil _))
    exact fun D mem => (headed D mem).of_row row
  | @ruleset x h =>
    obtain ⟨k, s, g⟩ := session_eq_ok_iff.mp h
    obtain ⟨us, row, inOrder⟩ := Read.ruleset_inOrder g lined (.nil _)
    exact fun D mem => (inOrder.headed D mem).of_row row
  | @file name f h =>
    obtain ⟨us, s, row, inOrder⟩ := exists_inOrder h
    intro D mem
    obtain ⟨x, listed, declared⟩ := List.mem_flatMap.mp mem
    exact (inOrder.headed x listed D declared).of_row row

/-- **When a comment of a description has its line to itself.**  Each ruleset, rule and combined rule
of a tree is a declaration.  On the line of a comment that describes one, another token ends before
that comment just if it is the first comment of the description and a comma or an opening
parenthesis stands right before it on its line. -/
theorem Yields.sharesLine_iff (h : Yields source options n) :
    (∀ m ∈ n.walk, m.declares → ∃ D ∈ n.declarations, D.node = m) ∧
      ∀ D ∈ n.declarations, ∀ g ∈ D.description, ∀ c ∈ g.comments,
        c.SharesLine source ↔ g.StartsBehind source c :=
  ⟨fun _ => Node.exists_declaration, fun D mem _ described _ inside =>
    ⟨(h.headed D mem).startsBehind described inside, CommentGroup.StartsBehind.sharesLine⟩⟩

/-- A comment behind a comma, which stands on its line but describes the rule on the next one. -/
def commaText : String := "Rules = [A, # c\nB,\n# d\nC]"

/-- The comment behind the comma is the one that shares its line. -/
theorem Yields.sharesLine_iff_commaText : ∃ n, Yields commaText Options.default n ∧
    (∃ D ∈ n.declarations, D.description.isSome) ∧
    (∀ m ∈ n.walk, m.declares → ∃ D ∈ n.declarations, D.node = m) ∧
      ∀ D ∈ n.declarations, ∀ g ∈ D.description, ∀ c ∈ g.comments,
        c.SharesLine commaText ↔ g.StartsBehind commaText c := by
  obtain ⟨f, read, some⟩ : ∃ f, (Source.file "f" commaText Options.default).result = .ok f ∧
      ∃ D ∈ (Node.file f).declarations, D.description.isSome :=
    Outcome.exists_ok (by decide +kernel)
  exact ⟨_, .file read, some, Yields.sharesLine_iff (.file read)⟩

/-- Not every comment of a description has its line to itself. -/
theorem exists_sharesLine_commaText : ∃ n, Yields commaText Options.default n ∧
    ∃ D ∈ n.declarations, ∃ g ∈ D.description, ∃ c ∈ g.comments, c.SharesLine commaText := by
  obtain ⟨f, read, shared⟩ : ∃ f, (Source.file "f" commaText Options.default).result = .ok f ∧
      ∃ D ∈ (Node.file f).declarations, ∃ g ∈ D.description, ∃ c ∈ g.comments,
        c.SharesLine commaText :=
    Outcome.exists_ok (by decide +kernel)
  exact ⟨_, .file read, shared⟩

end Source

end QualityRules
