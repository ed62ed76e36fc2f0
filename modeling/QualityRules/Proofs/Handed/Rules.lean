import QualityRules.Proofs.Declared
import QualityRules.Proofs.Handed.Parts

/-!
# Proofs — Handed — Rules

The comments that a rule takes over are one block: as soon as one is taken over, the line of the
rule's type is left, and nothing further down is asked for.  The block starts on that line, or it
trails a token further down for which the one before, on that line, spoke.

* `Aligned`: comments one below the other, in one column.
* `Comment.TrailsLate`: a comment trails a token that was spoken for from a line above.
* `Handed.isBlock`: what is taken over is one such block.
* `Read.lead_hands`: the comments of a rule are taken over from the tokens behind its type.
* `Source.Yields.trailsLate_iff`: the first comment of a rule stands on the line of its type unless
  it trails late.
-/

namespace QualityRules

open CommentGroup (listOf)

variable {source : String} {line : Int} {ts us : List Token} {cs : List Comment} {t u : Token}
  {c : Comment} {anchor : Pos}

/-! ### Blocks -/

/-- Each of the comments stands on the line below the one before, in the same column. -/
def Aligned (cs : List Comment) : Prop :=
  cs.IsChain fun c d => c.pos.line + 1 = d.pos.line ∧ c.pos.column = d.pos.column

instance (cs : List Comment) : Decidable (Aligned cs) :=
  inferInstanceAs (Decidable (cs.IsChain _))

/-- Among the tokens `ts` the comment `c` trails a token that does not stand on the line, and the
token right before that one does and speaks for it. -/
def Comment.TrailsLate (ts : List Token) (line : Int) (c : Comment) : Prop :=
  ∃ before p q u after, ts = before ++ p :: q :: u :: after ∧ u.kind = .comment ∧
    Comment.ofToken u = c ∧ p.SpeaksFor q ∧ p.start.line = line ∧ q.start.line = c.pos.line ∧
    q.start.line ≠ line

/-- A comment trails late among more tokens, too. -/
theorem Comment.TrailsLate.append (h : c.TrailsLate ts line) (before after : List Token) :
    c.TrailsLate (before ++ ts ++ after) line := by
  obtain ⟨ws, p, q, u, vs, rfl, trails⟩ := h
  exact ⟨before ++ ws, p, q, u, vs ++ after, by simp, trails⟩

/-- A comment that trails late among the first tokens of a text does so in the text. -/
theorem Comment.TrailsLate.of_row {s : Row} (h : c.TrailsLate us line)
    (row : Row.ofTokens (lex source) = Row.behind us s) : c.TrailsLate (lex source) line := by
  obtain ⟨before, p, q, u, after, rfl, kind, trails⟩ := h
  have split : before ++ p :: q :: u :: after = before ++ [p, q] ++ u :: after := by simp
  obtain ⟨ws, eq⟩ := split_of_row (split ▸ row) (by simp [kind])
  exact ⟨before, p, q, u, ws, by simp [eq], kind, trails⟩

/-- The end of the text speaks for no token. -/
theorem Token.SpeaksFor.kind_ne {p q : Token} (h : p.SpeaksFor q) : p.kind ≠ .eof := by
  rcases h with sign | ⟨word, -⟩
  · intro isEnd
    simp [isEnd, Kind.isComparison] at sign
  · simp [word]

namespace Read.Block

/-- A block starts on the line of the token that it trails. -/
theorem first (h : Block anchor [] (u :: us)) :
    u.kind = .comment ∧ u.start.line = anchor.line := by
  simpa [extendsBlock] using h.1

/-- A block behind a comment is aligned with it. -/
theorem aligned_behind (h : Block anchor (cs ++ [Comment.ofToken t]) us) (lined : Lined (t :: us))
    (kind : t.kind = .comment) (le : anchor.line ≤ t.start.line) :
    Aligned (Comment.ofToken t :: us.map Comment.ofToken) := by
  induction us generalizing cs t with
  | nil => exact .singleton _
  | cons u us ih =>
    obtain ⟨goes, rest⟩ := h
    obtain ⟨leads, behind⟩ := List.pairwise_cons.mp lined
    have other : u.kind = .comment := kind_of_extendsBlock goes
    have lt := (leads u List.mem_cons_self).lt kind (by simp [other])
    have below : t.start.line + 1 = u.start.line ∧ t.start.column = u.start.column := by
      have off : u.start.line ≠ anchor.line := by omega
      simpa [extendsBlock, other, off, Comment.ofToken] using goes
    exact .cons_cons below (ih rest behind other (by omega))

/-- It goes on in the column where it started, line by line. -/
theorem aligned (h : Block anchor [] us) (lined : Lined us) :
    Aligned (us.map Comment.ofToken) := by
  cases us with
  | nil => exact .nil
  | cons t us =>
    obtain ⟨kind, start⟩ := h.first
    exact aligned_behind h.2 lined kind start.ge

end Read.Block

namespace Handed

/-- What hands a comment over has a comment and a token on the line. -/
theorem exists_tokens (h : Handed line ts cs) (some : cs ≠ []) :
    (∃ u ∈ ts, u.kind = .comment) ∧ ∃ t ∈ ts, t.kind ≠ .eof ∧ t.start.line = line := by
  induction h with
  | none ts => exact absurd rfl some
  | @block anchor us on block =>
    cases us with
    | nil => exact absurd rfl some
    | cons u us =>
      obtain ⟨kind, start⟩ := block.first
      exact ⟨⟨u, by simp, kind⟩, u, by simp, by simp [kind], start.trans on⟩
  | @late p q us on speaks block =>
    cases us with
    | nil => exact absurd rfl some
    | cons u us => exact ⟨⟨u, by simp, block.first.1⟩, p, by simp, speaks.kind_ne, on⟩
  | @append ts us cs ds first second ih ih' =>
    by_cases none : cs = []
    · obtain ⟨⟨u, mem, kind⟩, t, mem', rest⟩ := ih' (by simpa [none] using some)
      exact ⟨⟨u, by simp [mem], kind⟩, t, by simp [mem'], rest⟩
    · obtain ⟨⟨u, mem, kind⟩, t, mem', rest⟩ := ih none
      exact ⟨⟨u, by simp [mem], kind⟩, t, by simp [mem'], rest⟩

/-- Behind tokens that hand a comment over, none is handed over any more. -/
theorem eq_nil {ds : List Comment} (h : Handed line ts cs) (h' : Handed line us ds)
    (lined : Lined (ts ++ us)) (below : ∀ t ∈ ts, line ≤ t.start.line) (some : cs ≠ []) :
    ds = [] := by
  by_contra more
  obtain ⟨u, mem, kind⟩ := (h.exists_tokens some).1
  obtain ⟨t, mem', other, on⟩ := (h'.exists_tokens more).2
  have lt := (lined.leads mem mem').lt kind other
  have le := below u mem
  omega

/-- **What a rule takes over is one block**, which starts on the line of its type or trails late. -/
theorem isBlock (h : Handed line ts cs) (lined : Lined ts) (below : ∀ t ∈ ts, line ≤ t.start.line)
    (head : c ∈ cs.head?) : Aligned cs ∧ (c.pos.line = line ∨ c.TrailsLate ts line) := by
  induction h with
  | none ts => cases head
  | @block anchor us on block =>
    cases us with
    | nil => cases head
    | cons u us =>
      obtain rfl := Option.some.inj head
      exact ⟨block.aligned lined, .inl (block.first.2.trans on)⟩
  | @late p q us on speaks block =>
    cases us with
    | nil => cases head
    | cons u us =>
      obtain rfl := Option.some.inj head
      obtain ⟨kind, start⟩ := block.first
      have part : Lined (u :: us) := lined.sublist (.cons p (.cons q (.refl _)))
      refine ⟨block.aligned part, ?_⟩
      by_cases same : q.start.line = line
      · exact .inl (start.trans same)
      · exact .inr ⟨[], p, q, u, us, rfl, kind, rfl, speaks, on, start.symm, same⟩
  | @append ts us cs ds first second ih ih' =>
    obtain ⟨above, under⟩ := List.forall_mem_append.mp below
    -- if the first stretch hands a block on, the second one hands on nothing
    by_cases none : cs = []
    · obtain ⟨aligned, place⟩ := ih' lined.right under (by simpa [none] using head)
      exact ⟨by simpa [none] using aligned, place.imp_right fun late => by
        simpa using late.append ts []⟩
    · obtain rfl := first.eq_nil second lined above none
      rw [List.append_nil] at head ⊢
      obtain ⟨aligned, place⟩ := ih lined.left above head
      exact ⟨aligned, place.imp_right fun late => late.append [] us⟩

end Handed

/-! ### Rules -/

namespace Declaration

variable {D : Declaration} {x : Rule}

/-- The rule that is declared, in parentheses or not. -/
def rule? : Declaration → Option Rule
  | member r | single r => some r
  | ruleset _ | combined _ => none

/-- The rule that is declared is the node that declares it. -/
theorem mem_rule?_iff : x ∈ D.rule? ↔ D.node = .single x := by
  cases D <;> simp [rule?, node, Node.single]

end Declaration

namespace Read

variable {fuel n : Nat} {place : Place} {k l : Tray} {r s : Row} {d : Draft} {ty : Ident} {x : Rule}

/-- Behind its type a rule takes over what its values and its condition hand to it. -/
theorem leadLoop_typed_hands (read : (leadLoop fuel place n d).Gives k r (.rule x) l s)
    (typed : d.ruleType = some ty) : x.ruleType = ty ∧ ∃ m cs, Hands ty.pos.line r m cs ∧
      listOf x.comments = d.comments ++ cs := by
  induction n generalizing d k r with
  | zero => exact absurd (ParseRules.gives_lift.mp read).2 not_gives_fail
  | succ n ih =>
    obtain ⟨d', k', m, step, rest⟩ | stop := leadLoop_gives.mp read
    · cases step with
      | @comment t m _ =>
        obtain ⟨same, q, cs, hands, eq⟩ := ih rest typed
        exact ⟨same, q, cs, hands.cons t, eq⟩
      | ruleType _ first _ => exact nomatch typed.symm.trans first
      | @value t _ ruleType p new m _ typed' _ read =>
        obtain rfl := Option.some.inj (typed.symm.trans typed')
        obtain ⟨same, q, cs, hands, eq⟩ := ih rest typed
        exact ⟨same, q, new ++ cs, ((parameter_hands read).cons t).trans hands, by simp [eq]⟩
      | @condition t _ ruleType e new m _ typed' _ read =>
        obtain rfl := Option.some.inj (typed.symm.trans typed')
        obtain ⟨same, q, cs, hands, eq⟩ := ih rest typed
        exact ⟨same, q, new ++ cs, (expression_hands read).trans hands, by simp [eq]⟩
    · cases stop with
      | text _ typed' | comma _ _ typed' | bracket _ _ typed' | paren _ _ typed' =>
        obtain rfl := Option.some.inj (typed.symm.trans typed')
        exact ⟨rfl, _, [], .refl _ _, by simp [Draft.toRule]⟩

/-- A rule takes over comments from what is behind its type. -/
theorem leadLoop_untyped_hands (read : (leadLoop fuel place n d).Gives k r (.rule x) l s)
    (untyped : d.ruleType = none) (none : d.comments = []) : ∃ before t m q,
      r = Row.behind before (Row.cons t m) ∧ t.start = x.pos ∧
        Hands t.start.line m q (listOf x.comments) := by
  induction n generalizing d k r with
  | zero => exact absurd (ParseRules.gives_lift.mp read).2 not_gives_fail
  | succ n ih =>
    obtain ⟨d', k', m, step, rest⟩ | stop := leadLoop_gives.mp read
    · cases step with
      | @comment u m _ =>
        obtain ⟨before, t, m', q, rfl, hands⟩ := ih rest untyped none
        exact ⟨u :: before, t, m', q, rfl, hands⟩
      | @ruleType t m cs _ _ _ trail =>
        -- what trails the type stays with it
        obtain ⟨us, rfl, -, -, -⟩ := trailing_gives trail
        obtain ⟨same, q, new, hands, eq⟩ := leadLoop_typed_hands rest rfl
        refine ⟨[], t, _, q, rfl, by rw [Rule.pos, same], ?_⟩
        rw [eq, none]
        exact Hands.trans ⟨us, rfl, .none us⟩ hands
      | value _ typed _ _ | condition _ typed _ _ => exact nomatch untyped.symm.trans typed
    · cases stop with
      | text _ typed | comma _ _ typed | bracket _ _ typed | paren _ _ typed =>
        exact nomatch untyped.symm.trans typed

/-- The comments of a rule are taken over from the tokens behind its type. -/
theorem lead_hands (read : (lead fuel place).Gives k r (.rule x) l s) : ∃ before t m q,
    r = Row.behind before (Row.cons t m) ∧ t.start = x.pos ∧
      Hands t.start.line m q (listOf x.comments) :=
  leadLoop_untyped_hands (lead_gives.mp read) rfl rfl

end Read

namespace Source

variable {options : Options} {n : Node} {x : Rule} {g : CommentGroup}

/-- The comments of a rule that is read by itself are one block. -/
theorem isBlock_of_leadsOn (h : Read.LeadsOn (Row.ofTokens (lex source)) x) (mem : g ∈ x.comments)
    (head : c ∈ g.comments.head?) :
    Aligned g.comments ∧ (c.pos.line = x.pos.line ∨ c.TrailsLate (lex source) x.pos.line) := by
  obtain ⟨fuel, place, ws, q, k, l, s, row, read⟩ := h
  obtain ⟨before, t, m, q', rfl, start, us, rfl, handed⟩ := Read.lead_hands read
  rw [mem, listOf, start] at handed
  -- the row of the text starts with what stands before the type, the type, and what hands over
  rw [← Row.behind_append, ← Row.behind_cons, ← Row.behind_append] at row
  have lined := (lined_of_row row).right
  have below : ∀ u ∈ us, x.pos.line ≤ u.start.line := fun u mem =>
    start ▸ ((List.pairwise_cons.mp lined).1 u mem).le
  obtain ⟨aligned, place⟩ := handed.isBlock (List.pairwise_cons.mp lined).2 below head
  refine ⟨aligned, place.imp_right fun late => ?_⟩
  have whole := late.append (ws ++ before ++ [t]) []
  exact Comment.TrailsLate.of_row (by simpa using whole) row

/-- **The comments of a rule are one block.**  Each rule of a tree that starts with its type, and
not with a parenthesis around it, has no comments or a block of them in one column, line by line.
Its first comment does not stand on the line of the type just if it trails a token further down,
for which a comparison sign or the word `with` on that line speaks. -/
theorem Yields.trailsLate_iff (h : Yields source options n) :
    (∀ x, .single x ∈ n.walk → ∃ D ∈ n.declarations, x ∈ D.rule?) ∧
      ∀ D ∈ n.declarations, ∃ before t, D.Opens (lex source) before t ∧
        ∀ x ∈ D.rule?, t.kind = .ident → ∀ g ∈ x.comments, Aligned g.comments ∧
          ∀ c ∈ g.comments.head?, c.pos.line ≠ x.pos.line ↔
            c.TrailsLate (lex source) x.pos.line := by
  refine ⟨fun x walked => ?_, fun D mem => ?_⟩
  · obtain ⟨D, mem, node⟩ := Node.exists_declaration walked rfl
    exact ⟨D, mem, Declaration.mem_rule?_iff.mpr node⟩
  obtain ⟨before, t, opens, -⟩ := h.exists_opens mem
  refine ⟨before, t, opens, fun x is_rule kind g some => ?_⟩
  have led := h.leadsOn_of_opens mem (Declaration.mem_rule?_iff.mp is_rule) opens kind
  have first := List.head?_eq_some_head g.ne_nil
  refine ⟨(isBlock_of_leadsOn led some first).1, fun c head => ⟨?_, ?_⟩⟩
  · exact (isBlock_of_leadsOn led some head).2.resolve_left
  · rintro ⟨before, p, q, u, after, -, -, -, -, -, same, off⟩
    exact same ▸ off

/-- A block behind a value on the line of the rule's type, and comments behind values further down. -/
def spreadText : String := "Rules = [\nA 1 # a\n    # b\n, B =\n2 # c\n, C\n3 # d\n]"

/-- In such a text a rule takes over a block, and none of it trails late. -/
theorem Yields.trailsLate_iff_spreadText : ∃ n, Yields spreadText Options.default n ∧
    (∃ D ∈ n.declarations, ∃ x ∈ D.rule?, x.comments.isSome) ∧
    (∀ x, .single x ∈ n.walk → ∃ D ∈ n.declarations, x ∈ D.rule?) ∧
      ∀ D ∈ n.declarations, ∃ before t, D.Opens (lex spreadText) before t ∧
        ∀ x ∈ D.rule?, t.kind = .ident → ∀ g ∈ x.comments, Aligned g.comments ∧
          ∀ c ∈ g.comments.head?, c.pos.line ≠ x.pos.line ↔
            c.TrailsLate (lex spreadText) x.pos.line := by
  obtain ⟨f, read, some⟩ : ∃ f, (Source.file "f" spreadText Options.default).result = .ok f ∧
      ∃ D ∈ (Node.file f).declarations, ∃ x ∈ D.rule?, x.comments.isSome :=
    Outcome.exists_ok (by decide +kernel)
  exact ⟨_, .file read, some, Yields.trailsLate_iff (.file read)⟩

/-- A comment behind a value that does not stand on the line of the rule's type. -/
def loweredText : String := "A =\n10 # c"

/-- Not every comment of a rule stands on the line of the type, also where nothing is in
parentheses. -/
theorem exists_line_ne_loweredText : (∀ t ∈ lex loweredText, t.kind ≠ .leftParen) ∧
    ∃ n, Yields loweredText Options.default n ∧ ∃ D ∈ n.declarations, ∃ x ∈ D.rule?,
      ∃ g ∈ x.comments, ∃ c ∈ g.comments.head?, c.pos.line ≠ x.pos.line := by
  obtain ⟨d, read, apart⟩ : ∃ d, (Source.rule loweredText Options.default).result = .ok d ∧
      ∃ D ∈ (Node.rule d).declarations, ∃ x ∈ D.rule?,
        ∃ g ∈ x.comments, ∃ c ∈ g.comments.head?, c.pos.line ≠ x.pos.line :=
    Outcome.exists_ok (by decide +kernel)
  exact ⟨by decide +kernel, _, .rule read, apart⟩

end Source

end QualityRules
