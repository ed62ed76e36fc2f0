import QualityRules.Proofs.Described.Trees

/-!
# Proofs — Declared

Every rule of a tree was read by itself somewhere in the text, from the comments before its type on.
So what is to be said of all rules has to be said of `Read.lead` only.

* `Read.LeadsOn`: a rule is read by itself from some place of a row on; `Read.InParens`: a rule
  stands there behind an opening parenthesis.
* `Read.rule_leadsOn` and `Read.rulesetLoop_mem` go down from what is read to the rules in it.
* `Source.Yields.leadsOn`: every rule that a tree declares, but for one that stands in parentheses by
  itself.
-/

namespace QualityRules

variable {source : String} {options : Options} {node : Node} {ws : List Token} {r s m : Row}
  {k l : Tray} {x : Rule} {D : Declaration}

namespace Read

/-- From some place of the row `r` on the rule `x` is read by itself. -/
def LeadsOn (r : Row) (x : Rule) : Prop :=
  ∃ fuel : Nat, ∃ place ws q k l s, r = Row.behind ws q ∧ (lead fuel place).Gives k q (.rule x) l s

/-- A rule that is read further down is read from here on. -/
theorem LeadsOn.behind (h : LeadsOn m x) (row : r = Row.behind ws m) : LeadsOn r x := by
  obtain ⟨fuel, place, us, q, k, l, s, rfl, read⟩ := h
  exact ⟨fuel, place, ws ++ us, q, k, l, s, by rw [row, Row.behind_append], read⟩

/-- A rule that is read behind a token is read from there on. -/
theorem LeadsOn.cons (h : LeadsOn m x) (t : Token) : LeadsOn (Row.cons t m) x :=
  h.behind (show Row.cons t m = Row.behind [t] m from rfl)

/-- From some place of the row `r` on there stand an opening parenthesis and the rule `x`. -/
def InParens (r : Row) (x : Rule) : Prop :=
  ∃ ws t us u m, r = Row.behind (ws ++ t :: (us ++ [u])) m ∧ t.kind = .leftParen ∧
    (∀ v ∈ us, v.kind = .comment) ∧ u.kind = .ident ∧ u.start = x.pos

/-- A rule in parentheses further down is one from here on. -/
theorem InParens.behind (h : InParens m x) (row : r = Row.behind ws m) : InParens r x := by
  obtain ⟨vs, t, us, u, m, rfl, rest⟩ := h
  exact ⟨ws ++ vs, t, us, u, m, by rw [row, ← Row.behind_append]; simp, rest⟩

variable {fuel n : Nat} {inRuleset : Bool} {t : Token} {g g' : GroupDraft} {decl : RuleDecl}

/-! ### Rules -/

/-- The rule of a member is read by itself behind the parenthesis. -/
theorem member_leadsOn {y : Member} (read : (member fuel inRuleset t).Gives k r y l s) :
    LeadsOn r y.rule := by
  obtain ⟨x, l', close, first, -, -, rfl⟩ := member_gives.mp read
  exact ⟨fuel, _, [], r, _, l', _, rfl, first⟩

/-- A member ends with the parenthesis that closes it. -/
theorem member_row {y : Member} (read : (member fuel inRuleset t).Gives k r y l s)
    (kind : t.kind = .leftParen) (final : r.Final) : ∃ ws, r = Row.behind ws s := by
  obtain ⟨inside, close, rfl, -, -⟩ := member_reads final kind read
  exact ⟨inside ++ [close], (Row.behind_append inside [close] s).symm⟩

/-- The rules of all members that a combined rule goes on with are read by themselves. -/
theorem groupLoop_leadsOn (read : (groupLoop fuel inRuleset n g).Gives k r g' l s)
    (final : r.Final) :
    ∃ new, g'.members = g.members ++ new ∧ ∀ y ∈ new, LeadsOn r y.rule := by
  induction n generalizing g k r with
  | zero => exact absurd (ParseRules.gives_lift.mp read).2 not_gives_fail
  | succ n ih =>
    obtain ⟨g₁, k₁, m, step, rest⟩ | ⟨-, rfl, rfl⟩ := groupLoop_gives.mp read
    · cases step with
      | @comment t m _ | @connective t m operator _ _ _ =>
        obtain ⟨new, members, led⟩ := ih rest final.tail
        exact ⟨new, members, fun y mem => (led y mem).cons t⟩
      | @member t m x l₁ _ kind _ read =>
        obtain ⟨ws, row⟩ := member_row read kind final.tail
        have row : Row.cons t m = Row.behind (t :: ws) _ := congrArg (Row.cons t) row
        obtain ⟨new, members, led⟩ := ih rest (final.rest row)
        refine ⟨x :: new, by simp [members], List.forall_mem_cons.mpr
          ⟨(member_leadsOn read).cons t, fun y mem => (led y mem).behind row⟩⟩
    · exact ⟨[], by simp, List.forall_mem_nil _⟩

/-- Each rule in parentheses is read by itself, but for one that is all there is. -/
theorem group_leadsOn {description : Option CommentGroup}
    (read : (group fuel inRuleset description).Gives k (Row.cons t m) decl l s)
    (kind : t.kind = .leftParen) (final : m.Final) (mem : D ∈ decl.declarations)
    (node : D.node = .single x) :
    LeadsOn (Row.cons t m) x ∨ D = .single x ∧ InParens (Row.cons t m) x := by
  obtain ⟨g, loop, gives⟩ := group_gives.mp read
  obtain ⟨i, y, k₁, m₁, first, rest⟩ := groupLoop_gives_first kind loop
  obtain ⟨ws, row⟩ := member_row first kind final
  obtain ⟨new, members, led⟩ := groupLoop_leadsOn rest (final.rest row)
  have all : ∀ z ∈ g.members, LeadsOn (Row.cons t m) z.rule := by
    rw [members]
    exact List.forall_mem_cons.mpr ⟨(member_leadsOn first).cons t,
      fun z mem => ((led z mem).behind row).cons t⟩
  obtain ⟨⟨z, -, only, rfl⟩ | ⟨operator, z, zs, -, several, rfl⟩, -, -⟩ := toRule_gives.mp gives
  · -- the rule is the member, but for its description and what trails the parentheses
    obtain ⟨rfl, -⟩ : y = z ∧ new = [] := by simpa [only] using members.symm
    obtain rfl := List.mem_singleton.mp mem
    obtain rfl := by simpa [Declaration.node, Node.single] using node
    obtain ⟨vs, row', heads, -⟩ := member_described first kind [] []
    obtain ⟨us, u, after, rfl, comments, type, start⟩ := heads.type
    refine .inr ⟨rfl, [], t, us, u, Row.behind after m₁, ?_, kind, comments, type, start⟩
    rw [row', List.nil_append, Row.behind_append, Row.behind_cons t, Row.behind_append us [u]]
    rfl
  · rw [several] at all
    rcases List.mem_cons.mp mem with rfl | mem
    · cases node
    obtain ⟨y', listed, rfl⟩ := List.mem_map.mp mem
    obtain rfl : y' = x := by simpa [Declaration.node, Node.single] using node
    obtain ⟨z', among, rfl⟩ := List.mem_map.mp listed
    exact .inl (all z' among)

/-- Each rule of a declaration is read by itself, but for one that is all there is in parentheses. -/
theorem rule_leadsOn (read : (rule fuel inRuleset).Gives k r decl l s) (final : r.Final)
    (mem : D ∈ decl.declarations) (node : D.node = .single x) :
    LeadsOn r x ∨ D = .single x ∧ InParens r x := by
  obtain ⟨y, first, rfl⟩ | ⟨d, paren, k', m, first, untyped, group⟩ := rule_gives.mp read
  · obtain rfl := List.mem_singleton.mp mem
    obtain rfl : y = x := by simpa [Declaration.node, Node.single] using node
    exact .inl ⟨fuel, _, [], r, k, l, s, rfl, first⟩
  · obtain ⟨before, t, rfl, -, opens, eq, rfl⟩ | ⟨_, _, _, _, _, _, _, _, alone, stop⟩ :=
      leadLoop_empty_reads (lead_gives.mp first)
    · obtain ⟨rfl, rfl⟩ := Lead.group.inj eq
      have led := group_leadsOn group opens (final.rest rfl).tail mem node
      exact led.imp (·.behind rfl) (And.imp_right (·.behind rfl))
    · cases stop with
      | group _ =>
        have typed := alone.typed.symm.trans untyped
        cases typed

/-! ### Rulesets -/

/-- Each declaration in a ruleset is read by itself, from some row on. -/
theorem rulesetLoop_mem {d : RulesetDraft} {y : Ruleset}
    (read : (rulesetLoop fuel n d).Gives k r y l s) (final : r.Final) :
    ∀ decl ∈ y.rules, decl ∈ d.rules ∨ ∃ ws q k' l' s', r = Row.behind ws q ∧
      (rule fuel true).Gives k' q decl l' s' := by
  induction n generalizing d k r with
  | zero => exact absurd (ParseRules.gives_lift.mp read).2 not_gives_fail
  | succ n ih =>
    obtain ⟨d', k', m, step, rest⟩ | ⟨stop, -⟩ := rulesetLoop_gives.mp read
    · -- only the reader of a declaration adds one
      obtain ⟨us, row, new⟩ : ∃ us, r = Row.behind us m ∧ ∀ decl ∈ d'.rules, decl ∈ d.rules ∨
          ∃ k₁ l₁ s₁, (rule fuel true).Gives k₁ r decl l₁ s₁ := by
        cases step with
        | @before t m _ _ | @comment t m _ _ _ => exact ⟨[t], rfl, fun _ => .inl⟩
        | @header t m₁ h l m kind _ read =>
          obtain ⟨us, row, -⟩ := takeHeader_reads kind read none
          exact ⟨t :: us, congrArg (Row.cons t) row, fun _ => .inl⟩
        | rule _ _ read =>
          obtain ⟨us, -, row, -⟩ := rule_reads read final (K := none) rfl rfl
          refine ⟨us, row, fun decl mem => (List.mem_append.mp mem).imp_right fun new => ?_⟩
          obtain rfl := List.mem_singleton.mp new
          exact ⟨_, _, _, read⟩
      intro decl mem
      rcases ih rest (final.rest row) decl mem with old | ⟨ws, q, k₁, l₁, s₁, row', read⟩
      · rcases new decl old with old | ⟨k₁, l₁, s₁, read⟩
        · exact .inl old
        · exact .inr ⟨[], r, k₁, l₁, s₁, rfl, read⟩
      · exact .inr ⟨us ++ ws, q, k₁, l₁, s₁, by rw [row, row', Row.behind_append], read⟩
    · cases stop
      exact fun _ => .inl

end Read

namespace Source

open Read (LeadsOn InParens)

/-- Every rule that a tree declares is read by itself somewhere in the text, but for one that stands
in parentheses by itself. -/
theorem Yields.leadsOn (h : Yields source options node) (mem : D ∈ node.declarations)
    (is_rule : D.node = .single x) : LeadsOn (Row.ofTokens (lex source)) x ∨
      D = .single x ∧ InParens (Row.ofTokens (lex source)) x := by
  have final := Row.final_ofTokens source
  -- in a ruleset the rule is read from some row on
  have listed : ∀ y, .ruleset y ∈ node.walk → D ∈ y.declarations →
      LeadsOn (Row.ofTokens (lex source)) x ∨
        D = .single x ∧ InParens (Row.ofTokens (lex source)) x := by
    intro y walked mem
    rcases List.mem_cons.mp mem with rfl | mem
    · cases is_rule
    obtain ⟨decl, among, mem⟩ := List.mem_flatMap.mp mem
    obtain ⟨fuel, k, ws, r, l, s, row, whole⟩ := h.exists_ruleset walked
    obtain ⟨l', loop, -⟩ := Read.ruleset_gives.mp whole
    obtain old | ⟨us, q, k', l', s', rfl, read⟩ :=
      Read.rulesetLoop_mem loop (final.rest row) decl among
    · cases old
    rw [← Row.behind_append] at row
    have led := Read.rule_leadsOn read (final.rest row) mem is_rule
    exact led.imp (·.behind row) (And.imp_right (·.behind row))
  cases h with
  | rule h =>
    obtain ⟨k, s, read⟩ := session_eq_ok_iff.mp h
    exact Read.rule_leadsOn read final mem is_rule
  | @ruleset y h => exact listed y (Node.self_mem_walk _) mem
  | @file name f h =>
    obtain ⟨y, among, mem⟩ := List.mem_flatMap.mp mem
    refine listed y (Node.children_subset_walk (Node.self_mem_walk _) ?_) mem
    simp [Node.children, Node.inOrder, among]

/-- So is every rule of a tree that starts with its type. -/
theorem Yields.leadsOn_of_opens {before : List Token} {t : Token} (h : Yields source options node)
    (mem : D ∈ node.declarations) (is_rule : D.node = .single x)
    (opens : D.Opens (lex source) before t) (kind : t.kind = .ident) :
    LeadsOn (Row.ofTokens (lex source)) x := by
  refine (h.leadsOn mem is_rule).resolve_right ?_
  rintro ⟨rfl, ws, p, us, u, m, row, paren, comments, type, start⟩
  have split : ws ++ p :: (us ++ [u]) = ws ++ p :: us ++ u :: [] := by simp
  obtain ⟨after, eq⟩ := split_of_row (split ▸ row) (by simp [type])
  rw [List.append_assoc] at eq
  obtain ⟨-, rfl⟩ := opens.unique (.lone eq paren comments type start)
  exact nomatch kind.symm.trans paren

end Source

end QualityRules
