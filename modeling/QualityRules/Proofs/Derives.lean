import QualityRules.Proofs.FileLanguage

/-!
# Proofs — Derives

Every part of a tree is derived from tokens of its own, comments apart: they stand in a row in the
text, and those of a part stand among those of what it is part of.

* `Derives`: the tokens that a part of a tree is derived from.
* `Derives.parts` goes down one step: the parts of a node are derived from stretches of its tokens,
  one behind the other.  `Source.Yields.derives` goes down from a whole tree to all its parts.
* `Source.Yields.ruleset_derives`: a ruleset, with the comments that trail it.
-/

namespace QualityRules

open Grammar

variable {ts us : List Token} {m n : Node} {source : String} {options : Options}

/-- The tokens that a part of a tree is derived from, without comments on either side.  A lone rule
in parentheses is derived from what is between them. -/
inductive Derives : List Token → Node → Prop
  | ident {t} (kind : t.kind = .ident) : Derives [t] (.ident ⟨t.start, t.text, none⟩)
  | value {ts p} (is : IsValue ts p) : Derives ts (.parameter p)
  | moment {ts d} (is : IsMoment ts d) : Derives ts (.parameter (.date d))
  | condition {ts e} (is : IsCondition ts e) : Derives ts (.expression e)
  | plain {ts r} (is : IsPlain ts r) : Derives ts (.single r)
  | combined {inRuleset operator ts m ms} (is : IsChain inRuleset operator ts (m :: ms))
      (several : ms ≠ []) :
      Derives ts (.rule (.combined ⟨m.leftParen, ((m :: ms).getLastD m).rightParen,
        (m :: ms).map Read.Member.rule, operator, none, none⟩))
  | ruleset {ts x} (is : IsRuleset (IsDecl true) ts x) : Derives ts (.ruleset x)
  | file {ts xs} (name : String) (all : IsRulesets (IsDecl true) ts xs) (some : xs ≠ []) :
      Derives ts (.file ⟨name, [], xs⟩)

/-- The nodes `ms` are derived from stretches of the tokens `ts`, one behind the other. -/
inductive DerivesAll : List Token → List Node → Prop
  | nil {ts : List Token} : DerivesAll ts []
  | cons {before us after : List Token} {m : Node} {ms : List Node} (first : Derives us m)
      (others : DerivesAll after ms) : DerivesAll (before ++ (us ++ after)) (m :: ms)

namespace DerivesAll

variable {ms ns : List Node}

/-- A part alone is a list of parts. -/
theorem one (h : Derives ts m) : DerivesAll ts [m] := by
  simpa using @cons [] ts [] m [] h .nil

/-- More tokens may stand before the stretches. -/
theorem behind (h : DerivesAll us ms) (ts : List Token) : DerivesAll (ts ++ us) ms := by
  cases h with
  | nil => exact .nil
  | @cons before _ _ _ _ first others =>
    rw [← List.append_assoc]
    exact .cons first others

/-- What is derived from tokens may be followed by what is derived from those behind them. -/
theorem append (h : DerivesAll ts ms) (k : DerivesAll us ns) : DerivesAll (ts ++ us) (ms ++ ns) := by
  induction h with
  | nil => exact k.behind _
  | cons first _ ih =>
    rw [List.append_assoc, List.append_assoc]
    exact .cons first ih

/-- More tokens may stand behind the stretches. -/
theorem before (h : DerivesAll ts ms) (us : List Token) : DerivesAll (ts ++ us) ms := by
  simpa using h.append (@nil us)

/-- Each part of a list is derived from a stretch of the tokens. -/
theorem mem (h : DerivesAll ts ms) : ∀ m ∈ ms, ∃ us, us <:+: ts ∧ Derives us m := by
  induction h with
  | nil => exact List.forall_mem_nil _
  | @cons before us after m ms first _ ih =>
    have inside : us <:+: before ++ (us ++ after) := ⟨before, after, by simp⟩
    have behind : after <:+: before ++ (us ++ after) := ⟨before ++ us, [], by simp⟩
    refine List.forall_mem_cons.mpr ⟨⟨us, inside, first⟩, fun m mem => ?_⟩
    obtain ⟨vs, deeper, is⟩ := ih m mem
    exact ⟨vs, deeper.trans behind, is⟩

end DerivesAll

namespace Grammar

variable {inRuleset : Bool} {operator : Connective}

/-- The values of a list are parts of it. -/
theorem IsValues.parts {ps : List Parameter} (h : IsValues ts ps) :
    DerivesAll ts (ps.map Node.parameter) := by
  induction h with
  | nil => exact .nil
  | cons first _ ih => exact (DerivesAll.one (.value first)).append ih

/-- The values between brackets are parts. -/
theorem IsList.parts {ps : List Parameter} (h : IsList ts ps) :
    DerivesAll ts (ps.map Node.parameter) := by
  induction h with
  | one only => exact .one (.value only.1)
  | more first _ _ ih => exact (DerivesAll.one (.value first.1)).append (ih.behind [_])

/-- The rule of a member is a part. -/
theorem IsMember.parts {x : Read.Member} (h : IsMember inRuleset ts x) :
    DerivesAll ts [Node.single x.rule] := by
  cases h with
  | closed _ plain _ | comma _ _ plain _ _ =>
    exact ((DerivesAll.one (.plain plain)).before _).behind [_]

/-- The rules of a chain are parts. -/
theorem IsChain.parts {xs : List Read.Member} (h : IsChain inRuleset operator ts xs) :
    DerivesAll ts ((xs.map Read.Member.rule).map Node.single) := by
  induction h with
  | one only => exact only.parts
  | more first _ _ ih => exact first.parts.append (ih.behind [_])

/-- A rule that a ruleset lists is a part. -/
theorem IsDecl.parts {d : RuleDecl} (h : IsDecl inRuleset ts d) : DerivesAll ts [Node.rule d] := by
  cases h with
  | plain is => exact .one (.plain is)
  | lone is => exact is.parts
  | combined is several => exact .one (.combined is several)

/-- The rules between the brackets of a ruleset are parts. -/
theorem IsBody.parts {ds : List RuleDecl} (h : IsBody (IsDecl true) ts ds) :
    DerivesAll ts (ds.map Node.rule) := by
  induction h with
  | nil => exact .nil
  | last only => exact only.parts
  | more first _ _ ih => exact first.parts.append (ih.behind [_])

/-- Rulesets are parts of a file. -/
theorem IsRulesets.parts {xs : List Ruleset} (h : IsRulesets (IsDecl true) ts xs) :
    DerivesAll ts (xs.map Node.ruleset) := by
  induction h with
  | nil => exact .nil
  | cons first _ ih => exact (DerivesAll.one (.ruleset first)).append ih

/-! ### One step down -/

/-- What a bound compares with are its parts. -/
theorem IsBound.parts {e : Bound} (h : IsBound ts e) :
    DerivesAll ts (Node.expression (.bound e)).parts := by
  cases h with
  | comparison _ right => exact (DerivesAll.one (.value right)).behind [_]
  | moment _ right => exact (DerivesAll.one (.moment right)).behind [_]
  | between _ left _ right =>
    exact ((DerivesAll.one (.value left.1)).behind [_]).append
      ((DerivesAll.one (.value right.1)).behind [_])

/-- The values of a target are its parts. -/
theorem IsTarget.parts {e : Target} (h : IsTarget ts e) :
    DerivesAll ts (Node.expression (.target e)).parts := by
  cases h with
  | empty | pattern => exact .nil
  | membership _ _ values _ => exact (values.parts.behind [_, _]).before [_]

/-- What a condition is made of is derived from its tokens. -/
theorem IsCondition.parts {e : Expression} (h : IsCondition ts e) :
    DerivesAll ts (Node.expression e).parts := by
  cases h with
  | bound is => exact is.parts
  | target is => exact is.parts
  | withThreshold is _ _ threshold =>
    exact (DerivesAll.one (.condition (.target is))).append
      ((DerivesAll.one (.condition (.bound threshold))).behind [_, _])

/-- The name, the values and the condition of a rule are its parts. -/
theorem IsPlain.parts {r : Rule} (h : IsPlain ts r) : DerivesAll ts (Node.single r).parts := by
  cases h with
  | @mk t vs ps us e kind values condition =>
    have behind : DerivesAll us (e.map Node.expression).toList := by
      cases condition with
      | none => exact .nil
      | some is => exact .one (.condition is)
    exact (DerivesAll.one (.ident kind)).append (values.parts.append behind)

end Grammar

/-- The parts of a node are derived from stretches of its tokens, one behind the other. -/
theorem Derives.parts (h : Derives ts n) : DerivesAll ts n.parts := by
  cases h with
  | ident => exact .nil
  | value is => cases is <;> exact .nil
  | moment is =>
    cases is with
    | mk _ _ _ less _ => exact ((DerivesAll.one (.value less)).behind [_, _, _]).before [_]
  | condition is => exact is.parts
  | plain is => exact is.parts
  | combined is => exact is.parts
  | ruleset is =>
    cases is with
    | mk _ _ _ body _ => exact (body.parts.before [_]).behind [_, _, _]
  | file _ all _ => exact all.parts

namespace Source

/-- What is read as a ruleset anywhere in a text is derived from tokens of the text, apart from
comments, and behind these are the ones that trail it. -/
theorem isRuleset_of_gives {fuel : Nat} {x : Ruleset} {ws : List Token} {r s : Row} {k l : Tray}
    (row : Row.ofTokens (lex source) = Row.behind ws r) (g : (Read.ruleset fuel).Gives k r x l s) :
    ∃ us vs, ws ++ (us ++ vs) <+: lex source ∧ IsRuleset (IsDecl true) (solid us) x.bare ∧
      x.TrailedBy vs := by
  obtain ⟨us, vs, rfl, is, trailed⟩ := Read.ruleset_derives g ((Row.final_ofTokens source).rest row)
  obtain ⟨ts, last, eq, others, terminal⟩ := lex_eq source
  rw [eq, Row.ofTokens_eq others terminal, ← Row.behind_append] at row
  have ends : lastKind none (ws ++ (us ++ vs)) = some .rightBracket := by
    rw [lastKind_append, ← lastKind_solid, trailed.solid_append, is.lastKind_eq]
  have going : lastKind none (ws ++ (us ++ vs)) ≠ some .eof := by
    rw [ends]
    nofun
  obtain ⟨rest, rfl, -⟩ := Row.prefix_of_behind terminal row (ne_eof_of_lastKind going)
  refine ⟨us, vs, ?_, is, trailed⟩
  rw [eq, List.append_assoc]
  exact List.prefix_append _ _

/-- What is read as a ruleset is derived from the first tokens of the text, apart from comments. -/
theorem isRuleset_of_ruleset {x : Ruleset} (h : (ruleset source options).result = .ok x) :
    ∃ ts, ts <+: solid (lex source) ∧ IsRuleset (IsDecl true) ts x.bare := by
  obtain ⟨k, s, g⟩ := session_eq_ok_iff.mp h
  have start : Row.ofTokens (lex source) = Row.behind [] (Row.ofTokens (lex source)) := rfl
  obtain ⟨us, vs, first, is, -⟩ := isRuleset_of_gives start g
  exact ⟨solid us, ((List.prefix_append us vs).trans first).filter _, is⟩

/-- The tree that is read from a text is derived from tokens in a row, once it is bare. -/
theorem Yields.root_derives (h : Yields source options n) :
    ∃ ts, ts <:+: solid (lex source) ∧ Derives ts n.bare := by
  cases h with
  | @rule d h =>
    have is := isText_solid_of_rule h
    generalize solid (lex source) = ts at is
    cases is with
    | mk is _ =>
      obtain ⟨us, inside, derived⟩ := is.parts.mem _ (List.mem_singleton_self _)
      exact ⟨us, List.infix_append_of_infix_left inside, derived⟩
  | @ruleset x h =>
    obtain ⟨ts, first, is⟩ := isRuleset_of_ruleset h
    exact ⟨ts, first.isInfix, .ruleset is⟩
  | @file name f h =>
    have is := isFile_solid_of_file h
    rw [show Node.bare (.file f) = .file f.bare from rfl]
    generalize solid (lex source) = ts, f.bare = g at is
    cases is with
    | mk all some _ =>
      exact ⟨_, List.infix_append_of_infix_left List.infix_rfl, .file name all some⟩

/-- Every ruleset of a tree is read as such from the text, behind some tokens. -/
theorem Yields.exists_ruleset {x : Ruleset} (h : Yields source options n)
    (mem : .ruleset x ∈ n.walk) : ∃ fuel : Nat, ∃ k ws r l s,
      Row.ofTokens (lex source) = Row.behind ws r ∧ (Read.ruleset fuel).Gives k r x l s := by
  cases h with
  | @rule d h =>
    obtain eq | child := Node.ruleset_of_mem_walk mem
    · cases eq
    · have lt := (Node.rank_lt_of_mem_children child).trans_le (Node.rank_rule_le d)
      simp [Node.rank] at lt
  | @ruleset y h =>
    obtain eq | child := Node.ruleset_of_mem_walk mem
    · obtain rfl := Node.ruleset.inj eq
      obtain ⟨k, s, g⟩ := session_eq_ok_iff.mp h
      exact ⟨_, Tray.empty, [], Row.ofTokens (lex source), k, s, rfl, g⟩
    · have lt := Node.rank_lt_of_mem_children child
      simp [Node.rank] at lt
  | @file name f h =>
    obtain eq | child := Node.ruleset_of_mem_walk mem
    · cases eq
    rw [result_file] at h
    obtain ⟨k, s, g⟩ := session_eq_ok_iff.mp h
    obtain ⟨all, loop, rfl⟩ := Read.file_gives.mp g
    have listed : x ∈ all := by simpa [Node.children, Node.inOrder] using child
    obtain old | ⟨ws, r, k, l, s, row, g⟩ :=
      Read.rulesetsLoop_mem loop (Row.final_ofTokens source) x listed
    · cases old
    · exact ⟨_, k, ws, r, l, s, row, g⟩

/-- Every ruleset of a tree is derived from tokens in a row, apart from comments, with those that
trail it behind them. -/
theorem Yields.ruleset_derives {x : Ruleset} (h : Yields source options n)
    (mem : .ruleset x ∈ n.walk) : ∃ us vs, us ++ vs <:+: lex source ∧
      IsRuleset (IsDecl true) (solid us) x.bare ∧ x.TrailedBy vs := by
  obtain ⟨fuel, k, ws, r, l, s, row, g⟩ := h.exists_ruleset mem
  obtain ⟨us, vs, first, is, trailed⟩ := isRuleset_of_gives row g
  exact ⟨us, vs, (List.suffix_append ws _).isInfix.trans first.isInfix, is, trailed⟩

/-- **Every part of a tree but the comments is derived from tokens in a row**, once it is bare. -/
theorem Yields.derives (h : Yields source options n) (mem : m ∈ n.walk) :
    m.isRemark ∨ ∃ ts, ts <:+: solid (lex source) ∧ Derives ts m.bare := by
  refine Node.walk_induction (P := fun m => m.isRemark ∨ ∃ ts, ts <:+: solid (lex source) ∧
    Derives ts m.bare) (.inr h.root_derives) ?_ m mem
  rintro n (remark | ⟨ts, inside, is⟩) m child
  · exact .inl (Node.isRemark_of_mem_children remark child)
  refine Node.isRemark_or_mem_parts child |>.imp_right fun part => ?_
  have part_bare : m.bare ∈ n.bare.parts := n.parts_bare ▸ List.mem_map_of_mem part
  obtain ⟨us, deeper, is'⟩ := is.parts.mem _ part_bare
  exact ⟨us, deeper.trans inside, is'⟩

end Source

end QualityRules
