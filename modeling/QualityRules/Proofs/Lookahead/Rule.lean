import QualityRules.Proofs.Lookahead.Value
import QualityRules.Proofs.Runs.Rule

/-!
# Proofs — Lookahead — Rule

A rule looks one token ahead.  When it stands alone the end of the text ends it, when it stands in a
ruleset a closing bracket does, and there is no difference but that.

* `peeks_leadLoop` and `peeks_groupLoop`: which of the tokens that end a rule are left.
* `peeks_rule`: what a rule comes to alone, it comes to in a ruleset.
-/

namespace QualityRules

/-- Where it is allowed, a closing bracket may stand in the place of the end of the text. -/
def Standing.brackets (closing : Prop) : Standing where
  allows kind kind' := closing ∧ kind = .eof ∧ kind' = .rightBracket
  halts := by
    rintro _ _ ⟨-, -, rfl⟩
    decide

namespace Read
open Reading (Look)
open ParseRules (PeeksAs Refuses gives_bind)

/-- What ends a rule at the one place may end it at the other one, and a closing bracket does where
it stands for the end of the text. -/
structure Place.Covers (closing : Prop) (place place' : Place) : Prop where
  nested : place'.nested = place.nested
  listed : place.inRuleset → place'.inRuleset
  closes : closing → place'.inRuleset

variable {stands : Standing} {closing : Prop} {fuel : Fuel} {n : Nat} {t t' : Token} {d : Draft}
  {place place' : Place} {k : Tray}

/-! ### A rule -/

theorem peeks_takeParameter :
    PeeksAs stands (takeParameter n d t) (takeParameter n d t) := by
  unfold takeParameter
  cases d.ruleType with
  | none => exact (Refuses.refuse _ _).peeksAs
  | some ruleType =>
    dsimp only
    split
    · exact (Refuses.refuse _ _).peeksAs
    · exact (PeeksAs.lift peeks_parameter).bind fun _ => .done _

theorem peeks_takeExpression :
    PeeksAs stands (takeExpression fuel d t) (takeExpression fuel d t) := by
  unfold takeExpression
  cases d.ruleType with
  | none => exact (Refuses.refuse _ _).peeksAs
  | some ruleType =>
    dsimp only
    split
    · exact (Refuses.refuse _ _).peeksAs
    · exact (PeeksAs.lift peeks_expression).bind fun _ => .done _

theorem peeks_takeRuleType :
    PeeksAs stands (takeRuleType n d t) (takeRuleType n d t) := by
  unfold takeRuleType
  split
  · exact (Refuses.refuse _ _).peeksAs
  · exact (PeeksAs.modifyGet _).bind fun _ => (PeeksAs.lift peeks_trailing).bind fun _ => .done _

/-- What ends a rule is refused where it may not stand and when the rule has no type. -/
theorem refuses_takeToken (ends : t.kind = .eof ∧ d.ruleType = none ∨
      (t.kind = .comma ∨ t.kind = .rightBracket) ∧ (place.inRuleset = false ∨ d.ruleType = none) ∨
      t.kind = .rightParen ∧ (place.nested = false ∨ d.ruleType = none)) :
    (takeToken fuel place d t).Refuses := by
  rintro k r ⟨e, l⟩ s gives
  change (takeToken fuel place d t).Gives k r e l s at gives
  rcases ends with ⟨kind, none⟩ | ⟨kind | kind, none | none⟩ | ⟨kind, none | none⟩ <;>
    simp [takeToken, kind, gives_bind, takeSeparator_gives, finishRule_gives, gives_iteRules,
      none] at gives

/-- What a separator needs may be wanting, or there is a rule to finish. -/
theorem Draft.typed_or (d : Draft) (b : Bool) :
    (b = false ∨ d.ruleType = none) ∨ b = true ∧ ∃ ruleType, d.ruleType = some ruleType := by
  cases b <;> cases d.ruleType <;> simp

variable {ruleType : Ident}

/-- Where a separator is allowed it finishes a rule that has a type, and a bracket is left. -/
theorem takeSeparator_eq (listed : place.inRuleset) (typed : d.ruleType = some ruleType) :
    takeSeparator place d t k =
      if t.kind = .rightBracket then .push t (.done (.finish (d.toRule ruleType), k.spill))
      else .done (.finish (d.toRule ruleType), k.spill) := by
  simp only [takeSeparator, finishRule, typed, listed, Bool.not_true, Bool.false_eq_true, if_false]
  split <;> rfl

/-- A token is refused; or it is taken, and is not the end of the text; or it is left and the rule
is finished, whichever it is of those that may stand there. -/
theorem look_takeToken (covers : place.Covers closing place') (d : Draft) (k : Tray) (t : Token) :
    (takeToken fuel place d t).Refuses ∨
      t.kind ≠ .eof ∧ PeeksAs (.brackets closing) (takeToken fuel place d t)
        (takeToken fuel place' d t) ∨
      ∃ x l, (takeToken fuel place d t k = .push t (.done (.finish x, l)) ∨
          t.kind = .eof ∧ takeToken fuel place d t k = .done (.finish x, l)) ∧
        ∀ t', t.Turns (.brackets closing) t' →
          takeToken fuel place' d t' k = .push t' (.done (.finish x, l)) := by
  -- a bracket that stands for the end of the text ends the rule as the end would have
  have bracket : ∀ {ruleType : Ident}, place'.inRuleset → d.ruleType = some ruleType →
      ∀ {t' : Token}, t'.kind = .rightBracket →
        takeToken fuel place' d t' k = .push t' (.done (.finish (d.toRule ruleType), k.spill)) := by
    intro ruleType listed typed t' kind
    simp only [takeToken, kind, takeSeparator_eq listed typed, if_true]
  cases kind : t.kind with
  | leftParen =>
    simp only [takeToken, kind]
    exact .inr (.inl ⟨by simp, .done Effect.group⟩)
  | eof =>
    rcases Option.eq_none_or_eq_some d.ruleType with untyped | ⟨ruleType, typed⟩
    · exact .inl (refuses_takeToken (.inl ⟨kind, untyped⟩))
    · refine .inr (.inr ⟨d.toRule ruleType, k.spill, .inr ⟨rfl, ?_⟩, fun t' turns => ?_⟩)
      · simp only [takeToken, kind, finishRule, typed]
        rfl
      · cases turns with
        | same going => exact absurd kind going
        | stands h => exact bracket (covers.closes h.1) typed h.2.2
  | comma =>
    rcases d.typed_or place.inRuleset with out | ⟨listed, ruleType, typed⟩
    · exact .inl (refuses_takeToken (.inr (.inl ⟨.inl kind, out⟩)))
    · refine .inr (.inl ⟨by simp, fun k => ?_⟩)
      simp only [takeToken, kind, takeSeparator_eq listed typed,
        takeSeparator_eq (covers.listed listed) typed]
      exact Reading.peeks_pure _
  | rightBracket =>
    rcases d.typed_or place.inRuleset with out | ⟨listed, ruleType, typed⟩
    · exact .inl (refuses_takeToken (.inr (.inl ⟨.inr kind, out⟩)))
    · refine .inr (.inr ⟨d.toRule ruleType, k.spill, .inl ?_, fun t' turns => ?_⟩)
      · simp only [takeToken, kind, takeSeparator_eq listed typed, if_true]
      · cases turns with
        | same => exact bracket (covers.listed listed) typed kind
        | stands h => exact bracket (covers.closes h.1) typed h.2.2
  | rightParen =>
    rcases d.typed_or place.nested with out | ⟨nested, ruleType, typed⟩
    · exact .inl (refuses_takeToken (.inr (.inr ⟨kind, out⟩)))
    · refine .inr (.inr ⟨d.toRule ruleType, k, .inl ?_, fun t' turns => ?_⟩)
      · simp only [takeToken, kind, finishRule, typed, nested]
        rfl
      · cases turns with
        | same =>
          simp only [takeToken, kind, finishRule, typed, covers.nested, nested]
          rfl
        | stands h => exact absurd (kind.symm.trans h.2.1) (by simp)
  | ident =>
    simp only [takeToken, kind]
    exact .inr (.inl ⟨by simp, peeks_takeRuleType⟩)
  | comment =>
    simp only [takeToken, kind]
    exact .inr (.inl ⟨by simp, (PeeksAs.modifyGet _).bind fun _ => .done _⟩)
  | _ =>
    -- a value, a condition, or a token that no rule takes
    refine .inr (.inl ⟨by simp, ?_⟩)
    simp only [takeToken, kind, Kind.startsParameter, Kind.startsExpression, if_true, if_false,
      Bool.false_eq_true]
    first
    | exact peeks_takeParameter
    | exact peeks_takeExpression
    | exact (Refuses.refuse _ _).peeksAs

/-- Up to the end of a rule, or up to the parenthesis that opens a group. -/
theorem peeks_leadLoop (covers : place.Covers closing place') :
    PeeksAs (.brackets closing) (leadLoop fuel place n d) (leadLoop fuel place' n d) := by
  induction n generalizing d with
  | zero => exact fun k => (Reading.refuses_fail _).peeksAs
  | succ n ih =>
    refine PeeksAs.pop_bind fun k t => ?_
    rcases look_takeToken covers d k t with refuses | ⟨going, peeks⟩ | ⟨x, l, eq, eq'⟩
    · exact .refuses (refuses.bind _ k)
    · refine .takes going (peeks.bind (fun e => ?_) k)
      cases e with
      | more d => exact ih
      | finish r => exact .done _
      | group => exact .done _
    · refine .leaves (Reading.peeks_pure (Lead.rule x, l)) ?_ fun t' turns => ?_
      · refine eq.imp (fun eq => ?_) (And.imp_right fun eq => ?_)
        · change (takeToken fuel place d t k >>= _) = _
          rw [eq]
          rfl
        · change (takeToken fuel place d t k >>= _) = _
          rw [eq]
          rfl
      · change (takeToken fuel place' d t' k >>= _) = _
        rw [eq' t' turns]
        rfl

/-- **The start of a rule is read one token ahead.** -/
theorem peeks_lead (covers : place.Covers closing place') :
    PeeksAs (.brackets closing) (lead fuel place) (lead fuel place') := peeks_leadLoop covers

/-! ### A combined rule -/

variable {listed listed' : Bool} {g : GroupDraft} (here : listed → listed')
  (closes : closing → listed')

theorem peeks_takeConnective {operator : Connective} :
    PeeksAs stands (takeConnective g operator t) (takeConnective g operator t) := by
  unfold takeConnective
  split
  · exact (Refuses.refuse _ _).peeksAs
  · split
    · split
      · exact (Refuses.refuse _ _).peeksAs
      · exact .done _
    · exact .done _

theorem peeks_toRule (description : Option CommentGroup) :
    PeeksAs stands (g.toRule description) (g.toRule description) := by
  unfold GroupDraft.toRule
  split
  · exact .done _
  · exact .done _
  · exact (Refuses.fail _).peeksAs

include here closes

/-- A member is read one token ahead. -/
theorem peeks_member :
    PeeksAs (.brackets closing) (member fuel listed t) (member fuel listed' t) := by
  have covers : Place.Covers closing ⟨listed, true⟩ ⟨listed', true⟩ := ⟨rfl, here, closes⟩
  refine (PeeksAs.onTray ((peeks_lead covers).bind fun out => ?_) _ _).bind fun r => ?_
  · cases out with
    | rule r => exact .done _
    | group _ paren => exact (Refuses.refuse _ _).peeksAs
  · refine PeeksAs.pop_bind fun k close => ?_
    by_cases closed : close.kind = .rightParen
    · refine .takes (by simp [closed]) ?_
      simp only [closed, ne_eq, not_true_eq_false, if_false]
      exact Reading.peeks_pure _
    · refine .refuses ?_
      simp only [closed, ne_eq, not_false_eq_true, if_true]
      exact Refuses.refuse _ _ k

/-- A token is refused; or it is taken, and is not the end of the text; or it is left and the rule
is finished, whichever it is of those that may stand there. -/
theorem look_takeGroupToken (g : GroupDraft) (k : Tray) (t : Token) :
    (takeGroupToken fuel listed g t).Refuses ∨
      t.kind ≠ .eof ∧ PeeksAs (.brackets closing) (takeGroupToken fuel listed g t)
        (takeGroupToken fuel listed' g t) ∨
      (takeGroupToken fuel listed g t k = .push t (.done (.finish, k)) ∨
          t.kind = .eof ∧ takeGroupToken fuel listed g t k = .done (.finish, k)) ∧
        ∀ t', t.Turns (.brackets closing) t' →
          takeGroupToken fuel listed' g t' k = .push t' (.done (.finish, k)) := by
  -- a bracket that stands for the end of the text is left, where the end would have been taken
  have bracket : g.expectsMember = false → listed' → ∀ {t' : Token}, t'.kind = .rightBracket →
      takeGroupToken fuel listed' g t' k = .push t' (.done (.finish, k)) := by
    intro complete allowed t' kind
    simp only [takeGroupToken, kind, complete, allowed, Bool.false_eq_true, if_false, Bool.not_true,
      if_true]
    rfl
  cases kind : t.kind with
  | leftParen =>
    refine .inr (.inl ⟨by simp, ?_⟩)
    simp only [takeGroupToken, kind]
    split
    · exact (Refuses.refuse _ _).peeksAs
    · exact (peeks_member here closes).bind fun _ => .done _
  | kwAnd | kwOr =>
    simp only [takeGroupToken, kind]
    exact .inr (.inl ⟨by simp, peeks_takeConnective⟩)
  | eof =>
    cases complete : g.expectsMember with
    | true =>
      simp only [takeGroupToken, kind, complete, if_true]
      exact .inl (Refuses.refuse _ _)
    | false =>
      refine .inr (.inr ⟨.inr ⟨rfl, ?_⟩, fun t' turns => ?_⟩)
      · simp only [takeGroupToken, kind, complete]
        rfl
      · cases turns with
        | same going => exact absurd kind going
        | stands h => exact bracket complete (closes h.1) h.2.2
  | comma =>
    refine .inr (.inl ⟨by simp, ?_⟩)
    simp only [takeGroupToken, kind, reduceCtorEq, if_false]
    split
    · exact (Refuses.refuse _ _).peeksAs
    · cases listed with
      | false => exact (Refuses.refuse _ _).peeksAs
      | true =>
        rw [here rfl]
        exact .done _
  | rightBracket =>
    cases complete : g.expectsMember with
    | true =>
      simp only [takeGroupToken, kind, complete, if_true]
      exact .inl (Refuses.refuse _ _)
    | false =>
      cases listed with
      | false =>
        simp only [takeGroupToken, kind, complete, Bool.false_eq_true, if_false, Bool.not_false,
          if_true]
        exact .inl (Refuses.refuse _ _)
      | true =>
        refine .inr (.inr ⟨.inl ?_, fun t' turns => ?_⟩)
        · simp only [takeGroupToken, kind, complete, Bool.false_eq_true, if_false, Bool.not_true,
            if_true]
          rfl
        · cases turns with
          | same => exact bracket complete (here rfl) kind
          | stands h => exact bracket complete (closes h.1) h.2.2
  | comment =>
    simp only [takeGroupToken, kind]
    exact .inr (.inl ⟨by simp, .done _⟩)
  | _ =>
    simp only [takeGroupToken, kind]
    exact .inl (Refuses.refuse _ _)

/-- **The members of a combined rule are read one token ahead.** -/
theorem peeks_groupLoop :
    PeeksAs (.brackets closing) (groupLoop fuel listed n g) (groupLoop fuel listed' n g) := by
  induction n generalizing g with
  | zero => exact fun k => (Reading.refuses_fail _).peeksAs
  | succ n ih =>
    refine PeeksAs.pop_bind fun k t => ?_
    rcases look_takeGroupToken here closes g k t with refuses | ⟨going, peeks⟩ | ⟨eq, eq'⟩
    · exact .refuses (refuses.bind _ k)
    · refine .takes going (peeks.bind (fun e => ?_) k)
      cases e with
      | more g => exact ih
      | finish => exact .done _
    · refine .leaves (Reading.peeks_pure (g, k)) ?_ fun t' turns => ?_
      · refine eq.imp (fun eq => ?_) (And.imp_right fun eq => ?_)
        · change (takeGroupToken fuel listed g t k >>= _) = _
          rw [eq]
          rfl
        · change (takeGroupToken fuel listed g t k >>= _) = _
          rw [eq]
          rfl
      · change (takeGroupToken fuel listed' g t' k >>= _) = _
        rw [eq' t' turns]
        rfl

/-- What opens a combined rule is taken. -/
theorem peeks_takeGroupToken_empty :
    PeeksAs (.brackets closing) (takeGroupToken fuel listed GroupDraft.empty t)
      (takeGroupToken fuel listed' GroupDraft.empty t) := by
  have expects : GroupDraft.empty.expectsMember = true := rfl
  unfold takeGroupToken
  cases t.kind with
  | leftParen => exact (peeks_member here closes).bind fun _ => .done _
  | comment => exact .done _
  | _ => exact (Refuses.refuse _ _).peeksAs

/-- **What a rule comes to at one place, it comes to at another one** where whatever ends it may
stand as well; where a closing bracket may stand, that comes to the same as the end of the text. -/
theorem peeks_rule : PeeksAs (.brackets closing) (rule fuel listed) (rule fuel listed') := by
  obtain ⟨steps, depth⟩ := fuel
  cases steps with
  | zero => exact ((Refuses.fail _).bind _).peeksAs
  | succ steps =>
    have covers : Place.Covers closing ⟨listed, false⟩ ⟨listed', false⟩ := ⟨rfl, here, closes⟩
    refine (peeks_lead covers).bind fun out => ?_
    cases out with
    | rule r => exact .done _
    | group d paren =>
      dsimp only
      split
      · exact (Refuses.refuse _ _).peeksAs
      · refine (PeeksAs.modifyGet _).bind fun description => ?_
        have opens : PeeksAs (.brackets closing)
            (liftM (push paren) >>= fun _ =>
              groupLoop ⟨steps + 1, depth⟩ listed (steps + 1) GroupDraft.empty)
            (liftM (push paren) >>= fun _ =>
              groupLoop ⟨steps + 1, depth⟩ listed' (steps + 1) GroupDraft.empty) := by
          refine PeeksAs.push_pop ((peeks_takeGroupToken_empty here closes).bind fun e => ?_)
          cases e with
          | more g => exact peeks_groupLoop here closes
          | finish => exact .done _
        have finished := opens.bind fun g => peeks_toRule (g := g) description
        rwa [bind_assoc, bind_assoc] at finished

end Read

end QualityRules
