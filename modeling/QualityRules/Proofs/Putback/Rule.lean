import QualityRules.Proofs.Failures
import QualityRules.Proofs.Putback.Value

/-!
# Proofs — Putback — Rule

Rules and rulesets put back what they took last.  A parenthesis that opens a group is taken by one
reader and put back by another; what comes between them takes no token.

* `heeds_takeToken` and `heeds_lead` hand the parenthesis on, `putsBack_rule` puts it back.
* `putsBack_ruleset` and `putsBack_file` are about rulesets.
* `Entry.putsBack_reader`: whatever entry reads a text, it puts back what it took last.
-/

namespace QualityRules

namespace Read
open ParseRules (Heeds PutsBack)

variable {fuel : Fuel} {steps m : Nat} {t : Token} {held : Option Token} {place : Place} {d : Draft}
  {g : GroupDraft} {inRuleset : Bool}

/-- What is handed on behind a token: a parenthesis that opens a group is still at hand. -/
def Effect.HandsOn (t : Token) (e : Effect) (held : Option Token) : Prop :=
  e = .group → held = some t

theorem heeds_finishRule (found : String) :
    (finishRule d found t).Heeds held fun e held' => e ≠ .group ∧ held' = held := by
  unfold finishRule
  cases d.ruleType with
  | none => exact .fail _
  | some ruleType => exact .done ⟨nofun, rfl⟩

theorem finishRule_handsOn (found : String) :
    (finishRule d found t).Heeds held (Effect.HandsOn t) :=
  (heeds_finishRule found).imp fun _ _ other opens => absurd opens other.1

theorem heeds_takeParameter : (takeParameter steps d t).Heeds held (Effect.HandsOn t) := by
  unfold takeParameter
  cases d.ruleType with
  | none => exact .fail _
  | some ruleType =>
    dsimp only
    split
    · exact .fail _
    · exact (PutsBack.lift putsBack_parameter held).bind fun _ _ _ => .done nofun

theorem heeds_takeExpression : (takeExpression fuel d t).Heeds held (Effect.HandsOn t) := by
  unfold takeExpression
  cases d.ruleType with
  | none => exact .fail _
  | some ruleType =>
    dsimp only
    split
    · exact .fail _
    · exact (PutsBack.lift putsBack_expression held).bind fun _ _ _ => .done nofun

theorem heeds_takeRuleType : (takeRuleType steps d t).Heeds held (Effect.HandsOn t) := by
  unfold takeRuleType
  split
  · exact .fail _
  · exact (PutsBack.modifyGet _ held).bind fun _ held _ =>
      (PutsBack.lift putsBack_trailing held).bind fun _ _ _ => .done nofun

theorem heeds_takeSeparator :
    (takeSeparator place d t).Heeds (some t) (Effect.HandsOn t) := by
  have spilled : spill.Heeds (some t) fun _ held => held = some t := .modifyGet _ fun _ => rfl
  refine spilled.bind fun _ held same =>
    (heeds_finishRule _).bind fun e held' ⟨other, kept⟩ => ?_
  subst kept same
  split
  · exact .fail _
  · split
    · exact .push_bind (.done fun opens => absurd opens other)
    · exact .done fun opens => absurd opens other

theorem heeds_takeToken : (takeToken fuel place d t).Heeds (some t) (Effect.HandsOn t) := by
  unfold takeToken
  cases t.kind with
  | leftParen => exact .done fun _ => rfl
  | eof => exact (PutsBack.modifyGet _ _).bind fun _ _ _ => finishRule_handsOn _
  | comma | rightBracket => exact heeds_takeSeparator
  | rightParen =>
    dsimp only
    split
    · exact .fail _
    · exact .push_bind (finishRule_handsOn _)
  | ident => exact heeds_takeRuleType
  | comment => exact (PutsBack.modifyGet _ _).bind fun _ _ _ => .done nofun
  | _ =>
    dsimp only
    split
    · exact heeds_takeParameter
    · split
      · exact heeds_takeExpression
      · exact .fail _

/-- Behind the start of a rule: a parenthesis that opens a group is still at hand. -/
def Lead.HandsOn (out : Lead) (held : Option Token) : Prop :=
  ∀ d paren, out = .group d paren → held = some paren

theorem heeds_lead : (lead fuel place).Heeds held Lead.HandsOn := by
  suffices loop : ∀ m d held, (leadLoop fuel place m d).Heeds held Lead.HandsOn from
    loop fuel.steps Draft.empty held
  intro m
  induction m with
  | zero => exact fun _ _ => .fail _
  | succ m ih =>
    refine fun d held => .pop_bind fun t => heeds_takeToken.bind fun e held opens => ?_
    cases e with
    | more d => exact ih d held
    | finish x => exact .done fun _ _ same => nomatch same
    | group =>
      refine .done fun d' paren same => ?_
      cases same
      exact opens rfl

/-! ### Rules in parentheses -/

theorem putsBack_nestedRule : (nestedRule fuel inRuleset).PutsBack := fun _ =>
  heeds_lead.bind fun out held _ => by
    cases out with
    | rule x => exact .done trivial
    | group d paren => exact .fail _

theorem putsBack_member : (member fuel inRuleset t).PutsBack := by
  refine (putsBack_nestedRule.onTray _ _).bind fun x => (PutsBack.lift putsBack_pop).bind
    fun close => ?_
  split
  · exact .fail _
  · exact .done _

theorem putsBack_takeConnective (operator : Connective) :
    (takeConnective g operator t).PutsBack := by
  unfold takeConnective
  split
  · exact .fail _
  · cases g.operator with
    | none => exact .done _
    | some previous =>
      dsimp only
      split
      · exact .fail _
      · exact .done _

theorem heeds_takeGroupToken :
    (takeGroupToken fuel inRuleset g t).Heeds (some t) fun _ _ => True := by
  unfold takeGroupToken
  cases t.kind with
  | leftParen =>
    dsimp only
    split
    · exact .fail _
    · exact (putsBack_member _).bind fun _ _ _ => .done trivial
  | kwAnd | kwOr => exact putsBack_takeConnective _ _
  | eof =>
    dsimp only
    split
    · exact .fail _
    · exact .done trivial
  | comma | rightBracket =>
    dsimp only
    split
    · exact .fail _
    · split
      · exact .fail _
      · split
        · exact .push_bind (.done trivial)
        · exact .done trivial
  | comment => exact .done trivial
  | _ => exact .fail _

theorem putsBack_groupLoop (m : Nat) (g : GroupDraft) :
    (groupLoop fuel inRuleset m g).PutsBack := by
  induction m generalizing g with
  | zero => exact .fail _
  | succ m ih =>
    refine fun held => .pop_bind fun t => heeds_takeGroupToken.bind fun e held _ => ?_
    cases e with
    | more g => exact ih g held
    | finish => exact .done trivial

theorem putsBack_group (description : Option CommentGroup) :
    (group fuel inRuleset description).PutsBack := by
  refine (putsBack_groupLoop _ _).bind fun g => ?_
  unfold GroupDraft.toRule
  split
  · exact .done _
  · exact .done _
  · exact .fail _

theorem putsBack_rule : (rule fuel inRuleset).PutsBack := by
  refine fun held => heeds_lead.bind fun out held opens => ?_
  cases out with
  | rule x => exact .done trivial
  | group d paren =>
    obtain rfl := opens d paren rfl
    have taken : ∀ pos, (takeDescription pos).Heeds (some paren)
        fun _ held => held = some paren := fun pos => .modifyGet _ fun _ => rfl
    dsimp only
    split
    · exact .fail _
    · refine (taken _).bind fun description held same => ?_
      subst same
      exact .push_bind (putsBack_group description none)

/-! ### Rulesets and files -/

theorem putsBack_withTray {α : Type} {p : ParseRules α} (inner : Tray) (h : p.PutsBack) :
    (withTray inner p).PutsBack := by
  have get : (get : ParseRules Tray).PutsBack := fun _ _ => trivial
  exact (h.bind fun _ => get.bind fun _ => .done _).onTray _ _

theorem putsBack_takeHeader : (takeHeader steps t).PutsBack := by
  refine (PutsBack.lift putsBack_pop).bind fun equal => ?_
  split
  · exact .fail _
  · refine (PutsBack.lift putsBack_popTrailing).bind fun (bracket, comments) => ?_
    dsimp only
    split
    · exact .fail _
    · exact (PutsBack.modifyGet _).bind fun _ => .done _

theorem heeds_takeRulesetToken {d : RulesetDraft} :
    (takeRulesetToken fuel d t).Heeds (some t) fun _ _ => True := by
  unfold takeRulesetToken
  cases d.header with
  | none =>
    dsimp only [takeOutside]
    cases t.kind with
    | eof => exact (PutsBack.modifyGet _ _).bind fun _ _ _ => .fail _
    | kwRules => exact (putsBack_takeHeader _).bind fun _ _ _ => .done trivial
    | comment => exact (PutsBack.modifyGet _ _).bind fun _ _ _ => .done trivial
    | _ => exact .fail _
  | some h =>
    dsimp only [takeInside]
    cases t.kind with
    | eof | kwRules => exact .fail _
    | rightBracket => exact (PutsBack.lift putsBack_trailing _).bind fun _ _ _ => .done trivial
    | comment => exact .done trivial
    | _ => exact .push_bind ((putsBack_withTray d.inner putsBack_rule none).bind
        fun _ _ _ => .done trivial)

theorem putsBack_rulesetLoop (m : Nat) (d : RulesetDraft) : (rulesetLoop fuel m d).PutsBack := by
  induction m generalizing d with
  | zero => exact .fail _
  | succ m ih =>
    refine fun held => .pop_bind fun t => heeds_takeRulesetToken.bind fun e held _ => ?_
    cases e with
    | more d => exact ih d held
    | finish x => exact .done trivial

theorem putsBack_ruleset : (ruleset fuel).PutsBack := by
  unfold ruleset withFreshRun
  exact (putsBack_rulesetLoop _ _).onTray _ _

theorem putsBack_ruleset? : (ruleset? fuel).PutsBack := by
  intro held k
  refine (putsBack_ruleset held k).attempt.bind fun out held _ => ?_
  rcases out with ⟨e, l⟩ | ⟨x, l⟩
  · cases e <;> trivial
  · trivial

theorem putsBack_rulesetsLoop (m : Nat) (before : List Ruleset) :
    (rulesetsLoop fuel m before).PutsBack := by
  induction m generalizing before with
  | zero => exact .fail _
  | succ m ih =>
    refine putsBack_ruleset?.bind fun found => ?_
    cases found with
    | none =>
      dsimp only
      split
      · exact .fail _
      · exact .done _
    | some x =>
      refine fun held => .pop_bind fun t => ?_
      split
      · exact .done trivial
      · exact .push_bind (ih _ none)

theorem putsBack_file (filename : String) : (file fuel filename).PutsBack :=
  (putsBack_rulesetsLoop _ _).bind fun _ _ _ => trivial

end Read

/-- Whatever entry reads a text, it puts back nothing but what it took last. -/
theorem Entry.putsBack_reader (entry : Entry) (fuel : Read.Fuel) : (entry.reader fuel).PutsBack := by
  cases entry with
  | rule => exact Read.putsBack_rule.bind fun _ => .done _
  | ruleset => exact Read.putsBack_ruleset.bind fun _ => .done _
  | file filename => exact (Read.putsBack_file filename).bind fun _ => .done _

end QualityRules
