import QualityRules.Proofs.Runs.Condition

/-!
# Proofs — Runs — Rule

What the next token does to a rule that was read so far, and to a combined rule.  A step takes a
part and goes on (`LeadStep`, `GroupStep`); an end gives the result (`LeadEnd`, `GroupEnd`).

* `takeToken_cases` and `takeGroupToken_cases`: what a token can do, guards included.
* `leadLoop_gives` and `groupLoop_gives`: a loop takes a step and goes on, or it ends.
* `rule_gives`: a rule is read up to its end, or a parenthesis opens a combined rule before its
  type.
-/

namespace QualityRules.Read
open ParseRules (gives_bind gives_pure gives_lift)

/-- What the next token does to a rule that goes on: a comment waits on the tray, a name becomes
the type, a value or a condition is read. -/
inductive LeadStep (fuel : Nat) (d : Draft) (k : Tray) : Row → Draft → Tray → Row → Prop
  | comment {t m} (kind : t.kind = .comment) :
      LeadStep fuel d k (Row.cons t m) d (k.add (Comment.ofToken t)) m
  | ruleType {t m cs s} (kind : t.kind = .ident) (first : d.ruleType = none)
      (trail : (trailing fuel t.start).Gives m cs s) :
      LeadStep fuel d k (Row.cons t m)
        { d with
          ruleType := some ⟨t.start, t.text, CommentGroup.ofList? cs⟩
          description := (k.takeDescription t.start).1 }
        (k.takeDescription t.start).2 s
  | value {t m ruleType p cs s} (kind : t.kind.startsParameter) (typed : d.ruleType = some ruleType)
      (before : d.expression = none) (read : (parameter fuel t ruleType.pos).Gives m (p, cs) s) :
      LeadStep fuel d k (Row.cons t m)
        { d with parameters := d.parameters ++ [p], comments := d.comments ++ cs } k s
  | condition {t m ruleType e cs s} (kind : t.kind.startsExpression)
      (typed : d.ruleType = some ruleType) (first : d.expression = none)
      (read : (expression fuel t ruleType.pos).Gives m (e, cs) s) :
      LeadStep fuel d k (Row.cons t m)
        { d with expression := some e, comments := d.comments ++ cs } k s

/-- What the next token does to a rule that ends: it opens a group, or the rule is finished and the
token is taken or left. -/
inductive LeadEnd (place : Place) (d : Draft) (k : Tray) : Row → Lead → Tray → Row → Prop
  | group {t m} (kind : t.kind = .leftParen) : LeadEnd place d k (Row.cons t m) (.group d t) k m
  | text {t m ruleType} (kind : t.kind = .eof) (typed : d.ruleType = some ruleType) :
      LeadEnd place d k (Row.cons t m) (.rule (d.toRule ruleType)) k.spill m
  | comma {t m ruleType} (kind : t.kind = .comma) (listed : place.inRuleset)
      (typed : d.ruleType = some ruleType) :
      LeadEnd place d k (Row.cons t m) (.rule (d.toRule ruleType)) k.spill m
  | bracket {t m ruleType} (kind : t.kind = .rightBracket) (listed : place.inRuleset)
      (typed : d.ruleType = some ruleType) :
      LeadEnd place d k (Row.cons t m) (.rule (d.toRule ruleType)) k.spill (Row.cons t m)
  | paren {t m ruleType} (kind : t.kind = .rightParen) (nested : place.nested)
      (typed : d.ruleType = some ruleType) :
      LeadEnd place d k (Row.cons t m) (.rule (d.toRule ruleType)) k (Row.cons t m)

/-- What the next token does to a combined rule that goes on: a comment trails it, a connective
joins, a parenthesis opens a member. -/
inductive GroupStep (fuel : Nat) (inRuleset : Bool) (d : GroupDraft) (k : Tray) :
    Row → GroupDraft → Tray → Row → Prop
  | comment {t m} (kind : t.kind = .comment) :
      GroupStep fuel inRuleset d k (Row.cons t m)
        { d with trailing := d.trailing ++ [Comment.ofToken t] } k m
  | connective {t m operator} (kind : Connective.ofKind? t.kind = some operator)
      (complete : d.expectsMember = false) (same : ∀ previous ∈ d.operator, previous = operator) :
      GroupStep fuel inRuleset d k (Row.cons t m)
        { d with operator := some operator, expectsMember := true } k m
  | member {t m x l s} (kind : t.kind = .leftParen) (expected : d.expectsMember)
      (read : (member fuel inRuleset t).Gives k m x l s) :
      GroupStep fuel inRuleset d k (Row.cons t m)
        { d with members := d.members ++ [x], expectsMember := false } l s

/-- What the next token does to a combined rule that ends: it is taken, but a bracket is left. -/
inductive GroupEnd (inRuleset : Bool) (d : GroupDraft) : Row → Row → Prop
  | text {t m} (kind : t.kind = .eof) (complete : d.expectsMember = false) :
      GroupEnd inRuleset d (Row.cons t m) m
  | comma {t m} (kind : t.kind = .comma) (listed : inRuleset) (complete : d.expectsMember = false) :
      GroupEnd inRuleset d (Row.cons t m) m
  | bracket {t m} (kind : t.kind = .rightBracket) (listed : inRuleset)
      (complete : d.expectsMember = false) :
      GroupEnd inRuleset d (Row.cons t m) (Row.cons t m)

variable {fuel n : Nat} {place : Place} {t : Token} {r s m : Row} {k l : Tray} {d d' : Draft}
  {e : Effect}

/-! ### A rule -/

theorem gives_iteRules {α : Type} {c : Prop} [Decidable c] {p q : ParseRules α} {a : α} :
    (if c then p else q).Gives k r a l s ↔ c ∧ p.Gives k r a l s ∨ ¬ c ∧ q.Gives k r a l s := by
  split <;> simp_all

theorem takeParameter_gives : (takeParameter fuel d t).Gives k r e l s ↔
    ∃ ruleType p cs, d.ruleType = some ruleType ∧ d.expression = none ∧
      (parameter fuel t ruleType.pos).Gives r (p, cs) s ∧ l = k ∧
      e = .more { d with parameters := d.parameters ++ [p], comments := d.comments ++ cs } := by
  cases ty : d.ruleType with
  | none => simp [takeParameter, ty]
  | some ruleType =>
    simp only [takeParameter, ty, gives_iteRules, gives_lift, not_gives_refuse, and_false, false_or,
      gives_bind, gives_pure, Prod.exists, Option.some.injEq, Bool.not_eq_true,
      Option.isSome_eq_false_iff, Option.isNone_iff_eq_none]
    constructor
    · rintro ⟨k, p, cs, _, q, ⟨rfl, h⟩, rfl, rfl, rfl⟩
      exact ⟨ruleType, p, cs, rfl, k, h, rfl, rfl⟩
    · rintro ⟨_, p, cs, rfl, h, hp, rfl, rfl⟩
      exact ⟨h, p, cs, _, s, ⟨rfl, hp⟩, rfl, rfl, rfl⟩

theorem takeExpression_gives : (takeExpression fuel d t).Gives k r e l s ↔
    ∃ ruleType x cs, d.ruleType = some ruleType ∧ d.expression = none ∧
      (expression fuel t ruleType.pos).Gives r (x, cs) s ∧ l = k ∧
      e = .more { d with expression := some x, comments := d.comments ++ cs } := by
  cases ty : d.ruleType with
  | none => simp [takeExpression, ty]
  | some ruleType =>
    simp only [takeExpression, ty, gives_iteRules, gives_lift, not_gives_refuse, and_false,
      false_or, gives_bind, gives_pure, Prod.exists, Option.some.injEq, Bool.not_eq_true,
      Option.isSome_eq_false_iff, Option.isNone_iff_eq_none]
    constructor
    · rintro ⟨k, x, cs, _, q, ⟨rfl, h⟩, rfl, rfl, rfl⟩
      exact ⟨ruleType, x, cs, rfl, k, h, rfl, rfl⟩
    · rintro ⟨_, x, cs, rfl, h, hx, rfl, rfl⟩
      exact ⟨h, x, cs, _, s, ⟨rfl, hx⟩, rfl, rfl, rfl⟩

theorem takeRuleType_gives : (takeRuleType fuel d t).Gives k r e l s ↔
    d.ruleType = none ∧ ∃ cs, (trailing fuel t.start).Gives r cs s ∧
      l = (k.takeDescription t.start).2 ∧
      e = .more { d with
        ruleType := some ⟨t.start, t.text, CommentGroup.ofList? cs⟩
        description := (k.takeDescription t.start).1 } := by
  simp only [takeRuleType, gives_iteRules, gives_lift, not_gives_refuse, and_false, false_or,
    gives_bind, gives_pure, ParseRules.gives_takeDescription, Bool.not_eq_true,
    Option.isSome_eq_false_iff, Option.isNone_iff_eq_none]
  refine and_congr_right fun _ => ?_
  constructor
  · rintro ⟨g, k', q, ⟨eq, rfl⟩, cs, _, q', ⟨rfl, h⟩, rfl, rfl, rfl⟩
    exact ⟨cs, h, by rw [← eq], by rw [← eq]⟩
  · rintro ⟨cs, h, rfl, rfl⟩
    exact ⟨_, _, r, ⟨rfl, rfl⟩, cs, _, s, ⟨rfl, h⟩, rfl, rfl, rfl⟩

theorem finishRule_gives {found : String} : (finishRule d found t).Gives k r e l s ↔
    ∃ ruleType, d.ruleType = some ruleType ∧ e = .finish (d.toRule ruleType) ∧ l = k ∧ s = r := by
  cases ty : d.ruleType <;> simp [finishRule, ty]

theorem takeSeparator_gives : (takeSeparator place d t).Gives k r e l s ↔
    place.inRuleset ∧ ∃ ruleType, d.ruleType = some ruleType ∧ e = .finish (d.toRule ruleType) ∧
      l = k.spill ∧ s = if t.kind = .rightBracket then Row.cons t r else r := by
  simp only [takeSeparator, gives_bind, ParseRules.gives_spill, finishRule_gives, gives_iteRules,
    gives_lift, not_gives_refuse, and_false, false_or, gives_push, gives_pure,
    Bool.not_eq_eq_eq_not, Bool.not_true, Bool.not_eq_false]
  constructor
  · rintro ⟨_, _, _, ⟨rfl, rfl⟩, x, _, _, ⟨ruleType, ty, rfl, rfl, rfl⟩, listed,
      ⟨b, _, _, _, ⟨rfl, rfl⟩, rfl, rfl, rfl⟩ | ⟨b, rfl, rfl, rfl⟩⟩
    · exact ⟨listed, ruleType, ty, rfl, rfl, by rw [if_pos b]⟩
    · exact ⟨listed, ruleType, ty, rfl, rfl, by rw [if_neg b]⟩
  · rintro ⟨listed, ruleType, ty, rfl, rfl, rfl⟩
    refine ⟨(), _, r, ⟨rfl, rfl⟩, _, _, r, ⟨ruleType, ty, rfl, rfl, rfl⟩, listed, ?_⟩
    by_cases b : t.kind = .rightBracket
    · exact .inl ⟨b, (), _, _, ⟨rfl, rfl⟩, rfl, rfl, by rw [if_pos b]⟩
    · exact .inr ⟨b, rfl, rfl, by rw [if_neg b]⟩

/-- A token takes a rule a step on, or ends it. -/
theorem takeToken_cases (h : (takeToken fuel place d t).Gives k r e l s) :
    (∃ d', e = .more d' ∧ LeadStep fuel d k (Row.cons t r) d' l s) ∨
      (∃ x, e = .finish x ∧ LeadEnd place d k (Row.cons t r) (.rule x) l s) ∨
      e = .group ∧ LeadEnd place d k (Row.cons t r) (.group d t) l s := by
  rw [takeToken] at h
  cases kind : t.kind with
  | comment =>
    simp only [kind, gives_bind, ParseRules.gives_addComment, gives_pure] at h
    obtain ⟨_, _, _, ⟨rfl, rfl⟩, rfl, rfl, rfl⟩ := h
    exact .inl ⟨d, rfl, .comment kind⟩
  | ident =>
    simp only [kind, takeRuleType_gives] at h
    obtain ⟨first, cs, trail, rfl, rfl⟩ := h
    exact .inl ⟨_, rfl, .ruleType kind first trail⟩
  | leftParen =>
    simp only [kind, gives_pure] at h
    obtain ⟨rfl, rfl, rfl⟩ := h
    exact .inr (.inr ⟨rfl, .group kind⟩)
  | eof =>
    simp only [kind, gives_bind, ParseRules.gives_spill, finishRule_gives] at h
    obtain ⟨_, _, _, ⟨rfl, rfl⟩, ruleType, ty, rfl, rfl, rfl⟩ := h
    exact .inr (.inl ⟨_, rfl, .text kind ty⟩)
  | comma =>
    simp only [kind, takeSeparator_gives, reduceCtorEq, if_false] at h
    obtain ⟨listed, ruleType, ty, rfl, rfl, rfl⟩ := h
    exact .inr (.inl ⟨_, rfl, .comma kind listed ty⟩)
  | rightBracket =>
    simp only [kind, takeSeparator_gives, if_true] at h
    obtain ⟨listed, ruleType, ty, rfl, rfl, rfl⟩ := h
    exact .inr (.inl ⟨_, rfl, .bracket kind listed ty⟩)
  | rightParen =>
    simp only [kind, gives_iteRules, gives_lift, not_gives_refuse, and_false, false_or,
      gives_bind, gives_push, finishRule_gives, Bool.not_eq_eq_eq_not, Bool.not_true,
      Bool.not_eq_false] at h
    obtain ⟨nested, _, _, _, ⟨rfl, rfl⟩, ruleType, ty, rfl, rfl, rfl⟩ := h
    exact .inr (.inl ⟨_, rfl, .paren kind nested ty⟩)
  | number | string | kwTrue | kwFalse | kwNow =>
    simp only [kind, Kind.startsParameter, if_true, takeParameter_gives] at h
    obtain ⟨ruleType, p, cs, ty, before, hp, rfl, rfl⟩ := h
    exact .inl ⟨_, rfl, .value (by rw [kind]; rfl) ty before hp⟩
  | kwBetween | kwIn | kwMatches | equal | greater | less | greaterEqual | lessEqual =>
    simp only [kind, Kind.startsParameter, Kind.startsExpression, if_true, if_false,
      takeExpression_gives, Bool.false_eq_true] at h
    obtain ⟨ruleType, x, cs, ty, first, hx, rfl, rfl⟩ := h
    exact .inl ⟨_, rfl, .condition (by rw [kind]; rfl) ty first hx⟩
  | _ => simp [kind, Kind.startsParameter, Kind.startsExpression] at h

theorem LeadStep.gives {k' : Tray} (step : LeadStep fuel d k r d' k' s) (place : Place) :
    ∃ t m, r = Row.cons t m ∧ (takeToken fuel place d t).Gives k m (.more d') k' s := by
  cases step with
  | @comment t m kind =>
    refine ⟨t, s, rfl, ?_⟩
    simp only [takeToken, kind, gives_bind, ParseRules.gives_addComment, gives_pure]
    exact ⟨(), _, s, ⟨rfl, rfl⟩, trivial, rfl, rfl⟩
  | @ruleType t m cs s kind first trail =>
    refine ⟨t, m, rfl, ?_⟩
    simp only [takeToken, kind, takeRuleType_gives]
    exact ⟨first, cs, trail, trivial, rfl⟩
  | @value t m ruleType p cs s kind typed before read =>
    refine ⟨t, m, rfl, ?_⟩
    have := takeParameter_gives.mpr ⟨ruleType, p, cs, typed, before, read, (rfl : k = k), rfl⟩
    cases e : t.kind <;> simp_all [takeToken, Kind.startsParameter]
  | @condition t m ruleType x cs s kind typed first read =>
    refine ⟨t, m, rfl, ?_⟩
    have := takeExpression_gives.mpr ⟨ruleType, x, cs, typed, first, read, (rfl : k = k), rfl⟩
    cases e : t.kind <;> simp_all [takeToken, Kind.startsParameter, Kind.startsExpression]

/-- The rule that ends is finished, or a group opens. -/
theorem LeadEnd.gives {out : Lead} (stop : LeadEnd place d k r out l s) (fuel : Nat) :
    ∃ t m, r = Row.cons t m ∧
      ((∃ x, out = .rule x ∧ (takeToken fuel place d t).Gives k m (.finish x) l s) ∨
        out = .group d t ∧ (takeToken fuel place d t).Gives k m .group l s) := by
  cases stop with
  | @group t m kind => exact ⟨t, s, rfl, .inr ⟨rfl, by simp [takeToken, kind]⟩⟩
  | @text t m ruleType kind typed =>
    refine ⟨t, s, rfl, .inl ⟨_, rfl, ?_⟩⟩
    simp [takeToken, kind, gives_bind, finishRule_gives, typed]
  | @comma t m ruleType kind listed typed =>
    refine ⟨t, s, rfl, .inl ⟨_, rfl, ?_⟩⟩
    simp [takeToken, kind, takeSeparator_gives, typed, listed]
  | @bracket t m ruleType kind listed typed =>
    refine ⟨t, m, rfl, .inl ⟨_, rfl, ?_⟩⟩
    simp [takeToken, kind, takeSeparator_gives, typed, listed]
  | @paren t m ruleType kind nested typed =>
    refine ⟨t, m, rfl, .inl ⟨_, rfl, ?_⟩⟩
    simp [takeToken, kind, gives_bind, finishRule_gives, typed, nested]

/-- A rule goes on by a step, or it ends. -/
theorem leadLoop_gives {out : Lead} : (leadLoop fuel place (n + 1) d).Gives k r out l s ↔
    (∃ d' k' m, LeadStep fuel d k r d' k' m ∧ (leadLoop fuel place n d').Gives k' m out l s) ∨
      LeadEnd place d k r out l s := by
  rw [leadLoop, ParseRules.gives_pop_bind]
  simp only [gives_bind]
  constructor
  · rintro ⟨t, m, rfl, e, k', m', took, rest⟩
    obtain ⟨d', rfl, step⟩ | ⟨x, rfl, stop⟩ | ⟨rfl, stop⟩ := takeToken_cases took
    · exact .inl ⟨d', k', m', step, rest⟩
    · obtain ⟨rfl, rfl, rfl⟩ := gives_pure.mp rest
      exact .inr stop
    · obtain ⟨rfl, rfl, rfl⟩ := gives_pure.mp rest
      exact .inr stop
  · rintro (⟨d', k', m, step, rest⟩ | stop)
    · obtain ⟨t, q, rfl, took⟩ := step.gives place
      exact ⟨t, q, rfl, _, k', m, took, rest⟩
    · obtain ⟨t, q, rfl, ⟨x, rfl, took⟩ | ⟨rfl, took⟩⟩ := stop.gives fuel
      · exact ⟨t, q, rfl, _, l, s, took, gives_pure.mpr ⟨rfl, rfl, rfl⟩⟩
      · exact ⟨t, q, rfl, _, l, s, took, gives_pure.mpr ⟨rfl, rfl, rfl⟩⟩

theorem lead_gives {out : Lead} : (lead fuel place).Gives k r out l s ↔
    (leadLoop fuel place fuel Draft.empty).Gives k r out l s := Iff.rfl

/-! ### A combined rule -/

variable {inRuleset : Bool} {g g' : GroupDraft} {e' : GroupEffect} {operator : Connective}

/-- The rule of a member is read with a run of its own, up to the parenthesis that closes it. -/
theorem member_gives {x : Member} : (member fuel inRuleset t).Gives k r x l s ↔
    ∃ y l' close, (lead fuel ⟨inRuleset, true⟩).Gives ⟨k.floating, []⟩ r (.rule y) l'
        (Row.cons close s) ∧
      close.kind = .rightParen ∧ l = ⟨l'.floating, k.run⟩ ∧ x = ⟨t.start, y, close.start⟩ := by
  -- inside parentheses another one that opens a group is refused
  have nested : ∀ {y k l r s}, (nestedRule fuel inRuleset).Gives k r y l s ↔
      (lead fuel ⟨inRuleset, true⟩).Gives k r (.rule y) l s := by
    intro y k l r s
    simp only [nestedRule, gives_bind]
    constructor
    · rintro ⟨out, l', m, h, rest⟩
      cases out with
      | rule z =>
        obtain ⟨rfl, rfl, rfl⟩ := gives_pure.mp rest
        exact h
      | group d paren => exact absurd (gives_lift.mp rest).2 not_gives_refuse
    · intro h
      exact ⟨_, l, s, h, gives_pure.mpr ⟨rfl, rfl, rfl⟩⟩
  simp only [member, gives_bind, ParseRules.gives_withFreshRun, nested, gives_lift, gives_pop,
    gives_iteRules, not_gives_refuse, and_false, false_or, gives_pure, ne_eq, Classical.not_not]
  constructor
  · rintro ⟨y, _, m, ⟨l', h, rfl⟩, close, _, m', ⟨rfl, rfl⟩, kind, rfl, rfl, rfl⟩
    exact ⟨y, l', close, h, kind, rfl, rfl⟩
  · rintro ⟨y, l', close, h, kind, rfl, rfl⟩
    exact ⟨y, _, _, ⟨l', h, rfl⟩, close, _, s, ⟨rfl, rfl⟩, kind, rfl, rfl, rfl⟩

theorem takeConnective_gives : (takeConnective g operator t).Gives k r e' l s ↔
    g.expectsMember = false ∧ (∀ previous ∈ g.operator, previous = operator) ∧
      e' = .more { g with operator := some operator, expectsMember := true } ∧ l = k ∧ s = r := by
  obtain ⟨members, _ | previous, _ | _, trailing⟩ := g
  · simp [takeConnective]
  · simp [takeConnective]
  · by_cases same : previous = operator <;> simp [takeConnective, same]
  · simp [takeConnective]

/-- A token takes a combined rule a step on, or ends it. -/
theorem takeGroupToken_cases (h : (takeGroupToken fuel inRuleset g t).Gives k r e' l s) :
    (∃ d, e' = .more d ∧ GroupStep fuel inRuleset g k (Row.cons t r) d l s) ∨
      e' = .finish ∧ GroupEnd inRuleset g (Row.cons t r) s ∧ l = k := by
  rw [takeGroupToken] at h
  cases kind : t.kind with
  | comment =>
    simp only [kind, gives_pure] at h
    obtain ⟨rfl, rfl, rfl⟩ := h
    exact .inl ⟨_, rfl, .comment kind⟩
  | kwAnd | kwOr =>
    simp only [kind, takeConnective_gives] at h
    obtain ⟨complete, same, rfl, rfl, rfl⟩ := h
    exact .inl ⟨_, rfl, .connective (by rw [kind]; rfl) complete same⟩
  | leftParen =>
    simp only [kind, gives_iteRules, gives_lift, not_gives_refuse, and_false, false_or, gives_bind,
      gives_pure, Bool.not_eq_eq_eq_not, Bool.not_true, Bool.not_eq_false] at h
    obtain ⟨expected, x, _, _, read, rfl, rfl, rfl⟩ := h
    exact .inl ⟨_, rfl, .member kind expected read⟩
  | eof =>
    simp only [kind, gives_iteRules, gives_lift, not_gives_refuse, and_false, false_or, gives_pure,
      Bool.not_eq_true] at h
    obtain ⟨complete, rfl, rfl, rfl⟩ := h
    exact .inr ⟨rfl, .text kind complete, rfl⟩
  | comma =>
    simp only [kind, gives_iteRules, gives_lift, not_gives_refuse, and_false, false_or, gives_pure,
      reduceCtorEq, if_false, Bool.not_eq_true, Bool.not_eq_eq_eq_not, Bool.not_true,
      Bool.not_eq_false] at h
    obtain ⟨complete, listed, rfl, rfl, rfl⟩ := h
    exact .inr ⟨rfl, .comma kind listed complete, rfl⟩
  | rightBracket =>
    simp only [kind, gives_iteRules, gives_lift, not_gives_refuse, and_false, false_or, gives_pure,
      gives_bind, gives_push, if_true, Bool.not_eq_true, Bool.not_eq_eq_eq_not, Bool.not_true,
      Bool.not_eq_false] at h
    obtain ⟨complete, listed, _, _, _, ⟨rfl, rfl⟩, rfl, rfl, rfl⟩ := h
    exact .inr ⟨rfl, .bracket kind listed complete, rfl⟩
  | _ => simp [kind] at h

theorem GroupStep.gives {k' : Tray} (step : GroupStep fuel inRuleset g k r g' k' s) :
    ∃ t m, r = Row.cons t m ∧ (takeGroupToken fuel inRuleset g t).Gives k m (.more g') k' s := by
  cases step with
  | @comment t m kind => exact ⟨t, s, rfl, by simp [takeGroupToken, kind]⟩
  | @connective t m operator kind complete same =>
    refine ⟨t, s, rfl, ?_⟩
    have := takeConnective_gives (t := t).mpr ⟨complete, same, rfl, (rfl : k = k), (rfl : s = s)⟩
    cases e : t.kind <;> simp_all [takeGroupToken, Connective.ofKind?]
  | @member t m x l s kind expected read =>
    refine ⟨t, m, rfl, ?_⟩
    simp only [takeGroupToken, kind, gives_iteRules, expected, Bool.not_true, reduceCtorEq,
      not_false_eq_true, true_and, false_and, false_or, gives_bind, gives_pure]
    exact ⟨x, _, _, read, rfl, rfl, rfl⟩

theorem GroupEnd.gives (stop : GroupEnd inRuleset g r s) (fuel : Nat) (k : Tray) :
    ∃ t m, r = Row.cons t m ∧ (takeGroupToken fuel inRuleset g t).Gives k m .finish k s := by
  cases stop with
  | @text t m kind complete => exact ⟨t, s, rfl, by simp [takeGroupToken, kind, complete]⟩
  | @comma t m kind listed complete =>
    exact ⟨t, s, rfl, by simp [takeGroupToken, kind, listed, complete]⟩
  | @bracket t m kind listed complete =>
    refine ⟨t, m, rfl, ?_⟩
    simp only [takeGroupToken, kind, complete, listed, Bool.false_eq_true, if_false,
      Bool.not_true, if_true, gives_bind, gives_lift, gives_push, gives_pure]
    exact ⟨(), k, _, ⟨rfl, rfl⟩, trivial, rfl, rfl⟩

/-- A combined rule goes on by a step, or it ends. -/
theorem groupLoop_gives : (groupLoop fuel inRuleset (n + 1) g).Gives k r g' l s ↔
    (∃ d k' m, GroupStep fuel inRuleset g k r d k' m ∧
      (groupLoop fuel inRuleset n d).Gives k' m g' l s) ∨
    GroupEnd inRuleset g r s ∧ g' = g ∧ l = k := by
  rw [groupLoop, ParseRules.gives_pop_bind]
  simp only [gives_bind]
  constructor
  · rintro ⟨t, m, rfl, e, k', m', took, rest⟩
    obtain ⟨d, rfl, step⟩ | ⟨rfl, stop, rfl⟩ := takeGroupToken_cases took
    · exact .inl ⟨d, k', m', step, rest⟩
    · obtain ⟨rfl, rfl, rfl⟩ := gives_pure.mp rest
      exact .inr ⟨stop, rfl, rfl⟩
  · rintro (⟨d, k', m, step, rest⟩ | ⟨stop, rfl, rfl⟩)
    · obtain ⟨t, q, rfl, took⟩ := step.gives
      exact ⟨t, q, rfl, _, k', m, took, rest⟩
    · obtain ⟨t, q, rfl, took⟩ := stop.gives fuel l
      exact ⟨t, q, rfl, _, l, s, took, gives_pure.mpr ⟨rfl, rfl, rfl⟩⟩

/-- At a parenthesis a combined rule starts with the member that it opens. -/
theorem groupLoop_gives_first (kind : t.kind = .leftParen)
    (read : (groupLoop fuel inRuleset n GroupDraft.empty).Gives k (Row.cons t m) g l s) :
    ∃ i x k' m', (member fuel inRuleset t).Gives k m x k' m' ∧
      (groupLoop fuel inRuleset i ⟨[x], none, false, []⟩).Gives k' m' g l s := by
  cases n with
  | zero => exact absurd (gives_lift.mp read).2 not_gives_fail
  | succ n =>
    generalize row : Row.cons t m = r at read
    obtain ⟨d, k', m', step, rest⟩ | ⟨stop, -, -⟩ := groupLoop_gives.mp read
    · cases step with
      | comment kind' | connective kind' _ _ =>
        obtain ⟨rfl, -⟩ := Row.cons_inj.mp row
        simp [kind, Connective.ofKind?] at kind'
      | member _ _ read =>
        obtain ⟨rfl, rfl⟩ := Row.cons_inj.mp row
        exact ⟨n, _, k', m', read, rest⟩
    · cases stop with
      | text _ complete | comma _ _ complete | bracket _ _ complete => cases complete

variable {description : Option CommentGroup} {decl : RuleDecl}

/-- A lone member is a rule by itself, several are combined. -/
theorem toRule_gives : (g.toRule description).Gives k r decl l s ↔
    ((∃ x, g.operator = none ∧ g.members = [x] ∧
        decl = .single { x.rule with
          description
          comments := CommentGroup.ofList? (CommentGroup.listOf x.rule.comments ++ g.trailing) }) ∨
      ∃ operator first others, g.operator = some operator ∧ g.members = first :: others ∧
        decl = .combined ⟨first.leftParen, ((first :: others).getLastD first).rightParen,
          (first :: others).map Member.rule, operator, description,
          CommentGroup.ofList? g.trailing⟩) ∧ l = k ∧ s = r := by
  obtain ⟨_ | ⟨x, _ | ⟨y, others⟩⟩, _ | operator, expects, trailing⟩ := g <;>
    simp [GroupDraft.toRule, and_comm, and_assoc]

theorem group_gives : (group fuel inRuleset description).Gives k r decl l s ↔
    ∃ g, (groupLoop fuel inRuleset fuel GroupDraft.empty).Gives k r g l s ∧
      (g.toRule description).Gives l s decl l s := by
  simp only [group, gives_bind]
  constructor
  · rintro ⟨g, l', m, h, rest⟩
    obtain ⟨-, rfl, rfl⟩ := toRule_gives.mp rest
    exact ⟨g, h, rest⟩
  · rintro ⟨g, h, rest⟩
    exact ⟨g, l, s, h, rest⟩

/-- A rule is read up to its end, or a parenthesis before its type opens a combined rule. -/
theorem rule_gives : (rule fuel inRuleset).Gives k r decl l s ↔
    (∃ x, (lead fuel ⟨inRuleset, false⟩).Gives k r (.rule x) l s ∧ decl = .single x) ∨
      ∃ d paren k' m, (lead fuel ⟨inRuleset, false⟩).Gives k r (.group d paren) k' m ∧
        d.ruleType = none ∧
        (group fuel inRuleset (k'.takeDescription paren.start).1).Gives
          (k'.takeDescription paren.start).2 (Row.cons paren m) decl l s := by
  simp only [rule, gives_bind]
  constructor
  · rintro ⟨out, k', m, h, rest⟩
    cases out with
    | rule x =>
      obtain ⟨rfl, rfl, rfl⟩ := gives_pure.mp rest
      exact .inl ⟨x, h, rfl⟩
    | group d paren =>
      simp only [gives_iteRules, gives_lift, not_gives_refuse, and_false, false_or, gives_bind,
        ParseRules.gives_takeDescription, gives_push, Bool.not_eq_true,
        Option.isSome_eq_false_iff, Option.isNone_iff_eq_none] at rest
      obtain ⟨untyped, g, k'', _, ⟨eq, rfl⟩, _, _, _, ⟨rfl, rfl⟩, read⟩ := rest
      refine .inr ⟨d, paren, k', _, h, untyped, ?_⟩
      rw [← eq]
      exact read
  · rintro (⟨x, h, rfl⟩ | ⟨d, paren, k', m, h, untyped, read⟩)
    · exact ⟨_, l, s, h, gives_pure.mpr ⟨rfl, rfl, rfl⟩⟩
    · refine ⟨_, k', m, h, ?_⟩
      simp only [gives_iteRules, gives_lift, not_gives_refuse, and_false, false_or, gives_bind,
        ParseRules.gives_takeDescription, gives_push, Bool.not_eq_true,
        Option.isSome_eq_false_iff, Option.isNone_iff_eq_none]
      exact ⟨untyped, _, _, m, ⟨rfl, rfl⟩, (), _, _, ⟨rfl, rfl⟩, read⟩

end QualityRules.Read
