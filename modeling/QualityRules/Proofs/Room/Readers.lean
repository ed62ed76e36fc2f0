import QualityRules.Proofs.NoRules
import QualityRules.Proofs.Putback.Rule
import QualityRules.Proofs.Room.Calculus

/-!
# Proofs — Room — Readers

Every reader with less room for open conditions is the one with more room with branches cut off.
Only a condition behind `with threshold` needs more room than the one before it, so that a reader
with room for `n` of them is cut off past `n` words `with`.

* `prunes_expressionLoop` and `expressionLoop_keeps` are about conditions: two that are open inside
  one another are all that a result needs.
* `narrows_rule`, `narrows_ruleset` and `Entry.prunes_reader` are about what is made of them.
-/

namespace QualityRules

namespace Read
open Reading (Prunes gives_bind)

variable {steps n m : Nat} {t : Token} {rulePos : Pos} {r s : Row}

/-! ### Conditions -/

theorem prunes_thresholdSuffix {k : Int} {inner inner' : Token → Parse (Expression × List Comment)}
    (back : ∀ t, (inner t).PutsBack) (h : ∀ t, Prunes id k (inner t) (inner' t)) (target : Target)
    (forRule : List Comment) :
    Prunes id (k + 1) (thresholdSuffix steps inner target rulePos forRule)
      (thresholdSuffix steps inner' target rulePos forRule) := by
  refine .pop fun x => ?_
  cases x with
  | error e => exact .fail _ e
  | ok word =>
    change Prunes id _ (ite _ _ _) (ite _ _ _)
    split
    · exact .refl _ _
    · next isWith =>
      have counted : withOf (some word) = 1 := by
        simp [withOf, withs, Classical.not_not.mp isWith]
      have one : k + 1 - withOf (Except.ok word : Except Refusal Token).toOption = k := by
        rw [Except.toOption, counted, Int.add_sub_cancel]
      rw [one]
      refine (Prunes.refl k _).andThen (putsBack_expect .kwThreshold) fun _ =>
        (Prunes.refl k _).andThen putsBack_pop fun start => ?_
      dsimp only
      split
      · exact .refl _ _
      · exact (h start).andThen (back start) fun _ => .refl _ _

/-- **A condition with room for fewer levels is cut off only past as many words `with`.** -/
theorem prunes_expressionLoop (le : n ≤ m) (t : Token) :
    Prunes id n (expressionLoop steps rulePos n t) (expressionLoop steps rulePos m t) := by
  -- on the room: a condition behind `with threshold` has one less, and is one word further on
  induction n generalizing m t with
  | zero => exact .stop rfl (le_refl _) _
  | succ n ih =>
    obtain ⟨m, rfl⟩ : ∃ j, m = j + 1 := ⟨m - 1, by omega⟩
    have inner := ih (Nat.le_of_succ_le_succ le)
    have back : ∀ t, (expressionLoop steps rulePos n t).PutsBack := putsBack_expressionLoop n
    unfold expressionLoop
    cases Comparator.ofKind? t.kind with
    | some operator => exact .refl _ _
    | none =>
      cases t.kind with
      | kwIn =>
        exact (Prunes.refl _ _).andThen putsBack_membership fun _ =>
          prunes_thresholdSuffix back inner _ _
      | kwMatches =>
        exact (Prunes.refl _ _).andThen putsBack_patternMatch fun _ =>
          prunes_thresholdSuffix back inner _ _
      | _ => exact .refl _ _

theorem thresholdSuffix_keeps {inner inner' : Token → Parse (Expression × List Comment)}
    (h : ∀ {t r b c s}, (inner' t).Gives r (.bound b, c) s → (inner t).Gives r (.bound b, c) s)
    {target : Target} {forRule cs : List Comment} {e : Expression}
    (given : (thresholdSuffix steps inner' target rulePos forRule).Gives r (e, cs) s) :
    (thresholdSuffix steps inner target rulePos forRule).Gives r (e, cs) s := by
  obtain ⟨word, m, row, alone | ⟨isWith, th, c₁, m₁, start, m₂, bound, c₂, a, expected, next,
    starts, read, rest⟩⟩ := thresholdSuffix_gives.mp given
  · exact thresholdSuffix_gives.mpr ⟨word, m, row, .inl alone⟩
  · exact thresholdSuffix_gives.mpr ⟨word, m, row, .inr ⟨isWith, th, c₁, m₁, start, m₂, bound, c₂,
      a, expected, next, starts, h read, rest⟩⟩

/-- A bound is read without opening another condition. -/
theorem expressionLoop_keeps_bound {b : Bound} {cs : List Comment} (room : 0 < n)
    (given : (expressionLoop steps rulePos m t).Gives r (.bound b, cs) s) :
    (expressionLoop steps rulePos n t).Gives r (.bound b, cs) s := by
  obtain ⟨n, rfl⟩ : ∃ j, n = j + 1 := ⟨n - 1, by omega⟩
  cases m with
  | zero => exact absurd given not_gives_fail
  | succ m =>
    -- what may go on with a threshold is no bound
    have other : ∀ {x c r}, ¬ (thresholdSuffix steps (expressionLoop steps rulePos m) x rulePos
        c).Gives r (.bound b, cs) s := by
      intro x c r suffix
      obtain ⟨word, q, -, ⟨-, alone, -⟩ | ⟨-, _, _, _, _, _, _, _, _, -, -, -, -, -, more, -⟩⟩ :=
        thresholdSuffix_gives.mp suffix
      · cases alone
      · cases more
    obtain comparison | between | ⟨-, _, _, _, -, suffix⟩ | ⟨-, _, _, _, -, suffix⟩ :=
      expressionLoop_gives.mp given
    · exact expressionLoop_gives.mpr (.inl comparison)
    · exact expressionLoop_gives.mpr (.inr (.inl between))
    · exact absurd suffix other
    · exact absurd suffix other

/-- Two conditions that are open inside one another are all that a result needs. -/
theorem expressionLoop_keeps {e : Expression} {cs : List Comment} (room : 2 ≤ n)
    (given : (expressionLoop steps rulePos m t).Gives r (e, cs) s) :
    (expressionLoop steps rulePos n t).Gives r (e, cs) s := by
  obtain ⟨n, rfl⟩ : ∃ j, n = j + 1 := ⟨n - 1, by omega⟩
  cases m with
  | zero => exact absurd given not_gives_fail
  | succ m =>
    have inner : ∀ {t r b c s}, (expressionLoop steps rulePos m t).Gives r (.bound b, c) s →
        (expressionLoop steps rulePos n t).Gives r (.bound b, c) s :=
      expressionLoop_keeps_bound (by omega)
    obtain comparison | between | ⟨kind, x, c, q, target, suffix⟩ |
        ⟨kind, x, c, q, target, suffix⟩ := expressionLoop_gives.mp given
    · exact expressionLoop_gives.mpr (.inl comparison)
    · exact expressionLoop_gives.mpr (.inr (.inl between))
    · exact expressionLoop_gives.mpr
        (.inr (.inr (.inl ⟨kind, x, c, q, target, thresholdSuffix_keeps inner suffix⟩)))
    · exact expressionLoop_gives.mpr
        (.inr (.inr (.inr ⟨kind, x, c, q, target, thresholdSuffix_keeps inner suffix⟩)))

/-! ### Rules -/

variable {depth depth' : Nat}

/-- A reader on a stack with room for `depth` open conditions is cut off past as many words `with`,
and with room for two it comes to every result. -/
abbrev Narrowed {α : Type} (depth : Nat) (p q : ParseRules α) : Prop :=
  ParseRules.Narrows depth (2 ≤ depth) p q

theorem narrows_takeExpression (le : depth ≤ depth') (d : Draft) :
    Narrowed depth (takeExpression ⟨steps, depth⟩ d t) (takeExpression ⟨steps, depth'⟩ d t) := by
  unfold takeExpression
  cases d.ruleType with
  | none => exact .refl _
  | some ruleType =>
    dsimp only
    split
    · exact .refl _
    · have condition : Reading.Narrows id depth (2 ≤ depth)
          (expression ⟨steps, depth⟩ t ruleType.pos) (expression ⟨steps, depth'⟩ t ruleType.pos) :=
        ⟨prunes_expressionLoop le t, fun room _ _ _ => expressionLoop_keeps room⟩
      exact (ParseRules.Narrows.lift condition putsBack_expression).andThen
        (.lift putsBack_expression) fun _ => .refl _

theorem narrows_takeToken (le : depth ≤ depth') (place : Place) (d : Draft) :
    Narrowed depth (takeToken ⟨steps, depth⟩ place d t)
      (takeToken ⟨steps, depth'⟩ place d t) := by
  unfold takeToken
  split <;> try exact .refl _
  split
  · exact .refl _
  · split
    · exact narrows_takeExpression le d
    · exact .refl _

theorem narrows_lead (le : depth ≤ depth') (place : Place) :
    Narrowed depth (lead ⟨steps, depth⟩ place) (lead ⟨steps, depth'⟩ place) := by
  suffices loop : ∀ m d, Narrowed depth (leadLoop ⟨steps, depth⟩ place m d)
      (leadLoop ⟨steps, depth'⟩ place m d) from loop steps Draft.empty
  intro m
  induction m with
  | zero => exact fun _ => .refl _
  | succ m ih =>
    refine fun d => .turn (fun t => (narrows_takeToken le place d).behind (some t))
      (fun t => heeds_takeToken) fun t e => ?_
    cases e with
    | more d => exact ih d
    | _ => exact .refl _

theorem narrows_member (le : depth ≤ depth') (inRuleset : Bool) (paren : Token) :
    Narrowed depth (member ⟨steps, depth⟩ inRuleset paren)
      (member ⟨steps, depth'⟩ inRuleset paren) := by
  have back : (lead ⟨steps, depth⟩ ⟨inRuleset, true⟩).PutsBack := fun held =>
    heeds_lead.imp fun _ _ _ => trivial
  have nested : Narrowed depth (nestedRule ⟨steps, depth⟩ inRuleset)
      (nestedRule ⟨steps, depth'⟩ inRuleset) :=
    (narrows_lead le ⟨inRuleset, true⟩).andThen back fun _ => .refl _
  exact (nested.onTray putsBack_nestedRule).andThen (putsBack_nestedRule.onTray _ _)
    fun _ => .refl _

theorem narrows_takeGroupToken (le : depth ≤ depth') (inRuleset : Bool) (d : GroupDraft) :
    Narrowed depth (takeGroupToken ⟨steps, depth⟩ inRuleset d t)
      (takeGroupToken ⟨steps, depth'⟩ inRuleset d t) := by
  unfold takeGroupToken
  split <;> try exact .refl _
  split
  · exact .refl _
  · exact (narrows_member le inRuleset t).andThen putsBack_member fun _ => .refl _

theorem narrows_group (le : depth ≤ depth') (inRuleset : Bool)
    (description : Option CommentGroup) :
    Narrowed depth (group ⟨steps, depth⟩ inRuleset description)
      (group ⟨steps, depth'⟩ inRuleset description) := by
  have loop : ∀ m d, Narrowed depth (groupLoop ⟨steps, depth⟩ inRuleset m d)
      (groupLoop ⟨steps, depth'⟩ inRuleset m d) := by
    intro m
    induction m with
    | zero => exact fun _ => .refl _
    | succ m ih =>
      refine fun d => .turn (fun t => (narrows_takeGroupToken le inRuleset d).behind (some t))
        (fun t => heeds_takeGroupToken) fun t e => ?_
      cases e with
      | more d => exact ih d
      | finish => exact .refl _
  exact (loop _ _).andThen (putsBack_groupLoop _ _) fun _ => .refl _

theorem narrows_rule (le : depth ≤ depth') (inRuleset : Bool) :
    Narrowed depth (rule ⟨steps, depth⟩ inRuleset) (rule ⟨steps, depth'⟩ inRuleset) := by
  have back : (lead ⟨steps, depth⟩ ⟨inRuleset, false⟩).Heeds none Lead.HandsOn := heeds_lead
  refine fun tray => (narrows_lead le ⟨inRuleset, false⟩).bind back ?_ tray
  intro out held opens
  cases out with
  | rule x => exact .refl _
  | group d paren =>
    obtain rfl := opens d paren rfl
    dsimp only
    split
    · exact .refl _
    · have back : (takeDescription paren.start).Heeds (some paren)
          fun _ held => held = some paren := .modifyGet _ fun _ => rfl
      refine .bind (.refl _) back fun description held same => ?_
      subst same
      refine .push_bind ((narrows_group le inRuleset description).mono ?_)
      simp

/-! ### Rulesets -/

theorem narrows_takeRulesetToken (le : depth ≤ depth') (d : RulesetDraft) :
    ParseRules.Narrows (depth - withOf (some t)) (2 ≤ depth)
      (takeRulesetToken ⟨steps, depth⟩ d t) (takeRulesetToken ⟨steps, depth'⟩ d t) := by
  unfold takeRulesetToken
  cases d.header with
  | none => exact .refl _
  | some h =>
    dsimp only [takeInside]
    split <;> try exact .refl _
    have get : (get : ParseRules Tray).PutsBack := fun _ _ => trivial
    have inner : Narrowed depth (withTray d.inner (rule ⟨steps, depth⟩ true))
        (withTray d.inner (rule ⟨steps, depth'⟩ true)) :=
      ((narrows_rule le true).andThen putsBack_rule fun _ => .refl _).onTray
        (putsBack_rule.bind fun _ => get.bind fun _ => .done _)
    refine .push_bind ?_
    rw [Int.sub_add_cancel]
    exact inner.andThen (putsBack_withTray d.inner putsBack_rule) fun _ => .refl _

theorem narrows_ruleset (le : depth ≤ depth') :
    Narrowed depth (ruleset ⟨steps, depth⟩) (ruleset ⟨steps, depth'⟩) := by
  have loop : ∀ m d, Narrowed depth (rulesetLoop ⟨steps, depth⟩ m d)
      (rulesetLoop ⟨steps, depth'⟩ m d) := by
    intro m
    induction m with
    | zero => exact fun _ => .refl _
    | succ m ih =>
      refine fun d => .turn (fun t => narrows_takeRulesetToken le d)
        (fun t => heeds_takeRulesetToken) fun t e => ?_
      cases e with
      | more d => exact ih d
      | finish x => exact .refl _
  unfold ruleset withFreshRun
  exact (loop _ _).onTray (putsBack_rulesetLoop _ _)

/-! ### Files -/

/-- Only what is cut off is known: that there is no ruleset is a failure that a file takes for a
result. -/
theorem narrows_ruleset? (le : depth ≤ depth') :
    ParseRules.Narrows depth False (ruleset? ⟨steps, depth⟩) (ruleset? ⟨steps, depth'⟩) := by
  refine fun tray => ⟨(narrows_ruleset le tray).prunes.attempt_bind ?_, False.elim⟩
  rintro ⟨e, l⟩ rfl
  exact ⟨(.overrun, l), rfl, rfl⟩

theorem narrows_rulesetsLoop (le : depth ≤ depth') (m : Nat) (before : List Ruleset) :
    ParseRules.Narrows depth False (rulesetsLoop ⟨steps, depth⟩ m before)
      (rulesetsLoop ⟨steps, depth'⟩ m before) := by
  induction m generalizing before with
  | zero => exact .refl _
  | succ m ih =>
    refine (narrows_ruleset? le).andThen putsBack_ruleset? fun found => ?_
    cases found with
    | none => exact .refl _
    | some x =>
      refine .pop_bind fun t => ?_
      split
      · exact .refl _
      · refine .push_bind ?_
        rw [Int.sub_add_cancel]
        exact ih _

/-- Where a ruleset is wanting only comments are left, and they open no condition. -/
theorem rulesetsLoop_keeps {ts : List Token} {before all : List Ruleset} {k l : Tray}
    (room : 2 ≤ depth) (le : depth ≤ steps) (remains : r.Remains ts n) (enough : n < steps)
    (given : (rulesetsLoop steps m before).Gives k r all l s) :
    (rulesetsLoop ⟨steps, depth⟩ m before).Gives k r all l s := by
  induction m generalizing before k r n with
  | zero => exact absurd given Reading.not_gives_fail
  | succ m ih =>
    obtain ⟨x, k', t, q, read, rest⟩ | ⟨some, rfl, wanting⟩ := rulesetsLoop_gives.mp given
    · refine rulesetsLoop_gives.mpr
        (.inl ⟨x, k', t, q, (narrows_ruleset le k).keeps room _ _ _ read, ?_⟩)
      obtain ⟨j, lt, left⟩ := (spends_ruleset remains (le_refl steps)).holds read
      exact rest.imp_right fun ⟨going, rest⟩ => ⟨going, ih left (lt.trans enough) rest⟩
    · obtain ⟨us, t, commented, rfl⟩ := ruleset_fails remains wanting
      have few := (length_le_of_commented commented remains).trans_lt enough
      exact rulesetsLoop_gives.mpr (.inr ⟨some, rfl, ruleset_fails_of_commented commented few k⟩)

end Read

namespace Entry
open Reading (Prunes)

variable {entry : Entry} {steps depth depth' : Nat} {k : Tray}

/-- Whatever entry reads a text, on a narrower stack it is the same reader with branches cut off. -/
theorem prunes_reader (le : depth ≤ depth') :
    Prunes Prod.fst depth (entry.reader ⟨steps, depth⟩ k) (entry.reader ⟨steps, depth'⟩ k) := by
  cases entry with
  | rule =>
    exact (Read.narrows_rule le false k).prunes.andThen (fun held => Read.putsBack_rule held k)
      fun _ => .refl _ _
  | ruleset =>
    exact (Read.narrows_ruleset le k).prunes.andThen (fun held => Read.putsBack_ruleset held k)
      fun _ => .refl _ _
  | file filename =>
    refine ((Read.narrows_rulesetsLoop le _ [] k).prunes.andThen
      (fun held => Read.putsBack_rulesetsLoop _ _ held k) fun _ => ?_).andThen
      (fun held => Read.putsBack_file filename held k) fun _ => .refl _ _
    exact .refl _ _

/-- Two conditions that are open inside one another are all that a tree needs. -/
theorem reader_keeps {ts : List Token} {n : Nat} {r s : Row} {x : Node} {l : Tray}
    (room : 2 ≤ depth) (le : depth ≤ steps) (remains : r.Remains ts n) (enough : n < steps)
    (given : (entry.reader steps).Gives k r x l s) :
    (entry.reader ⟨steps, depth⟩).Gives k r x l s := by
  cases entry with
  | rule =>
    obtain ⟨d, l, q, read, rest⟩ := ParseRules.gives_bind.mp given
    exact ParseRules.gives_bind.mpr
      ⟨d, l, q, (Read.narrows_rule le false k).keeps room _ _ _ read, rest⟩
  | ruleset =>
    obtain ⟨y, l, q, read, rest⟩ := ParseRules.gives_bind.mp given
    exact ParseRules.gives_bind.mpr
      ⟨y, l, q, (Read.narrows_ruleset le k).keeps room _ _ _ read, rest⟩
  | file filename =>
    obtain ⟨f, l, q, read, rest⟩ := ParseRules.gives_bind.mp given
    obtain ⟨all, read, made⟩ := Read.file_gives.mp read
    exact ParseRules.gives_bind.mpr ⟨f, l, q, Read.file_gives.mpr
      ⟨all, Read.rulesetsLoop_keeps room le remains enough read, made⟩, rest⟩

end Entry

end QualityRules
