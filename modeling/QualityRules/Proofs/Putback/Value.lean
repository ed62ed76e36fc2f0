import QualityRules.Proofs.Putback.Calculus

/-!
# Proofs — Putback — Value

Readers of values and of conditions put back what they took last.  The block of comments behind a
token, a number and a target look at one token more than they need.

* `putsBack_trailing`, `putsBack_number` and `putsBack_thresholdSuffix` are the readers that put a
  token back; the others are made of them.
* `putsBack_parameter` is about values, `putsBack_expression` about conditions.
-/

namespace QualityRules.Read
open Reading (PutsBack putsBack_pure putsBack_fail)

variable {fuel : Nat} {t : Token} {anchor rulePos : Pos}

/-! ### Values -/

theorem putsBack_trailing : (trailing fuel anchor).PutsBack := by
  suffices loop : ∀ m taken, (trailingLoop anchor m taken).PutsBack from loop fuel []
  intro m
  induction m with
  | zero => exact fun _ => putsBack_fail _
  | succ m ih =>
    refine fun taken => putsBack_pop_bind fun t => ?_
    split
    · exact ih _ _
    · exact heeds_push_bind (putsBack_pure taken)

theorem putsBack_popTrailing : (popTrailing fuel).PutsBack := by
  refine putsBack_pop.bind fun t => ?_
  split
  · exact putsBack_pure _
  · exact putsBack_trailing.bind fun _ => putsBack_pure _

theorem putsBack_trailingOf : (trailingOf fuel anchor rulePos).PutsBack :=
  putsBack_trailing.bind fun _ => putsBack_pure _

theorem putsBack_expect (kind : Kind) : (expect fuel kind).PutsBack := by
  refine putsBack_popTrailing.bind fun (t, comments) => ?_
  dsimp only
  split
  · exact putsBack_pure _
  · exact putsBack_refuse _ _

theorem putsBack_number : (number fuel t rulePos).PutsBack := by
  refine putsBack_pop_bind fun next => ?_
  cases TimeUnit.ofKind? next.kind with
  | none => exact heeds_push_bind (putsBack_trailingOf.bind fun _ => putsBack_pure _)
  | some unit =>
    dsimp only
    split
    · exact putsBack_refuse _ _ _
    · exact (putsBack_trailingOf.bind fun _ => putsBack_pure _) _

theorem putsBack_parameter : (parameter fuel t rulePos).PutsBack := by
  unfold parameter
  cases t.kind with
  | number => exact putsBack_number
  | string | kwTrue | kwFalse | kwNow => exact putsBack_trailingOf.bind fun _ => putsBack_pure _
  | _ => exact putsBack_refuse _ _

theorem putsBack_duration : (duration fuel rulePos).PutsBack := by
  refine putsBack_pop.bind fun t => putsBack_parameter.bind fun (value, comments) => ?_
  cases value with
  | duration d => exact putsBack_pure _
  | _ => exact putsBack_refuse _ _

theorem putsBack_relativeDate (paren : Token) : (relativeDate fuel paren rulePos).PutsBack :=
  (putsBack_expect .kwNow).bind fun _ => (putsBack_expect .minus).bind fun _ =>
    putsBack_duration.bind fun _ => (putsBack_expect .rightParen).bind fun _ => putsBack_pure _

theorem putsBack_operand : (operand fuel rulePos).PutsBack := by
  refine putsBack_pop.bind fun t => ?_
  split
  · exact putsBack_parameter
  · exact putsBack_refuse _ _

/-! ### Conditions -/

theorem putsBack_comparison (operator : Comparator) :
    (comparison fuel t operator rulePos).PutsBack := by
  refine putsBack_popTrailing.bind fun (value, comments) => ?_
  dsimp only
  split
  · exact putsBack_parameter.bind fun _ => putsBack_pure _
  · split
    · exact (putsBack_relativeDate value).bind fun _ => putsBack_pure _
    · exact putsBack_refuse _ _

theorem putsBack_between : (between fuel t rulePos).PutsBack :=
  putsBack_operand.bind fun _ => (putsBack_expect .kwAnd).bind fun _ =>
    putsBack_operand.bind fun _ => putsBack_pure _

theorem putsBack_popSkipping : (popSkipping fuel).PutsBack := by
  suffices loop : ∀ m skipped, (skipCommentsLoop m skipped).PutsBack from loop fuel []
  intro m
  induction m with
  | zero => exact fun _ => putsBack_fail _
  | succ m ih =>
    refine fun skipped => putsBack_pop.bind fun t => ?_
    split
    · exact ih _
    · exact putsBack_pure _

theorem putsBack_valuesLoop (m : Nat) (values : List Parameter) (a : Attached) :
    (valuesLoop fuel rulePos m values a).PutsBack := by
  induction m generalizing values a with
  | zero => exact putsBack_fail _
  | succ m ih =>
    refine putsBack_popSkipping.bind fun (item, skipped) => ?_
    dsimp only
    split
    · exact putsBack_pure _
    · split
      · exact putsBack_refuse _ _
      · refine putsBack_parameter.bind fun (value, comments) =>
          putsBack_popSkipping.bind fun (separator, skipped) => ?_
        dsimp only
        split
        · exact putsBack_pure _
        · split
          · exact putsBack_refuse _ _
          · exact ih _ _

theorem putsBack_membership : (membership fuel t rulePos).PutsBack :=
  (putsBack_expect .leftBracket).bind fun _ => (putsBack_valuesLoop _ _ _).bind fun _ =>
    putsBack_trailing.bind fun _ => putsBack_pure _

theorem putsBack_patternMatch : (patternMatch fuel t rulePos).PutsBack := by
  refine putsBack_popTrailing.bind fun (pattern, comments) => ?_
  dsimp only
  split
  · exact putsBack_refuse _ _
  · exact putsBack_pure _

theorem putsBack_thresholdSuffix {inner : Token → Parse (Expression × List Comment)}
    (rest : ∀ t, (inner t).PutsBack) (target : Target) (forRule : List Comment) :
    (thresholdSuffix fuel inner target rulePos forRule).PutsBack := by
  refine putsBack_pop_bind fun word => ?_
  split
  · exact heeds_push_bind (putsBack_pure _)
  · refine (putsBack_expect .kwThreshold).bind (fun _ => putsBack_pop.bind fun start => ?_) _
    split
    · exact putsBack_refuse _ _
    · refine (rest start).bind fun (e, comments) => ?_
      cases e with
      | bound _ => exact putsBack_pure _
      | _ => exact putsBack_refuse _ _

theorem putsBack_expressionLoop (m : Nat) (t : Token) :
    (expressionLoop fuel rulePos m t).PutsBack := by
  induction m generalizing t with
  | zero => exact putsBack_fail _
  | succ m ih =>
    unfold expressionLoop
    cases Comparator.ofKind? t.kind with
    | some operator => exact (putsBack_comparison operator).bind fun _ => putsBack_pure _
    | none =>
      cases t.kind with
      | kwBetween => exact putsBack_between.bind fun _ => putsBack_pure _
      | kwIn => exact putsBack_membership.bind fun _ => putsBack_thresholdSuffix ih _ _
      | kwMatches => exact putsBack_patternMatch.bind fun _ => putsBack_thresholdSuffix ih _ _
      | _ => exact putsBack_refuse _ _

theorem putsBack_expression {fuel : Fuel} : (expression fuel t rulePos).PutsBack :=
  putsBack_expressionLoop _ _

end QualityRules.Read
