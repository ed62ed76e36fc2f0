import QualityRules.Proofs.Lookahead.Calculus
import QualityRules.Proofs.Runs.Condition

/-!
# Proofs — Lookahead — Value

The readers of values and of conditions look one token ahead.  They refuse the end of the text where
they need a token, and put it back where they need none.

* `peeks_pop_bind`, `peeks_popTrailing_bind` and `peeks_popSkipping_bind` take a token that is
  needed.
* `peeks_trailing` takes comments as long as they go on.
* `peeks_parameter` is about values, `peeks_expression` about conditions.
-/

namespace QualityRules.Read
open Reading (Peeks Refuses Look peeks_pure)

variable {α : Type} {stands : Standing} {fuel : Nat} {t t' : Token} {rulePos anchor : Pos}

theorem refuses_refuse (cause : Cause) (pos : Pos) : Refuses (refuse cause pos : Parse α) :=
  Reading.refuses_fail _

theorem peeks_refuse (cause : Cause) (pos : Pos) : Peeks stands (refuse cause pos : Parse α) :=
  (refuses_refuse cause pos).peeksAs

/-- A reader that takes a token looks ahead when it does so behind each token. -/
theorem peeks_look {f : Token → Parse α} (look : ∀ t, Look stands f f t) :
    Peeks stands (pop >>= f) :=
  Reading.peeks_look (fun _ => Reading.refuses_fail _) look

/-- A reader takes a token and refuses the end of the text. -/
theorem peeks_pop_bind {f : Token → Parse α} (rest : ∀ t, Peeks stands (f t))
    (refuses : ∀ t, t.kind = .eof → Refuses (f t)) : Peeks stands (pop >>= f) := by
  refine peeks_look fun t => ?_
  by_cases isEnd : t.kind = .eof
  · exact .refuses (refuses t isEnd)
  · exact .takes isEnd (rest t)

/-! ### Values -/

/-- The comments that trail are read one token ahead. -/
theorem peeks_trailing : Peeks stands (trailing fuel anchor) := by
  suffices loop : ∀ m taken, Peeks stands (trailingLoop anchor m taken) from loop fuel []
  intro m
  induction m with
  | zero => exact fun _ => (Reading.refuses_fail _).peeksAs
  | succ m ih =>
    intro taken
    refine peeks_look fun t => ?_
    cases extends? : extendsBlock anchor taken t with
    | true =>
      have comment : t.kind = .comment := kind_of_extendsBlock extends?
      exact .takes (by simp [comment]) (by simpa [extends?] using ih _)
    | false =>
      refine .leaves (peeks_pure taken) (.inl (by simp [extends?]; rfl)) fun t' turns => ?_
      have stops : extendsBlock anchor taken t' = false := by
        cases turns with
        | same => exact extends?
        | stands allowed => exact not_extendsBlock_of_kind (stands.halts allowed).1
      simp [stops]
      rfl

/-- The next token is taken with its comments; the end of the text is refused. -/
theorem peeks_popTrailing_bind {f : Token × List Comment → Parse α}
    (rest : ∀ x, Peeks stands (f x)) (refuses : ∀ t cs, t.kind = .eof → Refuses (f (t, cs))) :
    Peeks stands (popTrailing fuel >>= f) := by
  rw [popTrailing, bind_assoc]
  refine peeks_pop_bind (fun t => ?_) fun t isEnd => ?_
  · split
    · exact rest (t, [])
    · rw [bind_assoc]
      exact peeks_trailing.bind fun cs => rest (t, cs)
  · simpa [isEnd] using refuses t [] isEnd

theorem peeks_trailingOf : Peeks stands (trailingOf fuel anchor rulePos) :=
  peeks_trailing.bind fun _ => peeks_pure _

theorem peeks_expect {kind : Kind} (going : kind ≠ .eof) : Peeks stands (expect fuel kind) := by
  refine peeks_popTrailing_bind (fun (t, cs) => ?_) fun t cs isEnd => ?_
  · dsimp only
    split
    · exact peeks_pure _
    · exact peeks_refuse _ _
  · simp only [isEnd, going.symm, if_false]
    exact refuses_refuse _ _

theorem peeks_number : Peeks stands (number fuel t rulePos) := by
  refine peeks_look fun next => ?_
  cases unit : TimeUnit.ofKind? next.kind with
  | none =>
    refine .leaves (peeks_trailingOf.bind fun _ => peeks_pure _) (.inl (by simp only [unit]; rfl))
      fun t' turns => ?_
    have none : TimeUnit.ofKind? t'.kind = none := by
      cases turns with
      | same => exact unit
      | stands allowed => exact (stands.halts allowed).2.2
    simp only [none]
    rfl
  | some unit' =>
    have going : next.kind ≠ .eof := by
      intro isEnd
      rw [isEnd] at unit
      exact nomatch unit
    refine .takes going ?_
    simp only [unit]
    split
    · exact peeks_refuse _ _
    · exact peeks_trailingOf.bind fun _ => peeks_pure _

theorem peeks_parameter : Peeks stands (parameter fuel t rulePos) := by
  unfold parameter
  cases t.kind with
  | number => exact peeks_number
  | string | kwTrue | kwFalse | kwNow => exact peeks_trailingOf.bind fun _ => peeks_pure _
  | _ => exact peeks_refuse _ _

theorem peeks_duration : Peeks stands (duration fuel rulePos) := by
  refine peeks_pop_bind (fun t => peeks_parameter.bind fun (value, cs) => ?_) fun t isEnd => ?_
  · cases value with
    | duration d => exact peeks_pure _
    | _ => exact peeks_refuse _ _
  · have none : Refuses (parameter fuel t rulePos) := by
      rw [parameter, isEnd]
      exact refuses_refuse _ _
    exact none.bind _

theorem peeks_relativeDate {paren : Token} :
    Peeks stands (relativeDate fuel paren rulePos) :=
  (peeks_expect (by decide)).bind fun _ => (peeks_expect (by decide)).bind fun _ =>
    peeks_duration.bind fun _ => (peeks_expect (by decide)).bind fun _ => peeks_pure _

/-- The end of the text is no operand. -/
theorem isOperand_of_eof (isEnd : t.kind = .eof) : isOperand t = false := by
  simp [isOperand, isEnd, Kind.startsParameter]

theorem peeks_operand : Peeks stands (operand fuel rulePos) := by
  refine peeks_pop_bind (fun t => ?_) fun t isEnd => ?_
  · split
    · exact peeks_parameter
    · exact peeks_refuse _ _
  · simpa [isOperand_of_eof isEnd] using refuses_refuse _ _

/-! ### Conditions -/

theorem peeks_comparison {operator : Comparator} :
    Peeks stands (comparison fuel t operator rulePos) := by
  refine peeks_popTrailing_bind (fun (value, cs) => ?_) fun value cs isEnd => ?_
  · dsimp only
    split
    · exact peeks_parameter.bind fun _ => peeks_pure _
    · split
      · exact peeks_relativeDate.bind fun _ => peeks_pure _
      · exact peeks_refuse _ _
  · simpa [isEnd, Kind.startsParameter] using refuses_refuse _ _

theorem peeks_between : Peeks stands (between fuel t rulePos) :=
  peeks_operand.bind fun _ => (peeks_expect (by decide)).bind fun _ =>
    peeks_operand.bind fun _ => peeks_pure _

/-- The next token that is no comment is taken; the end of the text is refused. -/
theorem peeks_popSkipping_bind {f : Token × List Comment → Parse α}
    (rest : ∀ x, Peeks stands (f x)) (refuses : ∀ t cs, t.kind = .eof → Refuses (f (t, cs))) :
    Peeks stands (popSkipping fuel >>= f) := by
  suffices loop : ∀ m skipped, Peeks stands (skipCommentsLoop m skipped >>= f) from loop fuel []
  intro m
  induction m with
  | zero => exact fun _ => ((Reading.refuses_fail _).bind f).peeksAs
  | succ m ih =>
    intro skipped
    rw [skipCommentsLoop, bind_assoc]
    refine peeks_pop_bind (fun t => ?_) fun t isEnd => ?_
    · split
      · exact ih _
      · exact rest (t, skipped)
    · simpa [isEnd] using refuses t skipped isEnd

theorem peeks_valuesLoop {n : Nat} {values : List Parameter} {a : Attached} :
    Peeks stands (valuesLoop fuel rulePos n values a) := by
  induction n generalizing values a with
  | zero => exact (Reading.refuses_fail _).peeksAs
  | succ n ih =>
    refine peeks_popSkipping_bind (fun (item, cs) => ?_) fun item cs isEnd => ?_
    · dsimp only
      split
      · exact peeks_pure _
      · split
        · exact peeks_refuse _ _
        · refine peeks_parameter.bind fun (value, cs') =>
            peeks_popSkipping_bind (fun (separator, cs'') => ?_) fun separator cs'' isEnd => ?_
          · dsimp only
            split
            · exact peeks_pure _
            · split
              · exact peeks_refuse _ _
              · exact ih
          · simpa [isEnd] using refuses_refuse _ _
    · simpa [isEnd, isOperand_of_eof isEnd] using refuses_refuse _ _

theorem peeks_membership : Peeks stands (membership fuel t rulePos) :=
  (peeks_expect (by decide)).bind fun _ => peeks_valuesLoop.bind fun _ =>
    peeks_trailing.bind fun _ => peeks_pure _

theorem peeks_patternMatch : Peeks stands (patternMatch fuel t rulePos) := by
  refine peeks_popTrailing_bind (fun (pattern, cs) => ?_) fun pattern cs isEnd => ?_
  · dsimp only
    split
    · exact peeks_refuse _ _
    · exact peeks_pure _
  · simpa [isEnd] using refuses_refuse _ _

/-- A threshold is read one token ahead when the condition behind it is. -/
theorem peeks_thresholdSuffix {inner : Token → Parse (Expression × List Comment)}
    (rest : ∀ t, Peeks stands (inner t)) {target : Target} {forRule : List Comment} :
    Peeks stands (thresholdSuffix fuel inner target rulePos forRule) := by
  refine peeks_look fun word => ?_
  by_cases isWith : word.kind = .kwWith
  · refine .takes (by simp [isWith]) ?_
    rw [if_neg (by simp [isWith])]
    refine (peeks_expect (by decide)).bind fun _ => peeks_pop_bind (fun start => ?_)
      fun start isEnd => ?_
    · split
      · exact peeks_refuse _ _
      · refine (rest start).bind fun (e, cs) => ?_
        cases e with
        | bound _ => exact peeks_pure _
        | _ => exact peeks_refuse _ _
    · simpa [isEnd, Kind.startsExpression] using refuses_refuse _ _
  · refine .leaves (peeks_pure (.target target, forRule)) (.inl (by rw [if_pos isWith]; rfl))
      fun t' turns => ?_
    have other : t'.kind ≠ .kwWith := by
      cases turns with
      | same => exact isWith
      | stands allowed => exact (stands.halts allowed).2.1
    rw [if_pos other]
    rfl

/-- **A condition is read one token ahead.** -/
theorem peeks_expressionLoop {n : Nat} : Peeks stands (expressionLoop fuel rulePos n t) := by
  induction n generalizing t with
  | zero => exact (Reading.refuses_fail _).peeksAs
  | succ n ih =>
    unfold expressionLoop
    cases Comparator.ofKind? t.kind with
    | some operator => exact peeks_comparison.bind fun _ => peeks_pure _
    | none =>
      cases t.kind with
      | kwBetween => exact peeks_between.bind fun _ => peeks_pure _
      | kwIn => exact peeks_membership.bind fun _ => peeks_thresholdSuffix fun _ => ih
      | kwMatches => exact peeks_patternMatch.bind fun _ => peeks_thresholdSuffix fun _ => ih
      | _ => exact peeks_refuse _ _

theorem peeks_expression {fuel : Fuel} : Peeks stands (expression fuel t rulePos) :=
  peeks_expressionLoop

end QualityRules.Read
