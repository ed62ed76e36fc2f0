import QualityRules.Proofs.Bare
import QualityRules.Proofs.Grammar
import QualityRules.Proofs.Stray

/-!
# Proofs — Parts

What the readers of values and conditions read.  Apart from comments it is a part in the words of
the grammar, and it is the part that they return without its comments.  The comments are those of
the part and those for the rule; none goes astray, and the next token has no place behind the part.

* `parameter_reads`, `comparison_reads`, `membership_reads` and the others, up to
  `expression_reads`: one statement for each reader.
-/

namespace QualityRules.Read
open Grammar
open Node (bag bagOfAll)

variable {fuel n : Nat} {anchor rulePos : Pos} {t : Token} {cs : List Comment} {r s : Row}
  {σ : Stand} {p : Parameter}

/-! ### Values -/

/-- What trails a token is read, and no other token. -/
theorem trailingOf_reads {a : Attached} (h : σ.At anchor r)
    (g : (trailingOf fuel anchor rulePos).Gives r a s) :
    ∃ us, Reads σ r us s a.bag ∧ solid us = [] := by
  obtain ⟨cs, trail, rfl⟩ := trailingOf_gives.mp g
  obtain ⟨us, moves, comments, ended, listed⟩ := trailing_moves h trail
  exact ⟨us, ⟨moves.congr (by simp), ended.settled, listed⟩, comments⟩

/-- The value that a token makes by itself is one, with the comments that it got. -/
theorem isValue_of_literal {c : Option CommentGroup} (h : literal t c = some p) :
    IsValue [t] p.bare ∧ bag (.parameter p) = CommentGroup.bag c := by
  cases k : t.kind with
  | string =>
    simp only [literal, k, Option.some.injEq] at h
    subst h
    exact ⟨.string k, Node.bag_string _⟩
  | kwTrue =>
    simp only [literal, k, Option.some.injEq] at h
    subst h
    exact ⟨.yes k, Node.bag_bool _⟩
  | kwFalse =>
    simp only [literal, k, Option.some.injEq] at h
    subst h
    exact ⟨.no k, Node.bag_bool _⟩
  | kwNow =>
    simp only [literal, k, Option.some.injEq] at h
    subst h
    exact ⟨.now k, by simp⟩
  | _ => simp [literal, k] at h

/-- A value is read from its tokens, and its comments are theirs. -/
theorem parameter_reads (h : σ.At t.start r)
    (g : (parameter fuel t rulePos).Gives r (p, cs) s) :
    ∃ us, Reads σ r us s (bag (.parameter p) + cs) ∧ IsValue (t :: solid us) p.bare := by
  obtain ⟨k, g⟩ | ⟨a, trail, literal, rfl⟩ := parameter_gives.mp g
  · obtain ⟨next, m, a, row, rfl, ⟨-, trail, rfl⟩ | ⟨unit, unit_kind, whole, trail, rfl⟩⟩ :=
      number_gives.mp g
    · obtain ⟨us, reads, comments⟩ := trailingOf_reads h trail
      refine ⟨us, reads.congr ?_, ?_⟩
      · rw [Node.bag_number, a.bag_group]
      · rw [comments]
        exact .number k
    · subst row
      have other : next.kind ≠ .comment ∧ next.kind.brackets = false := by
        cases e : next.kind <;> simp_all [Kind.brackets, TimeUnit.ofKind?]
      obtain ⟨us, reads, comments⟩ := trailingOf_reads (h.unit unit_kind m) trail
      refine ⟨next :: us, (Reads.cons other.1 other.2 reads).congr ?_, ?_⟩
      · rw [Node.bag_duration, a.bag_group]
      · rw [solid_cons other.1, comments]
        exact .duration k whole unit_kind
  · obtain ⟨us, reads, comments⟩ := trailingOf_reads h trail
    obtain ⟨isValue, own⟩ := isValue_of_literal literal
    refine ⟨us, reads.congr (by rw [own, a.bag_group]), ?_⟩
    rwa [comments]

/-- A token that starts a value starts a block of comments. -/
theorem anchors_of_startsParameter (h : t.kind.startsParameter) :
    t.kind.anchors ∧ t.kind.brackets = false ∧ t.kind ≠ .eof := by
  cases k : t.kind <;> simp_all [Kind.startsParameter, Kind.anchors, Kind.brackets]

/-- A value whose first token is not `now()` is no date. -/
theorem isOperand_of_isValue {us : List Token} (h : IsValue (t :: us) p) (k : isOperand t) :
    IsOperand (t :: us) p := by
  refine ⟨h, fun u m => ?_⟩
  simp only [isOperand, ne_eq, decide_not, Bool.and_eq_true, Bool.not_eq_eq_eq_not, Bool.not_true,
    decide_eq_false_iff_not] at k
  rcases List.mem_cons.mp m with rfl | m
  · exact k.2
  · cases h with
    | duration _ _ unit_kind =>
      rw [List.mem_singleton.mp m]
      intro e
      simp [e, TimeUnit.ofKind?] at unit_kind
    | _ => cases m

/-- What may be an operand may be a value. -/
theorem startsParameter_of_isOperand (h : isOperand t) : t.kind.startsParameter := by
  simp only [isOperand, Bool.and_eq_true] at h
  exact h.1

/-- An operand is read from its tokens, and its comments are theirs. -/
theorem operand_reads (σ : Stand) (g : (operand fuel rulePos).Gives r (p, cs) s) :
    ∃ us, Reads σ r us s (bag (.parameter p) + cs) ∧ IsOperand (solid us) p.bare := by
  obtain ⟨t, m, rfl, isOperand, read⟩ := operand_gives.mp g
  obtain ⟨anchors, other, -⟩ :=
    anchors_of_startsParameter (startsParameter_of_isOperand isOperand)
  obtain ⟨us, reads, isValue⟩ := parameter_reads (Stand.at_past anchors m) read
  refine ⟨t :: us, .cons (kind_of_anchors anchors) other reads, ?_⟩
  rw [solid_cons (kind_of_anchors anchors)]
  exact isOperand_of_isValue isValue isOperand

theorem duration_reads {d : DurationParameter} (σ : Stand)
    (g : (duration fuel rulePos).Gives r (d, cs) s) :
    ∃ us, Reads σ r us s (CommentGroup.bag d.comments + cs) ∧
      IsValue (solid us) (.duration d.bare) := by
  obtain ⟨t, m, rfl, read⟩ := duration_gives.mp g
  have number : t.kind = .number := by
    obtain ⟨k, -⟩ | ⟨a, -, literal, -⟩ := parameter_gives.mp read
    · exact k
    · cases k : t.kind <;> simp [Read.literal, k] at literal
  obtain ⟨us, reads, isValue⟩ := parameter_reads (Stand.at_past (by rw [number]; rfl) m) read
  have solid : t.kind ≠ .comment := by simp [number]
  refine ⟨t :: us, (Reads.cons solid (by rw [number]; rfl) reads).congr (by simp), ?_⟩
  rwa [solid_cons solid]

theorem relativeDate_reads {d : DateParameter} (opens : t.kind = .leftParen) (σ : Stand)
    (g : (relativeDate fuel t rulePos).Gives r (d, cs) s) :
    ∃ us, Reads σ r us s (bag (.parameter (.date d)) + cs) ∧ IsMoment (t :: solid us) d.bare := by
  obtain ⟨now, c₁, m₁, minus, c₂, m₂, dur, c₃, m₃, close, c₄, a, g₁, g₂, g₃, g₄, eq, rfl, rfl⟩ :=
    relativeDate_gives.mp g
  obtain ⟨k₁, us₁, reads₁, solid₁⟩ := expect_reads σ g₁ rfl nofun rfl
  obtain ⟨k₂, us₂, reads₂, solid₂⟩ := expect_reads _ g₂ rfl nofun rfl
  obtain ⟨us₃, reads₃, isValue⟩ := duration_reads _ g₃
  obtain ⟨k₄, us₄, reads₄, solid₄⟩ := expect_reads _ g₄ rfl nofun rfl
  refine ⟨_, (reads₁.trans (reads₂.trans (reads₃.trans reads₄))).congr ?_, ?_⟩
  · have shared : a.bag = c₁ + c₂ + c₃ + c₄ := by simp [eq]
    rw [Node.bag_date, add_assoc, a.bag_group, shared]
    simp only [Option.bind_some]
    abel
  · simp only [solid_append, solid₁, solid₂, solid₄]
    exact .mk opens k₁ k₂ isValue k₄

/-! ### Bounds -/

/-- A comparison is read from its tokens, and its comments are theirs. -/
theorem comparison_reads {e : Comparison} {operator : Comparator} (σ : Stand)
    (sign : Comparator.ofKind? t.kind = some operator)
    (g : (comparison fuel t operator rulePos).Gives r (e, cs) s) :
    ∃ us, Reads σ r us s (bag (.expression (.bound (.comparison e))) + cs) ∧
      IsBound (t :: solid us) (Bound.comparison e).bare := by
  obtain ⟨value, c₁, m, p, c₂, a, g₁, right, eq, rfl, rfl⟩ := comparison_gives.mp g
  have shared : a.bag = c₁ + c₂ := by simp [eq]
  rcases right with ⟨k, read⟩ | ⟨k, d, read, rfl⟩
  · obtain ⟨anchors, other, ne⟩ := anchors_of_startsParameter k
    obtain ⟨us₁, moves, comments, ended, listed⟩ := popTrailing_moves anchors ne σ g₁
    obtain ⟨us₂, reads, isValue⟩ := parameter_reads ended.at read
    refine ⟨_, (Reads.after moves (listed.trans (Stand.listed_past other)) reads).congr ?_, ?_⟩
    · rw [Node.bag_comparison, add_assoc, a.bag_group, shared]
      abel
    · rw [solid_append, solid_cons (kind_of_anchors anchors), comments]
      exact .comparison sign isValue
  · have anchors : value.kind.anchors := by rw [k]; rfl
    obtain ⟨us₁, moves, comments, -, listed⟩ := popTrailing_moves anchors (by simp [k]) σ g₁
    obtain ⟨us₂, reads, isMoment⟩ := relativeDate_reads k _ read
    have other : value.kind.brackets = false := by rw [k]; rfl
    refine ⟨_, (Reads.after moves (listed.trans (Stand.listed_past other)) reads).congr ?_, ?_⟩
    · rw [Node.bag_comparison, add_assoc, a.bag_group, shared]
      abel
    · rw [solid_append, solid_cons (kind_of_anchors anchors), comments]
      exact .moment sign isMoment

/-- A condition with `between` is read from its tokens, and its comments are theirs. -/
theorem between_reads {e : Between} (σ : Stand) (word : t.kind = .kwBetween)
    (g : (between fuel t rulePos).Gives r (e, cs) s) :
    ∃ us, Reads σ r us s (bag (.expression (.bound (.between e))) + cs) ∧
      IsBound (t :: solid us) (Bound.between e).bare := by
  obtain ⟨lower, c₁, m₁, conj, c₂, m₂, upper, c₃, a, g₁, g₂, g₃, eq, rfl, rfl⟩ :=
    between_gives.mp g
  obtain ⟨us₁, reads₁, left⟩ := operand_reads σ g₁
  obtain ⟨k₂, us₂, reads₂, solid₂⟩ := expect_reads _ g₂ rfl nofun rfl
  obtain ⟨us₃, reads₃, right⟩ := operand_reads _ g₃
  refine ⟨_, (reads₁.trans (reads₂.trans reads₃)).congr ?_, ?_⟩
  · have shared : a.bag = c₁ + c₂ + c₃ := by simp [eq]
    rw [Node.bag_between, add_assoc, add_assoc, a.bag_group, shared]
    abel
  · simp only [solid_append, solid₂]
    exact .between word left k₂ right

/-! ### Targets -/

/-- Inside the brackets every comment has a place.  The list is empty, or what is read makes up
values with commas between. -/
theorem valuesLoop_moves {values vs : List Parameter} {a a' : Attached} {close : Token}
    (listed : σ.listed) (g : (valuesLoop fuel rulePos n values a).Gives r (close, vs, a') s) :
    ∃ us qs b, Moves σ r us (Row.cons close s) b ∧ vs = values ++ qs ∧
      bagOfAll qs + a'.bag = a.bag + b ∧ close.kind = .rightBracket ∧
      (values = [] ∧ qs = [] ∧ solid us = [] ∨ IsList (solid us) (qs.map Parameter.bare)) := by
  -- on the fuel; behind a comma `values` is not empty, so a value has to come
  induction n generalizing σ r values a with
  | zero => exact absurd g not_gives_fail
  | succ n ih =>
    obtain ⟨item, c₁, m₁, g₁, ⟨k, rfl, rfl, rfl, rfl, rfl⟩ |
      ⟨operand, v, c₂, m₂, sep, c₃, m₃, b, g₂, g₃, eq, rest⟩⟩ := valuesLoop_gives.mp g
    · obtain ⟨us, moves, comments, -, -⟩ := popSkipping_moves listed g₁
      exact ⟨us, [], c₁, moves, rfl, by simp, k, .inl ⟨rfl, rfl, comments⟩⟩
    · obtain ⟨us₁, moves₁, comments₁, listed₁, -⟩ := popSkipping_moves listed g₁
      obtain ⟨anchors, other, -⟩ :=
        anchors_of_startsParameter (startsParameter_of_isOperand operand)
      have solid_item := kind_of_anchors anchors
      obtain ⟨us₂, reads₂, isValue⟩ := parameter_reads (Stand.at_past anchors m₁) g₂
      have reads₂ := Reads.cons solid_item other reads₂
      have listed₂ := reads₂.listed.trans listed₁
      obtain ⟨us₃, moves₃, comments₃, listed₃, solid_sep⟩ := popSkipping_moves listed₂ g₃
      have moves := moves₁.trans (reads₂.toMoves.trans moves₃)
      have read : solid (us₁ ++ (item :: us₂ ++ us₃)) = item :: solid us₂ := by
        rw [solid_append, solid_append, comments₁, solid_cons solid_item, comments₃,
          List.nil_append, List.append_nil]
      have isOperand := isOperand_of_isValue isValue operand
      rcases rest with ⟨k, rfl, rfl, rfl, rfl⟩ | ⟨k, g₄⟩
      · refine ⟨_, [v], _, moves, rfl, ?_, k, .inr ?_⟩
        · rw [eq]
          simp only [Node.bagOfAll_cons, Node.bagOfAll_nil, Attached.bag_addOwn,
            Attached.bag_addForRule]
          abel
        · rw [read]
          exact .one isOperand
      · have listed₄ : ((((σ.pastAll us₁).pastAll (item :: us₂)).pastAll us₃).past sep).listed := by
          rw [Stand.listed_past (by rw [k]; rfl)]
          exact listed₃
        obtain ⟨us₄, qs, b', moves₄, rfl, sum, closes, list⟩ := ih listed₄ g₄
        have moves₄ := Moves.cons solid_sep moves₄
        refine ⟨_, v :: qs, _, moves₁.trans (reads₂.toMoves.trans (moves₃.trans moves₄)), by simp,
          ?_, closes, .inr ?_⟩
        · rw [Node.bagOfAll_cons, add_assoc, sum, eq]
          simp only [Attached.bag_addOwn, Attached.bag_addForRule]
          abel
        · obtain ⟨nonempty, -, -⟩ | list := list
          · simp at nonempty
          · rw [solid_append, solid_append, solid_append, comments₁, solid_cons solid_item,
              comments₃, solid_cons solid_sep, List.nil_append, List.nil_append]
            exact .more isOperand k list

/-- A list is read from its tokens, and its comments are theirs but for those that go astray. -/
theorem membership_reads {e : Membership} (word : t.kind = .kwIn) (outside : σ.listed = false)
    (g : (membership fuel t rulePos).Gives r (e, cs) s) :
    ∃ us, Reads σ r us s (bag (.expression (.target (.membership e))) + cs) ∧
      IsTarget (t :: solid us) (Target.membership e).bare := by
  obtain ⟨bracket, c₁, m₁, close, vs, a, m₂, c₂, b, g₁, g₂, g₃, eq, rfl, rfl⟩ :=
    membership_gives.mp g
  obtain ⟨opens, g₁⟩ := expect_gives.mp g₁
  have anchors : bracket.kind.anchors := by rw [opens]; rfl
  obtain ⟨us₁, moves₁, comments₁, -, listed₁⟩ := popTrailing_moves anchors (by simp [opens]) σ g₁
  have listed₁ : (σ.pastAll (bracket :: us₁)).listed := by
    rw [listed₁]
    simp [Stand.past, opens]
  obtain ⟨us₂, qs, c, moves₂, rfl, sum, closes, list⟩ := valuesLoop_moves listed₁ g₂
  have solid_close : close.kind ≠ .comment := by simp [closes]
  obtain ⟨us₃, moves₃, comments₃, ended, listed₃⟩ :=
    trailing_moves (Stand.at_past (by rw [closes]; rfl) m₂) g₃
  have moves := moves₁.trans (moves₂.trans (.cons solid_close moves₃))
  refine ⟨_, ⟨moves.congr ?_, ?_, ?_⟩, ?_⟩
  · rw [Node.bag_membership, add_assoc, b.bag_group, eq, Attached.bag_route, ← add_assoc]
    change bagOfAll vs + a.bag + c₂ = _
    rw [sum]
    simp only [Attached.bag_route, Attached.bag_none]
    abel
  · simp only [Stand.pastAll_append]
    exact ended.settled
  · simp only [Stand.pastAll_append, Stand.pastAll_cons] at listed₃ ⊢
    rw [listed₃, outside]
    simp [Stand.past, closes]
  · rw [solid_append, solid_append, solid_cons (kind_of_anchors anchors), comments₁,
      solid_cons solid_close, comments₃]
    rcases list with ⟨-, rfl, none⟩ | list
    · rw [none]
      exact .empty word opens closes
    · exact .membership word opens list closes

/-- A pattern is read from its tokens, and its comments are theirs. -/
theorem patternMatch_reads {e : PatternMatch} (σ : Stand) (word : t.kind = .kwMatches)
    (g : (patternMatch fuel t rulePos).Gives r (e, cs) s) :
    ∃ us, Reads σ r us s (bag (.expression (.target (.pattern e))) + cs) ∧
      IsTarget (t :: solid us) (Target.pattern e).bare := by
  obtain ⟨text, c, a, k, read, eq, rfl, rfl⟩ := patternMatch_gives.mp g
  have anchors : text.kind.anchors := by rw [k]; rfl
  obtain ⟨us, moves, comments, ended, listed⟩ := popTrailing_moves anchors (by simp [k]) σ read
  refine ⟨_, ⟨moves.congr ?_, ended.settled, listed.trans (Stand.listed_past (by rw [k]; rfl))⟩, ?_⟩
  · rw [Node.bag_pattern, a.bag_group, eq, Attached.bag_route, Attached.bag_none, zero_add]
  · rw [solid_cons (kind_of_anchors anchors), comments]
    exact .pattern word k

/-! ### Conditions -/

variable {e : Expression}

/-- A token that starts a condition is no comment and no bracket. -/
theorem solid_of_startsExpression (h : t.kind.startsExpression) :
    t.kind ≠ .comment ∧ t.kind.brackets = false := by
  cases k : t.kind <;> simp_all [Kind.startsExpression, Kind.brackets]

/-- A bound is one of the conditions. -/
theorem isBound_of_isCondition {ts : List Token} {e : Bound} (h : IsCondition ts (.bound e)) :
    IsBound ts e := by
  cases h
  assumption

/-- A target may go on with a bound that the reader `inner` reads. -/
theorem thresholdSuffix_reads {inner : Token → Parse (Expression × List Comment)}
    (bound_reads : ∀ {σ : Stand} {t : Token} {r s : Row} {e : Expression} {cs : List Comment},
      σ.listed = false → (inner t).Gives r (e, cs) s →
      ∃ us, Reads σ r us s (bag (.expression e) + cs) ∧ IsCondition (t :: solid us) e.bare)
    {target : Target} {forRule : List Comment} {ts : List Token}
    (isTarget : IsTarget ts target.bare) (settled : σ.Settled r) (outside : σ.listed = false)
    (g : (thresholdSuffix fuel inner target rulePos forRule).Gives r (e, cs) s) :
    ∃ us b, Reads σ r us s b ∧ IsCondition (ts ++ solid us) e.bare ∧
      bag (.expression e) + cs = bag (.expression (.target target)) + forRule + b := by
  obtain ⟨word, m, row, ⟨-, rfl, rfl, rfl⟩ |
    ⟨k, th, c₁, m₁, start, m₂, bound, c₂, a, g₁, rfl, starts, g₂, eq, rfl, rfl⟩⟩ :=
      thresholdSuffix_gives.mp g
  · refine ⟨[], 0, ⟨.refl σ _, settled, rfl⟩, ?_, by simp⟩
    rw [solid_nil, List.append_nil]
    exact .target isTarget
  · subst row
    have solid_word : word.kind ≠ .comment := by simp [k]
    have solid_start := solid_of_startsExpression starts
    obtain ⟨k', us₁, reads₁, solid₁⟩ := expect_reads (σ.past word) g₁ rfl nofun rfl
    have reads₁ := Reads.cons solid_word (by rw [k]; rfl) reads₁
    have outside₁ : (((σ.pastAll (word :: us₁))).past start).listed = false := by
      rw [Stand.listed_past solid_start.2, reads₁.listed, outside]
    obtain ⟨us₂, reads₂, condition⟩ := bound_reads outside₁ g₂
    have reads₂ := Reads.cons solid_start.1 solid_start.2 reads₂
    refine ⟨_, _, reads₁.trans reads₂, ?_, ?_⟩
    · rw [solid_append, solid_cons solid_word, solid₁, solid_cons solid_start.1]
      exact .withThreshold isTarget k k' (isBound_of_isCondition condition)
    · have shared : a.bag = forRule + c₁ + c₂ := by
        simp only [eq, Attached.bag_addForRule, Attached.bag_route]
        simp [Attached.bag]
      rw [Node.bag_withThreshold, add_assoc, add_assoc, a.bag_group, shared]
      abel

/-- **A condition is read from its tokens, and its comments are theirs.** -/
theorem expressionLoop_reads (outside : σ.listed = false)
    (g : (expressionLoop fuel rulePos n t).Gives r (e, cs) s) :
    ∃ us, Reads σ r us s (bag (.expression e) + cs) ∧ IsCondition (t :: solid us) e.bare := by
  -- on the fuel: a threshold is read by the loop with less of it
  induction n generalizing σ t r e cs s with
  | zero => exact absurd g not_gives_fail
  | succ n ih =>
    obtain ⟨operator, sign, x, g₁, rfl⟩ | ⟨k, x, g₁, rfl⟩ | ⟨k, x, c, m, g₁, g₂⟩ |
      ⟨k, x, c, m, g₁, g₂⟩ := expressionLoop_gives.mp g
    · obtain ⟨us, reads, isBound⟩ := comparison_reads σ sign g₁
      exact ⟨us, reads, .bound isBound⟩
    · obtain ⟨us, reads, isBound⟩ := between_reads σ k g₁
      exact ⟨us, reads, .bound isBound⟩
    · obtain ⟨us₁, reads₁, isTarget⟩ := membership_reads k outside g₁
      obtain ⟨us₂, b, reads₂, condition, sum⟩ := thresholdSuffix_reads ih isTarget reads₁.settled
        (reads₁.listed.trans outside) g₂
      refine ⟨_, (reads₁.trans reads₂).congr sum, ?_⟩
      rwa [solid_append, ← List.cons_append]
    · obtain ⟨us₁, reads₁, isTarget⟩ := patternMatch_reads σ k g₁
      obtain ⟨us₂, b, reads₂, condition, sum⟩ := thresholdSuffix_reads ih isTarget reads₁.settled
        (reads₁.listed.trans outside) g₂
      refine ⟨_, (reads₁.trans reads₂).congr sum, ?_⟩
      rwa [solid_append, ← List.cons_append]

/-- What a condition is read from makes up a condition, and no comment in it goes astray. -/
theorem expression_reads (outside : σ.listed = false)
    (g : (expression fuel t rulePos).Gives r (e, cs) s) :
    ∃ us, Reads σ r us s (bag (.expression e) + cs) ∧ IsCondition (t :: solid us) e.bare :=
  expressionLoop_reads outside (expression_gives.mp g)

end QualityRules.Read
