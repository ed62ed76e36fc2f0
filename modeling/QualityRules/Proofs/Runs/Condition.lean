import QualityRules.Proofs.Runs.Value

/-!
# Proofs — Runs — Condition

When the readers of conditions succeed, and with what.

* `valuesLoop_gives`: a list closes at once, or a value comes and then a closing bracket or a comma
  and the rest of the list.
* `thresholdSuffix_gives`: a target stands by itself unless `with` is next; then a bound has to
  come.
* `expressionLoop_gives`: the first token says which of the four conditions it is.
-/

namespace QualityRules.Read
open Reading (gives_bind gives_ite gives_pure)

variable {fuel n : Nat} {rulePos : Pos} {t : Token} {cs : List Comment} {r s : Row}

theorem comparison_gives {operator : Comparator} {e : Comparison} :
    (comparison fuel t operator rulePos).Gives r (e, cs) s ↔
      ∃ value c₁ m p c₂ a, (popTrailing fuel).Gives r (value, c₁) m ∧
        (value.kind.startsParameter ∧ (parameter fuel value rulePos).Gives m (p, c₂) s ∨
          value.kind = .leftParen ∧
            ∃ d, (relativeDate fuel value rulePos).Gives m (d, c₂) s ∧ p = .date d) ∧
        a = (Attached.none.route c₁ t.start rulePos).addForRule c₂ ∧
        e = ⟨t.start, operator, p, a.group⟩ ∧ cs = a.forRule := by
  simp only [comparison, gives_bind, gives_ite, gives_pure, Prod.exists, Prod.mk.injEq,
    not_gives_refuse, and_false, or_false]
  constructor
  · rintro ⟨value, c₁, m, h,
      ⟨k, p, c₂, q, hp, ⟨rfl, rfl⟩, rfl⟩ | ⟨-, k, d, c₂, q, hd, ⟨rfl, rfl⟩, rfl⟩⟩
    · exact ⟨value, c₁, m, p, c₂, _, h, .inl ⟨k, hp⟩, rfl, rfl, rfl⟩
    · exact ⟨value, c₁, m, .date d, c₂, _, h, .inr ⟨k, d, hd, rfl⟩, rfl, rfl, rfl⟩
  · rintro ⟨value, c₁, m, p, c₂, -, h, ⟨k, hp⟩ | ⟨k, d, hd, rfl⟩, rfl, rfl, rfl⟩
    · exact ⟨value, c₁, m, h, .inl ⟨k, p, c₂, s, hp, ⟨rfl, rfl⟩, rfl⟩⟩
    · exact ⟨value, c₁, m, h,
        .inr ⟨by simp [k, Kind.startsParameter], k, d, c₂, s, hd, ⟨rfl, rfl⟩, rfl⟩⟩

theorem between_gives {e : Between} : (between fuel t rulePos).Gives r (e, cs) s ↔
    ∃ lower c₁ m₁ word c₂ m₂ upper c₃ a, (operand fuel rulePos).Gives r (lower, c₁) m₁ ∧
      (expect fuel .kwAnd).Gives m₁ (word, c₂) m₂ ∧ (operand fuel rulePos).Gives m₂ (upper, c₃) s ∧
      a = ((Attached.none.addForRule c₁).route c₂ word.start rulePos).addForRule c₃ ∧
      e = ⟨t.start, lower, upper, a.group⟩ ∧ cs = a.forRule := by
  simp only [between, gives_bind, gives_pure, Prod.exists, Prod.mk.injEq]
  constructor
  · rintro ⟨lower, c₁, m₁, h₁, word, c₂, m₂, h₂, upper, c₃, m₃, h₃, ⟨rfl, rfl⟩, rfl⟩
    exact ⟨lower, c₁, m₁, word, c₂, m₂, upper, c₃, _, h₁, h₂, h₃, rfl, rfl, rfl⟩
  · rintro ⟨lower, c₁, m₁, word, c₂, m₂, upper, c₃, -, h₁, h₂, h₃, rfl, rfl, rfl⟩
    exact ⟨lower, c₁, m₁, h₁, word, c₂, m₂, h₂, upper, c₃, s, h₃, ⟨rfl, rfl⟩, rfl⟩

/-! ### Lists -/

theorem skipCommentsLoop_gives {skipped : List Comment}
    (h : (skipCommentsLoop n skipped).Gives r (t, cs) s) :
    ∃ us, r = Row.behind us (Row.cons t s) ∧ (∀ u ∈ us, u.kind = .comment) ∧
      cs = skipped ++ us.map Comment.ofToken ∧ t.kind ≠ .comment := by
  induction n generalizing skipped r with
  | zero => exact absurd h not_gives_fail
  | succ n ih =>
    simp only [skipCommentsLoop, gives_bind, gives_pop, gives_ite, gives_pure, Prod.mk.injEq] at h
    obtain ⟨u, m, rfl, ⟨k, h⟩ | ⟨k, ⟨rfl, rfl⟩, rfl⟩⟩ := h
    · obtain ⟨us, rfl, all, rfl, ne⟩ := ih h
      exact ⟨u :: us, rfl, List.forall_mem_cons.mpr ⟨k, all⟩, by simp, ne⟩
    · exact ⟨[], rfl, by simp, by simp, k⟩

/-- The comments before the next other token are skipped. -/
theorem popSkipping_gives (h : (popSkipping fuel).Gives r (t, cs) s) :
    ∃ us, r = Row.behind us (Row.cons t s) ∧ (∀ u ∈ us, u.kind = .comment) ∧
      cs = us.map Comment.ofToken ∧ t.kind ≠ .comment :=
  skipCommentsLoop_gives h

theorem popSkipping_gives_nil (hf : 0 < fuel) (h : t.kind ≠ .comment) (m : Row) :
    (popSkipping fuel).Gives (Row.cons t m) (t, []) m := by
  obtain ⟨n, rfl⟩ : ∃ n, fuel = n + 1 := ⟨fuel - 1, by omega⟩
  simp only [popSkipping, skipCommentsLoop, gives_bind, gives_pop, gives_ite, gives_pure]
  exact ⟨t, m, rfl, .inr ⟨h, rfl, rfl⟩⟩

/-- A list closes at once, or a value comes and then its end or a comma and the rest. -/
theorem valuesLoop_gives {values vs : List Parameter} {a a' : Attached} {close : Token} :
    (valuesLoop fuel rulePos (n + 1) values a).Gives r (close, vs, a') s ↔
      ∃ item c₁ m₁, (popSkipping fuel).Gives r (item, c₁) m₁ ∧
        (item.kind = .rightBracket ∧ values = [] ∧ close = item ∧ vs = [] ∧ a' = a.addOwn c₁ ∧
            s = m₁ ∨
          isOperand item ∧ ∃ v c₂ m₂ sep c₃ m₃ b,
            (parameter fuel item rulePos).Gives m₁ (v, c₂) m₂ ∧
            (popSkipping fuel).Gives m₂ (sep, c₃) m₃ ∧
            b = ((a.addOwn c₁).addForRule c₂).addOwn c₃ ∧
            (sep.kind = .rightBracket ∧ close = sep ∧ vs = values ++ [v] ∧ a' = b ∧ s = m₃ ∨
              sep.kind = .comma ∧
                (valuesLoop fuel rulePos n (values ++ [v]) b).Gives m₃ (close, vs, a') s)) := by
  simp only [valuesLoop, gives_bind, gives_ite, gives_pure, Prod.exists, Prod.mk.injEq,
    not_gives_refuse, and_false, false_or, Bool.and_eq_true, decide_eq_true_eq,
    List.isEmpty_iff, Bool.not_eq_eq_eq_not, Bool.not_true, Bool.not_eq_false]
  refine exists_congr fun item => exists_congr fun c₁ => exists_congr fun m₁ =>
    and_congr_right fun _ => ?_
  constructor
  · rintro (⟨⟨k, rfl⟩, ⟨rfl, rfl, rfl⟩, rfl⟩ | ⟨-, op, v, c₂, m₂, hv, sep, c₃, m₃, hs, rest⟩)
    · exact .inl ⟨k, rfl, rfl, rfl, rfl, rfl⟩
    · refine .inr ⟨op, v, c₂, m₂, sep, c₃, m₃, _, hv, hs, rfl, ?_⟩
      rcases rest with ⟨k, ⟨rfl, rfl, rfl⟩, rfl⟩ | ⟨-, k, h⟩
      · exact .inl ⟨k, rfl, rfl, rfl, rfl⟩
      · exact .inr ⟨Classical.not_not.mp k, h⟩
  · rintro (⟨k, rfl, rfl, rfl, rfl, rfl⟩ | ⟨op, v, c₂, m₂, sep, c₃, m₃, -, hv, hs, rfl, rest⟩)
    · exact .inl ⟨⟨k, rfl⟩, ⟨rfl, rfl, rfl⟩, rfl⟩
    · have ne : item.kind ≠ .rightBracket := by
        intro k
        simp [isOperand, k, Kind.startsParameter] at op
      refine .inr ⟨fun h => ne h.1, op, v, c₂, m₂, hv, sep, c₃, m₃, hs, ?_⟩
      rcases rest with ⟨k, rfl, rfl, rfl, rfl⟩ | ⟨k, h⟩
      · exact .inl ⟨k, ⟨rfl, rfl, rfl⟩, rfl⟩
      · exact .inr ⟨by simp [k], by simp [k], h⟩

theorem membership_gives {e : Membership} : (membership fuel t rulePos).Gives r (e, cs) s ↔
    ∃ bracket c₁ m₁ close vs a m₂ c₂ b, (expect fuel .leftBracket).Gives r (bracket, c₁) m₁ ∧
      (valuesLoop fuel rulePos fuel [] (Attached.none.route c₁ bracket.start rulePos)).Gives m₁
        (close, vs, a) m₂ ∧
      (trailing fuel close.start).Gives m₂ c₂ s ∧ b = a.route c₂ close.start rulePos ∧
      e = ⟨t.start, bracket.start, close.start, vs, b.group⟩ ∧ cs = b.forRule := by
  simp only [membership, gives_bind, gives_pure, Prod.exists, Prod.mk.injEq]
  constructor
  · rintro ⟨bracket, c₁, m₁, h₁, close, vs, a, m₂, h₂, c₂, m₃, h₃, ⟨rfl, rfl⟩, rfl⟩
    exact ⟨bracket, c₁, m₁, close, vs, a, m₂, c₂, _, h₁, h₂, h₃, rfl, rfl, rfl⟩
  · rintro ⟨bracket, c₁, m₁, close, vs, a, m₂, c₂, -, h₁, h₂, h₃, rfl, rfl, rfl⟩
    exact ⟨bracket, c₁, m₁, h₁, close, vs, a, m₂, h₂, c₂, s, h₃, ⟨rfl, rfl⟩, rfl⟩

theorem patternMatch_gives {e : PatternMatch} : (patternMatch fuel t rulePos).Gives r (e, cs) s ↔
    ∃ pat c a, pat.kind = .string ∧ (popTrailing fuel).Gives r (pat, c) s ∧
      a = Attached.none.route c pat.start rulePos ∧
      e = ⟨t.start, pat.start, unquote pat.text, a.group⟩ ∧ cs = a.forRule := by
  simp only [patternMatch, gives_bind, gives_ite, gives_pure, Prod.exists, Prod.mk.injEq,
    not_gives_refuse, and_false, false_or, ne_eq, Classical.not_not]
  constructor
  · rintro ⟨pat, c, m, h, k, ⟨rfl, rfl⟩, rfl⟩
    exact ⟨pat, c, _, k, h, rfl, rfl, rfl⟩
  · rintro ⟨pat, c, -, k, h, rfl, rfl, rfl⟩
    exact ⟨pat, c, s, h, k, ⟨rfl, rfl⟩, rfl⟩

/-! ### Thresholds and conditions -/

variable {e : Expression}

/-- A target stands by itself unless `with` is next; then a bound has to come. -/
theorem thresholdSuffix_gives {inner : Token → Parse (Expression × List Comment)}
    {target : Target} {forRule : List Comment} :
    (thresholdSuffix fuel inner target rulePos forRule).Gives r (e, cs) s ↔
      ∃ word m, r = Row.cons word m ∧
        (word.kind ≠ .kwWith ∧ e = .target target ∧ cs = forRule ∧ s = r ∨
          word.kind = .kwWith ∧ ∃ th c₁ m₁ start m₂ bound c₂ a,
            (expect fuel .kwThreshold).Gives m (th, c₁) m₁ ∧ m₁ = Row.cons start m₂ ∧
            start.kind.startsExpression ∧ (inner start).Gives m₂ (.bound bound, c₂) s ∧
            a = ((Attached.mk [] forRule).route c₁ word.start rulePos).addForRule c₂ ∧
            e = .withThreshold ⟨word.start, target, bound, a.group⟩ ∧ cs = a.forRule) := by
  simp only [thresholdSuffix, gives_bind, gives_pop, gives_ite, gives_pure, gives_push, Prod.exists,
    Prod.mk.injEq, not_gives_refuse, and_false, false_or, ne_eq, Classical.not_not,
    Bool.not_eq_eq_eq_not, Bool.not_true, Bool.not_eq_false]
  refine exists_congr fun word => exists_congr fun m => and_congr_right fun row => ?_
  constructor
  · rintro (⟨k, -, -, rfl, ⟨rfl, rfl⟩, rfl⟩ |
      ⟨k, th, c₁, m₁, h₁, start, m₂, rfl, hs, x, c₂, m₃, hi, rest⟩)
    · exact .inl ⟨k, rfl, rfl, row.symm⟩
    · -- any condition was read, but only a bound is taken
      cases x with
      | bound bound =>
        simp only [gives_pure, Prod.mk.injEq] at rest
        obtain ⟨⟨rfl, rfl⟩, rfl⟩ := rest
        exact .inr ⟨k, th, c₁, _, start, m₂, bound, c₂, _, h₁, rfl, hs, hi, rfl, rfl, rfl⟩
      | _ => exact absurd rest not_gives_refuse
  · rintro (⟨k, rfl, rfl, rfl⟩ |
      ⟨k, th, c₁, -, start, m₂, bound, c₂, -, h₁, rfl, hs, hi, rfl, rfl, rfl⟩)
    · exact .inl ⟨k, (), _, rfl, ⟨rfl, rfl⟩, row⟩
    · exact .inr ⟨k, th, c₁, _, h₁, start, m₂, rfl, hs, _, c₂, s, hi, gives_pure.mpr ⟨rfl, rfl⟩⟩

/-- The first token says which of the four conditions it is. -/
theorem expressionLoop_gives : (expressionLoop fuel rulePos (n + 1) t).Gives r (e, cs) s ↔
    (∃ operator, Comparator.ofKind? t.kind = some operator ∧
      ∃ x, (comparison fuel t operator rulePos).Gives r (x, cs) s ∧ e = .bound (.comparison x)) ∨
    t.kind = .kwBetween ∧ (∃ x, (between fuel t rulePos).Gives r (x, cs) s ∧
      e = .bound (.between x)) ∨
    t.kind = .kwIn ∧ (∃ x c m, (membership fuel t rulePos).Gives r (x, c) m ∧
      (thresholdSuffix fuel (expressionLoop fuel rulePos n) (.membership x) rulePos c).Gives m
        (e, cs) s) ∨
    t.kind = .kwMatches ∧ ∃ x c m, (patternMatch fuel t rulePos).Gives r (x, c) m ∧
      (thresholdSuffix fuel (expressionLoop fuel rulePos n) (.pattern x) rulePos c).Gives m
        (e, cs) s := by
  have wrap : ∀ {α : Type} {p : Parse (α × List Comment)} {f : α → Expression},
      (∃ x c m, p.Gives r (x, c) m ∧ (e = f x ∧ cs = c) ∧ s = m) ↔
        ∃ x, p.Gives r (x, cs) s ∧ e = f x := by
    intro α p f
    constructor
    · rintro ⟨x, c, m, h, ⟨rfl, rfl⟩, rfl⟩
      exact ⟨x, h, rfl⟩
    · rintro ⟨x, h, rfl⟩
      exact ⟨x, cs, s, h, ⟨rfl, rfl⟩, rfl⟩
  cases k : t.kind <;>
    simp only [expressionLoop, k, Comparator.ofKind?, wrap, not_gives_refuse, gives_bind,
      gives_pure, Prod.mk.injEq, Prod.exists, Option.some.injEq, reduceCtorEq, false_and,
      exists_false, or_false, false_or, true_and, exists_eq_left']

theorem expression_gives : (expression fuel t rulePos).Gives r (e, cs) s ↔
    (expressionLoop fuel rulePos fuel t).Gives r (e, cs) s := Iff.rfl

end QualityRules.Read
