import QualityRules.Proofs.Bare
import QualityRules.Proofs.Runs.Condition

/-!
# Proofs — Order — Parts

The comments of a group come in the order in which they were read, though not all of them stand in
one place.  For values and conditions this is said of each reader: the groups of its part and the
comments for the rule are taken, in their order, from those that it passes.

* `Node.Within`: the comments in each group of a node come in the order of a row of comments.
* `Attached.Within` is the same for comments that are shared out between a part and its rule.
* `Passes`: a reader goes from one row to another, and those are the comments between.
* `parameter_within`, `expression_within` and the others: one statement for each reader.
-/

namespace QualityRules

variable {C D : List Comment}

namespace Node

variable {m : Node}

/-- The comments in each group of the node come in the order that they have in `C`. -/
def Within (C : List Comment) (m : Node) : Prop := ∀ g, group g ∈ m.walk → g.comments.Sublist C

/-- Comments that come in order among some do so among more. -/
theorem Within.mono (h : m.Within C) (more : C.Sublist D) : m.Within D :=
  fun g mem => (h g mem).trans more

/-- The comments of a node come in order when those of its children do. -/
theorem within_iff : m.Within C ↔
    (∀ g, m = group g → g.comments.Sublist C) ∧ ∀ c ∈ m.children, c.Within C := by
  unfold Within
  rw [walk_eq]
  simp only [List.mem_cons, List.mem_flatMap]
  constructor
  · exact fun all => ⟨fun g eq => all g (.inl eq.symm), fun c child g mem =>
      all g (.inr ⟨c, child, mem⟩)⟩
  · rintro ⟨self, parts⟩ g (eq | ⟨c, child, mem⟩)
    · exact self g eq.symm
    · exact parts c child g mem

@[simp] theorem within_group {g : CommentGroup} : (group g).Within C ↔ g.comments.Sublist C := by
  rw [within_iff]
  have comments : ∀ c : Comment, (comment c).Within C := fun c g mem => by
    simp [walk, walkTo, rank] at mem
  simp [children, comments]

/-- A group that may be absent is in order if the comments in it are. -/
@[simp] theorem within_present {g : Option CommentGroup} :
    (∀ c ∈ present g, c.Within C) ↔ (CommentGroup.listOf g).Sublist C := by
  cases g <;> simp [present, CommentGroup.listOf]

/-- A part that has nothing but comments is in order if they are. -/
theorem within_leaf {g : Option CommentGroup} (parts : m.children = present g)
    (other : m.isRemark = false) : m.Within C ↔ (CommentGroup.listOf g).Sublist C := by
  rw [within_iff, parts, within_present, and_iff_right]
  rintro g rfl
  cases other

section Unfold
open CommentGroup (listOf)

/-- A date is in order when its duration is and what trails it. -/
theorem within_date {p : DateParameter} : (parameter (.date p)).Within C ↔
    (∀ d ∈ p.duration, (parameter (.duration d)).Within C) ∧ (listOf p.comments).Sublist C := by
  rw [within_iff]
  simp [children, ofParameter, or_imp, forall_and]

/-- A comparison is in order when its value is and what trails it. -/
theorem within_comparison {e : Comparison} : (expression (.bound (.comparison e))).Within C ↔
    (parameter e.right).Within C ∧ (listOf e.comments).Sublist C := by
  rw [within_iff]
  simp [children, ofExpression]

/-- A condition with `between` is in order when both values are and what trails it. -/
theorem within_between {e : Between} : (expression (.bound (.between e))).Within C ↔
    (parameter e.left).Within C ∧ (parameter e.right).Within C ∧
      (listOf e.comments).Sublist C := by
  rw [within_iff]
  simp [children, ofExpression]

/-- A list is in order when its values are and what trails it. -/
theorem within_membership {e : Membership} : (expression (.target (.membership e))).Within C ↔
    (∀ p ∈ e.values, (parameter p).Within C) ∧ (listOf e.comments).Sublist C := by
  rw [within_iff]
  simp [children, ofExpression, or_imp, forall_and]

/-- A threshold is in order when the target and the bound are and what trails it. -/
theorem within_withThreshold {e : WithThreshold} : (expression (.withThreshold e)).Within C ↔
    (expression (.target e.target)).Within C ∧ (expression (.bound e.threshold)).Within C ∧
      (listOf e.comments).Sublist C := by
  rw [within_iff]
  simp [children, ofExpression]

end Unfold

end Node

namespace Read

/-! ### Comments that are shared out -/

/-- The comments of the part and those of the rule come in the order that they have in `C`. -/
structure Attached.Within (C : List Comment) (a : Attached) : Prop where
  own : a.own.Sublist C
  forRule : a.forRule.Sublist C

namespace Attached.Within

variable {a : Attached} {cs : List Comment}

/-- Nothing that is shared out is in order. -/
theorem none : Attached.none.Within [] := ⟨.slnil, .slnil⟩

/-- What is added for the rule stays in order. -/
theorem addForRule (h : a.Within C) (more : cs.Sublist D) : (a.addForRule cs).Within (C ++ D) :=
  ⟨h.own.trans (List.sublist_append_left C D), h.forRule.append more⟩

/-- What is added to the part stays in order. -/
theorem addOwn (h : a.Within C) (more : cs.Sublist D) : (a.addOwn cs).Within (C ++ D) :=
  ⟨h.own.append more, h.forRule.trans (List.sublist_append_left C D)⟩

/-- Comments are shared out in order, wherever they go. -/
theorem route (h : a.Within C) (more : cs.Sublist D) (anchor rulePos : Pos) :
    (a.route cs anchor rulePos).Within (C ++ D) := by
  unfold Attached.route
  split
  · exact h.addForRule more
  · exact h.addOwn more

/-- What the part keeps is in order. -/
theorem group (h : a.Within C) : (CommentGroup.listOf a.group).Sublist C := by
  rw [Attached.group, CommentGroup.listOf_ofList?]
  exact h.own

end Attached.Within

/-! ### Comments between two rows -/

/-- A reader that goes from the row `r` to `s` passes the comments `C`. -/
def Passes (C : List Comment) (r s : Row) : Prop := ∃ us, r = Row.behind us s ∧ commentsOf us = C

variable {fuel n : Nat} {anchor rulePos : Pos} {t : Token} {cs : List Comment} {r s m : Row}
  {p : Parameter} {a : Attached}

/-- Where nothing is read nothing is passed. -/
theorem Passes.refl (r : Row) : Passes [] r r := ⟨[], rfl, rfl⟩

/-- Two stretches one behind the other are passed. -/
theorem Passes.trans (h : Passes C r m) (k : Passes D m s) : Passes (C ++ D) r s := by
  obtain ⟨us, rfl, rfl⟩ := h
  obtain ⟨vs, rfl, rfl⟩ := k
  exact ⟨us ++ vs, (Row.behind_append us vs s).symm, commentsOf_append us vs⟩

/-- A comment that is taken is passed. -/
theorem Passes.comment (h : t.kind = .comment) (m : Row) :
    Passes [Comment.ofToken t] (Row.cons t m) m :=
  ⟨[t], rfl, commentsOf_cons_comment h []⟩

/-- Any other token has no comment to pass. -/
theorem Passes.token (h : t.kind ≠ .comment) (m : Row) : Passes [] (Row.cons t m) m :=
  ⟨[t], rfl, commentsOf_cons h []⟩

/-- Any token may come first. -/
theorem Passes.cons (h : Passes C m s) (t : Token) :
    ∃ D, Passes D (Row.cons t m) s ∧ C.Sublist D := by
  by_cases kind : t.kind = .comment
  · exact ⟨_, (Passes.comment kind m).trans h, List.sublist_append_right _ C⟩
  · exact ⟨_, (Passes.token kind m).trans h, List.sublist_append_right _ C⟩

/-- What trails a token is passed. -/
theorem trailing_passes (g : (trailing fuel anchor).Gives r cs s) : Passes cs r s := by
  obtain ⟨us, rfl, block, rfl, -⟩ := trailing_gives g
  exact ⟨us, rfl, commentsOf_eq_map block.kind_eq⟩

theorem popTrailing_passes (g : (popTrailing fuel).Gives r (t, cs) s) :
    ∃ C, Passes C r s ∧ cs.Sublist C := by
  obtain ⟨m, rfl, ⟨-, rfl, rfl⟩ | ⟨-, trail⟩⟩ := popTrailing_gives.mp g
  · exact (Passes.refl s).cons t
  · exact (trailing_passes trail).cons t

theorem expect_passes {kind : Kind} (g : (expect fuel kind).Gives r (t, cs) s) :
    ∃ C, Passes C r s ∧ cs.Sublist C :=
  popTrailing_passes (expect_gives.mp g).2

/-- What is skipped is passed. -/
theorem popSkipping_passes (g : (popSkipping fuel).Gives r (t, cs) s) : Passes cs r s := by
  obtain ⟨us, rfl, all, rfl, other⟩ := popSkipping_gives g
  refine ⟨us ++ [t], by rw [Row.behind_append]; rfl, ?_⟩
  rw [commentsOf_append, commentsOf_eq_map all, commentsOf_cons other, commentsOf_nil,
    List.append_nil]

/-! ### Values -/

/-- What trails a token is passed and shared out in order. -/
theorem trailingOf_within (g : (trailingOf fuel anchor rulePos).Gives r a s) :
    ∃ C, Passes C r s ∧ a.Within C := by
  obtain ⟨cs, trail, rfl⟩ := trailingOf_gives.mp g
  exact ⟨cs, trailing_passes trail, Attached.Within.none.route (.refl cs) anchor rulePos⟩

/-- A literal is in order when what trails it is. -/
theorem literal_within {c : Option CommentGroup} (h : literal t c = some p)
    (own : (CommentGroup.listOf c).Sublist C) : Node.Within C (.parameter p) := by
  cases k : t.kind with
  | string =>
    simp only [literal, k, Option.some.injEq] at h
    exact h ▸ (Node.within_leaf rfl rfl).mpr own
  | kwTrue | kwFalse =>
    simp only [literal, k, Option.some.injEq] at h
    exact h ▸ (Node.within_leaf rfl rfl).mpr own
  | kwNow =>
    simp only [literal, k, Option.some.injEq] at h
    exact h ▸ Node.within_date.mpr ⟨by simp, own⟩
  | _ => simp [literal, k] at h

/-- A value is read in order. -/
theorem parameter_within (g : (parameter fuel t rulePos).Gives r (p, cs) s) :
    ∃ C, Passes C r s ∧ Node.Within C (.parameter p) ∧ cs.Sublist C := by
  obtain ⟨-, g⟩ | ⟨a, trail, literal, rfl⟩ := parameter_gives.mp g
  · obtain ⟨next, m, a, rfl, rfl, ⟨-, trail, rfl⟩ | ⟨unit, unit_kind, -, trail, rfl⟩⟩ :=
      number_gives.mp g
    · obtain ⟨C, passes, within⟩ := trailingOf_within trail
      exact ⟨C, passes, (Node.within_leaf rfl rfl).mpr within.group, within.forRule⟩
    · obtain ⟨C, passes, within⟩ := trailingOf_within trail
      have other : next.kind ≠ .comment := by
        intro e
        simp [e, TimeUnit.ofKind?] at unit_kind
      exact ⟨C, (Passes.token other m).trans passes,
        (Node.within_leaf rfl rfl).mpr within.group, within.forRule⟩
  · obtain ⟨C, passes, within⟩ := trailingOf_within trail
    exact ⟨C, passes, literal_within literal within.group, within.forRule⟩

theorem operand_within (g : (operand fuel rulePos).Gives r (p, cs) s) :
    ∃ C, Passes C r s ∧ Node.Within C (.parameter p) ∧ cs.Sublist C := by
  obtain ⟨t, m, rfl, -, read⟩ := operand_gives.mp g
  obtain ⟨C, passes, within, rule⟩ := parameter_within read
  obtain ⟨D, passes, more⟩ := passes.cons t
  exact ⟨D, passes, within.mono more, rule.trans more⟩

theorem duration_within {d : DurationParameter} (g : (duration fuel rulePos).Gives r (d, cs) s) :
    ∃ C, Passes C r s ∧ Node.Within C (.parameter (.duration d)) ∧ cs.Sublist C := by
  obtain ⟨t, m, rfl, read⟩ := duration_gives.mp g
  obtain ⟨C, passes, within, rule⟩ := parameter_within read
  obtain ⟨D, passes, more⟩ := passes.cons t
  exact ⟨D, passes, within.mono more, rule.trans more⟩

theorem relativeDate_within {d : DateParameter}
    (g : (relativeDate fuel t rulePos).Gives r (d, cs) s) :
    ∃ C, Passes C r s ∧ Node.Within C (.parameter (.date d)) ∧ cs.Sublist C := by
  obtain ⟨now, c₁, m₁, minus, c₂, m₂, dur, c₃, m₃, close, c₄, a, g₁, g₂, g₃, g₄, rfl, rfl, rfl⟩ :=
    relativeDate_gives.mp g
  obtain ⟨C₁, passes₁, more₁⟩ := expect_passes g₁
  obtain ⟨C₂, passes₂, more₂⟩ := expect_passes g₂
  obtain ⟨C₃, passes₃, within, more₃⟩ := duration_within g₃
  obtain ⟨C₄, passes₄, more₄⟩ := expect_passes g₄
  have shared := (((Attached.Within.none.route more₁ now.start rulePos).route more₂ minus.start
    rulePos).addForRule more₃).route more₄ close.start rulePos
  rw [List.nil_append] at shared
  refine ⟨_, ((passes₁.trans passes₂).trans passes₃).trans passes₄,
    Node.within_date.mpr ⟨?_, shared.group⟩, shared.forRule⟩
  rintro _ ⟨⟩
  exact within.mono ((List.sublist_append_right _ C₃).trans (List.sublist_append_left _ C₄))

/-! ### Conditions -/

theorem comparison_within {operator : Comparator} {e : Comparison}
    (g : (comparison fuel t operator rulePos).Gives r (e, cs) s) :
    ∃ C, Passes C r s ∧ Node.Within C (.expression (.bound (.comparison e))) ∧ cs.Sublist C := by
  obtain ⟨value, c₁, m, p, c₂, a, g₁, right, rfl, rfl, rfl⟩ := comparison_gives.mp g
  obtain ⟨C₁, passes₁, more₁⟩ := popTrailing_passes g₁
  have read : ∃ C, Passes C m s ∧ Node.Within C (.parameter p) ∧ c₂.Sublist C := by
    rcases right with ⟨-, read⟩ | ⟨-, d, read, rfl⟩
    · exact parameter_within read
    · exact relativeDate_within read
  obtain ⟨C₂, passes₂, within, more₂⟩ := read
  have shared := (Attached.Within.none.route more₁ t.start rulePos).addForRule more₂
  rw [List.nil_append] at shared
  exact ⟨_, passes₁.trans passes₂, Node.within_comparison.mpr
    ⟨within.mono (List.sublist_append_right C₁ C₂), shared.group⟩, shared.forRule⟩

theorem between_within {e : Between} (g : (between fuel t rulePos).Gives r (e, cs) s) :
    ∃ C, Passes C r s ∧ Node.Within C (.expression (.bound (.between e))) ∧ cs.Sublist C := by
  obtain ⟨lower, c₁, m₁, word, c₂, m₂, upper, c₃, a, g₁, g₂, g₃, rfl, rfl, rfl⟩ :=
    between_gives.mp g
  obtain ⟨C₁, passes₁, left, more₁⟩ := operand_within g₁
  obtain ⟨C₂, passes₂, more₂⟩ := expect_passes g₂
  obtain ⟨C₃, passes₃, right, more₃⟩ := operand_within g₃
  have shared := ((Attached.Within.none.addForRule more₁).route more₂ word.start rulePos).addForRule
    more₃
  rw [List.nil_append] at shared
  refine ⟨_, (passes₁.trans passes₂).trans passes₃, Node.within_between.mpr
    ⟨left.mono ?_, right.mono (List.sublist_append_right _ C₃), shared.group⟩, shared.forRule⟩
  exact (List.sublist_append_left C₁ C₂).trans (List.sublist_append_left _ C₃)

/-- **The values of a list are read in order, behind those that were read before.** -/
theorem valuesLoop_within {values vs : List Parameter} {a' : Attached} {close : Token}
    (g : (valuesLoop fuel rulePos n values a).Gives r (close, vs, a') s) (shared : a.Within C)
    (before : ∀ v ∈ values, Node.Within C (.parameter v)) :
    ∃ D, Passes D r s ∧ (∀ v ∈ vs, Node.Within (C ++ D) (.parameter v)) ∧
      a'.Within (C ++ D) := by
  induction n generalizing values a r C with
  | zero => exact absurd g not_gives_fail
  | succ n ih =>
    obtain ⟨item, c₁, m₁, g₁, ⟨-, rfl, rfl, rfl, rfl, rfl⟩ |
      ⟨-, v, c₂, m₂, sep, c₃, m₃, b, read, g₃, rfl, rest⟩⟩ := valuesLoop_gives.mp g
    · refine ⟨c₁, popSkipping_passes g₁, fun u mem => ?_, shared.addOwn (.refl c₁)⟩
      exact (before u mem).mono (List.sublist_append_left C c₁)
    · have passes₁ := popSkipping_passes g₁
      obtain ⟨C₂, passes₂, within, more₂⟩ := parameter_within read
      have passes := (passes₁.trans passes₂).trans (popSkipping_passes g₃)
      have assoc : C ++ c₁ ++ C₂ ++ c₃ = C ++ (c₁ ++ C₂ ++ c₃) := by
        simp only [List.append_assoc]
      have shared := ((shared.addOwn (.refl c₁)).addForRule more₂).addOwn (.refl c₃)
      have all : ∀ u ∈ values ++ [v], Node.Within (C ++ c₁ ++ C₂ ++ c₃) (.parameter u) := by
        rw [List.forall_mem_append, List.forall_mem_singleton]
        refine ⟨fun u mem => (before u mem).mono ?_, within.mono ?_⟩
        · exact assoc ▸ List.sublist_append_left C _
        · exact (List.sublist_append_right _ C₂).trans (List.sublist_append_left _ c₃)
      rw [assoc] at all shared
      rcases rest with ⟨-, rfl, rfl, rfl, rfl⟩ | ⟨-, rest⟩
      · exact ⟨_, passes, all, shared⟩
      · obtain ⟨D, passes', within', shared'⟩ := ih rest shared all
        rw [List.append_assoc] at within' shared'
        exact ⟨_, passes.trans passes', within', shared'⟩

theorem membership_within {e : Membership} (g : (membership fuel t rulePos).Gives r (e, cs) s) :
    ∃ C, Passes C r s ∧ Node.Within C (.expression (.target (.membership e))) ∧ cs.Sublist C := by
  obtain ⟨bracket, c₁, m₁, close, vs, a, m₂, c₂, b, g₁, g₂, g₃, rfl, rfl, rfl⟩ :=
    membership_gives.mp g
  obtain ⟨C₁, passes₁, more₁⟩ := expect_passes g₁
  obtain ⟨C₂, passes₂, within, shared⟩ := valuesLoop_within g₂
    (Attached.Within.none.route more₁ bracket.start rulePos) (List.forall_mem_nil _)
  have shared := shared.route (.refl c₂) close.start rulePos
  rw [List.nil_append] at shared within
  exact ⟨_, (passes₁.trans passes₂).trans (trailing_passes g₃), Node.within_membership.mpr
    ⟨fun v mem => (within v mem).mono (List.sublist_append_left _ c₂), shared.group⟩,
    shared.forRule⟩

theorem patternMatch_within {e : PatternMatch}
    (g : (patternMatch fuel t rulePos).Gives r (e, cs) s) :
    ∃ C, Passes C r s ∧ Node.Within C (.expression (.target (.pattern e))) ∧ cs.Sublist C := by
  obtain ⟨pat, c, a, -, g₁, rfl, rfl, rfl⟩ := patternMatch_gives.mp g
  obtain ⟨C, passes, more⟩ := popTrailing_passes g₁
  have shared := Attached.Within.none.route more pat.start rulePos
  exact ⟨C, passes, (Node.within_leaf rfl rfl).mpr shared.group, shared.forRule⟩

/-- A threshold is read in order when the condition behind it is. -/
theorem thresholdSuffix_within {inner : Token → Parse (Expression × List Comment)}
    {target : Target} {forRule : List Comment} {e : Expression}
    (g : (thresholdSuffix fuel inner target rulePos forRule).Gives r (e, cs) s)
    (before : Node.Within C (.expression (.target target))) (rule : forRule.Sublist C)
    (read_inner : ∀ {t r e cs s}, (inner t).Gives r (e, cs) s →
      ∃ C, Passes C r s ∧ Node.Within C (.expression e) ∧ cs.Sublist C) :
    ∃ D, Passes D r s ∧ Node.Within (C ++ D) (.expression e) ∧ cs.Sublist (C ++ D) := by
  obtain ⟨word, m, rfl, ⟨-, rfl, rfl, rfl⟩ | ⟨kind, th, c₁, m₁, start, m₂, bound, c₂, a, g₁, rfl,
    starts, read, rfl, rfl, rfl⟩⟩ := thresholdSuffix_gives.mp g
  · exact ⟨[], .refl _, by rwa [List.append_nil], by rwa [List.append_nil]⟩
  · obtain ⟨C₁, passes₁, more₁⟩ := expect_passes g₁
    obtain ⟨C₂, passes₂, within, more₂⟩ := read_inner read
    have other : word.kind ≠ .comment := by simp [kind]
    have other' : start.kind ≠ .comment := by
      intro e
      simp [e, Kind.startsExpression] at starts
    have shared : (Attached.mk [] forRule).Within C := ⟨List.nil_sublist C, rule⟩
    have shared := (shared.route more₁ word.start rulePos).addForRule more₂
    refine ⟨C₁ ++ C₂, ?_, ?_⟩
    · exact (Passes.token other m).trans (passes₁.trans ((Passes.token other' m₂).trans passes₂))
    rw [← List.append_assoc]
    refine ⟨Node.within_withThreshold.mpr ⟨before.mono ?_, ?_, shared.group⟩, shared.forRule⟩
    · exact (List.sublist_append_left C C₁).trans (List.sublist_append_left _ C₂)
    · exact within.mono (List.sublist_append_right _ C₂)

/-- **A condition is read in order.** -/
theorem expressionLoop_within {e : Expression}
    (g : (expressionLoop fuel rulePos n t).Gives r (e, cs) s) :
    ∃ C, Passes C r s ∧ Node.Within C (.expression e) ∧ cs.Sublist C := by
  -- on the fuel, for the bound behind `with threshold`
  induction n generalizing t r e cs s with
  | zero => exact absurd g not_gives_fail
  | succ n ih =>
    obtain ⟨operator, -, x, read, rfl⟩ | ⟨-, x, read, rfl⟩ | ⟨-, x, c, m, read, suffix⟩ |
      ⟨-, x, c, m, read, suffix⟩ := expressionLoop_gives.mp g
    · exact comparison_within read
    · exact between_within read
    · obtain ⟨C, passes, within, rule⟩ := membership_within read
      obtain ⟨D, passes', rest⟩ := thresholdSuffix_within suffix within rule ih
      exact ⟨C ++ D, passes.trans passes', rest⟩
    · obtain ⟨C, passes, within, rule⟩ := patternMatch_within read
      obtain ⟨D, passes', rest⟩ := thresholdSuffix_within suffix within rule ih
      exact ⟨C ++ D, passes.trans passes', rest⟩

theorem expression_within {e : Expression} (g : (expression fuel t rulePos).Gives r (e, cs) s) :
    ∃ C, Passes C r s ∧ Node.Within C (.expression e) ∧ cs.Sublist C :=
  expressionLoop_within (expression_gives.mp g)

end Read

end QualityRules
