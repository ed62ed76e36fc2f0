import QualityRules.Proofs.Order.Parts
import QualityRules.Proofs.Runs.Rule

/-!
# Proofs — Order — Rules

The comments of each group of a rule come in the order in which they were read.  Comments that wait
on a tray were read before, so a step is followed together with all comments up to it.

* `Tray.Within`: what floats and what waits comes in the order of a row of comments.
* `Onward`: what holds of all comments that were read when a reader gets from one row to another.
* `LeadStep.within` and `GroupStep.within`: a step of a rule, and of a combined rule, keeps the
  order; `rule_within` follows all steps of either.
-/

namespace QualityRules

open CommentGroup (listOf)

variable {C D : List Comment}

namespace Node

/-- A rule is in order when its description is, its parts are, and what trails it. -/
theorem within_single {r : Rule} : (single r).Within C ↔
    (listOf r.description).Sublist C ∧ (ident r.ruleType).Within C ∧
      (∀ p ∈ r.parameters, (parameter p).Within C) ∧
      (∀ e ∈ r.expression, (expression e).Within C) ∧ (listOf r.comments).Sublist C := by
  rw [within_iff]
  simp [single, children, ofRule, or_imp, forall_and]

/-- A combined rule is in order when its description is, its members are, and what trails it. -/
theorem within_combined {r : CombinedRule} : (rule (.combined r)).Within C ↔
    (listOf r.description).Sublist C ∧ (∀ x ∈ r.rules, (single x).Within C) ∧
      (listOf r.comments).Sublist C := by
  rw [within_iff]
  simp [children, ofRule, or_imp, forall_and]

end Node

/-! ### Trays -/

/-- What floats and what waits comes in the order that it has in `C`. -/
structure Tray.Within (C : List Comment) (k : Tray) : Prop where
  floating : ∀ g ∈ k.floating, g.comments.Sublist C
  run : k.run.Sublist C

namespace Tray.Within

variable {k l : Tray} {c : Comment}

/-- An empty tray is in order. -/
theorem empty (C : List Comment) : Tray.empty.Within C := ⟨List.forall_mem_nil _, C.nil_sublist⟩

/-- A tray that is in order among some comments is so among more. -/
theorem mono (h : k.Within C) (more : C.Sublist D) : k.Within D :=
  ⟨fun g mem => (h.floating g mem).trans more, h.run.trans more⟩

/-- What waits floats in order. -/
theorem spill (h : k.Within C) : k.spill.Within C := by
  refine ⟨fun g mem => ?_, C.nil_sublist⟩
  rcases List.mem_append.mp mem with mem | mem
  · exact h.floating g mem
  · rw [CommentGroup.comments_of_ofList? (Option.mem_toList.mp mem)]
    exact h.run

/-- A comment that is read goes behind those that were read before. -/
theorem add (h : k.Within C) (c : Comment) : (k.add c).Within (C ++ [c]) := by
  have old : C.Sublist (C ++ [c]) := List.sublist_append_left C [c]
  unfold Tray.add
  split
  · exact ⟨(h.mono old).floating, h.run.append (.refl [c])⟩
  · exact ⟨(h.spill.mono old).floating, List.sublist_append_right C [c]⟩

/-- A tray stays in order when it is asked for a description. -/
theorem takeDescription (h : k.Within C) (pos : Pos) : (k.takeDescription pos).2.Within C := by
  unfold Tray.takeDescription
  split
  · exact ⟨h.floating, C.nil_sublist⟩
  · exact h.spill

/-- What is given is in order. -/
theorem description (h : k.Within C) (pos : Pos) :
    (listOf (k.takeDescription pos).1).Sublist C := by
  unfold Tray.takeDescription
  split
  · rw [CommentGroup.listOf_ofList?]
    exact h.run
  · exact C.nil_sublist

/-- A run of its own starts empty. -/
theorem fresh (h : k.Within C) : (Tray.mk k.floating []).Within C := ⟨h.floating, C.nil_sublist⟩

/-- A run that waited meanwhile goes on waiting. -/
theorem back (h : l.Within D) (before : k.Within C) (more : C.Sublist D) :
    (Tray.mk l.floating k.run).Within D :=
  ⟨h.floating, before.run.trans more⟩

end Tray.Within

namespace Read

/-! ### Reading on -/

/-- A reader that has met the comments `C` gets from the row `r` to `s`, and then `P` holds of all
comments that it has met. -/
def Onward (C : List Comment) (r s : Row) (P : List Comment → Prop) : Prop :=
  ∃ D, Passes D r s ∧ P (C ++ D)

variable {fuel n : Nat} {place : Place} {inRuleset : Bool} {t : Token} {r s m : Row} {k l : Tray}
  {d d' : Draft} {P Q : List Comment → Prop}

namespace Onward

/-- Nothing is met where nothing is read. -/
theorem refl (h : P C) (r : Row) : Onward C r r P := ⟨[], .refl r, by rwa [List.append_nil]⟩

/-- A token that is no comment leads on. -/
theorem token (kind : t.kind ≠ .comment) (h : P C) (m : Row) : Onward C (Row.cons t m) m P :=
  ⟨[], .token kind m, by rwa [List.append_nil]⟩

/-- A comment that is taken is met. -/
theorem comment (kind : t.kind = .comment) (h : P (C ++ [Comment.ofToken t])) (m : Row) :
    Onward C (Row.cons t m) m P :=
  ⟨[Comment.ofToken t], .comment kind m, h⟩

/-- What is passed is met. -/
theorem of_passes (h : Passes D r s) (holds : P (C ++ D)) : Onward C r s P := ⟨D, h, holds⟩

/-- Two stretches one behind the other are met. -/
theorem trans (h : Onward C r m P) (k : ∀ D, C.Sublist D → P D → Onward D m s Q) :
    Onward C r s Q := by
  obtain ⟨D, passes, holds⟩ := h
  obtain ⟨E, passes', holds⟩ := k (C ++ D) (List.sublist_append_left C D) holds
  exact ⟨D ++ E, passes.trans passes', by rwa [← List.append_assoc]⟩

/-- What follows from what is known then may be said instead. -/
theorem imp (h : Onward C r s P) (k : ∀ D, C.Sublist D → P D → Q D) : Onward C r s Q :=
  h.trans fun D more holds => .refl (k D more holds) s

/-- The token before what is read is no comment. -/
theorem cons (kind : t.kind ≠ .comment) (h : Onward C m s P) : Onward C (Row.cons t m) s P :=
  (Onward.token (P := (· = C)) kind rfl m).trans fun _ _ eq => eq ▸ h

end Onward

/-! ### A rule -/

/-- What was read of a rule comes in the order that it has in `C`. -/
structure Draft.Within (C : List Comment) (d : Draft) : Prop where
  ruleType : ∀ i ∈ d.ruleType, Node.Within C (.ident i)
  values : ∀ p ∈ d.parameters, Node.Within C (.parameter p)
  condition : ∀ e ∈ d.expression, Node.Within C (.expression e)
  description : (listOf d.description).Sublist C
  comments : d.comments.Sublist C

namespace Draft.Within

/-- An empty draft is in order. -/
theorem empty (C : List Comment) : Draft.empty.Within C := by
  constructor <;> simp [Draft.empty, listOf]

/-- A draft that is in order among some comments is so among more. -/
theorem mono (h : d.Within C) (more : C.Sublist D) : d.Within D :=
  ⟨fun i mem => (h.ruleType i mem).mono more, fun p mem => (h.values p mem).mono more,
    fun e mem => (h.condition e mem).mono more, h.description.trans more, h.comments.trans more⟩

/-- The rule of a draft is in order when the draft is. -/
theorem toRule {i : Ident} (h : d.Within C) (typed : d.ruleType = some i) :
    Node.Within C (.single (d.toRule i)) := by
  refine Node.within_single.mpr
    ⟨h.description, h.ruleType i typed, h.values, h.condition, ?_⟩
  rw [Draft.toRule, CommentGroup.listOf_ofList?]
  exact h.comments

end Draft.Within

/-- A step of a rule takes the comments that it reads in their order. -/
theorem LeadStep.within (step : LeadStep fuel d k r d' l s) (draft : d.Within C)
    (tray : k.Within C) : Onward C r s fun D => d'.Within D ∧ l.Within D := by
  cases step with
  | @comment t m kind =>
    exact .comment kind ⟨draft.mono (List.sublist_append_left C _), tray.add _⟩ _
  | @ruleType t m cs s kind first trail =>
    refine .cons (by simp [kind]) (.of_passes (trailing_passes trail) ?_)
    have old : C.Sublist (C ++ cs) := List.sublist_append_left C cs
    have draft := draft.mono old
    refine ⟨⟨?_, draft.values, draft.condition, ?_, draft.comments⟩,
      (tray.takeDescription t.start).mono old⟩
    · rintro _ ⟨⟩
      rw [Node.within_leaf rfl rfl, CommentGroup.listOf_ofList?]
      exact List.sublist_append_right C cs
    · exact (tray.description t.start).trans old
  | @value t m ruleType p cs s kind typed before read =>
    obtain ⟨D, passes, within, rule⟩ := parameter_within read
    have other : t.kind ≠ .comment := fun e => by simp [e, Kind.startsParameter] at kind
    refine .cons other (.of_passes passes ?_)
    have old : C.Sublist (C ++ D) := List.sublist_append_left C D
    have draft' := draft.mono old
    refine ⟨⟨draft'.ruleType, ?_, draft'.condition, draft'.description, draft.comments.append rule⟩,
      tray.mono old⟩
    exact List.forall_mem_append.mpr ⟨draft'.values,
      List.forall_mem_singleton.mpr (within.mono (List.sublist_append_right C D))⟩
  | @condition t m ruleType e cs s kind typed first read =>
    obtain ⟨D, passes, within, rule⟩ := expression_within read
    have other : t.kind ≠ .comment := fun e => by simp [e, Kind.startsExpression] at kind
    refine .cons other (.of_passes passes ?_)
    have old : C.Sublist (C ++ D) := List.sublist_append_left C D
    have draft' := draft.mono old
    refine ⟨⟨draft'.ruleType, draft'.values, ?_, draft'.description, draft.comments.append rule⟩,
      tray.mono old⟩
    rintro _ ⟨⟩
    exact within.mono (List.sublist_append_right C D)

/-- A rule comes in order; what opens a group is a parenthesis. -/
def Lead.Within (C : List Comment) : Lead → Prop
  | .rule x => Node.Within C (.single x)
  | .group _ paren => paren.kind = .leftParen

/-- The row behind a rule; before a group it starts with the parenthesis. -/
def Lead.row (s : Row) : Lead → Row
  | .rule _ => s
  | .group _ paren => Row.cons paren s

/-- A rule that ends is in order. -/
theorem LeadEnd.within {out : Lead} (stop : LeadEnd place d k r out l s) (draft : d.Within C)
    (tray : k.Within C) : Onward C r (out.row s) fun D => out.Within D ∧ l.Within D := by
  cases stop with
  | @group t m kind => exact .refl ⟨kind, tray⟩ _
  | text kind typed | comma kind _ typed =>
    exact .token (by simp [kind]) ⟨draft.toRule typed, tray.spill⟩ s
  | bracket kind _ typed => exact .refl ⟨draft.toRule typed, tray.spill⟩ _
  | paren kind _ typed => exact .refl ⟨draft.toRule typed, tray⟩ _

/-- A rule whose draft is in order comes in order. -/
theorem leadLoop_within {out : Lead} (g : (leadLoop fuel place n d).Gives k r out l s)
    (draft : d.Within C) (tray : k.Within C) :
    Onward C r (out.row s) fun D => out.Within D ∧ l.Within D := by
  induction n generalizing d k r C with
  | zero => exact absurd (ParseRules.gives_lift.mp g).2 not_gives_fail
  | succ n ih =>
    obtain ⟨d', k', m, step, rest⟩ | stop := leadLoop_gives.mp g
    · exact (step.within draft tray).trans fun D _ ⟨draft, tray⟩ => ih rest draft tray
    · exact stop.within draft tray

/-- **A rule, up to its end or to a parenthesis, comes in order.** -/
theorem lead_within {out : Lead} (g : (lead fuel place).Gives k r out l s) (tray : k.Within C) :
    Onward C r (out.row s) fun D => out.Within D ∧ l.Within D :=
  leadLoop_within (lead_gives.mp g) (.empty C) tray

/-! ### A combined rule -/

variable {g g' : GroupDraft}

/-- A member comes in order. -/
theorem member_within {x : Member} (read : (member fuel inRuleset t).Gives k r x l s)
    (tray : k.Within C) : Onward C r s fun D => Node.Within D (.single x.rule) ∧ l.Within D := by
  obtain ⟨y, l', close, first, kind, rfl, rfl⟩ := member_gives.mp read
  refine (lead_within first tray.fresh).trans fun D more ⟨within, tray'⟩ => ?_
  exact .token (by simp [kind]) ⟨within, tray'.back tray more⟩ s

/-- What was read of a combined rule comes in the order that it has in `C`.  When a lone member
becomes a rule, the comments behind it join its own. -/
structure GroupDraft.Within (C : List Comment) (g : GroupDraft) : Prop where
  members : ∀ x ∈ g.members, Node.Within C (.single x.rule)
  some : g.members ≠ []
  trailing : g.trailing.Sublist C
  lone : ∀ x, g.members = [x] → (listOf x.rule.comments ++ g.trailing).Sublist C

/-- A turn of the loop of a combined rule keeps its draft in order. -/
theorem GroupStep.within (step : GroupStep fuel inRuleset g k r g' l s) (draft : g.Within C)
    (tray : k.Within C) : Onward C r s fun D => g'.Within D ∧ l.Within D := by
  cases step with
  | @comment t m kind =>
    have old : C.Sublist (C ++ [Comment.ofToken t]) := List.sublist_append_left C _
    refine .comment kind ⟨⟨fun x mem => (draft.members x mem).mono old, draft.some,
      draft.trailing.append (.refl _), fun x only => ?_⟩, tray.mono old⟩ _
    rw [← List.append_assoc]
    exact (draft.lone x only).append (.refl _)
  | @connective t m operator kind complete same =>
    have other : t.kind ≠ .comment := fun e => by simp [e, Connective.ofKind?] at kind
    exact .token other ⟨⟨draft.members, draft.some, draft.trailing, draft.lone⟩, tray⟩ _
  | @member t m x l s kind expected read =>
    refine .cons (by simp [kind]) ((member_within read tray).imp fun D more both => ?_)
    obtain ⟨within, tray'⟩ := both
    refine ⟨⟨?_, by simp, draft.trailing.trans more, fun y only => ?_⟩, tray'⟩
    · exact List.forall_mem_append.mpr ⟨fun y mem => (draft.members y mem).mono more,
        List.forall_mem_singleton.mpr within⟩
    · -- there was a member before, so this one is not the only one
      exact absurd (List.append_eq_singleton_iff.mp only) (by simp [draft.some])

/-- A combined rule whose draft is in order comes in order. -/
theorem groupLoop_within (read : (groupLoop fuel inRuleset n g).Gives k r g' l s)
    (draft : g.Within C) (tray : k.Within C) :
    Onward C r s fun D => g'.Within D ∧ l.Within D := by
  induction n generalizing g k r C with
  | zero => exact absurd (ParseRules.gives_lift.mp read).2 not_gives_fail
  | succ n ih =>
    obtain ⟨d, k', m, step, rest⟩ | ⟨stop, rfl, rfl⟩ := groupLoop_gives.mp read
    · exact (step.within draft tray).trans fun D _ ⟨draft, tray⟩ => ih rest draft tray
    · cases stop with
      | text kind _ | comma kind _ _ => exact .token (by simp [kind]) ⟨draft, tray⟩ s
      | bracket => exact .refl ⟨draft, tray⟩ _

variable {decl : RuleDecl} {description : Option CommentGroup}

/-- **A combined rule comes in order behind its description.** -/
theorem group_within (read : (group fuel inRuleset description).Gives k (Row.cons t m) decl l s)
    (opens : t.kind = .leftParen) (described : (listOf description).Sublist C)
    (tray : k.Within C) :
    Onward C (Row.cons t m) s fun D => Node.Within D (.rule decl) ∧ l.Within D := by
  obtain ⟨g, loop, gives⟩ := group_gives.mp read
  obtain ⟨i, x, k', m', begins, rest⟩ := groupLoop_gives_first opens loop
  have first : Onward C (Row.cons t m) s fun D => g.Within D ∧ l.Within D := by
    refine .cons (by simp [opens]) ((member_within begins tray).trans fun D _ both => ?_)
    obtain ⟨within, tray⟩ := both
    refine groupLoop_within rest ⟨List.forall_mem_singleton.mpr within, by simp,
      D.nil_sublist, ?_⟩ tray
    rintro y ⟨⟩
    rw [List.append_nil]
    exact (Node.within_single.mp within).2.2.2.2
  refine first.imp fun D more both => ?_
  obtain ⟨draft, tray⟩ := both
  refine ⟨?_, tray⟩
  obtain ⟨⟨x, -, only, rfl⟩ | ⟨operator, y, ys, -, members, rfl⟩, -, -⟩ := toRule_gives.mp gives
  · have within := Node.within_single.mp (draft.members x (by simp [only]))
    refine Node.within_single.mpr ⟨described.trans more, within.2.1, within.2.2.1,
      within.2.2.2.1, ?_⟩
    rw [CommentGroup.listOf_ofList?]
    exact draft.lone x only
  · rw [Node.within_combined, CommentGroup.listOf_ofList?, ← members]
    exact ⟨described.trans more, List.forall_mem_map.mpr draft.members, draft.trailing⟩

/-- The groups of a rule, and what is left on the tray, come in the order in which they were
read. -/
theorem rule_within (read : (rule fuel inRuleset).Gives k r decl l s) (tray : k.Within C) :
    Onward C r s fun D => Node.Within D (.rule decl) ∧ l.Within D := by
  obtain ⟨x, first, rfl⟩ | ⟨d, paren, k', m, first, -, rest⟩ := rule_gives.mp read
  · exact lead_within first tray
  · exact (lead_within first tray).trans fun D _ ⟨opens, tray⟩ =>
      group_within rest opens (tray.description paren.start) (tray.takeDescription paren.start)

end Read

end QualityRules
