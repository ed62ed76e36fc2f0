import QualityRules.Proofs.Conservation
import QualityRules.Proofs.NoRules
import QualityRules.Proofs.Order.Rules
import QualityRules.Proofs.Runs.Ruleset

/-!
# Proofs — Order — Rulesets

The comments of each group of a tree come in the order in which they stand in the text.

* `RulesetStep.within`: a step of a ruleset keeps the order in which comments are read;
  `ruleset_within` and `file_within` follow a ruleset and the rulesets of a file.
* `Source.Yields.within`: all groups of a tree come in the order of the text, whichever entry reads
  it.
-/

namespace QualityRules

open CommentGroup (listOf)

variable {C D : List Comment}

namespace Node

/-- To put nodes in order does not change which they are. -/
@[simp] theorem mem_inOrder {n : Node} {ns : List Node} : n ∈ inOrder ns ↔ n ∈ ns :=
  List.mem_mergeSort

/-- A ruleset is in order when all is that it consists of. -/
theorem within_ruleset {x : Ruleset} : (ruleset x).Within C ↔
    (listOf x.description).Sublist C ∧ (listOf x.headerComments).Sublist C ∧
      (∀ d ∈ x.rules, (rule d).Within C) ∧ (∀ g ∈ x.innerComments, g.comments.Sublist C) ∧
      (listOf x.comments).Sublist C := by
  rw [within_iff]
  simp [children, or_imp, forall_and, and_assoc]

/-- A file is in order when what floats in it is and its rulesets are. -/
theorem within_file {f : RuleFile} : (file f).Within C ↔
    (∀ g ∈ f.commentGroups, g.comments.Sublist C) ∧ ∀ x ∈ f.rulesets, (ruleset x).Within C := by
  rw [within_iff]
  simp [children, or_imp, forall_and]

end Node

/-- Comments that are put on a tray keep it in order. -/
theorem Tray.Within.foldl_add {k : Tray} (h : k.Within C) (cs : List Comment) :
    (cs.foldl Tray.add k).Within (C ++ cs) := by
  induction cs generalizing k C with
  | nil => rwa [List.append_nil]
  | cons c cs ih => simpa using ih (h.add c)

namespace Read

variable {fuel n : Nat} {t : Token} {r s m : Row} {k l : Tray} {d d' : RulesetDraft} {x : Ruleset}

/-! ### A ruleset -/

/-- What was read of a ruleset comes in the order that it has in `C`. -/
structure RulesetDraft.Within (C : List Comment) (d : RulesetDraft) : Prop where
  description : ∀ h ∈ d.header, (listOf h.description).Sublist C
  trailing : ∀ h ∈ d.header, h.comments.Sublist C
  rules : ∀ x ∈ d.rules, Node.Within C (.rule x)
  inner : d.inner.Within C

namespace RulesetDraft.Within

theorem empty (C : List Comment) : RulesetDraft.empty.Within C := by
  constructor <;> simp [RulesetDraft.empty, Tray.Within.empty]

theorem mono (h : d.Within C) (more : C.Sublist D) : d.Within D :=
  ⟨fun x mem => (h.description x mem).trans more, fun x mem => (h.trailing x mem).trans more,
    fun x mem => (h.rules x mem).mono more, h.inner.mono more⟩

end RulesetDraft.Within

theorem RulesetStep.within (step : RulesetStep fuel d k r d' l s) (draft : d.Within C)
    (tray : k.Within C) : Onward C r s fun D => d'.Within D ∧ l.Within D := by
  cases step with
  | @before t m kind outside =>
    exact .comment kind ⟨draft.mono (List.sublist_append_left C _), tray.add _⟩ _
  | @header t m h l s kind outside read =>
    obtain ⟨equal, m, bracket, cs, rfl, isEqual, trail, opens, rfl, rfl⟩ := takeHeader_gives.mp read
    obtain ⟨D, passes, more⟩ := popTrailing_passes trail
    refine .cons (by simp [kind]) (.cons (by simp [isEqual]) (.of_passes passes ?_))
    have old : C.Sublist (C ++ D) := List.sublist_append_left C D
    refine ⟨⟨?_, ?_, (draft.mono old).rules, draft.inner.mono old⟩,
      (tray.takeDescription t.start).mono old⟩
    · rintro _ ⟨⟩
      exact (tray.description t.start).trans old
    · rintro _ ⟨⟩
      exact more.trans (List.sublist_append_right C D)
  | @comment t m h kind inside =>
    have old : C.Sublist (C ++ [Comment.ofToken t]) := List.sublist_append_left C _
    have draft' := draft.mono old
    exact .comment kind ⟨⟨draft'.description, draft'.trailing, draft'.rules, draft.inner.add _⟩,
      tray.mono old⟩ _
  | @rule t m h decl inner s other inside read =>
    refine (rule_within read draft.inner).imp fun D more ⟨within, tray'⟩ => ?_
    have draft' := draft.mono more
    exact ⟨⟨draft'.description, draft'.trailing, List.forall_mem_append.mpr
      ⟨draft'.rules, List.forall_mem_singleton.mpr within⟩, tray'⟩, tray.mono more⟩

theorem RulesetEnd.within (stop : RulesetEnd fuel d r x s) (draft : d.Within C) :
    Onward C r s fun D => Node.Within D (.ruleset x) := by
  cases stop with
  | @bracket t m h cs s kind inside trail =>
    refine .cons (by simp [kind]) (.of_passes (trailing_passes trail) ?_)
    have old : C.Sublist (C ++ cs) := List.sublist_append_left C cs
    have draft := draft.mono old
    rw [Node.within_ruleset, CommentGroup.listOf_ofList?, CommentGroup.listOf_ofList?]
    exact ⟨draft.description h inside, draft.trailing h inside, draft.rules,
      draft.inner.spill.floating, List.sublist_append_right C cs⟩

theorem rulesetLoop_within (g : (rulesetLoop fuel n d).Gives k r x l s) (draft : d.Within C)
    (tray : k.Within C) : Onward C r s fun D => Node.Within D (.ruleset x) ∧ l.Within D := by
  induction n generalizing d k r C with
  | zero => exact absurd (ParseRules.gives_lift.mp g).2 not_gives_fail
  | succ n ih =>
    obtain ⟨d', k', m, step, rest⟩ | ⟨stop, rfl⟩ := rulesetLoop_gives.mp g
    · exact (step.within draft tray).trans fun D _ ⟨draft, tray⟩ => ih rest draft tray
    · exact (stop.within draft).imp fun D more within => ⟨within, tray.mono more⟩

/-- The groups of a ruleset, and what is left on the tray, come in the order in which they were
read. -/
theorem ruleset_within (g : (ruleset fuel).Gives k r x l s) (tray : k.Within C) :
    Onward C r s fun D => Node.Within D (.ruleset x) ∧ l.Within D := by
  obtain ⟨l', loop, rfl⟩ := ruleset_gives.mp g
  exact (rulesetLoop_within loop (.empty C) tray.fresh).imp fun D more ⟨within, tray'⟩ =>
    ⟨within, tray'.back tray more⟩

/-! ### A file -/

variable {ts : List Token} {left : Nat} {before all : List Ruleset} {filename : String}
  {f : RuleFile}

theorem rulesetsLoop_within (g : (rulesetsLoop fuel n before).Gives k r all l s)
    (remains : r.Remains ts left)
    (rulesets : ∀ x ∈ before, Node.Within C (.ruleset x)) (tray : k.Within C) :
    Onward C r s fun D => (∀ x ∈ all, Node.Within D (.ruleset x)) ∧ l.Within D := by
  induction n generalizing before k r left C with
  | zero => exact absurd (ParseRules.gives_lift.mp g).2 not_gives_fail
  | succ n ih =>
    obtain ⟨x, k', t, m, read, rest⟩ | ⟨some, rfl, wanting⟩ := rulesetsLoop_gives.mp g
    · refine (ruleset_within read tray).trans fun D more ⟨within, tray⟩ => ?_
      have rulesets : ∀ y ∈ before ++ [x], Node.Within D (.ruleset y) :=
        List.forall_mem_append.mpr ⟨fun y mem => (rulesets y mem).mono more,
          List.forall_mem_singleton.mpr within⟩
      rcases rest with ⟨isEnd, rfl, rfl, rfl⟩ | ⟨-, rest⟩
      · exact .token (by simp [isEnd]) ⟨rulesets, tray⟩ s
      · obtain ⟨fewer, -, remains⟩ := (spends_ruleset remains (le_refl fuel)).holds read
        exact ih rest remains rulesets tray
    · -- the comments before the end float
      obtain ⟨us, t, ⟨rfl, comments, isEnd⟩, rfl⟩ := ruleset_fails remains wanting
      have passes : Passes (us.map Comment.ofToken) (Row.behind us (Row.cons t s)) (Row.cons t s) :=
        ⟨us, rfl, commentsOf_eq_map comments⟩
      have old : C.Sublist (C ++ us.map Comment.ofToken) := List.sublist_append_left C _
      refine Onward.trans (.of_passes passes rfl) fun D _ eq =>
        .token (by simp [isEnd]) ?_ s
      subst eq
      exact ⟨fun x mem => (rulesets x mem).mono old,
        (tray.fresh.foldl_add _).spill.back tray old⟩

/-- The groups of a file come in the order in which they were read. -/
theorem file_within (g : (file fuel filename).Gives k r f l s) (remains : r.Remains ts left)
    (tray : k.Within C) :
    Onward C r s fun D => Node.Within D (.file f) := by
  obtain ⟨all, loop, rfl⟩ := file_gives.mp g
  exact (rulesetsLoop_within loop remains (List.forall_mem_nil _) tray).imp
    fun D _ ⟨rulesets, tray⟩ => Node.within_file.mpr ⟨tray.floating, rulesets⟩

end Read

namespace Source

variable {source : String} {options : Options} {n : Node}

/-- **The comments of each group come in the order of the text**, whichever entry reads it. -/
theorem Yields.within (h : Yields source options n) : n.Within (commentsOf (lex source)) := by
  -- nothing was read before, and what is read is in the text
  have whole : ∀ {s : Row} {P : List Comment → Prop},
      Read.Onward [] (Row.ofTokens (lex source)) s P → (∀ D, P D → n.Within D) →
        n.Within (commentsOf (lex source)) := by
    rintro s P ⟨D, ⟨us, row, rfl⟩, holds⟩ within
    exact (within _ holds).mono (Row.commentsOf_sublist_lex row)
  have tray : Tray.empty.Within [] := .empty []
  cases h with
  | rule h =>
    obtain ⟨k, s, g⟩ := session_eq_ok_iff.mp h
    exact whole (Read.rule_within g tray) fun D => And.left
  | ruleset h =>
    obtain ⟨k, s, g⟩ := session_eq_ok_iff.mp h
    exact whole (Read.ruleset_within g tray) fun D => And.left
  | file h =>
    rw [result_file] at h
    obtain ⟨k, s, g⟩ := session_eq_ok_iff.mp h
    exact whole (Read.file_within g (Row.Remains.of_lex source) tray)
      fun D => id

end Source

end QualityRules
