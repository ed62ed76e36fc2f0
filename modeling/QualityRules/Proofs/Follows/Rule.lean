import QualityRules.Proofs.Follows.Value

/-!
# Proofs — Follows — Rule

Rules, alone and in parentheses, are read the same further down, with the comments around them: on
a tray only lines right below each other are told from others.

* `Tray.spill_shift`, `Tray.add_shift` and `Tray.takeDescription_shift`: the operations on a tray.
* `follows_takeToken` and `follows_takeGroupToken` are the steps, `follows_lead` and
  `follows_groupLoop` the loops.
* `follows_rule` reads either kind of rule.
-/

namespace QualityRules

variable {o : Offset}

namespace Tray

variable (k : Tray)

@[simp] theorem floating_shift : (shift o k).floating = shift o k.floating := rfl

@[simp] theorem run_shift : (shift o k).run = shift o k.run := rfl

theorem shift_mk (floating : List CommentGroup) (run : List Comment) :
    shift o (⟨floating, run⟩ : Tray) = ⟨shift o floating, shift o run⟩ := rfl

@[simp] theorem spill_shift : (shift o k).spill = shift o k.spill := by
  simp only [spill, floating_shift, run_shift, CommentGroup.ofList?_shift, shift_mk, shift_append]
  cases CommentGroup.ofList? k.run <;> rfl

/-- What ends right above a line does so further down. -/
theorem endsAbove_shift (run : List Comment) (pos : Pos) :
    endsAbove (shift o run) (shift o pos).line = endsAbove run pos.line := by
  unfold endsAbove
  rw [getLast?_shift]
  cases run.getLast? with
  | none => rfl
  | some last => simp [Pos.line_succ_shift, -Pos.line_shift]

@[simp] theorem add_shift (c : Comment) : (shift o k).add (shift o c) = shift o (k.add c) := by
  unfold add
  rw [run_shift, isEmpty_shift, Comment.pos_shift, endsAbove_shift]
  split
  · simp [shift_mk]
  · simp [shift_mk]

/-- What is given or floats moves with the tray. -/
theorem takeDescription_shift (pos : Pos) :
    (shift o k).takeDescription (shift o pos) = shift o (k.takeDescription pos) := by
  unfold takeDescription
  rw [run_shift, endsAbove_shift]
  split
  · simp [shift_mk]
  · simp

end Tray

namespace Read
open ParseRules (Follows)

instance : Shift Draft :=
  ⟨fun o d => ⟨shift o d.ruleType, shift o d.parameters, shift o d.expression,
    shift o d.description, shift o d.comments⟩, fun d => by simp⟩

theorem Draft.shift_mk (ruleType : Option Ident) (parameters : List Parameter)
    (expression : Option Expression) (description : Option CommentGroup) (comments : List Comment) :
    shift o (⟨ruleType, parameters, expression, description, comments⟩ : Draft)
      = ⟨shift o ruleType, shift o parameters, shift o expression, shift o description,
        shift o comments⟩ := rfl

instance : Shift Effect where
  shift o
    | .more d => .more (shift o d)
    | .finish r => .finish (shift o r)
    | .group => .group
  shift_zero e := by cases e <;> simp

instance : Shift Lead where
  shift o
    | .group d paren => .group (shift o d) (shift o paren)
    | .rule r => .rule (shift o r)
  shift_zero x := by cases x <;> simp

instance : Shift Member :=
  ⟨fun o m => ⟨shift o m.leftParen, shift o m.rule, shift o m.rightParen⟩, fun m => by simp⟩

instance : Shift GroupDraft :=
  ⟨fun o d => ⟨shift o d.members, d.operator, d.expectsMember, shift o d.trailing⟩,
    fun d => by simp⟩

theorem GroupDraft.shift_mk (members : List Member) (operator : Option Connective)
    (expectsMember : Bool) (trailing : List Comment) :
    shift o (⟨members, operator, expectsMember, trailing⟩ : GroupDraft)
      = ⟨shift o members, operator, expectsMember, shift o trailing⟩ := rfl

instance : Shift GroupEffect where
  shift o
    | .more d => .more (shift o d)
    | .finish => .finish
  shift_zero e := by cases e <;> simp

theorem follows_spill : Follows o spill spill :=
  .modifyGet fun k => Prod.ext rfl (Tray.spill_shift k)

theorem follows_addComment (t : Token) : Follows o (addComment t) (addComment (shift o t)) :=
  .modifyGet fun k => Prod.ext rfl (Tray.add_shift k (Comment.ofToken t))

theorem follows_takeDescription (pos : Pos) :
    Follows o (takeDescription pos) (takeDescription (shift o pos)) :=
  .modifyGet fun k => Tray.takeDescription_shift k pos

/-- A reader that has a run of its own moves as it would without one. -/
theorem follows_withFreshRun {α : Type} [Shift α] {p q : ParseRules α} (h : Follows o p q) :
    Follows o (withFreshRun p) (withFreshRun q) :=
  .onTray h (fun _ => rfl) fun _ _ => rfl

/-- A reader on another tray moves with that tray. -/
theorem follows_withTray {α : Type} [Shift α] {p q : ParseRules α} (inner : Tray)
    (h : Follows o p q) : Follows o (withTray inner p) (withTray (shift o inner) q) := by
  have got : Follows o (get : ParseRules Tray) get := fun k => .done (k, k)
  exact .onTray (h.bind fun a => got.bind fun k => .done (a, k)) (fun _ => rfl) fun _ _ => rfl

/-! ### One token -/

theorem follows_finishRule (d : Draft) (found : String) (t : Token) :
    Follows o (finishRule d found t) (finishRule (shift o d) found (shift o t)) := by
  obtain ⟨_ | ruleType, parameters, expression, description, comments⟩ := d
  · exact .lift (follows_refuse rfl)
  · refine .of_eq ?_
    simp only [Draft.toRule]
    exact congrArg (fun comments => Effect.finish ⟨_, _, _, _, comments⟩)
      (CommentGroup.ofList?_shift comments)

theorem follows_takeSeparator (place : Place) (d : Draft) (t : Token) :
    Follows o (takeSeparator place d t) (takeSeparator place (shift o d) (shift o t)) := by
  refine follows_spill.bind fun _ => (follows_finishRule d (inTicks t) t).bind fun effect => ?_
  rw [Token.kind_shift]
  split
  · exact .lift (follows_refuse rfl)
  · split
    · exact (Follows.lift (follows_push t)).bind fun _ => .done effect
    · exact .done effect

variable {fuel fuel' : Nat} (le : fuel ≤ fuel') (d : Draft) (t : Token)
include le

theorem follows_takeParameter :
    Follows o (takeParameter fuel d t) (takeParameter fuel' (shift o d) (shift o t)) := by
  obtain ⟨_ | ruleType, parameters, _ | expression, description, comments⟩ := d
  · exact .lift (follows_refuse rfl)
  · exact .lift (follows_refuse rfl)
  · refine (Follows.lift (follows_parameter le t ruleType.pos)).bind fun (p, more) => .of_eq ?_
    change _ = Effect.more (shift o _)
    simp [Draft.shift_mk]
  · exact .lift (follows_refuse rfl)

theorem follows_takeExpression :
    Follows o (takeExpression fuel d t) (takeExpression fuel' (shift o d) (shift o t)) := by
  obtain ⟨_ | ruleType, parameters, _ | expression, description, comments⟩ := d
  · exact .lift (follows_refuse rfl)
  · exact .lift (follows_refuse rfl)
  · refine (Follows.lift (follows_expression le t ruleType.pos)).bind fun (e, more) => .of_eq ?_
    change _ = Effect.more (shift o _)
    simp [Draft.shift_mk]
  · exact .lift (follows_refuse rfl)

theorem follows_takeRuleType :
    Follows o (takeRuleType fuel d t) (takeRuleType fuel' (shift o d) (shift o t)) := by
  obtain ⟨_ | ruleType, parameters, expression, description, comments⟩ := d
  · refine (follows_takeDescription t.start).bind fun description =>
      (Follows.lift (follows_trailing le t.start)).bind fun comments => .of_eq ?_
    rw [CommentGroup.ofList?_shift]
    rfl
  · exact .lift (follows_refuse rfl)

theorem follows_takeToken (place : Place) :
    Follows o (takeToken fuel place d t) (takeToken fuel' place (shift o d) (shift o t)) := by
  unfold takeToken
  rw [Token.kind_shift]
  cases t.kind with
  | leftParen => exact .done Effect.group
  | eof => exact follows_spill.bind fun _ => follows_finishRule d "EOF" t
  | comma | rightBracket => exact follows_takeSeparator place d t
  | rightParen =>
    dsimp only
    split
    · exact .lift (follows_refuse rfl)
    · exact (Follows.lift (follows_push t)).bind fun _ => follows_finishRule d (inTicks t) t
  | ident => exact follows_takeRuleType le d t
  | comment => exact (follows_addComment t).bind fun _ => .done (Effect.more d)
  | number | string | kwTrue | kwFalse | kwNow => exact follows_takeParameter le d t
  | kwBetween | kwIn | kwMatches | equal | greater | less | greaterEqual | lessEqual =>
    exact follows_takeExpression le d t
  | _ => exact .lift (follows_refuse rfl)

/-- **The start of a rule is read further down, with as many steps or more.** -/
theorem follows_leadLoop {m m' : Nat} (steps : m ≤ m') (place : Place) (d : Draft) :
    Follows o (leadLoop fuel place m d) (leadLoop fuel' place m' (shift o d)) := by
  induction m generalizing m' d with
  | zero => exact fun _ => .overrun rfl _
  | succ m ih =>
    obtain ⟨m', rfl⟩ : ∃ l, m' = l + 1 := ⟨m' - 1, by omega⟩
    refine (Follows.lift follows_pop).bind fun t => (follows_takeToken le d t place).bind
      fun effect => ?_
    cases effect with
    | more d => exact ih (by omega) d
    | finish r => exact .done (Lead.rule r)
    | group => exact .done (Lead.group d t)

theorem follows_lead (place : Place) : Follows o (lead fuel place) (lead fuel' place) :=
  follows_leadLoop le le place Draft.empty

/-! ### Rules in parentheses -/

/-- A member moves with the parenthesis that opens it. -/
theorem follows_member (inRuleset : Bool) :
    Follows o (member fuel inRuleset t) (member fuel' inRuleset (shift o t)) := by
  have nested : Follows o (nestedRule fuel inRuleset) (nestedRule fuel' inRuleset) := by
    refine (follows_lead le ⟨inRuleset, true⟩).bind fun x => ?_
    cases x with
    | rule r => exact .done r
    | group d paren => exact .lift (follows_refuse rfl)
  refine (follows_withFreshRun nested).bind fun r => (Follows.lift follows_pop).bind fun close => ?_
  rw [Token.kind_shift]
  split
  · exact .lift (follows_refuse rfl)
  · exact .done (Member.mk t.start r close.start)

omit le in
theorem follows_takeConnective (d : GroupDraft) (operator : Connective) :
    Follows o (takeConnective d operator t) (takeConnective (shift o d) operator (shift o t)) := by
  obtain ⟨members, _ | previous, _ | _, trailing⟩ := d
  · exact .done (GroupEffect.more ⟨members, some operator, true, trailing⟩)
  · exact .lift (follows_refuse rfl)
  · simp only [takeConnective, GroupDraft.shift_mk, Bool.false_eq_true, if_false]
    split
    · exact .lift (follows_refuse rfl)
    · exact .done (GroupEffect.more ⟨members, some previous, true, trailing⟩)
  · exact .lift (follows_refuse rfl)

theorem follows_takeGroupToken (inRuleset : Bool) (d : GroupDraft) :
    Follows o (takeGroupToken fuel inRuleset d t)
      (takeGroupToken fuel' inRuleset (shift o d) (shift o t)) := by
  obtain ⟨members, operator, expectsMember, trailing⟩ := d
  unfold takeGroupToken
  simp only [Token.kind_shift, GroupDraft.shift_mk]
  cases t.kind with
  | leftParen =>
    dsimp only
    split
    · exact .lift (follows_refuse rfl)
    · refine (follows_member le t inRuleset).bind fun m => .of_eq ?_
      change _ = GroupEffect.more (shift o _)
      simp [GroupDraft.shift_mk]
  | kwAnd => exact follows_takeConnective t ⟨members, operator, expectsMember, trailing⟩ .and
  | kwOr => exact follows_takeConnective t ⟨members, operator, expectsMember, trailing⟩ .or
  | eof =>
    dsimp only
    split
    · exact .lift (follows_refuse rfl)
    · exact .done GroupEffect.finish
  | comma | rightBracket =>
    dsimp only
    split
    · exact .lift (follows_refuse rfl)
    · split
      · exact .lift (follows_refuse rfl)
      · split
        · exact (Follows.lift (follows_push t)).bind fun _ => .done GroupEffect.finish
        · exact .done GroupEffect.finish
  | comment =>
    refine .of_eq ?_
    change _ = GroupEffect.more (shift o _)
    simp [GroupDraft.shift_mk]
  | _ => exact .lift (follows_refuse rfl)

/-- **The members of a combined rule are read further down, with as many steps or more.** -/
theorem follows_groupLoop {m m' : Nat} (steps : m ≤ m') (inRuleset : Bool) (d : GroupDraft) :
    Follows o (groupLoop fuel inRuleset m d) (groupLoop fuel' inRuleset m' (shift o d)) := by
  induction m generalizing m' d with
  | zero => exact fun _ => .overrun rfl _
  | succ m ih =>
    obtain ⟨m', rfl⟩ : ∃ l, m' = l + 1 := ⟨m' - 1, by omega⟩
    refine (Follows.lift follows_pop).bind fun t =>
      (follows_takeGroupToken le t inRuleset d).bind fun effect => ?_
    cases effect with
    | more d => exact ih (by omega) d
    | finish => exact .done d

omit le in
/-- A group becomes the same rule further down. -/
theorem follows_toRule (d : GroupDraft) (description : Option CommentGroup) :
    Follows o (d.toRule description) ((shift o d).toRule (shift o description)) := by
  obtain ⟨members, operator, expectsMember, trailing⟩ := d
  rw [GroupDraft.shift_mk]
  rcases operator with _ | operator
  · rcases members with _ | ⟨m, _ | ⟨m', members⟩⟩
    · exact .lift (follows_fail rfl)
    · have comments : CommentGroup.ofList?
            (CommentGroup.listOf (shift o m).rule.comments ++ shift o trailing)
          = shift o (CommentGroup.ofList? (CommentGroup.listOf m.rule.comments ++ trailing)) := by
        rw [show (shift o m).rule.comments = shift o m.rule.comments from rfl,
          CommentGroup.listOf_shift, ← shift_append, CommentGroup.ofList?_shift]
      refine .of_eq ?_
      rw [comments]
      rfl
    · unfold GroupDraft.toRule
      simp only [shift_cons, List.length_cons, length_shift]
      exact .lift (follows_fail rfl)
  · rcases members with _ | ⟨first, others⟩
    · exact .lift (follows_fail rfl)
    · have last : (shift o (first :: others)).getLastD (shift o first)
          = shift o ((first :: others).getLastD first) := by
        simp [List.getLastD_eq_getLast?, -shift_cons]
      have rules : (shift o (first :: others)).map Member.rule
          = shift o ((first :: others).map Member.rule) := by
        simp only [shift, List.map_map, Function.comp_def]
      refine .of_eq (congrArg RuleDecl.combined ?_)
      change CombinedRule.mk _ ((shift o (first :: others)).getLastD (shift o first)).rightParen
        ((shift o (first :: others)).map Member.rule) _ _
        (CommentGroup.ofList? (shift o trailing)) = _
      rw [last, rules, CommentGroup.ofList?_shift]
      rfl

/-- A combined rule moves with its description. -/
theorem follows_group (inRuleset : Bool) (description : Option CommentGroup) :
    Follows o (group fuel inRuleset description)
      (group fuel' inRuleset (shift o description)) :=
  (follows_groupLoop le le inRuleset GroupDraft.empty).bind
    fun d => follows_toRule d description

/-- A rule is read the same further down, and with more fuel. -/
theorem follows_rule (inRuleset : Bool) :
    Follows o (rule fuel inRuleset) (rule fuel' inRuleset) := by
  refine (follows_lead le ⟨inRuleset, false⟩).bind fun x => ?_
  cases x with
  | rule r => exact .done (RuleDecl.single r)
  | group d paren =>
    have typed : (shift o d).ruleType.isSome = d.ruleType.isSome := isSome_shift d.ruleType
    change Follows o _ (if (shift o d).ruleType.isSome then _ else _)
    rw [typed]
    dsimp only
    split
    · exact .lift (follows_refuse rfl)
    · exact (follows_takeDescription paren.start).bind fun description =>
        (Follows.lift (follows_push paren)).bind fun _ => follows_group le inRuleset description

end Read

end QualityRules
