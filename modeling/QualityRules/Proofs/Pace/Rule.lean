import QualityRules.Proofs.Pace.Value

/-!
# Proofs — Pace — Rule

Rules, alone and in parentheses.  A token that a rule goes on with leaves fewer for the next one;
and a combined rule that is finished has one member and no connective, or a connective and some.

* `spends_takeToken` and `spends_takeGroupToken` are the steps, `spends_leadLoop` and
  `spends_groupLoop` the loops.
* `GroupDraft.Sound` is what a combined rule keeps to while it is read; `toRule_of_sound` finishes
  it.
* `spends_rule` reads either kind of rule.
-/

namespace QualityRules.Read
open ParseRules (Spends)

variable {ts : List Token} {t : Token} {fuel b m n : Nat} {r s : Row} {F : Refusal → Prop}
  {place : Place} {d : Draft} {inRuleset : Bool}

/-- What only changes the tray takes no token. -/
theorem spends_modifyGet {α : Type} {Q : α → Row → Prop} (f : Tray → α × Tray)
    (holds : ∀ a, Q a r) : Spends F ts b n (modifyGet f : ParseRules α) r Q :=
  fun k => Reading.Spends.done (a := f k) (holds (f k).1)

theorem spends_spill : Spends F ts b n spill r fun _ s => s = r := spends_modifyGet _ fun _ => rfl

theorem spends_addComment (t : Token) : Spends F ts b n (addComment t) r fun _ s => s = r :=
  spends_modifyGet _ fun _ => rfl

theorem spends_takeDescription (pos : Pos) :
    Spends F ts b n (takeDescription pos) r fun _ s => s = r :=
  spends_modifyGet _ fun _ => rfl

/-- Behind what the token `t` does to a rule: fewer tokens remain for the next one when the rule
goes on, and a parenthesis that opens a group may be put back. -/
def Effect.Leaves (ts : List Token) (n : Nat) (t : Token) : Effect → Row → Prop
  | more _, s => ∃ m < n, s.Remains ts m
  | finish _, s => s.Remains ts n
  | group, s => (Row.cons t s).Remains ts n

/-- Behind the start of a rule: a parenthesis that opens a group may be put back. -/
def Lead.Leaves (ts : List Token) (n : Nat) : Lead → Row → Prop
  | rule _, s => s.Remains ts n
  | group _ paren, s => (Row.cons paren s).Remains ts n

/-- What leaves few tokens leaves no more than many. -/
theorem Lead.Leaves.mono {out : Lead} (h : out.Leaves ts m s) (le : m ≤ n) : out.Leaves ts n s := by
  cases out with
  | rule _ => exact Row.Remains.mono h le
  | group _ _ => exact Row.Remains.mono h le

theorem spends_finishRule (found : String) (mem : t ∈ ts) :
    Spends (Refusal.Located ts) ts b n (finishRule d found t) r
      fun e s => (∃ x, e = .finish x) ∧ s = r := by
  unfold finishRule
  cases d.ruleType with
  | none => exact .lift (spends_refuse mem _)
  | some ruleType => exact .done ⟨⟨_, rfl⟩, rfl⟩

theorem spends_takeParameter (mem : t ∈ ts) (h : s.Remains ts n) (le : b ≤ fuel) :
    Spends (Refusal.Located ts) ts b (n + 1) (takeParameter fuel d t) s
      fun e s => e.Leaves ts (n + 1) t s := by
  unfold takeParameter
  cases d.ruleType with
  | none => exact .lift (spends_refuse mem _)
  | some ruleType =>
    dsimp only
    split
    · exact .lift (spends_refuse mem _)
    · exact ((Spends.lift (spends_parameter mem h le)).more (Nat.le_succ n)).bind
        fun _ _ h => .done ⟨n, Nat.lt_succ_self n, h⟩

theorem spends_takeExpression (mem : t ∈ ts) (h : s.Remains ts n) (le : b ≤ fuel) :
    Spends (Refusal.Located ts) ts b (n + 1) (takeExpression fuel d t) s
      fun e s => e.Leaves ts (n + 1) t s := by
  unfold takeExpression
  cases d.ruleType with
  | none => exact .lift (spends_refuse mem _)
  | some ruleType =>
    dsimp only
    split
    · exact .lift (spends_refuse mem _)
    · exact ((Spends.lift (spends_expression mem h le)).more (Nat.le_succ n)).bind
        fun _ _ h => .done ⟨n, Nat.lt_succ_self n, h⟩

theorem spends_takeRuleType (mem : t ∈ ts) (h : s.Remains ts n) (le : b ≤ fuel) :
    Spends (Refusal.Located ts) ts b (n + 1) (takeRuleType fuel d t) s
      fun e s => e.Leaves ts (n + 1) t s := by
  unfold takeRuleType
  split
  · exact .lift (spends_refuse mem _)
  · refine (spends_takeDescription t.start).bind fun _ _ eq => ?_
    subst eq
    exact ((Spends.lift (spends_trailing h le)).more (Nat.le_succ n)).bind
      fun _ _ h => .done ⟨n, Nat.lt_succ_self n, h⟩

theorem spends_takeSeparator (h : (Row.cons t s).Remains ts n) :
    Spends (Refusal.Located ts) ts b n (takeSeparator place d t) s
      fun e s => e.Leaves ts n t s := by
  refine spends_spill.bind fun _ _ same => (spends_finishRule _ h.mem).bind fun e _ finished => ?_
  subst same
  obtain ⟨⟨x, rfl⟩, rfl⟩ := finished
  split
  · exact .lift (spends_refuse h.mem _)
  · split
    · exact (Spends.lift (spends_push h)).bind fun _ _ h => .done h
    · exact .done h.tail

/-- **A token of a rule is read, and fewer tokens remain when the rule goes on.** -/
theorem spends_takeToken (h : (Row.cons t s).Remains ts n) (le : b ≤ fuel) :
    Spends (Refusal.Located ts) ts b n (takeToken fuel place d t) s
      fun e s => e.Leaves ts n t s := by
  unfold takeToken
  cases kind : t.kind with
  | leftParen => exact .done h
  | eof =>
    refine spends_spill.bind fun _ _ same => (spends_finishRule _ h.mem).imp (fun _ => id) ?_
    subst same
    rintro e _ ⟨⟨x, rfl⟩, rfl⟩
    exact h.tail
  | comma | rightBracket => exact spends_takeSeparator h
  | rightParen =>
    dsimp only
    split
    · exact .lift (spends_refuse h.mem _)
    · refine (Spends.lift (spends_push h)).bind fun _ r h' =>
        (spends_finishRule _ h.mem).imp (fun _ => id) ?_
      rintro e _ ⟨⟨x, rfl⟩, rfl⟩
      exact h'
  | comment =>
    obtain ⟨n, rfl, rest⟩ := h.step (by simp [kind])
    refine (spends_addComment t).bind fun _ _ same => ?_
    subst same
    exact .done ⟨n, Nat.lt_succ_self n, rest⟩
  | ident =>
    obtain ⟨n, rfl, rest⟩ := h.step (by simp [kind])
    exact spends_takeRuleType h.mem rest le
  | number | string | kwTrue | kwFalse | kwNow =>
    obtain ⟨n, rfl, rest⟩ := h.step (by simp [kind])
    exact spends_takeParameter h.mem rest le
  | kwBetween | kwIn | kwMatches | equal | greater | less | greaterEqual | lessEqual =>
    obtain ⟨n, rfl, rest⟩ := h.step (by simp [kind])
    exact spends_takeExpression h.mem rest le
  | _ => exact .lift (spends_refuse h.mem _)

/-- The start of a rule is read within as many steps as tokens remain. -/
theorem spends_leadLoop (d : Draft) (h : r.Remains ts n) (le : b ≤ min fuel m) :
    Spends (Refusal.Located ts) ts b n (leadLoop fuel place m d) r
      fun out s => out.Leaves ts n s := by
  -- on the steps: a rule that goes on has taken one, and a token
  induction m generalizing b n r d with
  | zero => exact .spent h (by omega)
  | succ m ih =>
    refine (Spends.lift (spends_pop h)).bind fun t _ h =>
      (spends_takeToken h (by omega)).bind fun e s left => ?_
    cases e with
    | finish x => exact .done left
    | group => exact .done left
    | more d =>
      obtain ⟨l, lt, rest⟩ := left
      exact ((ih d rest (by omega)).succ.more lt).imp (fun _ => id)
        fun out s left => left.mono (Nat.le_of_lt lt)

theorem spends_lead (h : r.Remains ts n) (le : b ≤ fuel) :
    Spends (Refusal.Located ts) ts b n (lead fuel place) r fun out s => out.Leaves ts n s :=
  spends_leadLoop Draft.empty h (le_min le le)

/-! ### Rules in parentheses -/

theorem spends_member (h : r.Remains ts n) (le : b ≤ fuel) :
    Spends (Refusal.Located ts) ts b n (member fuel inRuleset t) r fun _ s => s.Remains ts n := by
  have nested : Spends (Refusal.Located ts) ts b n (nestedRule fuel inRuleset) r
      fun _ s => s.Remains ts n := by
    refine (spends_lead h le).bind fun out s left => ?_
    cases out with
    | rule x => exact .done left
    | group d paren => exact .lift (spends_refuse left.mem _)
  refine nested.onTray.bind fun x _ h => (Spends.lift (spends_pop h)).bind fun close s h => ?_
  split
  · exact .lift (spends_refuse h.mem _)
  · exact .done h.tail

/-- A combined rule without a connective has no member as long as one has to follow, and one member
otherwise; with a connective it has some. -/
def GroupDraft.Sound (d : GroupDraft) : Prop :=
  match d.operator with
  | none => d.members.length = if d.expectsMember then 0 else 1
  | some _ => d.members ≠ []

/-- Behind what a token does to a combined rule: it keeps sound, with fewer tokens for the next one
when it goes on and with no member to follow when it is finished. -/
def GroupEffect.Leaves (ts : List Token) (n : Nat) (d : GroupDraft) : GroupEffect → Row → Prop
  | more d', s => (d.Sound → d'.Sound) ∧ ∃ m < n, s.Remains ts m
  | finish, s => d.expectsMember = false ∧ s.Remains ts n

variable {g : GroupDraft}

theorem spends_takeConnective (operator : Connective) (mem : t ∈ ts) (h : s.Remains ts n) :
    Spends (Refusal.Located ts) ts b (n + 1) (takeConnective g operator t) s
      fun e s => e.Leaves ts (n + 1) g s := by
  unfold takeConnective
  split
  · exact .lift (spends_refuse mem _)
  · next complete =>
    have some : g.Sound → g.members ≠ [] := by
      intro sound none
      cases known : g.operator <;> simp [GroupDraft.Sound, known, complete, none] at sound
    cases g.operator with
    | none => exact .done ⟨some, n, Nat.lt_succ_self n, h⟩
    | some previous =>
      dsimp only
      split
      · exact .lift (spends_refuse mem _)
      · exact .done ⟨some, n, Nat.lt_succ_self n, h⟩

/-- **A token of a combined rule is read, and fewer tokens remain when it goes on.** -/
theorem spends_takeGroupToken (h : (Row.cons t s).Remains ts n) (le : b ≤ fuel) :
    Spends (Refusal.Located ts) ts b n (takeGroupToken fuel inRuleset g t) s
      fun e s => e.Leaves ts n g s := by
  unfold takeGroupToken
  cases kind : t.kind with
  | leftParen =>
    dsimp only
    obtain ⟨n, rfl, rest⟩ := h.step (by simp [kind])
    split
    · exact .lift (spends_refuse h.mem _)
    · next expected =>
      refine ((spends_member rest le).more (Nat.le_succ n)).bind fun x s rest =>
        .done ⟨fun sound => ?_, n, Nat.lt_succ_self n, rest⟩
      simp only [Bool.not_eq_eq_eq_not, Bool.not_true, Bool.not_eq_false] at expected
      cases known : g.operator <;> simp_all [GroupDraft.Sound]
  | kwAnd | kwOr =>
    obtain ⟨n, rfl, rest⟩ := h.step (by simp [kind])
    exact spends_takeConnective _ h.mem rest
  | eof =>
    dsimp only
    split
    · exact .lift (spends_refuse h.mem _)
    · next complete => exact .done ⟨by simpa using complete, h.tail⟩
  | comma | rightBracket =>
    dsimp only
    split
    · exact .lift (spends_refuse h.mem _)
    · next complete =>
      have complete : g.expectsMember = false := by simpa using complete
      split
      · exact .lift (spends_refuse h.mem _)
      · split
        · exact (Spends.lift (spends_push h)).bind fun _ _ h => .done ⟨complete, h⟩
        · exact .done ⟨complete, h.tail⟩
  | comment =>
    obtain ⟨n, rfl, rest⟩ := h.step (by simp [kind])
    exact .done ⟨id, n, Nat.lt_succ_self n, rest⟩
  | _ => exact .lift (spends_refuse h.mem _)

/-- The members of a combined rule are read within as many steps as tokens remain. -/
theorem spends_groupLoop (h : r.Remains ts n) (le : b ≤ min fuel m) :
    Spends (Refusal.Located ts) ts b n (groupLoop fuel inRuleset m g) r
      fun d s => (g.Sound → d.Sound) ∧ d.expectsMember = false ∧ s.Remains ts n := by
  induction m generalizing b n r g with
  | zero => exact .spent h (by omega)
  | succ m ih =>
    refine (Spends.lift (spends_pop h)).bind fun t _ h =>
      (spends_takeGroupToken h (by omega)).bind fun e s left => ?_
    cases e with
    | finish => exact .done ⟨id, left⟩
    | more d =>
      obtain ⟨keeps, l, lt, rest⟩ := left
      refine ((ih rest (by omega)).succ.more lt).imp (fun _ => id) ?_
      rintro d s ⟨keeps', complete, rest⟩
      exact ⟨keeps' ∘ keeps, complete, rest.mono (Nat.le_of_lt lt)⟩

/-- A combined rule that is sound can be finished when no member has to follow. -/
theorem toRule_of_sound (sound : g.Sound) (complete : g.expectsMember = false)
    (description : Option CommentGroup) : ∃ decl, g.toRule description = pure decl := by
  unfold GroupDraft.Sound at sound
  unfold GroupDraft.toRule
  cases known : g.operator with
  | none =>
    simp only [known, complete, Bool.false_eq_true, if_false] at sound
    obtain ⟨x, lone⟩ := List.length_eq_one_iff.mp sound
    rw [lone]
    exact ⟨_, rfl⟩
  | some operator =>
    simp only [known] at sound
    obtain ⟨first, others, several⟩ := List.exists_cons_of_ne_nil sound
    rw [several]
    exact ⟨_, rfl⟩

theorem spends_group (description : Option CommentGroup) (h : r.Remains ts n) (le : b ≤ fuel) :
    Spends (Refusal.Located ts) ts b n (group fuel inRuleset description) r
      fun _ s => s.Remains ts n := by
  have empty : GroupDraft.empty.Sound := rfl
  refine (spends_groupLoop h (le_min le le)).bind fun d s ⟨sound, complete, rest⟩ => ?_
  obtain ⟨decl, eq⟩ := toRule_of_sound (sound empty) complete description
  rw [eq]
  exact .done rest

/-- A rule leaves no more tokens than there were; it is refused at one of them, or it took as many
as there are steps. -/
theorem spends_rule (h : r.Remains ts n) (le : b ≤ fuel) :
    Spends (Refusal.Located ts) ts b n (rule fuel inRuleset) r fun _ s => s.Remains ts n := by
  refine (spends_lead h le).bind fun out s left => ?_
  cases out with
  | rule x => exact .done left
  | group d paren =>
    dsimp only
    split
    · exact .lift (spends_refuse left.mem _)
    · refine (spends_takeDescription paren.start).bind fun description _ same => ?_
      subst same
      exact (Spends.lift (spends_push left)).bind fun _ _ h => spends_group description h le

end QualityRules.Read
