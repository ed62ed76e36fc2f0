import QualityRules.Proofs.Runs.Rule

/-!
# Proofs — Runs — Ruleset

What the next token does to a ruleset that was read so far (`RulesetStep`, `RulesetEnd`), and how
the rulesets of a file follow each other.

* `rulesetLoop_gives`: a ruleset goes on by a step, or its closing bracket ends it.
* `rulesetsLoop_gives`: one more ruleset is read, up to the end of the text or further; or there is
  none, but there were some before.
-/

namespace QualityRules.Read
open ParseRules (gives_bind gives_pure gives_lift)

/-- What the next token does to a ruleset that goes on: before it is opened a comment waits, or the
word that opens it is read with its bracket; inside, a comment waits on the inner tray, or a rule is
read. -/
inductive RulesetStep (fuel : Nat) (d : RulesetDraft) (k : Tray) :
    Row → RulesetDraft → Tray → Row → Prop
  | before {t m} (kind : t.kind = .comment) (outside : d.header = none) :
      RulesetStep fuel d k (Row.cons t m) d (k.add (Comment.ofToken t)) m
  | header {t m h l s} (kind : t.kind = .kwRules) (outside : d.header = none)
      (read : (takeHeader fuel t).Gives k m h l s) :
      RulesetStep fuel d k (Row.cons t m) { d with header := some h } l s
  | comment {t m h} (kind : t.kind = .comment) (inside : d.header = some h) :
      RulesetStep fuel d k (Row.cons t m) { d with inner := d.inner.add (Comment.ofToken t) } k m
  | rule {t m h decl inner s} (other : t.kind ≠ .eof ∧ t.kind ≠ .rightBracket ∧ t.kind ≠ .kwRules ∧
        t.kind ≠ .comment) (inside : d.header = some h)
      (read : (rule fuel true).Gives d.inner (Row.cons t m) decl inner s) :
      RulesetStep fuel d k (Row.cons t m) { d with rules := d.rules ++ [decl], inner } k s

/-- The closing bracket ends a ruleset, with the comments that trail it. -/
inductive RulesetEnd (fuel : Nat) (d : RulesetDraft) : Row → Ruleset → Row → Prop
  | bracket {t m h cs s} (kind : t.kind = .rightBracket) (inside : d.header = some h)
      (trail : (trailing fuel t.start).Gives m cs s) :
      RulesetEnd fuel d (Row.cons t m)
        ⟨h.declPos, h.leftBracket, t.start, d.rules, d.inner.spill.floating, h.description,
          CommentGroup.ofList? h.comments, CommentGroup.ofList? cs⟩ s

variable {fuel n : Nat} {t : Token} {r s : Row} {k l : Tray} {d : RulesetDraft} {x : Ruleset}
  {e : RulesetEffect} {h : Header}

theorem takeHeader_gives : (takeHeader fuel t).Gives k r h l s ↔
    ∃ equal m bracket cs, r = Row.cons equal m ∧ equal.kind = .equal ∧
      (popTrailing fuel).Gives m (bracket, cs) s ∧ bracket.kind = .leftBracket ∧
      h = ⟨t.start, bracket.start, (k.takeDescription t.start).1, cs⟩ ∧
      l = (k.takeDescription t.start).2 := by
  simp only [takeHeader, gives_bind, gives_lift, gives_pop, gives_iteRules, not_gives_refuse,
    and_false, false_or, Prod.exists, ParseRules.gives_takeDescription, gives_pure, ne_eq,
    Classical.not_not]
  constructor
  · rintro ⟨equal, _, m, ⟨rfl, rfl⟩, isEqual, bracket, cs, _, q, ⟨rfl, read⟩, opens, g, _, _,
      ⟨eq, rfl⟩, rfl, rfl, rfl⟩
    exact ⟨equal, m, bracket, cs, rfl, isEqual, read, opens, by rw [← eq], by rw [← eq]⟩
  · rintro ⟨equal, m, bracket, cs, rfl, isEqual, read, opens, rfl, rfl⟩
    exact ⟨equal, k, m, ⟨rfl, rfl⟩, isEqual, bracket, cs, k, s, ⟨rfl, read⟩, opens, _, _, s,
      ⟨rfl, rfl⟩, rfl, rfl, rfl⟩

theorem takeInside_gives : (takeInside fuel d h t).Gives k r e l s ↔ l = k ∧
    (t.kind = .rightBracket ∧ (∃ cs, (trailing fuel t.start).Gives r cs s ∧
        e = .finish ⟨h.declPos, h.leftBracket, t.start, d.rules, d.inner.spill.floating,
          h.description, CommentGroup.ofList? h.comments, CommentGroup.ofList? cs⟩) ∨
      t.kind = .comment ∧ e = .more { d with inner := d.inner.add (Comment.ofToken t) } ∧ s = r ∨
      (t.kind ≠ .eof ∧ t.kind ≠ .rightBracket ∧ t.kind ≠ .kwRules ∧ t.kind ≠ .comment) ∧
        ∃ decl inner, (rule fuel true).Gives d.inner (Row.cons t r) decl inner s ∧
          e = .more { d with rules := d.rules ++ [decl], inner }) := by
  cases kind : t.kind with
  | rightBracket =>
    simp only [takeInside, kind, finishRuleset, gives_bind, gives_lift, gives_pure]
    constructor
    · rintro ⟨cs, _, q, ⟨rfl, read⟩, rfl, rfl, rfl⟩
      exact ⟨rfl, .inl ⟨trivial, cs, read, rfl⟩⟩
    · rintro ⟨rfl, ⟨-, cs, read, rfl⟩ | ⟨eq, -⟩ | ⟨ne, -⟩⟩
      · exact ⟨cs, l, s, ⟨rfl, read⟩, rfl, rfl, rfl⟩
      · cases eq
      · exact (ne.2.1 rfl).elim
  | comment => simp [takeInside, kind, and_left_comm]
  | eof | kwRules => simp [takeInside, kind]
  | _ =>
    simp only [takeInside, kind, gives_bind, gives_lift, gives_push, Prod.exists,
      ParseRules.gives_withTray, gives_pure, reduceCtorEq, ne_eq, not_false_eq_true, and_self,
      true_and, false_and, false_or]
    constructor
    · rintro ⟨_, _, _, ⟨rfl, rfl⟩, decl, inner, _, q, ⟨rfl, read⟩, rfl, rfl, rfl⟩
      exact ⟨rfl, decl, inner, read, rfl⟩
    · rintro ⟨rfl, decl, inner, read, rfl⟩
      exact ⟨(), l, _, ⟨rfl, rfl⟩, decl, inner, l, s, ⟨rfl, read⟩, rfl, rfl, rfl⟩

theorem takeOutside_gives {fuel : Fuel} : (takeOutside fuel d t).Gives k r e l s ↔
    t.kind = .kwRules ∧ (∃ h, (takeHeader fuel.steps t).Gives k r h l s ∧
        e = .more { d with header := some h }) ∨
      t.kind = .comment ∧ l = k.add (Comment.ofToken t) ∧ e = .more d ∧ s = r := by
  cases kind : t.kind with
  | eof =>
    simp only [takeOutside, kind, gives_bind, gives_lift, not_gives_fail, and_false, exists_false,
      reduceCtorEq, false_and, or_self]
  | kwRules =>
    simp only [takeOutside, kind, gives_bind, gives_pure, true_and, reduceCtorEq, false_and,
      or_false]
    constructor
    · rintro ⟨h, _, _, read, rfl, rfl, rfl⟩
      exact ⟨h, read, rfl⟩
    · rintro ⟨h, read, rfl⟩
      exact ⟨h, l, s, read, rfl, rfl, rfl⟩
  | comment =>
    simp only [takeOutside, kind, gives_bind, ParseRules.gives_addComment, gives_pure, reduceCtorEq,
      false_and, false_or, true_and]
    constructor
    · rintro ⟨_, _, _, ⟨rfl, rfl⟩, rfl, rfl, rfl⟩
      exact ⟨rfl, rfl, rfl⟩
    · rintro ⟨rfl, rfl, rfl⟩
      exact ⟨(), _, _, ⟨rfl, rfl⟩, rfl, rfl, rfl⟩
  | _ => simp [takeOutside, kind]

theorem takeRulesetToken_inside (inside : d.header = some h) :
    takeRulesetToken fuel d t = takeInside fuel d h t := by
  simp [takeRulesetToken, inside]

theorem takeRulesetToken_outside {fuel : Fuel} (outside : d.header = none) :
    takeRulesetToken fuel d t = takeOutside fuel d t := by
  simp [takeRulesetToken, outside]

/-- A ruleset goes on by a step, or it ends. -/
theorem rulesetLoop_gives : (rulesetLoop fuel (n + 1) d).Gives k r x l s ↔
    (∃ d' k' m, RulesetStep fuel d k r d' k' m ∧ (rulesetLoop fuel n d').Gives k' m x l s) ∨
      RulesetEnd fuel d r x s ∧ l = k := by
  rw [rulesetLoop, ParseRules.gives_pop_bind]
  simp only [gives_bind]
  constructor
  · rintro ⟨t, m, rfl, e, k', m', read, rest⟩
    rcases Option.eq_none_or_eq_some d.header with outside | ⟨h, inside⟩
    · rw [takeRulesetToken_outside outside, takeOutside_gives] at read
      obtain ⟨kind, h, read, rfl⟩ | ⟨kind, rfl, rfl, rfl⟩ := read
      · exact .inl ⟨_, _, _, .header kind outside read, rest⟩
      · exact .inl ⟨_, _, _, .before kind outside, rest⟩
    · rw [takeRulesetToken_inside inside, takeInside_gives] at read
      obtain ⟨rfl, ⟨kind, cs, read, rfl⟩ | ⟨kind, rfl, rfl⟩ |
        ⟨other, decl, inner, read, rfl⟩⟩ := read
      · obtain ⟨rfl, rfl, rfl⟩ := gives_pure.mp rest
        exact .inr ⟨.bracket kind inside read, rfl⟩
      · exact .inl ⟨_, _, _, .comment kind inside, rest⟩
      · exact .inl ⟨_, _, _, .rule other inside read, rest⟩
  · rintro (⟨d', k', m, step, rest⟩ | ⟨stop, rfl⟩)
    · cases step with
      | @before t m kind outside =>
        refine ⟨t, _, rfl, .more _, _, m, ?_, rest⟩
        rw [takeRulesetToken_outside outside]
        exact takeOutside_gives.mpr (.inr ⟨kind, rfl, rfl, rfl⟩)
      | @header t m₁ h l s kind outside read =>
        refine ⟨t, m₁, rfl, .more _, _, m, ?_, rest⟩
        rw [takeRulesetToken_outside outside]
        exact takeOutside_gives.mpr (.inl ⟨kind, h, read, rfl⟩)
      | @comment t m h kind inside =>
        refine ⟨t, _, rfl, .more _, _, m, ?_, rest⟩
        rw [takeRulesetToken_inside inside]
        exact takeInside_gives.mpr ⟨rfl, .inr (.inl ⟨kind, rfl, rfl⟩)⟩
      | @rule t m₁ h decl inner s other inside read =>
        refine ⟨t, m₁, rfl, .more _, _, m, ?_, rest⟩
        rw [takeRulesetToken_inside inside]
        exact takeInside_gives.mpr ⟨rfl, .inr (.inr ⟨other, decl, inner, read, rfl⟩)⟩
    · cases stop with
      | @bracket t m h cs s kind inside trail =>
        refine ⟨t, m, rfl, .finish _, l, s, ?_, gives_pure.mpr ⟨rfl, rfl, rfl⟩⟩
        rw [takeRulesetToken_inside inside]
        exact takeInside_gives.mpr ⟨rfl, .inl ⟨kind, cs, trail, rfl⟩⟩

/-- The comments before a ruleset wait on a run of their own, of which nothing is left behind. -/
theorem ruleset_gives : (ruleset fuel).Gives k r x l s ↔
    ∃ m, (rulesetLoop fuel fuel RulesetDraft.empty).Gives ⟨k.floating, []⟩ r x m s ∧
      l = ⟨m.floating, k.run⟩ :=
  ParseRules.gives_withFreshRun

/-! ### Files -/

theorem ruleset?_gives {fuel : Fuel} {found : Option Ruleset} : (ruleset? fuel).Gives k r found l s ↔
    (∃ x, found = some x ∧ (ruleset fuel).Gives k r x l s) ∨
      found = none ∧ (ruleset fuel k).Fails r (.noRules, l) s := by
  change ((ruleset fuel k).attempt >>= _).Gives r (found, l) s ↔ _
  rw [Reading.gives_bind]
  constructor
  · rintro ⟨⟨e, k'⟩ | ⟨x, k'⟩, m, read, rest⟩
    · cases e with
      | noRules =>
        simp only [Reading.gives_pure, Prod.mk.injEq] at rest
        obtain ⟨⟨rfl, rfl⟩, rfl⟩ := rest
        exact .inr ⟨rfl, Reading.gives_attempt_error.mp read⟩
      | _ => exact absurd rest Reading.not_gives_fail
    · simp only [Reading.gives_pure, Prod.mk.injEq] at rest
      obtain ⟨⟨rfl, rfl⟩, rfl⟩ := rest
      exact .inl ⟨x, rfl, Reading.gives_attempt_ok.mp read⟩
  · rintro (⟨x, rfl, read⟩ | ⟨rfl, read⟩)
    · exact ⟨.ok (x, l), s, Reading.gives_attempt_ok.mpr read, Reading.gives_pure.mpr ⟨rfl, rfl⟩⟩
    · exact ⟨.error (.noRules, l), s, Reading.gives_attempt_error.mpr read,
        Reading.gives_pure.mpr ⟨rfl, rfl⟩⟩

variable {before all : List Ruleset}

/-- One more ruleset is read, and the text is at its end or it goes on; or there is none, but there
were some before. -/
theorem rulesetsLoop_gives {fuel : Fuel} : (rulesetsLoop fuel (n + 1) before).Gives k r all l s ↔
    (∃ x k' t m, (ruleset fuel).Gives k r x k' (Row.cons t m) ∧
      (t.kind = .eof ∧ all = before ++ [x] ∧ l = k' ∧ s = m ∨
        t.kind ≠ .eof ∧ (rulesetsLoop fuel n (before ++ [x])).Gives k' (Row.cons t m) all l s)) ∨
      before ≠ [] ∧ all = before ∧ (ruleset fuel k).Fails r (.noRules, l) s := by
  simp only [rulesetsLoop, gives_bind, ruleset?_gives]
  constructor
  · rintro ⟨_, k', m, ⟨x, rfl, read⟩ | ⟨rfl, none⟩, rest⟩
    · simp only [gives_bind, gives_lift, gives_pop, gives_iteRules, gives_pure, gives_push] at rest
      obtain ⟨t, _, m, ⟨rfl, rfl⟩, ⟨isEnd, rfl, rfl, rfl⟩ |
        ⟨more, _, _, _, ⟨rfl, rfl⟩, rest⟩⟩ := rest
      · exact .inl ⟨x, _, t, _, read, .inl ⟨isEnd, rfl, rfl, rfl⟩⟩
      · exact .inl ⟨x, _, t, _, read, .inr ⟨more, rest⟩⟩
    · simp only [gives_iteRules, gives_lift, not_gives_fail, and_false, false_or, gives_pure,
        List.isEmpty_iff] at rest
      obtain ⟨some, rfl, rfl, rfl⟩ := rest
      exact .inr ⟨some, rfl, none⟩
  · rintro (⟨x, k', t, m, read, rest⟩ | ⟨some, rfl, none⟩)
    · refine ⟨_, k', _, .inl ⟨x, rfl, read⟩, ?_⟩
      simp only [gives_bind, gives_lift, gives_pop, gives_iteRules, gives_pure, gives_push]
      refine ⟨t, k', m, ⟨rfl, rfl⟩, ?_⟩
      rcases rest with ⟨isEnd, rfl, rfl, rfl⟩ | ⟨more, rest⟩
      · exact .inl ⟨isEnd, rfl, rfl, rfl⟩
      · exact .inr ⟨more, (), k', _, ⟨rfl, rfl⟩, rest⟩
    · refine ⟨_, l, s, .inr ⟨rfl, none⟩, ?_⟩
      exact gives_iteRules.mpr (.inr ⟨by simpa using some, gives_pure.mpr ⟨rfl, rfl, rfl⟩⟩)

theorem file_gives {fuel : Fuel} {filename : String} {f : RuleFile} :
    (file fuel filename).Gives k r f l s ↔
    ∃ all, (rulesetsLoop fuel fuel.steps []).Gives k r all l s ∧ f = ⟨filename, l.floating, all⟩ := by
  have get : ∀ {k m l : Tray} {r s : Row},
      (MonadState.get : ParseRules Tray).Gives k r m l s ↔ m = k ∧ l = k ∧ s = r := by
    intro k m l r s
    change (pure (k, k) : Reading _ _).Gives r (m, l) s ↔ _
    simp [and_assoc]
  simp only [file, gives_bind, get, gives_pure]
  constructor
  · rintro ⟨all, l', m, read, _, _, _, ⟨rfl, rfl, rfl⟩, rfl, rfl, rfl⟩
    exact ⟨all, read, rfl⟩
  · rintro ⟨all, read, rfl⟩
    exact ⟨all, l, s, read, l, l, s, ⟨rfl, rfl, rfl⟩, rfl, rfl, rfl⟩

end QualityRules.Read
