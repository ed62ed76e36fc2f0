import QualityRules.Proofs.Failures
import QualityRules.Proofs.Follows.Rule

/-!
# Proofs — Follows — Ruleset

Rulesets and files of them are read the same further down, and with more fuel.

* `follows_takeRulesetToken` is the step, `follows_rulesetLoop` the loop.
* `follows_ruleset?` takes up again that there is no ruleset, and nothing else.
* `follows_ruleset`, `follows_file` and `Entry.follows_reader` are whole readers.
-/

namespace QualityRules

variable {o : Offset}

namespace Read
open ParseRules (Follows)

instance : Shift Header :=
  ⟨fun o h => ⟨shift o h.declPos, shift o h.leftBracket, shift o h.description,
    shift o h.comments⟩, fun h => by simp⟩

instance : Shift RulesetDraft :=
  ⟨fun o d => ⟨shift o d.header, shift o d.rules, shift o d.inner⟩, fun d => by simp⟩

theorem RulesetDraft.shift_mk (header : Option Header) (rules : List RuleDecl) (inner : Tray) :
    shift o (⟨header, rules, inner⟩ : RulesetDraft)
      = ⟨shift o header, shift o rules, shift o inner⟩ := rfl

instance : Shift RulesetEffect where
  shift o
    | .more d => .more (shift o d)
    | .finish r => .finish (shift o r)
  shift_zero e := by cases e <;> simp

variable {fuel fuel' : Nat} (le : fuel ≤ fuel') (d : RulesetDraft) (h : Header) (t : Token)
include le

theorem follows_takeHeader : Follows o (takeHeader fuel t) (takeHeader fuel' (shift o t)) := by
  refine (Follows.lift follows_pop).bind fun equal => ?_
  rw [Token.kind_shift]
  split
  · exact .lift (follows_refuse rfl)
  · refine (Follows.lift (follows_popTrailing le)).bind fun (bracket, comments) => ?_
    simp only [shift_pair, Token.kind_shift]
    split
    · exact .lift (follows_refuse rfl)
    · exact (follows_takeDescription t.start).bind fun description =>
        .done (Header.mk t.start bracket.start description comments)

/-- A ruleset that is closed moves with its header and its bracket. -/
theorem follows_finishRuleset : Follows o (finishRuleset fuel d h t)
    (finishRuleset fuel' (shift o d) (shift o h) (shift o t)) := by
  refine (Follows.lift (follows_trailing le t.start)).bind fun comments => .of_eq ?_
  obtain ⟨header, rules, inner⟩ := d
  obtain ⟨declPos, leftBracket, description, headerComments⟩ := h
  change RulesetEffect.finish ⟨_, _, _, _, (shift o inner).spill.floating, _,
    CommentGroup.ofList? (shift o headerComments), CommentGroup.ofList? (shift o comments)⟩ = _
  rw [Tray.spill_shift, CommentGroup.ofList?_shift, CommentGroup.ofList?_shift]
  rfl

theorem follows_takeInside : Follows o (takeInside fuel d h t)
    (takeInside fuel' (shift o d) (shift o h) (shift o t)) := by
  unfold takeInside
  rw [Token.kind_shift]
  cases t.kind with
  | eof | kwRules => exact .lift (follows_refuse rfl)
  | rightBracket => exact follows_finishRuleset le d h t
  | comment =>
    refine .of_eq ?_
    rw [Comment.shift_ofToken, show (shift o d).inner = shift o d.inner from rfl, Tray.add_shift]
    rfl
  | _ =>
    refine (Follows.lift (follows_push t)).bind fun _ =>
      (follows_withTray d.inner (follows_rule le true)).bind fun (r, inner) => .of_eq ?_
    change _ = RulesetEffect.more (shift o _)
    obtain ⟨header, rules, _⟩ := d
    simp [RulesetDraft.shift_mk]

theorem follows_takeOutside : Follows o (takeOutside fuel d t)
    (takeOutside fuel' (shift o d) (shift o t)) := by
  unfold takeOutside
  rw [Token.kind_shift]
  cases t.kind with
  | eof => exact follows_spill.bind fun _ => .lift (follows_fail rfl)
  | kwRules =>
    exact (follows_takeHeader le t).bind
      fun h => .done (RulesetEffect.more { d with header := some h })
  | comment => exact (follows_addComment t).bind fun _ => .done (RulesetEffect.more d)
  | _ => exact .lift (follows_refuse rfl)

theorem follows_takeRulesetToken : Follows o (takeRulesetToken fuel d t)
    (takeRulesetToken fuel' (shift o d) (shift o t)) := by
  obtain ⟨_ | h, rules, inner⟩ := d
  · exact follows_takeOutside le ⟨none, rules, inner⟩ t
  · exact follows_takeInside le ⟨some h, rules, inner⟩ h t

/-- A ruleset is read further down, with as many steps or more. -/
theorem follows_rulesetLoop {m m' : Nat} (steps : m ≤ m') (d : RulesetDraft) :
    Follows o (rulesetLoop fuel m d) (rulesetLoop fuel' m' (shift o d)) := by
  induction m generalizing m' d with
  | zero => exact fun _ => .overrun rfl _
  | succ m ih =>
    obtain ⟨m', rfl⟩ : ∃ l, m' = l + 1 := ⟨m' - 1, by omega⟩
    refine (Follows.lift follows_pop).bind fun t => (follows_takeRulesetToken le d t).bind
      fun effect => ?_
    cases effect with
    | more d => exact ih (by omega) d
    | finish r => exact .done r

theorem follows_ruleset : Follows o (ruleset fuel) (ruleset fuel') :=
  follows_withFreshRun (follows_rulesetLoop le le RulesetDraft.empty)

theorem follows_ruleset? : Follows o (ruleset? fuel) (ruleset? fuel') := by
  intro k
  refine (follows_ruleset le k).attempt_bind ?_ ?_ ?_ ?_
  · exact fun (r, l) => .done (some r, l)
  · rintro ⟨e, l⟩ own
    cases e with
    | noRules => exact .done (none, l)
    | _ => exact .fail own
  · rintro ⟨e, l⟩ spent
    obtain rfl : e = .overrun := spent
    exact ⟨(.overrun, l), rfl, rfl⟩
  · rintro ⟨e, l⟩ isFault
    cases e with
    | «at» cause pos => exact ⟨(.at cause pos, l), rfl, rfl, rfl⟩
    | starved => exact ⟨(.starved, l), rfl, rfl, rfl⟩
    | _ => exact nomatch isFault

/-- **Rulesets are read further down, with as many steps or more.** -/
theorem follows_rulesetsLoop {m m' : Nat} (steps : m ≤ m') (before : List Ruleset) :
    Follows o (rulesetsLoop fuel m before) (rulesetsLoop fuel' m' (shift o before)) := by
  induction m generalizing m' before with
  | zero => exact fun _ => .overrun rfl _
  | succ m ih =>
    obtain ⟨m', rfl⟩ : ∃ l, m' = l + 1 := ⟨m' - 1, by omega⟩
    refine (follows_ruleset? le).bind fun found => ?_
    cases found with
    | none =>
      dsimp only [shift_none]
      rw [isEmpty_shift]
      split
      · exact .lift (follows_fail rfl)
      · exact .done before
    | some r =>
      have more : shift o before ++ [shift o r] = shift o (before ++ [r]) := by simp
      refine (Follows.lift follows_pop).bind fun t => ?_
      rw [Token.kind_shift, more]
      split
      · exact .done (before ++ [r])
      · exact (Follows.lift (follows_push t)).bind fun _ => ih (by omega) _

/-- A file moves, its name stays. -/
theorem follows_file (filename : String) : Follows o (file fuel filename) (file fuel' filename) :=
  have got : Follows o (get : ParseRules Tray) get := fun k => .done (k, k)
  (follows_rulesetsLoop le le []).bind fun rulesets =>
    got.bind fun k => .done (RuleFile.mk filename k.floating rulesets)

end Read

/-- Whatever entry reads a text does the same further down, and with more fuel. -/
theorem Entry.follows_reader (entry : Entry) {fuel fuel' : Nat} (le : fuel ≤ fuel') :
    ParseRules.Follows o (entry.reader fuel) (entry.reader fuel') := by
  cases entry with
  | rule => exact (Read.follows_rule le false).bind fun r => .done (Node.rule r)
  | ruleset => exact (Read.follows_ruleset le).bind fun r => .done (Node.ruleset r)
  | file filename => exact (Read.follows_file le filename).bind fun f => .done (Node.file f)

end QualityRules
