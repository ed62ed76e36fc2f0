import QualityRules.Proofs.Pace.Ruleset

/-!
# Proofs — NoRules

A text is refused for want of a ruleset in one case only: nothing but comments is left before its
end.  A file is refused so when its first ruleset is; behind a ruleset it just ends.

* `ruleset_fails` and `ruleset_fails_of_commented`: where a ruleset is wanting only comments are
  left, and they float.
* `ruleset_fails_iff` and `file_fails_iff`: where only comments are left a ruleset is wanting.
-/

namespace QualityRules

/-- A text without rules is not refused for want of room. -/
theorem Refusal.noRules_ne_overrun : Refusal.noRules ≠ .overrun := nofun

/-- A text without rules is refused at none of its tokens. -/
theorem Refusal.not_located_noRules {ts : List Token} : ¬ Refusal.Located ts .noRules :=
  fun ⟨_, _, _, eq⟩ => nomatch eq

/-- Only comments are left before the end of the text, and `s` is behind it. -/
def Row.Commented (r : Row) (us : List Token) (t : Token) (s : Row) : Prop :=
  r = behind us (cons t s) ∧ (∀ u ∈ us, u.kind = .comment) ∧ t.kind = .eof

namespace Read
open ParseRules (Spends fails_bind fails_onTray)

variable {ts us : List Token} {t : Token} {fuel n m : Nat} {r s : Row} {k l : Tray}
  {d : RulesetDraft} {before : List Ruleset}

/-- Outside of rulesets a token refuses a text for want of rules when it is the end of the text. -/
theorem takeOutside_fails (remains : (Row.cons t r).Remains ts n)
    (f : (takeOutside fuel d t k).Fails r (.noRules, l) s) :
    t.kind = .eof ∧ l = k.spill ∧ s = r := by
  -- no reader but the refusal at the end refuses a text so
  have spared : ∀ {p : ParseRules RulesetEffect},
      Spends (Refusal.Located ts) ts fuel n p r (fun _ _ => True) →
      ¬ (p k).Fails r (.noRules, l) s :=
    fun h f => Refusal.not_located_noRules (h.allowed f Refusal.noRules_ne_overrun)
  cases kind : t.kind with
  | eof =>
    rw [takeOutside, kind] at f
    cases f
    exact ⟨rfl, rfl, rfl⟩
  | kwRules =>
    rw [takeOutside, kind] at f
    exact absurd f (spared ((spends_takeHeader remains.mem remains.tail (le_refl fuel)).bind
      fun _ _ _ => .done trivial))
  | comment =>
    rw [takeOutside, kind] at f
    exact absurd f (spared ((spends_addComment t).bind fun _ _ _ => .done trivial))
  | _ =>
    rw [takeOutside, kind] at f
    exact absurd f (spared (.lift (spends_refuse remains.mem _)))

/-- When a ruleset is wanting, none was opened, and only comments are left. -/
theorem rulesetLoop_fails (remains : r.Remains ts n)
    (f : (rulesetLoop fuel m d k).Fails r (.noRules, l) s) :
    d.header = none ∧ ∃ us t, r.Commented us t s ∧
      l = ((us.map Comment.ofToken).foldl Tray.add k).spill := by
  induction m generalizing d k r n with
  | zero => cases f
  | succ m ih =>
    rw [rulesetLoop, fails_bind] at f
    obtain f | ⟨t, _, r', read, f⟩ := f
    · have refused : Spends (Refusal.Located ts) ts fuel n pop r _ := .lift (spends_pop remains)
      exact absurd (refused.allowed f Refusal.noRules_ne_overrun) Refusal.not_located_noRules
    obtain ⟨rfl, first⟩ := ParseRules.gives_lift.mp read
    obtain rfl := gives_pop.mp first
    rw [fails_bind] at f
    rcases Option.eq_none_or_eq_some d.header with outside | ⟨x, inside⟩
    · refine ⟨outside, ?_⟩
      rw [takeRulesetToken_outside outside] at f
      obtain f | ⟨e, k', r'', took, f⟩ := f
      · obtain ⟨isEnd, rfl, rfl⟩ := takeOutside_fails remains f
        exact ⟨[], t, ⟨rfl, List.forall_mem_nil _, isEnd⟩, rfl⟩
      · obtain ⟨j, lt, rest⟩ := (spends_takeOutside remains (le_refl fuel)).holds took
        obtain ⟨-, x, read, rfl⟩ | ⟨kind, rfl, rfl, rfl⟩ := takeOutside_gives.mp took
        · -- a ruleset was opened now, so it cannot be that none was
          cases (ih rest f).1
        · obtain ⟨-, us, t', ⟨rfl, all, isEnd⟩, rfl⟩ := ih rest f
          exact ⟨t :: us, t', ⟨rfl, List.forall_mem_cons.mpr ⟨kind, all⟩, isEnd⟩, rfl⟩
    · rw [takeRulesetToken_inside inside] at f
      have read := spends_takeInside (d := d) (h := x) remains (le_refl fuel)
      obtain f | ⟨e, k', r'', took, f⟩ := f
      · exact absurd (read.allowed f Refusal.noRules_ne_overrun) Refusal.not_located_noRules
      · obtain ⟨j, lt, rest⟩ := read.holds took
        obtain ⟨rfl, ⟨-, cs, -, rfl⟩ | ⟨-, rfl, rfl⟩ | ⟨-, decl, inner, -, rfl⟩⟩ :=
          takeInside_gives.mp took
        · cases f
        · cases inside.symm.trans (ih rest f).1
        · cases inside.symm.trans (ih rest f).1

/-- Where a ruleset is wanting only comments are left, and they float. -/
theorem ruleset_fails (remains : r.Remains ts n)
    (f : (ruleset fuel k).Fails r (.noRules, l) s) :
    ∃ us t, r.Commented us t s ∧
      l = ⟨((us.map Comment.ofToken).foldl Tray.add ⟨k.floating, []⟩).spill.floating, k.run⟩ := by
  rw [ruleset, withFreshRun, fails_onTray] at f
  obtain ⟨_, failed, rfl⟩ := f
  obtain ⟨-, us, t, commented, rfl⟩ := rulesetLoop_fails remains failed
  exact ⟨us, t, commented, rfl⟩

/-- Where only comments are left a ruleset fails, and they float. -/
theorem rulesetLoop_fails_of_commented (commented : r.Commented us t s) (outside : d.header = none)
    (steps : us.length < m) (fuel : Fuel) (k : Tray) :
    (rulesetLoop fuel m d k).Fails r
      (.noRules, ((us.map Comment.ofToken).foldl Tray.add k).spill) s := by
  obtain ⟨rfl, all, isEnd⟩ := commented
  induction us generalizing m k with
  | nil =>
    obtain ⟨m, rfl⟩ : ∃ j, m = j + 1 := ⟨m - 1, by omega⟩
    refine fails_bind.mpr (.inr ⟨t, k, s, ?_, fails_bind.mpr (.inl ?_)⟩)
    · exact ParseRules.gives_lift.mpr ⟨rfl, gives_pop.mpr rfl⟩
    · rw [takeRulesetToken_outside outside, takeOutside, isEnd]
      rfl
  | cons u us ih =>
    obtain ⟨kind, all⟩ := List.forall_mem_cons.mp all
    obtain ⟨m, rfl⟩ : ∃ j, m = j + 1 := ⟨m - 1, by omega⟩
    have failed := ih (by simpa using steps) (k.add (Comment.ofToken u)) all
    have first : (liftM pop : ParseRules Token).Gives k (Row.behind (u :: us) (Row.cons t s)) u k
        (Row.behind us (Row.cons t s)) := ParseRules.gives_lift.mpr ⟨rfl, gives_pop.mpr rfl⟩
    have waits : (takeRulesetToken fuel d u).Gives k (Row.behind us (Row.cons t s)) (.more d)
        (k.add (Comment.ofToken u)) (Row.behind us (Row.cons t s)) := by
      rw [takeRulesetToken_outside outside]
      exact takeOutside_gives.mpr (.inr ⟨kind, rfl, rfl, rfl⟩)
    exact fails_bind.mpr (.inr ⟨u, k, _, first,
      fails_bind.mpr (.inr ⟨.more d, _, _, waits, failed⟩)⟩)

/-- Where only comments are left a ruleset is wanting, and they float. -/
theorem ruleset_fails_of_commented {fuel : Fuel} (commented : r.Commented us t s)
    (steps : us.length < fuel.steps) (k : Tray) : (ruleset fuel k).Fails r (.noRules,
      ⟨((us.map Comment.ofToken).foldl Tray.add ⟨k.floating, []⟩).spill.floating, k.run⟩) s := by
  rw [ruleset, withFreshRun, fails_onTray]
  exact ⟨_, rulesetLoop_fails_of_commented commented rfl steps fuel ⟨k.floating, []⟩, rfl⟩

/-- No more comments are left than tokens remain. -/
theorem length_le_of_commented (commented : r.Commented us t s) (remains : r.Remains ts n) :
    us.length ≤ n := by
  refine (commented.1 ▸ remains).length_le fun u mem => ?_
  simp [commented.2.1 u mem]

/-- **A ruleset is wanting just if only comments are left before the end of the text.** -/
theorem ruleset_fails_iff (remains : r.Remains ts n) (enough : n < fuel) :
    (∃ l s, (ruleset fuel k).Fails r (.noRules, l) s) ↔ ∃ us t s, r.Commented us t s := by
  constructor
  · rintro ⟨l, s, f⟩
    obtain ⟨us, t, commented, -⟩ := ruleset_fails remains f
    exact ⟨us, t, s, commented⟩
  · rintro ⟨us, t, s, commented⟩
    have few := length_le_of_commented commented remains
    exact ⟨_, s, ruleset_fails_of_commented commented (few.trans_lt enough) k⟩

/-! ### Files -/

/-- To look for a ruleset never fails for want of one. -/
theorem ruleset?_fails : ¬ (ruleset? fuel k).Fails r (.noRules, l) s := by
  intro f
  change ((ruleset fuel k).attempt >>= _).Fails r (Refusal.noRules, l) s at f
  rw [Reading.fails_bind] at f
  obtain f | ⟨⟨e, k'⟩ | ⟨x, k'⟩, m, -, f⟩ := f
  · rw [Reading.Fails, Reading.along_attempt] at f
    cases congrArg Prod.fst f
  · cases e <;> cases f
  · cases f

/-- A file is refused for want of a ruleset when its first one is wanting. -/
theorem rulesetsLoop_fails (remains : r.Remains ts n)
    (f : (rulesetsLoop fuel m before k).Fails r (.noRules, l) s) :
    before = [] ∧ (ruleset fuel k).Fails r (.noRules, l) s := by
  induction m generalizing before k r n with
  | zero => cases f
  | succ m ih =>
    rw [rulesetsLoop, fails_bind] at f
    obtain f | ⟨found, k', r', look, f⟩ := f
    · exact absurd f ruleset?_fails
    obtain ⟨x, rfl, read⟩ | ⟨rfl, wanting⟩ := ruleset?_gives.mp look
    · obtain ⟨j, lt, rest⟩ := (spends_ruleset remains (le_refl fuel)).holds read
      dsimp only at f
      rw [fails_bind] at f
      rcases f with f | ⟨t, _, r'', next, f⟩
      · have refused : Spends (Refusal.Located ts) ts fuel j pop r' _ := .lift (spends_pop rest)
        exact absurd (refused.allowed f Refusal.noRules_ne_overrun) Refusal.not_located_noRules
      obtain ⟨rfl, first⟩ := ParseRules.gives_lift.mp next
      obtain rfl := gives_pop.mp first
      split at f
      · cases f
      · rw [fails_bind] at f
        obtain f | ⟨_, _, _, back, f⟩ := f
        · cases f
        obtain ⟨rfl, row⟩ := ParseRules.gives_lift.mp back
        obtain rfl := gives_push.mp row
        -- behind a ruleset there are some before
        cases (List.append_eq_nil_iff.mp (ih rest f).1).2
    · dsimp only at f
      split at f
      · next none =>
        cases f
        exact ⟨List.isEmpty_iff.mp none, wanting⟩
      · cases f

/-- **A file is refused for want of a ruleset just if only comments are left.** -/
theorem file_fails_iff (filename : String) (remains : r.Remains ts n) (enough : n < fuel) :
    (∃ l s, (file fuel filename k).Fails r (.noRules, l) s) ↔ ∃ us t s, r.Commented us t s := by
  rw [← ruleset_fails_iff (k := k) remains enough]
  constructor
  · rintro ⟨l, s, f⟩
    rw [file, fails_bind] at f
    obtain f | ⟨all, k', r', -, f⟩ := f
    · exact ⟨l, s, (rulesetsLoop_fails remains f).2⟩
    · cases f
  · rintro ⟨l, s, wanting⟩
    obtain ⟨fuel, rfl⟩ : ∃ j, fuel = j + 1 := ⟨fuel - 1, by omega⟩
    refine ⟨l, s, fails_bind.mpr (.inl (fails_bind.mpr (.inr ⟨none, l, s, ?_, rfl⟩)))⟩
    exact ruleset?_gives.mpr (.inr ⟨rfl, wanting⟩)

end Read

end QualityRules
