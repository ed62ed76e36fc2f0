import QualityRules.Proofs.Pace.Rule
import QualityRules.Proofs.Complete
import QualityRules.Proofs.Ledger.Decl
import QualityRules.Proofs.Runs.Ruleset

/-!
# Proofs — Pace — Ruleset

Rulesets and files of them.  Each step takes a token: a rule that is read between the brackets takes
the first one, since it is neither the end of the text nor the closing bracket.

* `spends_rulesetLoop` and `spends_rulesetsLoop` are the loops.
* `spends_ruleset` and `spends_file`: the text is refused for want of a ruleset, or at one of its
  tokens; or as many of them were taken as there are steps.
-/

namespace QualityRules

/-- The text is refused for want of a ruleset, or at one of the tokens `ts`. -/
def Refusal.Documented (ts : List Token) (e : Refusal) : Prop := e = .noRules ∨ e.Located ts

/-- Want of room is no documented cause. -/
theorem Refusal.not_documented_overrun {ts : List Token} : ¬ Refusal.Documented ts .overrun := by
  rintro (none | ⟨_, _, _, located⟩)
  · exact nomatch none
  · exact nomatch located

/-- What is refused at a token is refused for a documented cause. -/
theorem ParseRules.Spends.documented {α : Type} {ts : List Token} {b n : Nat} {p : ParseRules α}
    {r : Row} {Q : α → Row → Prop} (h : Spends (Refusal.Located ts) ts b n p r Q) :
    Spends (Refusal.Documented ts) ts b n p r Q :=
  h.imp (fun _ => .inr) fun _ _ => id

namespace Read
open ParseRules (Spends)
open Grammar (IsDecl)

variable {ts : List Token} {t : Token} {fuel b m n : Nat} {r s : Row} {F : Refusal → Prop}
  {d : RulesetDraft} {h : Header}

/-- A rule that starts with another token than the end of the text or of the ruleset takes it. -/
theorem spends_rule_step (remains : (Row.cons t s).Remains ts n) (le : b ≤ fuel)
    (going : t.kind ≠ .eof) :
    Spends (Refusal.Located ts) ts b n (rule fuel true) (Row.cons t s)
      fun _ s => ∃ m < n, s.Remains ts m := by
  refine (spends_rule remains le).gives_imp fun k decl l s' g _ => ?_
  obtain ⟨us, ms, row, account⟩ := rule_reads (K := none) g remains.final rfl rfl
  obtain ⟨vs, stop, eq, -, is⟩ := account.shape
  obtain ⟨v, vs, rfl, -⟩ := is.first
  obtain ⟨n, rfl, rest⟩ := remains.step going
  cases us with
  | nil => exact nomatch eq
  | cons u us =>
    obtain ⟨rfl, rfl⟩ := Row.cons_inj.mp row
    exact ⟨n, Nat.lt_succ_self n, rest.drop⟩

/-- A tray of its own costs a reader no step. -/
theorem spends_withTray {α : Type} {p : ParseRules α} {Q : α → Row → Prop} (inner : Tray)
    (h : Spends F ts b n p r Q) :
    Spends F ts b n (withTray inner p) r fun x s => Q x.1 s := by
  have get : ∀ r, Spends F ts b n (get : ParseRules Tray) r fun _ s => s = r :=
    fun r k => .done rfl
  refine Spends.onTray (h.bind fun a s holds => (get s).bind fun tray _ same => ?_)
  subst same
  exact .done holds

theorem spends_takeHeader (mem : t ∈ ts) (remains : r.Remains ts n) (le : b ≤ fuel) :
    Spends (Refusal.Located ts) ts b n (takeHeader fuel t) r fun _ s => s.Remains ts n := by
  refine (Spends.lift (spends_pop remains)).bind fun equal s remains => ?_
  split
  · exact .lift (spends_refuse mem _)
  · refine (Spends.lift (spends_popTrailing remains.tail le)).bind
      fun (bracket, comments) s remains => ?_
    dsimp only
    split
    · exact .lift (spends_refuse mem _)
    · refine (spends_takeDescription t.start).bind fun _ _ same => ?_
      subst same
      exact .done remains.tail

theorem spends_takeInside (remains : (Row.cons t s).Remains ts n) (le : b ≤ fuel) :
    Spends (Refusal.Located ts) ts b n (takeInside fuel d h t) s
      fun _ s => ∃ m < n, s.Remains ts m := by
  unfold takeInside
  cases kind : t.kind with
  | eof | kwRules => exact .lift (spends_refuse remains.mem _)
  | rightBracket =>
    obtain ⟨n, rfl, rest⟩ := remains.step (by simp [kind])
    exact ((Spends.lift (spends_trailing rest le)).more (Nat.le_succ n)).bind
      fun _ _ rest => .done ⟨n, Nat.lt_succ_self n, rest⟩
  | comment =>
    obtain ⟨n, rfl, rest⟩ := remains.step (by simp [kind])
    exact .done ⟨n, Nat.lt_succ_self n, rest⟩
  | _ =>
    have back : Spends (Refusal.Located ts) ts b n (push t : Parse Unit) s
        fun _ r => r = Row.cons t s := .lift (.gives rfl rfl)
    refine back.bind fun _ _ same => ?_
    subst same
    exact (spends_withTray d.inner (spends_rule_step remains le (by simp [kind]))).bind
      fun _ _ rest => .done rest

theorem spends_takeOutside (remains : (Row.cons t s).Remains ts n) (le : b ≤ fuel) :
    Spends (Refusal.Documented ts) ts b n (takeOutside fuel d t) s
      fun _ s => ∃ m < n, s.Remains ts m := by
  unfold takeOutside
  have refuse : ∀ {cause : Cause}, Spends (Refusal.Documented ts) ts b n
      (Read.refuse cause t.start : Parse RulesetEffect) s fun _ s => ∃ m < n, s.Remains ts m :=
    fun {cause} => (Spends.lift (spends_refuse remains.mem cause)).documented
  cases kind : t.kind with
  | eof => exact spends_spill.bind fun _ _ _ => .lift (.fails rfl (.inl rfl))
  | kwRules =>
    obtain ⟨n, rfl, rest⟩ := remains.step (by simp [kind])
    exact ((spends_takeHeader remains.mem rest le).documented.more (Nat.le_succ n)).bind
      fun _ _ rest => .done ⟨n, Nat.lt_succ_self n, rest⟩
  | comment =>
    obtain ⟨n, rfl, rest⟩ := remains.step (by simp [kind])
    refine (spends_addComment t).bind fun _ _ same => ?_
    subst same
    exact .done ⟨n, Nat.lt_succ_self n, rest⟩
  | _ => exact refuse

/-- A ruleset is read within as many steps as tokens remain. -/
theorem spends_rulesetLoop (remains : r.Remains ts n) (le : b ≤ min fuel m) :
    Spends (Refusal.Documented ts) ts b n (rulesetLoop fuel m d) r
      fun _ s => ∃ m < n, s.Remains ts m := by
  induction m generalizing b n r d with
  | zero => exact .spent remains (by omega)
  | succ m ih =>
    refine (Spends.lift (spends_pop remains)).documented.bind fun t s remains => ?_
    have took : Spends (Refusal.Documented ts) ts b n (takeRulesetToken fuel d t) s
        fun _ s => ∃ m < n, s.Remains ts m := by
      unfold takeRulesetToken
      cases d.header with
      | none => exact spends_takeOutside remains (by omega)
      | some h => exact (spends_takeInside remains (by omega)).documented
    refine took.bind fun e s ⟨l, lt, rest⟩ => ?_
    cases e with
    | finish x => exact .done ⟨l, lt, rest⟩
    | more d =>
      exact ((ih rest (by omega)).succ.more lt).imp (fun _ => id)
        fun _ _ ⟨j, less, rest⟩ => ⟨j, less.trans lt, rest⟩

/-- Fewer tokens remain behind a ruleset. -/
theorem spends_ruleset (remains : r.Remains ts n) (le : b ≤ fuel) :
    Spends (Refusal.Documented ts) ts b n (ruleset fuel) r fun _ s => ∃ m < n, s.Remains ts m := by
  unfold ruleset withFreshRun
  exact (spends_rulesetLoop remains (le_min le le)).onTray

/-! ### Files -/

theorem spends_ruleset? (remains : r.Remains ts n) (le : b ≤ fuel) :
    Spends (Refusal.Documented ts) ts b n (ruleset? fuel) r
      fun found s => found.isSome → ∃ m < n, s.Remains ts m := by
  intro k
  refine (spends_ruleset remains le k).attempt.bind fun out s holds => ?_
  rcases out with ⟨e, l⟩ | ⟨x, l⟩
  · obtain allowed | ⟨short, m, took, left⟩ := holds
    · cases e with
      | noRules => exact .done nofun
      | _ => exact .fails rfl allowed
    · obtain rfl : e = .overrun := short
      exact .stops rfl rfl left took
  · exact .done fun _ => holds

/-- Rulesets are read within as many steps as tokens remain. -/
theorem spends_rulesetsLoop (before : List Ruleset) (remains : r.Remains ts n)
    (le : b ≤ min fuel m) :
    Spends (Refusal.Documented ts) ts b n (rulesetsLoop fuel m before) r fun _ _ => True := by
  induction m generalizing b n r before with
  | zero => exact .spent remains (by omega)
  | succ m ih =>
    refine (spends_ruleset? remains (by omega)).bind fun found s rest => ?_
    cases found with
    | none =>
      dsimp only
      split
      · exact .lift (.fails rfl (.inl rfl))
      · exact .done trivial
    | some x =>
      obtain ⟨l, lt, rest⟩ := rest rfl
      refine ((Spends.lift (spends_pop rest)).documented.more (Nat.le_of_lt lt)).bind
        fun t s rest => ?_
      split
      · exact .done trivial
      · exact ((Spends.lift (spends_push rest)).documented.more (Nat.le_of_lt lt)).bind
          fun _ _ rest => (ih _ rest (by omega)).succ.more lt

theorem spends_file (filename : String) (remains : r.Remains ts n) (le : b ≤ fuel) :
    Spends (Refusal.Documented ts) ts b n (file fuel filename) r fun _ _ => True :=
  (spends_rulesetsLoop [] remains (le_min le le)).bind fun _ _ _ _ => .done trivial

end Read

end QualityRules
