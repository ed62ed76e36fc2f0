import QualityRules.Proofs.NoRules

/-!
# Proofs — Ledger — Ruleset

What rulesets and files are read from.  The comments before a ruleset wait outside of it, those
between its brackets inside; at the brackets nothing waits any more, so what the rules in
parentheses lose is all that is lost.

* `RulesetStep.account` and `RulesetEnd.account`: what a token adds to the account of a ruleset.
* `rulesetLoop_reads`, `ruleset_reads`: the account of a ruleset.
* `rulesetsLoop_reads`: the account of all rulesets up to the end of the text.
-/

namespace QualityRules.Read
open Node (bag bagOfDecls bagOfRulesets bagOfGroups)

/-- The comments before the brackets of a ruleset and behind the opening one, counted. -/
def headerBag : Option Header → Multiset Comment
  | none => 0
  | some h => CommentGroup.bag h.description + h.comments

/-- The comments in the draft of a ruleset, counted. -/
def RulesetDraft.bag (d : RulesetDraft) : Multiset Comment :=
  headerBag d.header + bagOfDecls d.rules + d.inner.bag

/-- A parenthesis behind such a kind opens a rule that nothing joins. -/
def Fresh (K : Option Kind) : Prop := compares K = false ∧ joins K = false

/-- What `Fresh` says, where more than the bracket that closes a ruleset is to come. -/
def Stands (K : Option Kind) (r : Row) : Prop :=
  Fresh K ∨ ∃ t m, r = Row.cons t m ∧ t.kind = .rightBracket

/-- The account of what is read from the tokens `us`: `b` counts the comments before, `b'` those
afterwards, and `ms` are the rules in parentheses. -/
structure Account (K : Option Kind) (b b' : Multiset Comment) (us : List Token) (s : Row)
    (ms : List Enclosed) : Prop where
  kept : b' + (ms.flatMap Enclosed.lost : List Comment) = b + commentsOf us
  enclosed : ∀ vs s', s = Row.behind vs s' →
    enclosed K (us ++ vs) = ms ++ enclosed (lastKind K us) vs
  apart : (ms.flatMap Enclosed.inside).Sublist us

variable {fuel n : Nat} {t : Token} {r m s : Row} {k l : Tray} {d : RulesetDraft} {x : Ruleset}
  {K : Option Kind} {us vs : List Token} {b b' c : Multiset Comment} {ms ns : List Enclosed}

/-- **Two accounts one behind the other are an account.** -/
theorem Account.trans (h : Account K b b' us m ms) (row : m = Row.behind vs s)
    (h' : Account (lastKind K us) b' c vs s ns) : Account K b c (us ++ vs) s (ms ++ ns) where
  kept := by
    rw [List.flatMap_append, commentsOf_append, ← Multiset.coe_add, ← Multiset.coe_add]
    calc _ = c + (ns.flatMap Enclosed.lost : List Comment)
          + (ms.flatMap Enclosed.lost : List Comment) := by abel
      _ = b' + (ms.flatMap Enclosed.lost : List Comment) + commentsOf vs := by
        rw [h'.kept]
        abel
      _ = _ := by
        rw [h.kept]
        abel
  enclosed := by
    intro ws s' rest
    rw [List.append_assoc, h.enclosed (vs ++ ws) s' (by rw [row, rest, Row.behind_append]),
      h'.enclosed ws s' rest, List.append_assoc, lastKind_append]
  apart := by
    rw [List.flatMap_append]
    exact h.apart.append h'.apart

/-- Where no parenthesis stands, comments go over from the tokens into the tree or onto the tray. -/
theorem Account.plain (h : ∀ u ∈ us, u.kind ≠ .leftParen) (K : Option Kind) (b : Multiset Comment)
    (s : Row) : Account K b (b + commentsOf us) us s [] where
  kept := by simp
  enclosed := fun vs _ _ => enclosed_append (dated_of_forall h) vs
  apart := List.nil_sublist us

/-- Comments afterwards may be counted in other words. -/
theorem Account.congr (h : Account K b b' us s ms) (eq : c = b') : Account K b c us s ms := eq ▸ h

/-- Comments before may be counted in other words. -/
theorem Account.congr_left (h : Account K b b' us s ms) (eq : c = b) : Account K c b' us s ms :=
  eq ▸ h

/-- Comments that stay where they are do not change an account. -/
theorem Account.frame (h : Account K b b' us s ms) (c : Multiset Comment) :
    Account K (b + c) (b' + c) us s ms where
  kept := by
    calc _ = b' + (ms.flatMap Enclosed.lost : List Comment) + c := by abel
      _ = _ := by
        rw [h.kept]
        abel
  enclosed := h.enclosed
  apart := h.apart

/-- Where no bracket comes next the kind behind which one stands is fresh. -/
theorem Stands.fresh (h : Stands K (Row.cons t m)) (other : t.kind ≠ .rightBracket) : Fresh K := by
  rcases h with fresh | ⟨_, _, row, isBracket⟩
  · exact fresh
  · obtain ⟨rfl, -⟩ := Row.cons_inj.mp row
    exact absurd isBracket other

/-- Behind a declaration nothing joins, or the bracket comes that closes the ruleset. -/
theorem DeclEnd.stands {inRuleset : Bool} {ts stop : List Token} (h : DeclEnd inRuleset stop s)
    (eq : solid us = ts ++ stop) (K : Option Kind) :
    Stands (lastKind K us) s := by
  rw [← lastKind_solid, eq, lastKind_append]
  cases h with
  | text kind =>
    rw [lastKind_cons, kindBehind_of_kind (by simp [kind]), kind]
    exact .inl ⟨rfl, rfl⟩
  | comma kind _ =>
    rw [lastKind_cons, kindBehind_of_kind (by simp [kind]), kind]
    exact .inl ⟨rfl, rfl⟩
  | bracket kind _ => exact .inr ⟨_, _, rfl, kind⟩

/-- A comment that is taken is one more. -/
theorem Account.comment (kind : t.kind = .comment) (K : Option Kind) (b : Multiset Comment)
    (s : Row) : Account K b (b + {Comment.ofToken t}) [t] s [] :=
  have other : ∀ u ∈ [t], u.kind ≠ .leftParen := by simp [kind]
  (Account.plain other K b s).congr (by rw [commentsOf_cons_comment kind]; simp)

/-- The brackets of a ruleset open behind its name and an equals sign. -/
theorem takeHeader_reads {h : Header} (word : t.kind = .kwRules)
    (g : (takeHeader fuel t).Gives k r h l s) (K : Option Kind) :
    ∃ us, r = Row.behind us s ∧ l.run = [] ∧ lastKind K (t :: us) = some .leftBracket ∧
      Account K k.bag (CommentGroup.bag h.description + h.comments + l.bag) (t :: us) s [] := by
  obtain ⟨equal, m, bracket, cs, rfl, isEqual, trail, opens, rfl, rfl⟩ := takeHeader_gives.mp g
  obtain ⟨m, rfl, ⟨isEnd, -⟩ | ⟨-, trail⟩⟩ := popTrailing_gives.mp trail
  · exact nomatch opens.symm.trans isEnd
  obtain ⟨us, rfl, block, rfl, -⟩ := trailing_gives trail
  have comments := block.kind_eq
  have solid_t : t.kind ≠ .comment := by simp [word]
  have solid_equal : equal.kind ≠ .comment := by simp [isEqual]
  have solid_bracket : bracket.kind ≠ .comment := by simp [opens]
  refine ⟨equal :: bracket :: us, rfl, Tray.run_takeDescription k _, ?_, ?_⟩
  · rw [lastKind_cons, lastKind_cons, lastKind_cons, lastKind_comments _ comments,
      kindBehind_of_kind solid_bracket, opens]
  · refine (Account.plain ?_ K k.bag s).congr ?_
    · simp only [List.mem_cons, forall_eq_or_imp, word, isEqual, opens]
      refine ⟨nofun, nofun, nofun, fun u mem => ?_⟩
      rw [comments u mem]
      nofun
    · rw [commentsOf_cons solid_t, commentsOf_cons solid_equal, commentsOf_cons solid_bracket,
        commentsOf_eq_map comments, ← k.bag_takeDescription t.start]
      abel

/-- A step adds to the account.  Once the ruleset is opened nothing waits outside of it, and what
comes next stands by itself. -/
theorem RulesetStep.account {d' : RulesetDraft} {k' : Tray} (step : RulesetStep fuel d k r d' k' m)
    (final : r.Final) (inside : d.header.isSome → k.run = [] ∧ Stands K r) :
    ∃ us ms, r = Row.behind us m ∧ Account K (d.bag + k.bag) (d'.bag + k'.bag) us m ms ∧
      (d'.header.isSome → k'.run = [] ∧ Stands (lastKind K us) m) := by
  cases step with
  | @before t m kind outside =>
    refine ⟨[t], [], rfl, (Account.comment kind K (d.bag + k.bag) m).congr ?_, by simp [outside]⟩
    rw [Tray.bag_add, add_assoc]
  | @header t m₁ h l m kind outside read =>
    obtain ⟨us, row, run, last, first⟩ := takeHeader_reads kind read K
    -- behind the opening bracket a parenthesis opens a rule
    have fresh : Fresh (lastKind K (t :: us)) := by
      rw [last]
      exact ⟨rfl, rfl⟩
    refine ⟨t :: us, [], by rw [row]; rfl, ?_, fun _ => ⟨run, .inl fresh⟩⟩
    refine ((first.frame (bagOfDecls d.rules + d.inner.bag)).congr_left ?_).congr ?_
    · simp only [RulesetDraft.bag, headerBag, outside]
      abel
    · simp only [RulesetDraft.bag, headerBag]
      abel
  | @comment t m h kind inside' =>
    obtain ⟨run, stands⟩ := inside (by rw [inside']; rfl)
    have fresh := stands.fresh (by simp [kind])
    refine ⟨[t], [], rfl, (Account.comment kind K (d.bag + k.bag) m).congr ?_, fun _ => ⟨run, ?_⟩⟩
    · simp only [RulesetDraft.bag, Tray.bag_add]
      abel
    · rw [lastKind_cons, kindBehind, if_pos kind]
      exact .inl fresh
  | @rule t m₁ h decl inner m other inside' read =>
    obtain ⟨run, stands⟩ := inside (by rw [inside']; rfl)
    have fresh := stands.fresh other.2.1
    obtain ⟨us, ms, row, decl_account⟩ := rule_reads read final fresh.1 fresh.2
    have first : Account K d.inner.bag (bag (.rule decl) + inner.bag) us m ms :=
      ⟨decl_account.kept, decl_account.enclosed, decl_account.apart⟩
    obtain ⟨ts, stop, solid_us, ends, -⟩ := decl_account.shape
    refine ⟨us, ms, row, ?_, fun _ => ⟨run, ends.stands solid_us K⟩⟩
    have first := first.frame (headerBag d.header + bagOfDecls d.rules + k.bag)
    refine (first.congr_left ?_).congr ?_
    · simp only [RulesetDraft.bag]
      abel
    · simp only [RulesetDraft.bag, Node.bagOfDecls_append, Node.bagOfDecls_singleton]
      abel

/-- At its closing bracket an opened ruleset takes over all that waits inside. -/
theorem RulesetEnd.account (stop : RulesetEnd fuel d r x s) (K : Option Kind) (k : Tray) :
    d.header.isSome ∧ ∃ us, r = Row.behind us s ∧ lastKind K us = some .rightBracket ∧
      Account K (d.bag + k.bag) (bag (.ruleset x) + k.bag) us s [] := by
  cases stop with
  | @bracket t m h cs s kind inside trail =>
    obtain ⟨us, rfl, block, rfl, -⟩ := trailing_gives trail
    have solid_t : t.kind ≠ .comment := by simp [kind]
    have comments := block.kind_eq
    refine ⟨by rw [inside]; rfl, t :: us, rfl, ?_, (Account.plain ?_ K (d.bag + k.bag) s).congr ?_⟩
    · rw [lastKind_cons, lastKind_comments _ comments, kindBehind_of_kind solid_t, kind]
    · simp only [List.mem_cons, forall_eq_or_imp, kind]
      refine ⟨by simp, fun u mem => ?_⟩
      rw [comments u mem]
      simp
    · have inner : bagOfGroups d.inner.spill.floating = d.inner.bag := by
        rw [← d.inner.bag_spill, Tray.bag_eq, Tray.run_spill, Multiset.coe_nil, add_zero]
      rw [Node.bag_ruleset, commentsOf_cons solid_t, commentsOf_eq_map comments]
      simp only [inner, CommentGroup.bag_ofList?, RulesetDraft.bag, headerBag, inside]
      abel

/-- The account of a ruleset, from any draft of it. -/
theorem rulesetLoop_reads (g : (rulesetLoop fuel n d).Gives k r x l s) (final : r.Final)
    (inside : d.header.isSome → k.run = [] ∧ Stands K r) :
    ∃ us ms, r = Row.behind us s ∧ l.run = [] ∧ lastKind K us = some .rightBracket ∧
      Account K (d.bag + k.bag) (bag (.ruleset x) + l.bag) us s ms := by
  -- on the fuel; what a step says of the next token carries the next step
  induction n generalizing d k r K with
  | zero => exact absurd (ParseRules.gives_lift.mp g).2 not_gives_fail
  | succ n ih =>
    obtain ⟨d', k', m, step, rest⟩ | ⟨stop, rfl⟩ := rulesetLoop_gives.mp g
    · obtain ⟨us₁, ms₁, row₁, first, inside₁⟩ := step.account final inside
      obtain ⟨us, ms, row, run, last, account⟩ := ih rest (final.rest row₁) inside₁
      refine ⟨us₁ ++ us, ms₁ ++ ms, ?_, run, ?_, first.trans row account⟩
      · rw [row₁, row, Row.behind_append]
      · rwa [lastKind_append]
    · obtain ⟨opened, us, row, last, account⟩ := stop.account K l
      exact ⟨us, [], row, (inside opened).1, last, account⟩

/-- The account of a ruleset.  What waited before it waits on. -/
theorem ruleset_reads (g : (ruleset fuel).Gives k r x l s) (final : r.Final) (K : Option Kind) :
    ∃ us ms, r = Row.behind us s ∧ l.run = k.run ∧ lastKind K us = some .rightBracket ∧
      Account K k.bag (bag (.ruleset x) + l.bag) us s ms := by
  obtain ⟨m, loop, rfl⟩ := ruleset_gives.mp g
  obtain ⟨us, ms, row, run, last, account⟩ := rulesetLoop_reads (K := K) loop final nofun
  refine ⟨us, ms, row, rfl, last, ((account.frame k.run).congr_left ?_).congr ?_⟩
  · simp only [RulesetDraft.bag, RulesetDraft.empty, headerBag, Node.bagOfDecls_nil, Tray.bag_eq,
      Tray.empty, bagOfGroups, List.flatMap_nil, Multiset.coe_nil]
    abel
  · simp only [Tray.bag_eq, run, Multiset.coe_nil]
    abel

/-! ### Files -/

variable {before all : List Ruleset} {ts : List Token} {left : Nat}

/-- The account where no ruleset is left: comments that float, and the end of the text. -/
theorem ruleset_fails_reads (remains : r.Remains ts left)
    (none : (ruleset fuel k).Fails r (.noRules, l) s) (going : K ≠ some .eof) :
    ∃ us last, r = Row.behind (us ++ [last]) s ∧ last.kind = .eof ∧ lastKind K us ≠ some .eof ∧
      l.run = k.run ∧ Account K k.bag l.bag (us ++ [last]) s [] := by
  obtain ⟨us, t, ⟨rfl, comments, isEnd⟩, rfl⟩ := ruleset_fails remains none
  have solid_t : t.kind ≠ .comment := by simp [isEnd]
  refine ⟨us, t, by rw [Row.behind_append]; rfl, isEnd, ?_, rfl, ?_⟩
  · rwa [lastKind_comments K comments]
  · refine (Account.plain ?_ K k.bag s).congr ?_
    · simp only [List.mem_append, List.mem_singleton]
      rintro u (mem | rfl)
      · simp [comments u mem]
      · simp [isEnd]
    · have floats := Tray.bag_foldl_add ⟨k.floating, []⟩ (us.map Comment.ofToken)
      rw [← Tray.bag_spill, Tray.bag_eq, Tray.run_spill, Tray.bag_eq ⟨k.floating, []⟩] at floats
      simp only [Multiset.coe_nil, add_zero] at floats
      rw [commentsOf_append, commentsOf_cons solid_t, commentsOf_nil, List.append_nil,
        commentsOf_eq_map comments, Tray.bag_eq, Tray.bag_eq k, floats]
      abel

/-- The account of the rulesets of a file, up to the end of the text. -/
theorem rulesetsLoop_reads (g : (rulesetsLoop fuel n before).Gives k r all l s)
    (remains : r.Remains ts left) (going : K ≠ some .eof) :
    ∃ us last ms, r = Row.behind (us ++ [last]) s ∧ last.kind = .eof ∧ lastKind K us ≠ some .eof ∧
      l.run = k.run ∧
      Account K (bagOfRulesets before + k.bag) (bagOfRulesets all + l.bag) (us ++ [last]) s ms := by
  -- each ruleset has an account of its own, and what was read before is carried along
  induction n generalizing before k r K left with
  | zero => exact absurd (ParseRules.gives_lift.mp g).2 not_gives_fail
  | succ n ih =>
    obtain ⟨x, k', t, m, read, rest⟩ | ⟨-, rfl, none⟩ := rulesetsLoop_gives.mp g
    · obtain ⟨us, ms, row, run, last, account⟩ := ruleset_reads read remains.final K
      have first := account.frame (bagOfRulesets before)
      rcases rest with ⟨isEnd, rfl, rfl, rfl⟩ | ⟨-, rest⟩
      · have solid_t : t.kind ≠ .comment := by simp [isEnd]
        have other : ∀ u ∈ [t], u.kind ≠ .leftParen := by simp [isEnd]
        have ending := Account.plain other (lastKind K us)
          (bag (.ruleset x) + l.bag + bagOfRulesets before) s
        refine ⟨us, t, ms ++ [], by rw [row, Row.behind_append]; rfl, isEnd, by simp [last], run,
          ((first.trans rfl ending).congr_left ?_).congr ?_⟩
        · abel
        · rw [Node.bagOfRulesets_append, Node.bagOfRulesets_singleton, commentsOf_cons solid_t]
          simp only [commentsOf_nil, Multiset.coe_nil]
          abel
      · obtain ⟨fewer, -, remains⟩ := (spends_ruleset remains (le_refl fuel)).holds read
        obtain ⟨us', t', ms', row', isEnd, going', run', account'⟩ :=
          ih (K := lastKind K us) rest remains (by rw [last]; nofun)
        refine ⟨us ++ us', t', ms ++ ms', ?_, isEnd, ?_, run'.trans run, ?_⟩
        · rw [row, row', List.append_assoc, Row.behind_append us]
        · rwa [lastKind_append]
        · rw [List.append_assoc]
          refine (first.trans row' (account'.congr_left ?_)).congr_left ?_
          · rw [Node.bagOfRulesets_append, Node.bagOfRulesets_singleton]
            abel
          · abel
    · obtain ⟨us, last, row, isEnd, going', run, account⟩ :=
        ruleset_fails_reads remains none going
      refine ⟨us, last, [], row, isEnd, going', run, ?_⟩
      have framed := account.frame (bagOfRulesets all)
      exact (framed.congr_left (add_comm _ _)).congr (add_comm _ _)

end QualityRules.Read
