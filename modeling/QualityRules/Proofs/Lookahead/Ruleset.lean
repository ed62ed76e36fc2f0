import QualityRules.Proofs.Lookahead.Rule
import QualityRules.Proofs.Runs.Ruleset

/-!
# Proofs — Lookahead — Ruleset

A ruleset ends with its closing bracket and the comments that trail it.  What is behind them was
only looked at, so that anything may stand there that does not trail the bracket as well.

* `RulesetStep.turn`: what comes behind the next token of a ruleset makes no difference.
* `Stops`: what may stand behind the tokens of a ruleset.
* `ruleset_turn`: with any of that behind them, the tokens come to the same ruleset.
-/

namespace QualityRules.Read
open Reading (Peeks Refuses Look peeks_pure)
open ParseRules (PeeksAs)

variable {fuel n : Nat} {t : Token} {anchor : Pos} {taken cs : List Comment} {r s m : Row}
  {k k' l : Tray} {d d' : RulesetDraft} {x : Ruleset}

/-! ### Steps -/

/-- Where nothing may stand for the end of the text, the end of the text may be taken. -/
theorem peeks_popTrailing : Peeks (.brackets False) (popTrailing fuel) := by
  refine peeks_look fun t => ?_
  by_cases isEnd : t.kind = .eof
  · refine .leaves (peeks_pure (t, [])) (.inr ⟨isEnd, by simp only [isEnd, if_true]⟩) ?_
    intro t' turns
    cases turns with
    | same going => exact absurd isEnd going
    | stands h => exact h.1.elim
  · refine .takes isEnd ?_
    simp only [isEnd, if_false]
    exact peeks_trailing.bind fun cs => peeks_pure (t, cs)

theorem peeks_takeHeader : PeeksAs (.brackets False) (takeHeader fuel t) (takeHeader fuel t) := by
  refine PeeksAs.pop_bind fun k equal => ?_
  by_cases isEqual : equal.kind = .equal
  · refine .takes (by simp [isEqual]) ?_
    simp only [isEqual, ne_eq, not_true_eq_false, if_false]
    refine ((PeeksAs.lift peeks_popTrailing).bind fun (bracket, comments) => ?_) k
    dsimp only
    split
    · exact (ParseRules.Refuses.refuse _ _).peeksAs
    · exact (PeeksAs.modifyGet _).bind fun _ => .done _
  · refine .refuses ?_
    simp only [isEqual, ne_eq, not_false_eq_true, if_true]
    exact ParseRules.Refuses.refuse _ _ k

/-- A turn of the loop of a ruleset leads on. -/
theorem RulesetStep.suffix (step : RulesetStep fuel d k r d' k' s) :
    ∃ us, r = Row.behind us s := by
  cases step with
  | @before t _ | @comment t _ => exact ⟨[t], rfl⟩
  | @header t m h _ _ _ _ read =>
    obtain ⟨us, rfl⟩ := (peeks_takeHeader k).suffix read
    exact ⟨t :: us, rfl⟩
  | rule _ _ read => exact (peeks_rule id False.elim d.inner).suffix read

/-- A step depends on what it takes and on the token behind that. -/
theorem RulesetStep.turn (step : RulesetStep fuel d k r d' k' (Row.cons t m)) (final : r.Final)
    (going : t.kind ≠ .eof) :
    ∃ us, (∀ u ∈ us, u.kind ≠ .eof) ∧ r = Row.behind us (Row.cons t m) ∧
      ∀ m', RulesetStep fuel d k (Row.behind us (Row.cons t m')) d' k' (Row.cons t m') := by
  generalize row : Row.cons t m = q at step
  cases step with
  | @before u _ kind outside =>
    exact ⟨[u], by simp [kind], by rw [← row]; rfl, fun m' => .before kind outside⟩
  | @comment u _ h kind inside =>
    exact ⟨[u], by simp [kind], by rw [← row]; rfl, fun m' => .comment kind inside⟩
  | @header u m₁ h l s kind outside read =>
    subst row
    obtain ⟨us, going', rfl, read'⟩ := (peeks_takeHeader k).turn final.tail read (.same going)
    exact ⟨u :: us, List.forall_mem_cons.mpr ⟨by simp [kind], going'⟩, rfl,
      fun m' => .header kind outside (read' m')⟩
  | @rule u m₁ h decl inner s other inside read =>
    subst row
    obtain ⟨us, going', eq, read'⟩ :=
      (peeks_rule id False.elim d.inner).turn final read (.same going)
    refine ⟨us, going', eq, fun m' => ?_⟩
    have again := read' m'
    cases us with
    | nil =>
      obtain ⟨rfl, -⟩ := Row.cons_inj.mp eq
      exact .rule other inside again
    | cons v vs =>
      obtain ⟨rfl, -⟩ := Row.cons_inj.mp eq
      exact .rule other inside again

/-! ### Rulesets -/

/-- Behind the tokens `us` the row `s'` may come in the place of `s`: both have the same head, or it
starts further down than on the line below any of these tokens. -/
inductive Stops (us : List Token) (s : Row) : Row → Prop
  | same {u m} (row : s = Row.cons u m) (m' : Row) : Stops us s (Row.cons u m')
  | apart {u'} (below : ∀ u ∈ us, u.start.line + 1 < u'.start.line) (m' : Row) :
      Stops us s (Row.cons u' m')

/-- What stops behind some tokens stops behind fewer. -/
theorem Stops.sublist {us vs : List Token} {s' : Row} (h : Stops vs s s') (sub : us ⊆ vs) :
    Stops us s s' := by
  cases h with
  | same row => exact .same row _
  | apart below => exact .apart (fun u mem => below u (sub mem)) _

/-- No comment that is further down goes on with a block. -/
theorem Stops.ends {us : List Token} {s' : Row} (h : Stops (t :: us) s s')
    (ends : Ends t.start (us.map Comment.ofToken) s) :
    Ends t.start (us.map Comment.ofToken) s' := by
  cases h with
  | same row m' =>
    obtain ⟨u, m, row', stops⟩ := ends
    obtain ⟨rfl, -⟩ := Row.cons_inj.mp (row.symm.trans row')
    exact ⟨_, m', rfl, stops⟩
  | @apart u below m' =>
    refine ⟨u, m', rfl, ?_⟩
    obtain ⟨first, others⟩ := List.forall_mem_cons.mp below
    have line : u.start.line ≠ t.start.line := by omega
    have next : ∀ last ∈ (us.map Comment.ofToken).getLast?, last.pos.line + 1 ≠ u.start.line := by
      intro last mem
      obtain ⟨v, inside, rfl⟩ := List.mem_map.mp (List.mem_of_getLast? mem)
      exact Int.ne_of_lt (others v inside)
    unfold extendsBlock
    cases eq : (us.map Comment.ofToken).getLast? with
    | none => simp [line]
    | some last => simp [line, next last eq]

/-- The tokens that a ruleset takes, the closing bracket among them, come to the same ruleset
whatever may stand behind them. -/
theorem rulesetLoop_turn (g : (rulesetLoop fuel n d).Gives k r x l s) (final : r.Final) :
    ∃ us, us ≠ [] ∧ (∀ u ∈ us, u.kind ≠ .eof) ∧ r = Row.behind us s ∧
      ∀ s', Stops us s s' → (rulesetLoop fuel n d).Gives k (Row.behind us s') x l s' := by
  induction n generalizing d k r with
  | zero => exact absurd g Reading.not_gives_fail
  | succ n ih =>
    rcases rulesetLoop_gives.mp g with ⟨d', k', m, step, rest⟩ | ⟨stop, rfl⟩
    · obtain ⟨vs, row⟩ := step.suffix
      obtain ⟨us, some, going, rfl, rest'⟩ := ih rest (final.rest row)
      cases us with
      | nil => exact absurd rfl some
      | cons u us =>
        obtain ⟨ws, going', rfl, step'⟩ := step.turn final (going u List.mem_cons_self)
        refine ⟨ws ++ u :: us, by simp, List.forall_mem_append.mpr ⟨going', going⟩, ?_, ?_⟩
        · rw [Row.behind_append]
          rfl
        · intro s' stops
          rw [Row.behind_append]
          exact rulesetLoop_gives.mpr (.inl ⟨d', k', _, step' _,
            rest' s' (stops.sublist (List.subset_append_right _ _))⟩)
    · cases stop with
      | @bracket t m h cs s kind inside trail =>
        obtain ⟨us, rfl, block, rfl, ends, steps⟩ := trailing_gives_iff.mp trail
        refine ⟨t :: us, by simp, List.forall_mem_cons.mpr ⟨by simp [kind], ?_⟩, rfl, ?_⟩
        · exact fun u mem => by simp [block.kind_eq u mem]
        · intro s' stops
          refine rulesetLoop_gives.mpr (.inr ⟨.bracket kind inside ?_, rfl⟩)
          exact trailing_gives_iff.mpr ⟨us, rfl, block, rfl, stops.ends ends, steps⟩

/-- **What a ruleset comes to depends on its tokens**, and on what is behind them as far as it does
not trail its closing bracket. -/
theorem ruleset_turn (g : (ruleset fuel).Gives k r x l s) (final : r.Final) :
    ∃ us, us ≠ [] ∧ (∀ u ∈ us, u.kind ≠ .eof) ∧ r = Row.behind us s ∧
      ∀ s', Stops us s s' → (ruleset fuel).Gives k (Row.behind us s') x l s' := by
  obtain ⟨m, loop, rfl⟩ := ruleset_gives.mp g
  obtain ⟨us, some, going, row, loop'⟩ := rulesetLoop_turn loop final
  exact ⟨us, some, going, row, fun s' stops => ruleset_gives.mpr ⟨m, loop' s' stops, rfl⟩⟩

end QualityRules.Read
