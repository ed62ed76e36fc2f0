import QualityRules.Proofs.Follows.Ruleset
import QualityRules.Proofs.Lookahead.Ruleset
import QualityRules.Proofs.NoRules

/-!
# Proofs — Seam

The rulesets of a text may be followed by more of them.  The comments behind the last one wait then
until the other rulesets come; when these start further down, they float as they would at the end.

* `Tray.under`: what already floats makes no difference to the comments that come.
* `Tray.add_spill` and `Tray.takeDescription_spill`: a run that ends further up floats anyway.
* `ruleset_under` and `rulesetsLoop_under` say the first, `ruleset_of_comments` says the second of
  rulesets.
* `rulesetsLoop_resumes`: the rulesets of a text, with others behind them.
* `rulesetsLoop_behind`: rulesets with others, and comments, before them.
-/

namespace QualityRules

namespace Tray

variable {k : Tray} {gs : List CommentGroup} {c : Comment} {cs : List Comment} {pos : Pos}

/-- The tray when the groups `gs` float before all others. -/
def under (gs : List CommentGroup) (k : Tray) : Tray := ⟨gs ++ k.floating, k.run⟩

theorem spill_under : (k.under gs).spill = k.spill.under gs := by simp [under, spill]

theorem add_under : (k.under gs).add c = (k.add c).under gs := by
  simp only [add, spill_under]
  split <;> simp_all [under]

theorem foldl_add_under : cs.foldl add (k.under gs) = (cs.foldl add k).under gs := by
  induction cs generalizing k with
  | nil => rfl
  | cons c cs ih => rw [List.foldl_cons, add_under, ih, List.foldl_cons]

theorem takeDescription_under : (k.under gs).takeDescription pos
    = ((k.takeDescription pos).1, (k.takeDescription pos).2.under gs) := by
  simp only [takeDescription, spill_under]
  split <;> simp_all [under]

theorem spill_of_empty (h : k.run = []) : k.spill = k := by
  obtain ⟨floating, run⟩ := k
  obtain rfl : run = [] := h
  simp [spill, CommentGroup.ofList?]

/-- A run that does not go on floats before the next one starts. -/
theorem add_spill (apart : endsAbove k.run c.pos.line = false) : k.spill.add c = k.add c := by
  cases e : k.run with
  | nil => rw [spill_of_empty e]
  | cons d ds =>
    rw [e] at apart
    simp [add, e, apart, spill]

/-- A run that describes nothing floats. -/
theorem takeDescription_spill (apart : endsAbove k.run pos.line = false) :
    k.spill.takeDescription pos = k.takeDescription pos := by
  have again : k.spill.spill = k.spill := spill_of_empty rfl
  rw [takeDescription, takeDescription, apart, run_spill, again]
  rfl

theorem mem_run_foldl_add (h : c ∈ (cs.foldl add k).run) : c ∈ k.run ∨ c ∈ cs := by
  induction cs generalizing k with
  | nil => exact .inl h
  | cons d ds ih =>
    rcases ih h with waits | mem
    · rw [add] at waits
      split at waits
      · rcases List.mem_append.mp waits with mem | mem
        · exact .inl mem
        · exact .inr (List.mem_cons.mpr (.inl (List.mem_singleton.mp mem)))
      · exact .inr (List.mem_cons.mpr (.inl (List.mem_singleton.mp waits)))
    · exact .inr (List.mem_cons_of_mem _ mem)

/-- Comments that are further up do not end on the line above. -/
theorem not_endsAbove {line : Int} (above : ∀ c ∈ cs, c.pos.line + 1 < line) :
    endsAbove cs line = false := by
  unfold endsAbove
  cases e : cs.getLast? with
  | none => rfl
  | some last => simpa using Int.ne_of_lt (above last (List.mem_of_getLast? e))

/-- What floats when the comments `us` waited behind the groups `gs`. -/
def floatingOf (gs : List CommentGroup) (us : List Token) : List CommentGroup :=
  ((us.map Comment.ofToken).foldl add ⟨gs, []⟩).spill.floating

@[simp] theorem floatingOf_nil : floatingOf gs [] = gs := by
  simp [floatingOf, spill, CommentGroup.ofList?]

theorem floatingOf_under {us : List Token} (gs : List CommentGroup) (k : Tray) :
    floatingOf (k.under gs).floating us = gs ++ floatingOf k.floating us := by
  have split : (⟨(k.under gs).floating, []⟩ : Tray) = under gs ⟨k.floating, []⟩ := rfl
  rw [floatingOf, split, foldl_add_under, spill_under]
  rfl

end Tray

/-- There is no token to take behind a fault, and nowhere else. -/
theorem Row.Remains.regular {ts : List Token} {n : Nat} {r : Row} (h : r.Remains ts n) :
    r.Regular := by
  induction h with
  | ending => exact regular_ending _
  | cons _ _ _ ih => exact ih.cons

namespace Read

variable {ts us cs : List Token} {t : Token} {fuel fuel' n m : Nat} {r s q : Row} {k k' l : Tray}
  {d d' : RulesetDraft} {x : Ruleset} {before first all : List Ruleset}

/-! ### What floats already -/

theorem RulesetStep.under (step : RulesetStep fuel d k r d' k' s) (gs : List CommentGroup) :
    RulesetStep fuel d (k.under gs) r d' (k'.under gs) s := by
  cases step with
  | before kind outside =>
    rw [← Tray.add_under]
    exact .before kind outside
  | header kind outside read =>
    obtain ⟨equal, m, bracket, cs, rfl, isEqual, next, opens, rfl, rfl⟩ := takeHeader_gives.mp read
    refine .header kind outside (takeHeader_gives.mpr
      ⟨equal, m, bracket, cs, rfl, isEqual, next, opens, ?_, ?_⟩)
    · rw [Tray.takeDescription_under]
    · rw [Tray.takeDescription_under]
  | comment kind inside => exact .comment kind inside
  | rule other inside read => exact .rule other inside read

theorem rulesetLoop_under (g : (rulesetLoop fuel n d).Gives k r x l s) (gs : List CommentGroup) :
    (rulesetLoop fuel n d).Gives (k.under gs) r x (l.under gs) s := by
  induction n generalizing d k r with
  | zero => exact absurd g Reading.not_gives_fail
  | succ n ih =>
    rcases rulesetLoop_gives.mp g with ⟨d', k', m, step, rest⟩ | ⟨stop, rfl⟩
    · exact rulesetLoop_gives.mpr (.inl ⟨d', k'.under gs, m, step.under gs, ih rest⟩)
    · exact rulesetLoop_gives.mpr (.inr ⟨stop, rfl⟩)

theorem ruleset_under (g : (ruleset fuel).Gives k r x l s) (gs : List CommentGroup) :
    (ruleset fuel).Gives (k.under gs) r x (l.under gs) s := by
  obtain ⟨m, loop, rfl⟩ := ruleset_gives.mp g
  exact ruleset_gives.mpr ⟨m.under gs, rulesetLoop_under loop gs, rfl⟩

/-- Rulesets behind others, with groups that float before theirs. -/
theorem rulesetsLoop_under (remains : r.Remains ts m) (enough : m < fuel) (some : first ≠ [])
    (g : (rulesetsLoop fuel n first).Gives k r all l s) (before : List Ruleset)
    (gs : List CommentGroup) :
    (rulesetsLoop fuel n (before ++ first)).Gives (k.under gs) r (before ++ all) (l.under gs)
      s := by
  induction n generalizing k r m first with
  | zero => exact absurd g Reading.not_gives_fail
  | succ n ih =>
    obtain ⟨x, k', t, q, read, ⟨isEnd, rfl, rfl, rfl⟩ | ⟨going, rest⟩⟩ | ⟨-, rfl, wanting⟩ :=
      rulesetsLoop_gives.mp g
    · refine rulesetsLoop_gives.mpr (.inl ⟨x, _, t, _, ruleset_under read gs, .inl ⟨isEnd, ?_⟩⟩)
      exact ⟨(List.append_assoc _ _ _).symm, rfl, rfl⟩
    · obtain ⟨j, lt, left⟩ := (spends_ruleset remains (le_refl fuel)).holds read
      have rest' := ih left (lt.trans enough) (by simp) rest
      rw [← List.append_assoc] at rest'
      exact rulesetsLoop_gives.mpr
        (.inl ⟨x, _, t, _, ruleset_under read gs, .inr ⟨going, rest'⟩⟩)
    · obtain ⟨us, t, commented, rfl⟩ := ruleset_fails remains wanting
      have few := length_le_of_commented commented remains
      have wanting' : (ruleset fuel (k.under gs)).Fails r (.noRules, _) s :=
        ruleset_fails_of_commented commented (few.trans_lt enough) (k.under gs)
      refine rulesetsLoop_gives.mpr (.inr ⟨by simp [some], rfl, ?_⟩)
      change (ruleset fuel (k.under gs)).Fails r
        (.noRules, ⟨gs ++ Tray.floatingOf k.floating us, k.run⟩) s
      rwa [← Tray.floatingOf_under]

/-! ### What waits already -/

/-- Comments before a ruleset that end further up float anyway. -/
theorem rulesetLoop_of_spill (outside : d.header = none)
    (apart : Tray.endsAbove k.run t.start.line = false)
    (g : (rulesetLoop fuel n d).Gives k.spill (Row.cons t q) x l s) :
    (rulesetLoop fuel n d).Gives k (Row.cons t q) x l s := by
  cases n with
  | zero => exact absurd g Reading.not_gives_fail
  | succ n =>
    generalize row : Row.cons t q = r at g
    rcases rulesetLoop_gives.mp g with ⟨d', k', m, step, rest⟩ | ⟨stop, -⟩
    · refine rulesetLoop_gives.mpr (.inl ⟨d', k', m, ?_, rest⟩)
      cases step with
      | before kind _ =>
        obtain ⟨rfl, rfl⟩ := Row.cons_inj.mp row
        rw [Tray.add_spill apart]
        exact .before kind outside
      | header kind _ read =>
        obtain ⟨rfl, rfl⟩ := Row.cons_inj.mp row
        obtain ⟨equal, m, bracket, cs, rfl, isEqual, next, opens, rfl, rfl⟩ :=
          takeHeader_gives.mp read
        refine .header kind outside (takeHeader_gives.mpr
          ⟨equal, m, bracket, cs, rfl, isEqual, next, opens, ?_, ?_⟩)
        · rw [Tray.takeDescription_spill apart]
        · rw [Tray.takeDescription_spill apart]
      | comment _ inside | rule _ inside _ => exact nomatch outside.symm.trans inside
    · cases stop with
      | bracket _ inside _ => exact nomatch outside.symm.trans inside

/-- Comments before a ruleset wait on the tray. -/
theorem rulesetLoop_of_comments (outside : d.header = none) (comments : ∀ u ∈ cs, u.kind = .comment)
    (g : (rulesetLoop fuel n d).Gives ((cs.map Comment.ofToken).foldl Tray.add k) r x l s) :
    (rulesetLoop fuel (n + cs.length) d).Gives k (Row.behind cs r) x l s := by
  induction cs generalizing k with
  | nil => exact g
  | cons c cs ih =>
    obtain ⟨kind, comments⟩ := List.forall_mem_cons.mp comments
    exact rulesetLoop_gives.mpr (.inl ⟨d, _, _, .before kind outside, ih comments g⟩)

/-- Comments that stand further up float before whatever floats with a ruleset. -/
theorem ruleset_of_comments (regular : (Row.cons t q).Regular)
    (comments : ∀ u ∈ cs, u.kind = .comment) (apart : ∀ u ∈ cs, u.start.line + 1 < t.start.line)
    (le : fuel + cs.length ≤ fuel') (g : (ruleset fuel).Gives ⟨[], []⟩ (Row.cons t q) x l s)
    (gs : List CommentGroup) :
    (ruleset fuel').Gives ⟨gs, []⟩ (Row.behind cs (Row.cons t q)) x
      (l.under (Tray.floatingOf gs cs)) s := by
  obtain ⟨m, loop, rfl⟩ := ruleset_gives.mp g
  refine ruleset_gives.mpr ⟨m.under (Tray.floatingOf gs cs), ?_, rfl⟩
  generalize waits : (cs.map Comment.ofToken).foldl Tray.add ⟨gs, []⟩ = w
  have above : ∀ c ∈ w.run, c.pos.line + 1 < t.start.line := by
    intro c mem
    rw [← waits] at mem
    rcases Tray.mem_run_foldl_add mem with none | mem
    · exact nomatch none
    · obtain ⟨u, inside, rfl⟩ := List.mem_map.mp mem
      exact apart u inside
  have floats : w.spill = Tray.under (Tray.floatingOf gs cs) ⟨[], []⟩ := by
    rw [Tray.floatingOf, waits]
    simp [Tray.under, Tray.spill]
  have under := rulesetLoop_under loop (Tray.floatingOf gs cs)
  rw [show (⟨(⟨[], []⟩ : Tray).floating, []⟩ : Tray) = ⟨[], []⟩ from rfl, ← floats] at under
  have seam := rulesetLoop_of_comments rfl comments
    (waits ▸ rulesetLoop_of_spill rfl (Tray.not_endsAbove above) under)
  -- nowhere further down, but with more fuel
  have more := follows_rulesetLoop (o := 0) (by omega : fuel ≤ fuel') le RulesetDraft.empty
  simpa using more.gives regular.behind seam

/-- Rulesets with others before them, and with comments that stand further up. -/
theorem rulesetsLoop_behind (remains : (Row.cons t q).Remains ts m) (enough : m < fuel)
    (comments : ∀ u ∈ cs, u.kind = .comment)
    (apart : ∀ u ∈ cs, u.start.line + 1 < t.start.line) (le : fuel + cs.length ≤ fuel')
    (g : (rulesetsLoop fuel n []).Gives ⟨[], []⟩ (Row.cons t q) all l s) (before : List Ruleset)
    (gs : List CommentGroup) :
    (rulesetsLoop fuel' n before).Gives ⟨gs, []⟩ (Row.behind cs (Row.cons t q)) (before ++ all)
      (l.under (Tray.floatingOf gs cs)) s := by
  cases n with
  | zero => exact absurd g Reading.not_gives_fail
  | succ n =>
    obtain ⟨x, k', u, r, read, rest⟩ | ⟨none, -⟩ := rulesetsLoop_gives.mp g
    · have seam := ruleset_of_comments remains.regular comments apart le read gs
      refine rulesetsLoop_gives.mpr (.inl ⟨x, _, u, r, seam, ?_⟩)
      rcases rest with ⟨isEnd, rfl, rfl, rfl⟩ | ⟨going, rest⟩
      · exact .inl ⟨isEnd, rfl, rfl, rfl⟩
      · obtain ⟨j, lt, left⟩ := (spends_ruleset remains (le_refl fuel)).holds read
        have others := rulesetsLoop_under left (lt.trans enough) (by simp) rest before
          (Tray.floatingOf gs cs)
        have more := follows_rulesetsLoop (o := 0) (by omega : fuel ≤ fuel') (le_refl n)
          (before ++ ([] ++ [x]))
        exact .inr ⟨going, by simpa using more.gives left.regular others⟩
    · exact absurd rfl none

/-! ### What goes on -/

/-- How the rulesets of a text go on: behind their tokens `us` and the comments `cs`, with `k'` on
the tray, there is the end of the text; or there is something that starts further down. -/
structure Resumes (fuel : Nat) (before all : List Ruleset) (k : Tray) (r : Row) (l : Tray)
    (us cs : List Token) (k' : Tray) : Prop where
  row : ∃ e q, r = Row.behind (us ++ cs) (Row.cons e q) ∧ e.kind = .eof
  going : ∀ u ∈ us, u.kind ≠ .eof
  comments : ∀ u ∈ cs, u.kind = .comment
  tray : l = ⟨Tray.floatingOf k'.floating cs, k'.run⟩
  run : k'.run = k.run
  resume : ∀ {t q}, t.kind ≠ .eof → (∀ u ∈ us ++ cs, u.start.line + 1 < t.start.line) →
    ∀ {n more l' s}, (rulesetsLoop fuel n all).Gives k' (Row.behind cs (Row.cons t q)) more l' s →
      ∃ n', (rulesetsLoop fuel n' before).Gives k (Row.behind (us ++ cs) (Row.cons t q)) more l' s

/-- One more ruleset may come before. -/
theorem Resumes.cons {w : Tray} (h : Resumes fuel (before ++ [x]) all k' (Row.cons t q) l us cs w)
    (final : r.Final) (going : t.kind ≠ .eof)
    (read : (ruleset fuel).Gives k r x k' (Row.cons t q)) :
    ∃ vs, Resumes fuel before all k r l vs cs w := by
  obtain ⟨vs, -, others, rfl, turned⟩ := ruleset_turn read final
  obtain ⟨e, p, row, isEnd⟩ := h.row
  have same : k'.run = k.run := by
    obtain ⟨m, -, rfl⟩ := ruleset_gives.mp read
    rfl
  refine ⟨vs ++ us, ⟨e, p, ?_, isEnd⟩, List.forall_mem_append.mpr ⟨others, h.going⟩, h.comments,
    h.tray, h.run.trans same, ?_⟩
  · rw [row, List.append_assoc, Row.behind_append vs]
  · intro u p' more below n all' l' s rest
    rw [List.append_assoc] at below ⊢
    obtain ⟨n', rest'⟩ := h.resume more
      (fun v mem => below v (List.mem_append_right _ mem)) rest
    -- the tokens of the others start with the one that was seen behind this ruleset
    generalize tokens : us ++ cs = ws at row rest'
    cases ws with
    | nil =>
      obtain ⟨rfl, -⟩ := Row.cons_inj.mp row
      exact absurd isEnd going
    | cons v ws =>
      obtain ⟨rfl, -⟩ := Row.cons_inj.mp row
      refine ⟨n' + 1, ?_⟩
      rw [Row.behind_append]
      exact rulesetsLoop_gives.mpr
        (.inl ⟨x, k', t, _, turned _ (.same rfl _), .inr ⟨going, rest'⟩⟩)

/-- **The rulesets of a text are the first ones** when something comes behind it that starts further
down. -/
theorem rulesetsLoop_resumes (remains : r.Remains ts m)
    (g : (rulesetsLoop fuel n before).Gives k r all l s) :
    ∃ us cs k', Resumes fuel before all k r l us cs k' := by
  induction n generalizing before k r m with
  | zero => exact absurd g Reading.not_gives_fail
  | succ n ih =>
    obtain ⟨x, k', t, q, read, ⟨isEnd, rfl, rfl, rfl⟩ | ⟨going, rest⟩⟩ | ⟨-, rfl, wanting⟩ :=
      rulesetsLoop_gives.mp g
    · obtain ⟨us, -, going, rfl, turned⟩ := ruleset_turn read remains.final
      refine ⟨us, [], l, ⟨t, s, by simp, isEnd⟩, going, List.forall_mem_nil _, by simp, ?_, ?_⟩
      · obtain ⟨m, -, rfl⟩ := ruleset_gives.mp read
        rfl
      · intro u q more below n all' l' s' rest
        rw [List.append_nil] at below ⊢
        exact ⟨n + 1, rulesetsLoop_gives.mpr
          (.inl ⟨x, l, u, q, turned _ (.apart below q), .inr ⟨more, rest⟩⟩)⟩
    · obtain ⟨j, -, left⟩ := (spends_ruleset remains (le_refl fuel)).holds read
      obtain ⟨us, cs, w, resumes⟩ := ih left rest
      obtain ⟨vs, resumes⟩ := resumes.cons remains.final going read
      exact ⟨vs, cs, w, resumes⟩
    · obtain ⟨us, t, ⟨row, comments, isEnd⟩, rfl⟩ := ruleset_fails remains wanting
      exact ⟨[], us, k, ⟨t, s, row, isEnd⟩, by simp, comments, rfl, rfl,
        fun _ _ n _ _ _ rest => ⟨n, rest⟩⟩

end Read

end QualityRules
