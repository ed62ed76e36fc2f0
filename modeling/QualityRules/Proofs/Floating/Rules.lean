import QualityRules.Proofs.Described.Shares
import QualityRules.Proofs.Floating.Stacks

/-!
# Proofs — Floating — Rules

What floats while rules are read, and what describes them, are stacks of comments.

* `leadLoop_scattered`: a rule that has its type; strays among its parts make stacks.
* `leadLoop_headed`: a rule from its first comments on; `member_headed`: one between two
  parentheses.
* `rule_headed`: a rule or a combined rule.  At its end nothing waits, and the next comment has its
  line to itself, or the token before it was a comma.
-/

namespace QualityRules.Read

variable {fuel n : Nat} {inRuleset : Bool} {place : Place} {d d' : Draft} {ty : Ident} {out : Lead}
  {x : Rule} {F : List CommentGroup} {ws us : List Token} {t : Token} {r s m : Row} {k k' l : Tray}
  {σ : Stand}

/-! ### A rule by itself -/

/-- What starts a condition starts a block of its own. -/
theorem anchors_of_startsExpression (h : t.kind.startsExpression) : t.kind.anchors := by
  cases k : t.kind <;> simp_all [Kind.startsExpression, Kind.anchors]

/-- A step of a rule that has its type. -/
theorem LeadStep.scattered (step : LeadStep fuel d k r d' k' s) (typed : d.ruleType = some ty)
    (ready : σ.Ready r) (lined : Row.LinedBehind ws r) (h : k.Scattered σ F ws) :
    ∃ us, r = Row.behind us s ∧ d'.ruleType = some ty ∧ d'.description = d.description ∧
      (σ.pastAll us).Ready s ∧ k'.Scattered (σ.pastAll us) F (ws ++ us) := by
  cases step with
  | @comment t s kind =>
    have one : Row.cons t s = Row.behind [t] s := rfl
    exact ⟨[t], one, typed, rfl, ready.stray kind,
      h.stray kind (ready.2 t s rfl kind) (lined.rest one).lined _⟩
  | ruleType _ first _ => exact nomatch typed.symm.trans first
  | @value t m ty' p cs s kind typed' _ read =>
    obtain ⟨anchors, other, -⟩ := anchors_of_startsParameter kind
    obtain ⟨us, reads, -⟩ := parameter_reads (Stand.at_past anchors m) read
    have reads : Reads σ (Row.cons t m) (t :: us) s _ := .cons (kind_of_anchors anchors) other reads
    exact ⟨t :: us, reads.row, typed, rfl, reads.ready ready, h.part anchors reads.quiet⟩
  | @condition t m ty' e cs s kind typed' _ read =>
    have solid_t := solid_of_startsExpression kind
    have outside : (σ.past t).listed = false := (Stand.listed_past solid_t.2).trans ready.1
    obtain ⟨us, reads, -⟩ := expression_reads outside read
    have reads := Reads.cons solid_t.1 solid_t.2 reads
    exact ⟨t :: us, reads.row, typed, rfl, reads.ready ready,
      h.part (anchors_of_startsExpression kind) reads.quiet⟩

/-- From its type on, the strays of a rule make stacks. -/
theorem leadLoop_scattered (g : (leadLoop fuel place n d).Gives k r out l s)
    (typed : d.ruleType = some ty) (ready : σ.Ready r) (lined : Row.LinedBehind ws r)
    (h : k.Scattered σ F ws) :
    ∃ us d' k' τ m, r = Row.behind us m ∧ d'.ruleType = some ty ∧
      d'.description = d.description ∧ k'.Scattered τ F (ws ++ us) ∧
      LeadEnd place d' k' m out l s := by
  -- on the fuel; `σ` follows the tokens, so it knows the block that a stray is not in
  induction n generalizing σ d k r ws with
  | zero => exact absurd (ParseRules.gives_lift.mp g).2 not_gives_fail
  | succ n ih =>
    obtain ⟨d₁, k₁, m, step, rest⟩ | stop := leadLoop_gives.mp g
    · obtain ⟨us₁, row₁, typed₁, same₁, ready₁, h₁⟩ := step.scattered typed ready lined h
      obtain ⟨us₂, d', k', τ, m', rfl, typed', same, h', stop⟩ :=
        ih rest typed₁ ready₁ (lined.rest row₁) h₁
      refine ⟨us₁ ++ us₂, d', k', τ, m', by rw [row₁, Row.behind_append], typed',
        same.trans same₁, ?_, stop⟩
      rwa [← List.append_assoc]
    · exact ⟨[], d, k, σ, r, rfl, typed, rfl, by simpa using h, stop⟩

/-- Comments before the type wait on the tray; then a parenthesis opens a group, or they describe
the rule or float, and the strays of the rule make stacks. -/
theorem leadLoop_headed (g : (leadLoop fuel place n Draft.empty).Gives k r out l s)
    (lined : Row.LinedBehind ws r) (h : k.Heaped F ws r) :
    (∃ before paren, r = Row.behind before (Row.cons paren s) ∧ paren.kind = .leftParen ∧
      out = .group Draft.empty paren ∧ l.Heaped F (ws ++ before) (Row.cons paren s)) ∨
    ∃ us d ty k' τ m, r = Row.behind us m ∧ d.ruleType = some ty ∧
      Headed (ws ++ us) d.description ∧ k'.Scattered τ F (ws ++ us) ∧
      LeadEnd place d k' m out l s := by
  -- as long as no type was read there are only comments, which are heaped on the tray
  induction n generalizing k r ws with
  | zero => exact absurd (ParseRules.gives_lift.mp g).2 not_gives_fail
  | succ n ih =>
    obtain ⟨d₁, k₁, m, step, rest⟩ | stop := leadLoop_gives.mp g
    · cases step with
      | @comment t m kind =>
        have one : Row.cons t m = Row.behind [t] m := rfl
        obtain ⟨before, paren, rfl, opens, rfl, waits⟩ |
          ⟨us, d, ty, k', τ, m', rfl, typed, headed, scattered, stop⟩ :=
          ih rest (lined.rest one) (h.comment kind)
        · rw [List.append_assoc] at waits
          exact .inl ⟨t :: before, paren, rfl, opens, rfl, waits⟩
        · rw [List.append_assoc] at headed scattered
          exact .inr ⟨t :: us, d, ty, k', τ, m', rfl, typed, headed, scattered, stop⟩
      | @ruleType t m₁ cs _ kind _ trail =>
        obtain ⟨headed, keeps⟩ := h.takeDescription t.start
        obtain ⟨us₁, moves, -, ended, listed⟩ :=
          trailing_moves (σ := .behind t.start) ⟨[], rfl, .inl rfl⟩ trail
        have row : Row.cons t m₁ = Row.behind (t :: us₁) m := by rw [moves.row]; rfl
        obtain ⟨us₂, d', k', τ, m', rfl, typed, same, scattered, stop⟩ :=
          leadLoop_scattered rest rfl (ended.settled.ready listed) (lined.rest row)
            (.of_empty (keeps.tokens _) (k.run_takeDescription t.start) _)
        rw [List.append_assoc] at scattered
        refine .inr ⟨t :: us₁ ++ us₂, d', _, k', τ, m', ?_, typed, ?_, scattered, stop⟩
        · rw [row, Row.behind_append]
        · rw [same]
          exact headed.tokens _
      | value _ typed => exact nomatch typed
      | condition _ typed => exact nomatch typed
    · cases stop with
      | group kind => exact .inl ⟨[], _, rfl, kind, rfl, by simpa using h⟩
      | text _ typed => exact nomatch typed
      | comma _ _ typed => exact nomatch typed
      | bracket _ _ typed => exact nomatch typed
      | paren _ _ typed => exact nomatch typed

/-- Where a rule ends, what floats are stacks. -/
theorem LeadEnd.keeps (stop : LeadEnd place d k r (.rule x) l s) (h : k.Scattered σ F ws) :
    ∃ us, r = Row.behind us s ∧ x.description = d.description ∧ l.Keeps F (ws ++ us) := by
  cases stop with
  | @text t m _ _ _ | @comma t m _ _ _ _ => exact ⟨[t], rfl, rfl, h.spill.tokens [t]⟩
  | bracket _ _ _ => exact ⟨[], rfl, rfl, h.spill.tokens []⟩
  | paren _ _ _ => exact ⟨[], rfl, rfl, h.keeps.tokens []⟩

/-- Where a rule ends that is no member, nothing waits. -/
theorem LeadEnd.heaped (stop : LeadEnd ⟨inRuleset, false⟩ d k r (.rule x) l s)
    (h : k.Scattered σ F ws) :
    ∃ us, r = Row.behind us s ∧ x.description = d.description ∧ l.Heaped F (ws ++ us) s := by
  cases stop with
  | @text t m _ kind _ => exact ⟨[t], rfl, rfl, .of_token h.spill k.run_spill (.inr kind) _⟩
  | @comma t m _ kind _ _ => exact ⟨[t], rfl, rfl, .of_token h.spill k.run_spill (.inl kind) _⟩
  | bracket kind _ _ =>
    exact ⟨[], rfl, rfl, .of_cons (h.spill.tokens []) k.run_spill (by simp [kind]) _⟩
  | paren _ nested _ => cases nested

/-! ### Rules in parentheses -/

/-- A rule between two parentheses has its description from behind the first of them. -/
theorem member_headed {x : Member} (g : (member fuel inRuleset t).Gives k r x l s)
    (kind : t.kind = .leftParen) (lined : Row.LinedBehind (ws ++ [t]) r) (keeps : k.Keeps F ws) :
    ∃ us, r = Row.behind us s ∧ Headed (ws ++ t :: us) x.rule.description ∧
      l.Keeps F (ws ++ t :: us) ∧ l.run = k.run := by
  obtain ⟨y, l', close, lead, closes, rfl, rfl⟩ := member_gives.mp g
  have fresh : (Tray.mk k.floating []).Heaped F (ws ++ [t]) r := by
    refine .of_empty ((keeps.tokens [t]).of_floating rfl) rfl (.of_kind r fun p last => ?_)
    obtain rfl : t = p := by simpa using last
    exact .inr (.inr (.inl kind))
  obtain ⟨_, _, -, -, eq, -⟩ | ⟨us, d, ty, k', τ, m, rfl, -, headed, scattered, stop⟩ :=
    leadLoop_headed (lead_gives.mp lead) lined fresh
  · cases eq
  obtain ⟨stops, rfl, same, floats⟩ := stop.keeps scattered
  have split : ws ++ t :: (us ++ stops ++ [close]) = ws ++ [t] ++ us ++ stops ++ [close] := by simp
  refine ⟨us ++ stops ++ [close], by simp [Row.behind_append], ?_, ?_, rfl⟩ <;> rw [split]
  · rw [same]
    exact (headed.tokens stops).tokens [close]
  · exact (floats.tokens [close]).of_floating rfl

variable {g g' : GroupDraft} {decl : RuleDecl}

/-- **The members of a combined rule are described by stacks.** -/
theorem groupLoop_headed (read : (groupLoop fuel inRuleset n g).Gives k r g' l s)
    (lined : Row.LinedBehind ws r) (keeps : k.Keeps F ws) (none : k.run = []) :
    ∃ us new, r = Row.behind us s ∧ g'.members = g.members ++ new ∧
      (∀ x ∈ new, Headed (ws ++ us) x.rule.description) ∧ l.Heaped F (ws ++ us) s := by
  induction n generalizing g k r ws with
  | zero => exact absurd (ParseRules.gives_lift.mp read).2 not_gives_fail
  | succ n ih =>
    obtain ⟨g₁, k₁, m, step, rest⟩ | ⟨stop, rfl, rfl⟩ := groupLoop_gives.mp read
    · cases step with
      | @comment t m kind | @connective t m operator kind _ _ =>
        have one : Row.cons t m = Row.behind [t] m := rfl
        obtain ⟨us, new, rfl, members, headed, heaped⟩ :=
          ih rest (lined.rest one) (keeps.tokens [t]) none
        rw [List.append_assoc] at headed heaped
        exact ⟨t :: us, new, rfl, members, headed, heaped⟩
      | @member t m x l₁ s₁ kind _ read =>
        have one : Row.cons t m = Row.behind [t] m := rfl
        obtain ⟨vs, row, first, keeps₁, run⟩ := member_headed read kind (lined.rest one) keeps
        have row : Row.cons t m = Row.behind (t :: vs) _ := congrArg (Row.cons t) row
        obtain ⟨us, new, rfl, members, headed, heaped⟩ :=
          ih rest (lined.rest row) keeps₁ (run.trans none)
        rw [List.append_assoc] at headed heaped
        refine ⟨t :: vs ++ us, x :: new, by rw [row, Row.behind_append], by simp [members],
          List.forall_mem_cons.mpr ⟨?_, headed⟩, heaped⟩
        rw [← List.append_assoc]
        exact first.tokens us
    · cases stop with
      | @text t m kind _ => exact ⟨[t], [], rfl, by simp, by simp, .of_token keeps none (.inr kind) _⟩
      | @comma t m kind _ _ =>
        exact ⟨[t], [], rfl, by simp, by simp, .of_token keeps none (.inl kind) _⟩
      | bracket kind _ _ =>
        exact ⟨[], [], rfl, by simp, by simp,
          .of_cons (keeps.tokens []) none (by simp [kind]) _⟩

/-- All that a rule or a combined rule declares has a stack for its description, and what floats
are stacks. -/
theorem rule_headed (read : (rule fuel inRuleset).Gives k r decl l s)
    (lined : Row.LinedBehind ws r) (h : k.Heaped F ws r) :
    ∃ us, r = Row.behind us s ∧ (∀ D ∈ decl.declarations, Headed (ws ++ us) D.description) ∧
      l.Heaped F (ws ++ us) s := by
  obtain ⟨x, lead, rfl⟩ | ⟨d, paren, k', m, lead, untyped, group⟩ := rule_gives.mp read
  · obtain ⟨_, _, -, -, eq, -⟩ | ⟨us, d, ty, k', τ, m, rfl, -, headed, scattered, stop⟩ :=
      leadLoop_headed (lead_gives.mp lead) lined h
    · cases eq
    obtain ⟨stops, rfl, same, heaped⟩ := stop.heaped scattered
    rw [List.append_assoc] at heaped
    refine ⟨us ++ stops, by rw [Row.behind_append], List.forall_mem_singleton.mpr ?_, heaped⟩
    rw [← List.append_assoc]
    rw [Declaration.description, same]
    exact headed.tokens stops
  · obtain ⟨before, paren, row, opens, eq, waits⟩ | ⟨_, _, _, _, _, _, _, typed, -, -, stop⟩ :=
      leadLoop_headed (lead_gives.mp lead) lined h
    · obtain ⟨rfl, rfl⟩ := Lead.group.inj eq
      obtain ⟨headed, keeps⟩ := waits.takeDescription paren.start
      obtain ⟨g, loop, gives⟩ := group_gives.mp group
      obtain ⟨us, new, row', members, inner, heaped⟩ :=
        groupLoop_headed loop (lined.rest row) keeps (k'.run_takeDescription _)
      rw [List.append_assoc] at inner heaped
      have own := headed.tokens us
      rw [List.append_assoc] at own
      refine ⟨before ++ us, by rw [row, row', Row.behind_append], ?_, heaped⟩
      -- a lone member becomes a rule with the description of the group
      obtain ⟨⟨y, -, -, rfl⟩ | ⟨operator, y, ys, -, all, rfl⟩, -, -⟩ := toRule_gives.mp gives
      · exact List.forall_mem_singleton.mpr own
      · obtain rfl : g.members = new := members
        rw [all] at inner
        refine List.forall_mem_cons.mpr ⟨own, ?_⟩
        simp only [List.forall_mem_map]
        exact inner
    · cases stop with
      | group _ => exact nomatch typed.symm.trans untyped

end QualityRules.Read
