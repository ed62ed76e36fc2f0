import QualityRules.Proofs.Enclosed
import QualityRules.Proofs.Parts
import QualityRules.Proofs.Runs.Rule

/-!
# Proofs — Ledger — Lead

What a rule by itself is read from, and where the comments go that are met.

* `Grows`: from its type on, a rule takes what makes up a rule, and the tray takes the strays;
  `LeadStep.grows` is one step, `leadLoop_reads` all of them.
* `leadLoop_empty_reads`: comments before the type wait on the tray; a parenthesis behind them opens
  a group.
-/

namespace QualityRules

/-- Outside of lists, where the next token has no place. -/
def Stand.Ready (σ : Stand) (r : Row) : Prop :=
  σ.listed = false ∧ ∀ t m, r = Row.cons t m → t.kind = .comment → σ.holds t = false

namespace Stand

variable {σ : Stand} {r : Row}

/-- Outside of lists a place where no comment may stand is ready. -/
theorem Settled.ready (h : σ.Settled r) (outside : σ.listed = false) : σ.Ready r := by
  refine ⟨outside, fun t m row _ => ?_⟩
  obtain ⟨u, q, row', stops⟩ := h outside
  rw [row', Row.cons_inj] at row
  rw [← row.1, stops]

/-- Behind a stray there is no place for a comment. -/
theorem Ready.stray {t : Token} {m : Row} (h : σ.Ready (Row.cons t m)) (k : t.kind = .comment) :
    (σ.past t).Ready m := by
  have past : σ.past t = { σ with block := none } := by simp [Stand.past, k, h.2 t m rfl k]
  rw [past]
  exact ⟨h.1, fun _ _ _ _ => by simp [holds, h.1]⟩

end Stand

/-- Which run waits in the end depends on the run that waited before, not on what floats. -/
theorem Tray.run_foldl_add {k l : Tray} (h : k.run = l.run) (cs : List Comment) :
    (cs.foldl Tray.add k).run = (cs.foldl Tray.add l).run := by
  induction cs generalizing k l with
  | nil => exact h
  | cons c cs ih =>
    refine ih ?_
    simp only [Tray.add, h]
    split <;> simp

/-- What is given depends only on what waits. -/
theorem Tray.takeDescription_eq {k l : Tray} (h : k.run = l.run) (pos : Pos) :
    (k.takeDescription pos).1 = (l.takeDescription pos).1 := by
  simp only [Tray.takeDescription, h]
  split <;> rfl

namespace Read
open Grammar
open Node (bag)

variable {fuel n : Nat} {place : Place} {r s : Row} {k l : Tray} {d : Draft} {out : Lead}
  {σ : Stand} {ty : Ident} {ts : List Token}

/-- Over the tokens `us` a rule of the type `ty` goes on from the draft `d` to `d'`: it takes what
makes up a rule, and the tray takes the strays. -/
structure Grows (σ : Stand) (ty : Ident) (d d' : Draft) (k k' : Tray) (us : List Token) : Prop where
  typed : d'.ruleType = some ty
  description : d'.description = d.description
  plain : ∀ ts, IsPlain ts (d.toRule ty).bare → IsPlain (ts ++ solid us) (d'.toRule ty).bare
  kept : bag (.single (d'.toRule ty)) + k'.bag = bag (.single (d.toRule ty)) + k.bag + commentsOf us
  tray : k' = (strays σ us).foldl Tray.add k

namespace Grows

variable {d' d'' : Draft} {k' k'' : Tray} {us vs : List Token} {b : Multiset Comment}

/-- Nothing is read and nothing grows. -/
theorem refl (σ : Stand) (k : Tray) (typed : d.ruleType = some ty) : Grows σ ty d d k k [] :=
  ⟨typed, rfl, fun _ plain => by simpa using plain, by simp, rfl⟩

/-- A rule that grows over two stretches grows over both. -/
theorem trans (h : Grows σ ty d d' k k' us) (g : Grows (σ.pastAll us) ty d' d'' k' k'' vs) :
    Grows σ ty d d'' k k'' (us ++ vs) where
  typed := g.typed
  description := g.description.trans h.description
  plain := by
    intro ts plain
    rw [solid_append, ← List.append_assoc]
    exact g.plain _ (h.plain ts plain)
  kept := by rw [g.kept, h.kept, commentsOf_append, ← Multiset.coe_add, add_assoc]
  tray := by rw [g.tray, h.tray, strays_append, List.foldl_append]

/-- A part is read, of which no comment goes astray. -/
theorem of_reads (reads : Reads σ r us s b) (typed : d'.ruleType = some ty)
    (same : d'.description = d.description)
    (plain : ∀ ts, IsPlain ts (d.toRule ty).bare → IsPlain (ts ++ solid us) (d'.toRule ty).bare)
    (sum : bag (.single (d'.toRule ty)) = bag (.single (d.toRule ty)) + b) :
    Grows σ ty d d' k k us where
  typed := typed
  description := same
  plain := plain
  kept := by
    rw [sum, reads.kept]
    abel
  tray := by rw [reads.quiet, List.foldl_nil]

end Grows

/-- What is read from a ready place leads to one. -/
theorem Reads.ready {us : List Token} {b : Multiset Comment} (reads : Reads σ r us s b)
    (ready : σ.Ready r) : (σ.pastAll us).Ready s :=
  reads.settled.ready (reads.listed.trans ready.1)

/-- A step of a rule that has its type. -/
theorem LeadStep.grows {d' : Draft} {k' : Tray} (step : LeadStep fuel d k r d' k' s)
    (ready : σ.Ready r) (typed : d.ruleType = some ty) :
    ∃ us, r = Row.behind us s ∧ Grows σ ty d d' k k' us ∧ (σ.pastAll us).Ready s := by
  cases step with
  | @comment t s kind =>
    refine ⟨[t], rfl, ⟨typed, rfl, ?_, ?_, ?_⟩, ready.stray kind⟩
    · intro ts plain
      rwa [solid_cons_comment kind, solid_nil, List.append_nil]
    · rw [commentsOf_cons_comment kind, commentsOf_nil, Multiset.coe_singleton, Tray.bag_add,
        add_assoc]
    · rw [strays_cons_stray kind (ready.2 t _ rfl kind)]
      rfl
  | ruleType _ first _ => exact nomatch typed.symm.trans first
  | @value t m ty' p cs s kind typed' before read =>
    obtain rfl : ty = ty' := Option.some.inj (typed.symm.trans typed')
    obtain ⟨anchors, other, -⟩ := anchors_of_startsParameter kind
    have solid_t := kind_of_anchors anchors
    obtain ⟨us, reads, value⟩ := parameter_reads (Stand.at_past anchors m) read
    have reads : Reads σ (Row.cons t m) (t :: us) s _ := .cons solid_t other reads
    refine ⟨t :: us, reads.row, .of_reads reads typed rfl ?_ ?_, reads.ready ready⟩
    · intro ts plain
      rw [solid_cons solid_t]
      have := plain.value (by simp [Draft.toRule, Rule.bare, before]) value
      simpa [Draft.toRule, Rule.bare] using this
    · simp only [Node.bag_single, Draft.toRule, Node.bagOfAll_append, Node.bagOfAll_cons,
        Node.bagOfAll_nil, CommentGroup.bag_ofList?, ← Multiset.coe_add]
      abel
  | @condition t m ty' e cs s kind typed' before read =>
    obtain rfl : ty = ty' := Option.some.inj (typed.symm.trans typed')
    have solid_t := solid_of_startsExpression kind
    have outside : (σ.past t).listed = false := (Stand.listed_past solid_t.2).trans ready.1
    obtain ⟨us, reads, condition⟩ := expression_reads outside read
    have reads := Reads.cons solid_t.1 solid_t.2 reads
    refine ⟨t :: us, reads.row, .of_reads reads typed rfl ?_ ?_, reads.ready ready⟩
    · intro ts plain
      rw [solid_cons solid_t.1]
      have := plain.condition (by simp [Draft.toRule, Rule.bare, before]) condition
      simpa [Draft.toRule, Rule.bare] using this
    · simp only [Node.bag_single, Draft.toRule, before, Node.bagOfCondition_none,
        Node.bagOfCondition_some, CommentGroup.bag_ofList?, ← Multiset.coe_add]
      abel

/-- From its type on, a rule takes what makes up a rule.  The tray takes the strays, and all other
comments are in the rule. -/
theorem leadLoop_reads (g : (leadLoop fuel place n d).Gives k r out l s) (ready : σ.Ready r)
    (typed : d.ruleType = some ty) :
    ∃ us d' k' m, r = Row.behind us m ∧ Grows σ ty d d' k k' us ∧
      LeadEnd place d' k' m out l s := by
  -- on the fuel; `σ` follows the tokens, so that it tells the strays from the other comments
  induction n generalizing σ d k r with
  | zero => exact absurd (ParseRules.gives_lift.mp g).2 not_gives_fail
  | succ n ih =>
    obtain ⟨d₁, k₁, m, step, rest⟩ | stop := leadLoop_gives.mp g
    · obtain ⟨us₁, row₁, grows₁, ready₁⟩ := step.grows ready typed
      obtain ⟨us₂, d', k', m', rfl, grows₂, stop⟩ := ih rest ready₁ grows₁.typed
      refine ⟨us₁ ++ us₂, d', k', m', ?_, grows₁.trans grows₂, stop⟩
      rw [row₁, Row.behind_append]
    · exact ⟨[], d, k, r, rfl, .refl σ k typed, stop⟩

/-- A rule by itself up to its end: comments that wait, the type `t`, and `us` behind it. -/
structure Alone (k : Tray) (before : List Token) (t : Token) (us : List Token) (d : Draft)
    (ty : Ident) (k' : Tray) : Prop where
  comments : ∀ u ∈ before, u.kind = .comment
  kind : t.kind = .ident
  typed : d.ruleType = some ty
  plain : IsPlain (t :: solid us) (d.toRule ty).bare
  kept : bag (.single (d.toRule ty)) + k'.bag = k.bag + commentsOf (before ++ t :: us)
  description : d.description =
    (((before.map Comment.ofToken).foldl Tray.add k).takeDescription t.start).1
  tray : k' = (strays (Stand.behind t.start) us).foldl Tray.add
    (((before.map Comment.ofToken).foldl Tray.add k).takeDescription t.start).2

namespace Alone

variable {before us vs : List Token} {t u : Token} {k' : Tray} {cs : List Comment}

/-- A comment before the type waits on the tray. -/
theorem comment (h : Alone (k.add (Comment.ofToken t)) before u us d ty k')
    (kind : t.kind = .comment) : Alone k (t :: before) u us d ty k' where
  comments := List.forall_mem_cons.mpr ⟨kind, h.comments⟩
  kind := h.kind
  typed := h.typed
  plain := h.plain
  kept := by
    rw [h.kept, Tray.bag_add, List.cons_append, commentsOf_cons_comment kind, ← Multiset.cons_coe,
      ← Multiset.singleton_add]
    abel
  description := h.description
  tray := h.tray

/-- A rule starts with its type and the comments `us` that trail that. -/
theorem of_type (kind : t.kind = .ident) (moves : Moves (Stand.behind t.start) r us s cs)
    (trail : solid us = [])
    (grows : Grows ((Stand.behind t.start).pastAll us) ⟨t.start, t.text, CommentGroup.ofList? cs⟩
      { Draft.empty with
        ruleType := some ⟨t.start, t.text, CommentGroup.ofList? cs⟩
        description := (k.takeDescription t.start).1 }
      d (k.takeDescription t.start).2 k' vs) :
    Alone k [] t (us ++ vs) d ⟨t.start, t.text, CommentGroup.ofList? cs⟩ k' where
  comments := by simp
  kind := kind
  typed := grows.typed
  plain := by
    rw [solid_append, trail]
    exact grows.plain [t] (.mk kind .nil .none)
  kept := by
    have solid_t : t.kind ≠ .comment := by simp [kind]
    rw [grows.kept, List.nil_append, commentsOf_cons solid_t, commentsOf_append,
      ← Multiset.coe_add, ← moves.kept, ← k.bag_takeDescription t.start]
    simp only [Node.bag_single, Draft.toRule, Draft.empty, Node.bagOfAll_nil,
      Node.bagOfCondition_none, CommentGroup.bag_ofList?, Multiset.coe_nil]
    abel
  description := grows.description
  tray := by
    rw [strays_append, moves.quiet, List.nil_append]
    exact grows.tray

end Alone

/-- Comments before the type wait on the tray; then a parenthesis opens a group, or the type comes
and what makes up a rule. -/
theorem leadLoop_empty_reads (g : (leadLoop fuel place n Draft.empty).Gives k r out l s) :
    (∃ before paren, r = Row.behind before (Row.cons paren s) ∧ (∀ u ∈ before, u.kind = .comment) ∧
      paren.kind = .leftParen ∧ out = .group Draft.empty paren ∧
      l = (before.map Comment.ofToken).foldl Tray.add k) ∨
    ∃ before t us d ty k' m, r = Row.behind (before ++ t :: us) m ∧ Alone k before t us d ty k' ∧
      LeadEnd place d k' m out l s := by
  induction n generalizing k r with
  | zero => exact absurd (ParseRules.gives_lift.mp g).2 not_gives_fail
  | succ n ih =>
    obtain ⟨d₁, k₁, m, step, rest⟩ | stop := leadLoop_gives.mp g
    · cases step with
      | @comment t m kind =>
        obtain ⟨before, paren, rfl, all, opens, rfl, rfl⟩ |
          ⟨before, u, us, d, ty, k', m', rfl, alone, stop⟩ := ih rest
        · exact .inl
            ⟨t :: before, paren, rfl, List.forall_mem_cons.mpr ⟨kind, all⟩, opens, rfl, rfl⟩
        · exact .inr ⟨t :: before, u, us, d, ty, k', m', rfl, alone.comment kind, stop⟩
      | @ruleType t m₁ cs _ kind _ trail =>
        have stand : (Stand.behind t.start).At t.start m₁ := ⟨[], rfl, .inl rfl⟩
        obtain ⟨us₁, moves, comments₁, ended, listed⟩ := trailing_moves stand trail
        -- the rule has its type now, and the loop above takes what is behind it
        obtain ⟨us₂, d', k', m', rfl, grows, stop⟩ :=
          leadLoop_reads rest (ended.settled.ready listed) rfl
        refine .inr ⟨[], t, us₁ ++ us₂, d', ⟨t.start, t.text, CommentGroup.ofList? cs⟩, k', m', ?_,
          .of_type kind moves comments₁ grows, stop⟩
        rw [moves.row, List.nil_append, Row.behind_cons, Row.behind_append]
      | value _ typed => exact nomatch typed
      | condition _ typed => exact nomatch typed
    · cases stop with
      | group kind => exact .inl ⟨[], _, rfl, by simp, kind, rfl, rfl⟩
      | text _ typed => exact nomatch typed
      | comma _ _ typed => exact nomatch typed
      | bracket _ _ typed => exact nomatch typed
      | paren _ _ typed => exact nomatch typed

end Read

end QualityRules
