import QualityRules.Proofs.Floating.Rules
import QualityRules.Proofs.FileLanguage

/-!
# Proofs — Floating — Rulesets

What floats in a ruleset are stacks of comments, and so is what floats outside of rulesets.

* `Ruleset.Reaches`: the tokens of a ruleset, from the word that opens it to the last comment that
  trails it.
* `RulesetDraft.Ordered`: what is in order while a ruleset is read; `RulesetStep.ordered`: each step
  keeps it.
* `RulesetInOrder` and `ruleset_inOrder`: a ruleset that was read; outside of it nothing floats but
  comments before it.
* `Strung`: groups that float and rulesets, each with its description right before it, one behind
  the other; `Strung.split`: what stands before a ruleset and what behind.
* `InOrder` and `rulesetsLoop_inOrder`: the rulesets of a file with what floats between them.
-/

namespace QualityRules

open CommentGroup (listOf)

variable {F gs : List CommentGroup} {base ws us lead : List Token} {t : Token} {r s m : Row}
  {k l : Tray} {x : Ruleset}

/-- The tokens of the ruleset `x`: the word that opens it comes first, and behind its closing bracket
come the comments that trail it. -/
inductive Ruleset.Reaches (x : Ruleset) : List Token → Prop
  | mk {body trail : List Token} {word right : Token} (starts : word.start = x.declPos)
      (kind : right.kind = .rightBracket) (closes : right.start = x.rightBracket)
      (trailed : x.TrailedBy trail) : Reaches x (word :: (body ++ right :: trail))

/-- Behind a token and the comments that trail it the next comment is spared. -/
theorem Row.Spared.of_trailing (ws : List Token) (plain : t.kind ≠ .string)
    (comments : ∀ u ∈ us, u.kind = .comment)
    (ends : Read.Ends t.start (us.map Comment.ofToken) s) : Spared (ws ++ t :: us) s := by
  intro p last u m row kind
  cases us with
  | nil =>
    obtain rfl : t = p := by simpa using last
    obtain ⟨v, q, row', ends⟩ := ends
    obtain ⟨rfl, -⟩ := Row.cons_inj.mp (row.symm.trans row')
    have apart : u.start.line ≠ t.start.line := by simpa [Read.extendsBlock, kind] using ends
    exact .inr (.inr (.inr (.inr ⟨plain, apart.symm⟩)))
  | cons v vs =>
    rw [List.getLast?_append_of_ne_nil _ (List.cons_ne_nil t _), List.getLast?_cons_cons] at last
    exact .inl (comments p (List.mem_of_mem_getLast? last))

namespace Read

variable {fuel n : Nat} {d d' : RulesetDraft} {h : Header}

/-! ### A ruleset -/

/-- Of a ruleset that was opened, behind the tokens `base` and with the tokens `ws`: outside of it
there floats what stands before its description, inside what stands anywhere. -/
structure RulesetDraft.Opened (F : List CommentGroup) (base ws : List Token) (d : RulesetDraft)
    (h : Header) (k : Tray) (r : Row) : Prop where
  lead : ∃ lead stack word rest, ws = lead ++ stack ++ word :: rest ∧ word.start = h.declPos ∧
    StackOf stack (listOf h.description) ∧ k.Keeps F lead
  description : Headed (base ++ ws) h.description
  rules : ∀ x ∈ d.rules, ∀ D ∈ x.declarations, Headed (base ++ ws) D.description
  inner : d.inner.Heaped [] (base ++ ws) r

/-- From the tokens `ws` behind `base` a ruleset was read so far.  Until it is opened, the comments
before it wait on the tray. -/
structure RulesetDraft.Ordered (F : List CommentGroup) (base ws : List Token) (d : RulesetDraft)
    (k : Tray) (r : Row) : Prop where
  outside : d.header = none → d.rules = [] ∧ d.inner = Tray.empty ∧ k.Heaped F (base ++ ws) r ∧
    k.Heaped F ws r
  inside : ∀ h ∈ d.header, d.Opened F base ws h k r

/-- More tokens of the ruleset are read, and what is new about them is known. -/
theorem RulesetDraft.Opened.step (o : d.Opened F base ws h k r)
    (rules : ∀ x ∈ d'.rules, x ∈ d.rules ∨
      ∀ D ∈ x.declarations, Headed (base ++ (ws ++ us)) D.description)
    (inner : d'.inner.Heaped [] (base ++ (ws ++ us)) m) : d'.Opened F base (ws ++ us) h k m where
  lead := by
    obtain ⟨lead, stack, word, rest, rfl, start, is, keeps⟩ := o.lead
    exact ⟨lead, stack, word, rest ++ us, by simp, start, is, keeps⟩
  description := by
    rw [← List.append_assoc]
    exact o.description.tokens us
  rules := by
    intro x mem D declared
    rcases rules x mem with old | new
    · rw [← List.append_assoc]
      exact (o.rules x old D declared).tokens us
    · exact new D declared
  inner := inner

/-- The word that opens a ruleset takes the description, and the comments behind the bracket do not
wait. -/
theorem takeHeader_opened (g : (takeHeader fuel t).Gives k r h l s)
    (outer : k.Heaped F (base ++ ws) (Row.cons t r)) (own : k.Heaped F ws (Row.cons t r)) :
    ∃ us, r = Row.behind us s ∧
      (⟨some h, [], Tray.empty⟩ : RulesetDraft).Opened F base (ws ++ t :: us) h l s := by
  obtain ⟨equal, m, bracket, cs, rfl, isEqual, trail, opens, rfl, rfl⟩ := takeHeader_gives.mp g
  obtain ⟨m, rfl, ⟨isEnd, -⟩ | ⟨-, trail⟩⟩ := popTrailing_gives.mp trail
  · exact nomatch opens.symm.trans isEnd
  obtain ⟨us, rfl, block, rfl, ends⟩ := trailing_gives trail
  have headed := (outer.takeDescription t.start).1.tokens (t :: equal :: bracket :: us)
  rw [List.append_assoc] at headed
  refine ⟨equal :: bracket :: us, rfl, ?_, headed, List.forall_mem_nil _, ?_⟩
  · obtain ⟨lead, stack, split, keeps, is, -⟩ := own.takeDescription_split t.start
    exact ⟨lead, stack, t, equal :: bracket :: us, by rw [split], rfl, is, keeps⟩
  · have split : base ++ (ws ++ t :: equal :: bracket :: us) =
        base ++ ws ++ [t, equal] ++ bracket :: us := by simp
    have plain : bracket.kind ≠ .string := by simp [opens]
    rw [split]
    exact .of_empty (.start [] _ []) rfl (.of_trailing _ plain block.kind_eq ends)

/-- **A turn of the loop of a ruleset keeps what was read so far in order.** -/
theorem RulesetStep.ordered (step : RulesetStep fuel d k r d' l m)
    (lined : Row.LinedBehind (base ++ ws) r) (o : d.Ordered F base ws k r) :
    ∃ us, r = Row.behind us m ∧ d'.Ordered F base (ws ++ us) l m := by
  cases step with
  | @before t m kind outside =>
    obtain ⟨rules, inner, outer, own⟩ := o.outside outside
    refine ⟨[t], rfl, fun _ => ⟨rules, inner, ?_, own.comment kind⟩, by simp [outside]⟩
    rw [← List.append_assoc]
    exact outer.comment kind
  | @header t m₁ h l m kind outside read =>
    obtain ⟨rules, inner, outer, own⟩ := o.outside outside
    obtain ⟨us, rfl, opened⟩ := takeHeader_opened read outer own
    rw [rules, inner]
    exact ⟨t :: us, rfl, nofun, fun h' mem => Option.some.inj mem ▸ opened⟩
  | @comment t m h kind inside =>
    refine ⟨[t], rfl, fun none => (nomatch none.symm.trans inside), fun h' mem => ?_⟩
    refine (o.inside h' mem).step (fun _ => .inl) ?_
    rw [← List.append_assoc]
    exact (o.inside h' mem).inner.comment kind
  | @rule t m₁ h decl inner m _ inside read =>
    obtain ⟨us, row, headed, heaped⟩ := rule_headed read lined (o.inside h inside).inner
    rw [List.append_assoc] at headed heaped
    refine ⟨us, row, fun none => (nomatch none.symm.trans inside), fun h' mem => ?_⟩
    refine (o.inside h' mem).step (fun x mem => ?_) heaped
    refine (List.mem_append.mp mem).imp_right fun new => ?_
    obtain rfl := List.mem_singleton.mp new
    exact headed

/-- A ruleset that was read from the tokens `us` behind `base`: outside of it there floats what
stands before its description, and the next comment is spared. -/
structure RulesetInOrder (F : List CommentGroup) (base us : List Token) (x : Ruleset) (k : Tray)
    (s : Row) : Prop where
  lead : ∃ lead stack ts, us = lead ++ stack ++ ts ∧ StackOf stack (listOf x.description) ∧
    x.Reaches ts ∧ k.Keeps F lead
  headed : ∀ D ∈ x.declarations, Headed (base ++ us) D.description
  inner : Floats (base ++ us) x.innerComments
  spared : Row.Spared (base ++ us) s

/-- A ruleset that is closed is in order. -/
theorem RulesetEnd.inOrder (stop : RulesetEnd fuel d r x s) (o : d.Ordered F base ws k r) :
    ∃ us, r = Row.behind us s ∧ RulesetInOrder F base (ws ++ us) x k s := by
  cases stop with
  | @bracket t m h cs s kind inside trail =>
    obtain ⟨us, rfl, block, rfl, ends⟩ := trailing_gives trail
    have o := o.inside h inside
    obtain ⟨lead, stack, word, rest, rfl, start, is, keeps⟩ := o.lead
    have spared := Row.Spared.of_trailing (base ++ (lead ++ stack ++ word :: rest)) (by simp [kind])
      block.kind_eq ends
    obtain ⟨gs, floating, floats⟩ := o.inner.spill.tokens (t :: us)
    rw [List.append_assoc base] at floats spared
    refine ⟨t :: us, rfl, ⟨lead, stack, word :: (rest ++ t :: us), by simp, is,
      .mk start kind rfl ⟨block.kind_eq, rfl⟩, keeps⟩, List.forall_mem_cons.mpr ⟨?_, ?_⟩, ?_, spared⟩
    · rw [← List.append_assoc]
      exact o.description.tokens _
    · intro D mem
      obtain ⟨y, listed, mem⟩ := List.mem_flatMap.mp mem
      rw [← List.append_assoc]
      exact (o.rules y listed D mem).tokens _
    · simpa [floating] using floats

/-- A ruleset that was in order at some point is in order when it is closed. -/
theorem rulesetLoop_inOrder (g : (rulesetLoop fuel n d).Gives k r x l s)
    (lined : Row.LinedBehind (base ++ ws) r) (o : d.Ordered F base ws k r) :
    ∃ us, r = Row.behind us s ∧ RulesetInOrder F base (ws ++ us) x l s := by
  induction n generalizing d k r ws with
  | zero => exact absurd (ParseRules.gives_lift.mp g).2 not_gives_fail
  | succ n ih =>
    obtain ⟨d', k', m, step, rest⟩ | ⟨stop, rfl⟩ := rulesetLoop_gives.mp g
    · obtain ⟨us, row, o⟩ := step.ordered lined o
      have lined := lined.rest row
      rw [List.append_assoc] at lined
      obtain ⟨vs, rfl, inOrder⟩ := ih rest lined o
      rw [List.append_assoc] at inOrder
      exact ⟨us ++ vs, by rw [row, Row.behind_append], inOrder⟩
    · exact stop.inOrder o

/-- A ruleset is in order, whatever stands before it. -/
theorem ruleset_inOrder (g : (ruleset fuel).Gives k r x l s) (lined : Row.LinedBehind base r)
    (spared : Row.Spared base r) :
    ∃ us, r = Row.behind us s ∧ RulesetInOrder k.floating base us x l s := by
  obtain ⟨l', loop, rfl⟩ := ruleset_gives.mp g
  rw [← List.append_nil base] at lined spared
  have fresh : RulesetDraft.empty.Ordered k.floating base [] ⟨k.floating, []⟩ r :=
    ⟨fun _ => ⟨rfl, rfl, .of_empty (.start _ _ _) rfl spared,
      .of_empty (.start _ _ _) rfl (.nil r)⟩, nofun⟩
  obtain ⟨us, row, ⟨lead, stack, ts, eq, is, reaches, keeps⟩, headed, inner, spared⟩ :=
    rulesetLoop_inOrder loop lined fresh
  exact ⟨us, row, ⟨lead, stack, ts, eq, is, reaches, keeps.of_floating rfl⟩, headed, inner, spared⟩

end Read

/-! ### A file -/

/-- Among the tokens stand the groups, each a stack, and the rulesets, each right behind its
description, all one behind the other. -/
inductive Strung : List Token → List CommentGroup → List Ruleset → Prop
  | nil (ws : List Token) : Strung ws [] []
  | group {ws us : List Token} {F : List CommentGroup} {all : List Ruleset} {g : CommentGroup}
      (before : Strung ws F all) (stack : StackOf us g.comments) (vs : List Token) :
      Strung (ws ++ us ++ vs) (F ++ [g]) all
  | ruleset {ws us ts : List Token} {F : List CommentGroup} {all : List Ruleset} {x : Ruleset}
      (before : Strung ws F all) (stack : StackOf us (listOf x.description)) (reaches : x.Reaches ts)
      (vs : List Token) : Strung (ws ++ us ++ ts ++ vs) F (all ++ [x])

/-- The comments of a group, or the tokens of a ruleset, are among the tokens `ws`. -/
def Node.Among (ws : List Token) : Node → Prop
  | group g => g.comments ⊆ commentsOf ws
  | ruleset x => ∃ ts, ts.Sublist ws ∧ x.Reaches ts
  | _ => False

/-- What is among some tokens is among more of them. -/
theorem Node.Among.mono {n : Node} (h : n.Among us) (more : us.Sublist ws) : n.Among ws := by
  cases n with
  | group g => exact List.Subset.trans h (commentsOf_sublist more).subset
  | ruleset x =>
    obtain ⟨ts, row, reaches⟩ := h
    exact ⟨ts, row.trans more, reaches⟩
  | _ => exact h.elim

namespace Strung

variable {all : List Ruleset}

/-- Groups and rulesets are still strung when more tokens follow. -/
theorem tokens (h : Strung ws F all) (us : List Token) : Strung (ws ++ us) F all := by
  cases h with
  | nil ws => exact .nil _
  | group before stack vs =>
    rw [List.append_assoc _ vs]
    exact before.group stack (vs ++ us)
  | ruleset before stack reaches vs =>
    rw [List.append_assoc _ vs]
    exact before.ruleset stack reaches (vs ++ us)

/-- More stacks float behind. -/
theorem append (h : Strung ws F all) (more : Floats us gs) : Strung (ws ++ us) (F ++ gs) all := by
  induction more with
  | nil us => simpa using h.tokens us
  | @snoc us vs hs g _ stack xs ih =>
    have split : ws ++ (us ++ vs ++ xs) = ws ++ us ++ vs ++ xs := by simp
    rw [split, ← List.append_assoc F]
    exact ih.group stack xs

/-- Groups that are strung float. -/
theorem floats (h : Strung ws F all) : Floats ws F := by
  induction h with
  | nil ws => exact .nil ws
  | group _ stack vs ih => exact ih.snoc stack vs
  | ruleset _ _ _ vs ih => exact ((ih.tokens _).tokens _).tokens vs

/-- Each group that is strung is among the tokens. -/
theorem among_group (h : Strung ws F all) : ∀ g ∈ F, (Node.group g).Among ws :=
  fun _ => h.floats.subset_commentsOf

/-- Each ruleset that is strung is among the tokens. -/
theorem among_ruleset (h : Strung ws F all) : ∀ x ∈ all, (Node.ruleset x).Among ws := by
  induction h with
  | nil ws => exact List.forall_mem_nil _
  | group _ _ vs ih => exact fun x mem => (ih x mem).mono (by simp)
  | @ruleset ws us ts F all y _ _ reaches vs ih =>
    refine List.forall_mem_append.mpr
      ⟨fun x mem => (ih x mem).mono (by simp), List.forall_mem_singleton.mpr ⟨ts, ?_, reaches⟩⟩
    exact (List.sublist_append_right _ ts).trans (List.sublist_append_left _ vs)

/-- What stands with a ruleset stands before its description or behind it. -/
theorem split (h : Strung ws F all) (mem : x ∈ all) : ∃ before stack ts after,
    ws = before ++ stack ++ ts ++ after ∧ StackOf stack (listOf x.description) ∧ x.Reaches ts ∧
      (∀ g ∈ F, (Node.group g).Among before ∨ (Node.group g).Among after) ∧
      ∀ y ∈ all, y = x ∨ (Node.ruleset y).Among before ∨ (Node.ruleset y).Among after := by
  induction h with
  | nil ws => cases mem
  | @group ws us F all g _ is vs ih =>
    obtain ⟨before, stack, ts, after, rfl, stack_is, reaches, groups, rulesets⟩ := ih mem
    have more : after.Sublist (after ++ (us ++ vs)) := List.sublist_append_left _ _
    refine ⟨before, stack, ts, after ++ (us ++ vs), by simp, stack_is, reaches,
      List.forall_mem_append.mpr ⟨fun g mem => (groups g mem).imp_right (·.mono more), ?_⟩,
      fun y mem => (rulesets y mem).imp_right (Or.imp_right (·.mono more))⟩
    have last : Floats (after ++ us ++ vs) [g] := (Floats.nil after).snoc is vs
    rw [List.append_assoc] at last
    exact List.forall_mem_singleton.mpr (.inr (last.subset_commentsOf (List.mem_singleton_self g)))
  | @ruleset ws us us' F all y whole is reaches' vs ih =>
    rcases List.mem_append.mp mem with old | new
    · obtain ⟨before, stack, ts, after, rfl, stack_is, reaches, groups, rulesets⟩ := ih old
      have more : after.Sublist (after ++ (us ++ us' ++ vs)) := List.sublist_append_left _ _
      have last : us'.Sublist (after ++ (us ++ us' ++ vs)) :=
        ((List.sublist_append_right us us').trans (List.sublist_append_left _ vs)).trans
          (List.sublist_append_right _ _)
      exact ⟨before, stack, ts, after ++ (us ++ us' ++ vs), by simp, stack_is, reaches,
        fun g mem => (groups g mem).imp_right (·.mono more),
        List.forall_mem_append.mpr
          ⟨fun y mem => (rulesets y mem).imp_right (Or.imp_right (·.mono more)),
            List.forall_mem_singleton.mpr (.inr (.inr ⟨us', last, reaches'⟩))⟩⟩
    · obtain rfl := List.mem_singleton.mp new
      exact ⟨ws, us, us', vs, rfl, is, reaches', fun g mem => .inl (whole.among_group g mem),
        List.forall_mem_append.mpr ⟨fun y mem => .inr (.inl (whole.among_ruleset y mem)),
          List.forall_mem_singleton.mpr (.inl rfl)⟩⟩

end Strung

/-- Among the tokens `ws` the rulesets `all` were read, and outside of them float the groups `F`. -/
structure InOrder (F : List CommentGroup) (ws : List Token) (all : List Ruleset) : Prop where
  strung : Strung ws F all
  headed : ∀ x ∈ all, ∀ D ∈ x.declarations, Headed ws D.description
  inner : ∀ x ∈ all, Floats ws x.innerComments

namespace InOrder

variable {before all : List Ruleset} {vs : List Token}

/-- Before the first ruleset nothing floats. -/
theorem nil (ws : List Token) : InOrder [] ws [] :=
  ⟨.nil ws, List.forall_mem_nil _, List.forall_mem_nil _⟩

/-- What floats outside of rulesets is stacks. -/
theorem floating (h : InOrder F ws all) : Floats ws F := h.strung.floats

/-- None of what floats is among the tokens of a ruleset. -/
theorem apart (h : InOrder F ws all) : ∀ x ∈ all, ∃ before ts after, ws = before ++ ts ++ after ∧
    x.Reaches ts ∧ ∀ g ∈ F, g.comments ⊆ commentsOf before ∨ g.comments ⊆ commentsOf after := by
  intro x mem
  obtain ⟨before, stack, ts, after, rfl, -, reaches, groups, -⟩ := h.strung.split mem
  exact ⟨before ++ stack, ts, after, rfl, reaches, fun g floats =>
    (groups g floats).imp_left (·.mono (List.sublist_append_left _ stack))⟩

/-- More stacks float behind the rulesets. -/
theorem floats (h : InOrder F ws all) (more : Floats us gs) (vs : List Token) :
    InOrder (F ++ gs) (ws ++ (us ++ vs)) all where
  strung := h.strung.append (more.tokens vs)
  headed := fun x mem D declared => (h.headed x mem D declared).tokens _
  inner := fun x mem => (h.inner x mem).tokens _

/-- One more ruleset is read. -/
theorem ruleset (h : InOrder F ws before) (one : Read.RulesetInOrder F ws us x l s) :
    InOrder l.floating (ws ++ us) (before ++ [x]) := by
  obtain ⟨lead, stack, ts, rfl, is, reaches, gs, floating, floats⟩ := one.lead
  have strung := (h.strung.append floats).ruleset is reaches []
  have split : ws ++ (lead ++ stack ++ ts) = ws ++ lead ++ stack ++ ts ++ [] := by simp
  refine ⟨?_, List.forall_mem_append.mpr ⟨?_, List.forall_mem_singleton.mpr one.headed⟩,
    List.forall_mem_append.mpr ⟨?_, List.forall_mem_singleton.mpr one.inner⟩⟩
  · rwa [split, floating]
  · exact fun x mem D declared => (h.headed x mem D declared).tokens _
  · exact fun x mem => (h.inner x mem).tokens _

end InOrder

namespace Read

variable {fuel n left : Nat} {before all : List Ruleset} {ts : List Token}

/-- All rulesets of a file are in order. -/
theorem rulesetsLoop_inOrder (g : (rulesetsLoop fuel n before).Gives k r all l s)
    (remains : r.Remains ts left) (lined : Row.LinedBehind ws r) (spared : Row.Spared ws r)
    (h : InOrder k.floating ws before) :
    ∃ us, r = Row.behind us s ∧ InOrder l.floating (ws ++ us) all := by
  induction n generalizing before k r ws left with
  | zero => exact absurd (ParseRules.gives_lift.mp g).2 not_gives_fail
  | succ n ih =>
    obtain ⟨x, k', t, m, read, rest⟩ | ⟨-, rfl, wanting⟩ := rulesetsLoop_gives.mp g
    · obtain ⟨us, row, one⟩ := ruleset_inOrder read lined spared
      have both := h.ruleset one
      rcases rest with ⟨-, rfl, rfl, rfl⟩ | ⟨-, rest⟩
      · refine ⟨us ++ [t], by rw [row, Row.behind_append]; rfl, ?_⟩
        simpa using both.floats (.nil []) [t]
      · obtain ⟨fewer, -, remains⟩ := (spends_ruleset remains (le_refl fuel)).holds read
        obtain ⟨vs, row', inOrder⟩ := ih rest remains (lined.rest row) one.spared both
        rw [List.append_assoc] at inOrder
        exact ⟨us ++ vs, by rw [row, row', Row.behind_append], inOrder⟩
    · obtain ⟨us, t, ⟨rfl, comments, -⟩, rfl⟩ := ruleset_fails remains wanting
      have start : (Tray.mk k.floating []).Heaped k.floating [] (Row.behind us (Row.cons t s)) :=
        .of_empty (.start _ _ _) rfl (.nil _)
      obtain ⟨gs, floating, floats⟩ := (start.comments comments).spill
      refine ⟨us ++ [t], by rw [Row.behind_append]; rfl, ?_⟩
      rw [floating]
      exact h.floats floats [t]

end Read

end QualityRules
