import QualityRules.Proofs.Ledger.Group

/-!
# Proofs — Ledger — Decl

What a declaration is read from: a rule by itself, or rules in parentheses.  A rule in parentheses
loses what waits at the closing one, and a lone one its description.

* `toRule_account` and `isDecl_of_shape`: a combined rule when it is finished.
* `Alone.account` and `group_reads`: the two ways in which a declaration starts.
* `rule_reads`: the account of a declaration.
-/

namespace QualityRules.Read
open Grammar
open Node (bag bagOfRules)

variable {fuel : Nat} {inRuleset : Bool} {r s : Row} {k l : Tray} {d : GroupDraft}
  {K : Option Kind} {ms : List Enclosed}

/-- The account of a declaration that is read from the tokens `us`: apart from comments they make up
the declaration and its end, each comment is in the tree, on the tray or lost by a rule in
parentheses, and `ms` are the rules in parentheses. -/
structure DeclAccount (inRuleset : Bool) (K : Option Kind) (decl : RuleDecl) (k l : Tray)
    (us : List Token) (s : Row) (ms : List Enclosed) : Prop where
  shape : ∃ ts stop, solid us = ts ++ stop ∧ DeclEnd inRuleset stop s ∧
    IsDecl inRuleset ts decl.bare
  kept : bag (.rule decl) + l.bag + (ms.flatMap Enclosed.lost : List Comment)
    = k.bag + commentsOf us
  enclosed : ∀ vs s', s = Row.behind vs s' →
    enclosed K (us ++ vs) = ms ++ enclosed (lastKind K us) vs
  apart : (ms.flatMap Enclosed.inside).Sublist us

variable {decl : RuleDecl} {description : Option CommentGroup} {ts : List Token}

/-- What a finished combined rule holds: all that its draft held and the description, but for the
description of a lone member. -/
theorem toRule_account (g : (d.toRule description).Gives l s decl l s)
    (lone : ∀ m ∈ ms, m.lone = d.operator.isNone)
    (descriptions : List.Forall₂
      (fun x m => CommentGroup.listOf x.rule.description = describing m.inside) d.members ms) :
    bag (.rule decl) + (ms.flatMap Enclosed.lost : List Comment)
      = bagOfRules (d.members.map Member.rule) + d.trailing + CommentGroup.bag description
        + (ms.flatMap fun m => waiting m.inside : List Comment) := by
  obtain ⟨⟨x, none, members, rfl⟩ | ⟨operator, first, others, known, members, rfl⟩, -, -⟩ :=
    toRule_gives.mp g
  · -- the description of the group takes the place of the member's own, which is lost
    rw [members] at descriptions ⊢
    obtain ⟨m, ns, same, rest, rfl⟩ := List.forall₂_cons_left_iff.mp descriptions
    obtain rfl := List.forall₂_nil_left_iff.mp rest
    have isLone : m.lone := by rw [lone m List.mem_cons_self, none]; rfl
    have own : CommentGroup.bag x.rule.description = describing m.inside := by
      rw [CommentGroup.bag, same]
    have whole := Node.bag_single x.rule
    simp only [List.flatMap_cons, List.flatMap_nil, List.append_nil, Enclosed.lost, isLone, if_true,
      ← Multiset.coe_add, ← own, List.map_cons, List.map_nil, Node.bagOfRules_cons,
      Node.bagOfRules_nil, add_zero, whole]
    rw [show Node.rule (.single _) = Node.single _ from rfl, Node.bag_single,
      CommentGroup.bag_ofList?, ← Multiset.coe_add]
    simp only [CommentGroup.bag]
    abel
  · have plain : ms.flatMap Enclosed.lost = ms.flatMap fun m => waiting m.inside :=
      List.flatMap_congr fun m mem => by simp [Enclosed.lost, lone m mem, known]
    rw [plain, members, Node.bag_combined, CommentGroup.bag_ofList?]
    simp only
    abel

/-- What is read on from nothing is a declaration, once it is finished. -/
theorem isDecl_of_shape (g : (d.toRule description).Gives l s decl l s)
    (shape : GroupShape inRuleset true none d.operator ts (d.members.map Member.bare)) :
    IsDecl inRuleset ts decl.bare := by
  -- without a connective there is one member, with one there are two or more
  obtain ⟨⟨x, none, members, rfl⟩ | ⟨operator, first, others, known, members, rfl⟩, -, -⟩ :=
    toRule_gives.mp g
  · rw [members, none] at shape
    generalize eq : [x].map Member.bare = xs at shape
    cases shape with
    | lone _ _ _ is =>
      obtain ⟨rfl, -⟩ := List.cons.inj eq
      exact .lone is
    | chain _ _ known => exact nomatch known
    | joined complete => exact nomatch complete
    | nothing complete => exact nomatch complete
  · rw [members, known] at shape
    generalize eq : (first :: others).map Member.bare = xs at shape
    cases shape with
    | lone _ _ last => exact nomatch last
    | @chain _ operator' _ _ same known' is several =>
      obtain rfl : operator = operator' := Option.some.inj known'
      subst eq
      have more : others.map Member.bare ≠ [] := by
        intro e
        have := several rfl
        simp [e] at this
      have last : ((first :: others).map Member.bare).getLastD first.bare
          = ((first :: others).getLastD first).bare := List.getLastD_map
      have rules : ((first :: others).map Member.bare).map Member.rule
          = ((first :: others).map Member.rule).map Rule.bare := by
        simp [Member.bare]
      have := IsDecl.combined is more
      rw [← List.map_cons, last, rules] at this
      exact this
    | joined complete => exact nomatch complete
    | nothing complete => exact nomatch complete

/-- The account of a rule by itself: it has nothing in parentheses but dates. -/
theorem Alone.account {before us stop : List Token} {u : Token} {d : Draft} {ty : Ident} {k' : Tray}
    (h : Alone k before u us d ty k') (same : l.bag = k'.bag) (ends : DeclEnd inRuleset stop s) :
    DeclAccount inRuleset K (.single (d.toRule ty)) k l (before ++ u :: us ++ stop) s [] where
  shape := by
    refine ⟨u :: solid us, stop, ?_, ends, .plain h.plain⟩
    rw [solid_append, h.solid_eq, ends.solid_eq]
  kept := by
    have kept := h.kept
    rw [commentsOf_append, ends.commentsOf_eq, List.append_nil, same, List.flatMap_nil,
      Multiset.coe_nil, add_zero]
    exact kept
  enclosed := fun vs _ _ =>
    enclosed_append (dated_append.mpr ⟨h.tidy.dated K, ends.dated _⟩) vs
  apart := List.nil_sublist _

/-- The account of a combined rule, from its first parenthesis on; its description waited before. -/
theorem group_reads {pos : Pos} (g : (group fuel inRuleset (k.takeDescription pos).1).Gives
      (k.takeDescription pos).2 r decl l s) (final : r.Final) (free : compares K = false)
    (apart : joins K = false) :
    ∃ us ms, r = Row.behind us s ∧ DeclAccount inRuleset K decl k l us s ms := by
  obtain ⟨d, loop, done⟩ := group_gives.mp g
  obtain ⟨us, ms, new, ts, stop, row, account, solid_us, ends, shape⟩ :=
    groupLoop_reads loop final fun _ => ⟨free, apart⟩
  obtain rfl : d.members = new := account.members
  have whole := toRule_account done account.lone account.descriptions
  have inner := account.kept
  refine ⟨us, ms, row, ⟨ts, stop, solid_us, ends, isDecl_of_shape done shape⟩, ?_,
    account.enclosed, account.apart⟩
  calc bag (.rule decl) + l.bag + (ms.flatMap Enclosed.lost : List Comment)
    _ = bag (.rule decl) + (ms.flatMap Enclosed.lost : List Comment) + l.bag := by abel
    _ = bagOfRules (d.members.map Member.rule) + d.trailing + l.bag
        + (ms.flatMap fun m => waiting m.inside : List Comment)
        + CommentGroup.bag (k.takeDescription pos).1 := by
      rw [whole]
      abel
    _ = (k.takeDescription pos).2.bag + commentsOf us
        + CommentGroup.bag (k.takeDescription pos).1 := by
      rw [inner]
      change (([] : List Comment) : Multiset Comment) + _ + _ + _ = _
      rw [Multiset.coe_nil, zero_add]
    _ = k.bag + commentsOf us := by rw [add_right_comm, k.bag_takeDescription]

/-- Comments before a declaration wait on the tray. -/
theorem DeclAccount.comments {before us : List Token}
    (h : DeclAccount inRuleset K decl ((before.map Comment.ofToken).foldl Tray.add k) l us s ms)
    (all : ∀ u ∈ before, u.kind = .comment) :
    DeclAccount inRuleset K decl k l (before ++ us) s ms where
  shape := by
    rw [solid_append, solid_eq_nil all, List.nil_append]
    exact h.shape
  kept := by
    rw [h.kept, Tray.bag_foldl_add, commentsOf_append, commentsOf_eq_map all, ← Multiset.coe_add,
      add_assoc]
  enclosed := by
    intro vs s' row
    have dated : Dated K before := dated_of_forall fun u mem => by simp [all u mem]
    rw [List.append_assoc, enclosed_append dated, lastKind_append, lastKind_comments K all,
      h.enclosed vs s' row]
  apart := h.apart.trans (List.sublist_append_right _ _)

/-- The account of a declaration. -/
theorem rule_reads (g : (rule fuel inRuleset).Gives k r decl l s) (final : r.Final)
    (free : compares K = false) (apart : joins K = false) :
    ∃ us ms, r = Row.behind us s ∧ DeclAccount inRuleset K decl k l us s ms := by
  obtain ⟨x, lead, rfl⟩ | ⟨d, paren, k', m, lead, untyped, group⟩ := rule_gives.mp g
  · obtain ⟨before, paren, -, -, -, eq, -⟩ | ⟨before, t, us, d, ty, k', m, rfl, alone, stop⟩ :=
      leadLoop_empty_reads (lead_gives.mp lead)
    · exact nomatch eq
    cases stop with
    | @text e _ ty' isEnd typed =>
      obtain rfl : ty = ty' := Option.some.inj (alone.typed.symm.trans typed)
      refine ⟨before ++ t :: us ++ [e], [], ?_, alone.account k'.bag_spill (.text isEnd)⟩
      rw [Row.behind_append (before ++ t :: us)]
      rfl
    | @comma e _ ty' isComma listed typed =>
      obtain rfl : ty = ty' := Option.some.inj (alone.typed.symm.trans typed)
      refine ⟨before ++ t :: us ++ [e], [], ?_, alone.account k'.bag_spill (.comma isComma listed)⟩
      rw [Row.behind_append (before ++ t :: us)]
      rfl
    | @bracket e q ty' isBracket listed typed =>
      obtain rfl : ty = ty' := Option.some.inj (alone.typed.symm.trans typed)
      have account := alone.account (K := K) (s := Row.cons e q) k'.bag_spill
        (.bracket isBracket listed)
      rw [List.append_nil] at account
      exact ⟨before ++ t :: us, [], rfl, account⟩
    | paren _ nested => exact nomatch nested
  · obtain ⟨before, paren', rfl, all, opens, eq, rfl⟩ | ⟨_, _, _, d', ty, _, _, _, alone, stop⟩ :=
      leadLoop_empty_reads (lead_gives.mp lead)
    · obtain ⟨rfl, rfl⟩ := Lead.group.inj eq
      obtain ⟨us, ms, row, account⟩ := group_reads group (final.rest rfl) free apart
      exact ⟨before ++ us, ms, by rw [row, Row.behind_append], account.comments all⟩
    · cases stop with
      | group _ => exact nomatch alone.typed.symm.trans untyped

end QualityRules.Read
