import QualityRules.Proofs.Ledger.Lead

/-!
# Proofs — Ledger — Member

What a rule in parentheses is read from.  The run that waits at the closing parenthesis is dropped,
unless a comma let it float; every other comment is in the rule or on the tray.

* `Closes`: the account of a rule in parentheses.
* `Alone.closes` and `Alone.closes_comma`: a rule by itself, with the parenthesis behind it or a
  comma before that.
* `member_reads`: what is between two parentheses.
-/

namespace QualityRules.Read
open Grammar
open Node (bag bagOfRules)

variable {fuel n : Nat} {inRuleset : Bool} {t : Token} {r s : Row} {k l : Tray} {x : Member}

/-- A member without its comments. -/
def Member.bare (x : Member) : Member := ⟨x.leftParen, x.rule.bare, x.rightParen⟩

/-- A rule in parentheses, of which `inside` are the tokens between them. -/
structure Closes (inRuleset : Bool) (k l : Tray) (paren : Token) (x : Member) (inside : List Token)
    (close : Token) : Prop where
  kind : close.kind = .rightParen
  isMember : IsMember inRuleset (paren :: (solid inside ++ [close])) x.bare
  description : CommentGroup.listOf x.rule.description = describing inside
  kept : bag (.single x.rule) + l.bag + waiting inside = k.bag + commentsOf inside

namespace Alone

variable {before us : List Token} {d : Draft} {ty : Ident} {k' : Tray} {u v close : Token}

/-- Apart from comments a rule is its type and what stands behind it. -/
theorem solid_eq (h : Alone k before t us d ty k') :
    solid (before ++ t :: us) = t :: solid us := by
  have solid_t : t.kind ≠ .comment := by simp [h.kind]
  rw [solid_append, solid_eq_nil h.comments, solid_cons solid_t, List.nil_append]

/-- What stands before a rule and in it is tidy. -/
theorem tidy (h : Alone k before t us d ty k') : Tidy (before ++ t :: us) := by
  refine .of_solid ?_
  rw [h.solid_eq]
  exact tidy_of_isPlain h.plain

/-- The type of a rule that stands alone is where it starts. -/
theorem fromType_eq (h : Alone k before t us d ty k') (vs : List Token) :
    fromType (before ++ t :: us ++ vs) = t :: (us ++ vs) := by
  have solid_t : t.kind ≠ .comment := by simp [h.kind]
  rw [List.append_assoc, List.cons_append]
  exact (fromType_append h.comments solid_t).1

/-- The last strays wait. -/
theorem run_eq (h : Alone k before t us d ty k') :
    k'.run = lastRun (strays (Stand.behind t.start) us) := by
  rw [h.tray]
  exact Tray.run_foldl_add (by simp [Tray.empty]) _

/-- No comma ends a rule, so the last strays wait at a parenthesis that stands behind it. -/
theorem waiting_eq (h : Alone k before t us d ty k') : waiting (before ++ t :: us) = k'.run := by
  have last := (inner_of_isPlain h.plain (k := none) ⟨nofun, nofun⟩).1
  rw [lastKind_solid] at last
  have from_t := h.fromType_eq []
  rw [List.append_nil, List.append_nil] at from_t
  rw [waiting, from_t, h.run_eq]
  exact if_neg last

/-- Behind a comma nothing waits. -/
theorem waiting_comma (h : Alone k before t us d ty k') (isComma : v.kind = .comma) :
    waiting (before ++ t :: us ++ [v]) = [] := by
  have solid_v : v.kind ≠ .comment := by simp [isComma]
  rw [waiting, h.fromType_eq]
  simp [lastKind_append, kindBehind_of_kind solid_v, isComma]

/-- On a run of its own a rule finds its description as if nothing floated. -/
theorem description_eq (h : Alone ⟨k.floating, []⟩ before t us d ty k') (vs : List Token) :
    CommentGroup.listOf d.description = describing (before ++ t :: us ++ vs) := by
  have solid_t : t.kind ≠ .comment := by simp [h.kind]
  rw [List.append_assoc, List.cons_append, describing, (fromType_append h.comments solid_t).1,
    h.description]
  simp only [(fromType_append h.comments solid_t).2]
  refine congrArg CommentGroup.listOf (Tray.takeDescription_eq (Tray.run_foldl_add ?_ _) _)
  rfl

/-- A parenthesis closes a rule; the run that waits is dropped there. -/
theorem closes (h : Alone ⟨k.floating, []⟩ before u us d ty l) (opens : t.kind = .leftParen)
    (kind : close.kind = .rightParen) :
    Closes inRuleset k ⟨l.floating, k.run⟩ t ⟨t.start, d.toRule ty, close.start⟩
      (before ++ u :: us) close where
  kind := kind
  isMember := by
    rw [h.solid_eq]
    exact .closed opens h.plain kind
  description := by
    rw [← List.append_nil (before ++ u :: us), ← h.description_eq]
    rfl
  kept := by
    have kept := h.kept
    rw [Tray.bag_eq ⟨k.floating, []⟩, Multiset.coe_nil, add_zero, l.bag_eq] at kept
    rw [h.waiting_eq, Tray.bag_eq ⟨l.floating, k.run⟩, k.bag_eq]
    calc bag (.single (d.toRule ty)) + (Node.bagOfGroups l.floating + k.run) + l.run
      _ = bag (.single (d.toRule ty)) + (Node.bagOfGroups l.floating + l.run) + k.run := by abel
      _ = Node.bagOfGroups k.floating + commentsOf (before ++ u :: us) + k.run := by rw [kept]
      _ = _ := by abel

/-- A comma before the closing parenthesis lets the run that waits float. -/
theorem closes_comma (h : Alone ⟨k.floating, []⟩ before u us d ty l) (listed : inRuleset)
    (opens : t.kind = .leftParen) (isComma : v.kind = .comma) (kind : close.kind = .rightParen) :
    Closes inRuleset k ⟨l.spill.floating, k.run⟩ t ⟨t.start, d.toRule ty, close.start⟩
      (before ++ u :: us ++ [v]) close where
  kind := kind
  isMember := by
    have solid_v : v.kind ≠ .comment := by simp [isComma]
    rw [solid_append, h.solid_eq, solid_cons solid_v]
    have := IsMember.comma listed opens h.plain isComma kind
    simpa [Member.bare] using this
  description := h.description_eq [v]
  kept := by
    have solid_v : v.kind ≠ .comment := by simp [isComma]
    have kept := h.kept
    rw [Tray.bag_eq ⟨k.floating, []⟩, Multiset.coe_nil, add_zero] at kept
    have spilled := l.bag_spill
    rw [Tray.bag_eq l.spill, Tray.run_spill, Multiset.coe_nil, add_zero] at spilled
    rw [h.waiting_comma isComma, Tray.bag_eq ⟨l.spill.floating, k.run⟩, k.bag_eq, spilled,
      commentsOf_append, commentsOf_cons solid_v, commentsOf_nil, List.append_nil,
      Multiset.coe_nil, add_zero]
    calc bag (.single (d.toRule ty)) + (l.bag + k.run)
      _ = bag (.single (d.toRule ty)) + l.bag + k.run := by abel
      _ = Node.bagOfGroups k.floating + commentsOf (before ++ u :: us) + k.run := by rw [kept]
      _ = _ := by abel

end Alone

/-- What is between two parentheses is a rule.  The run that waits at the closing one is dropped,
unless a comma let it float. -/
theorem member_reads (final : r.Final) (opens : t.kind = .leftParen)
    (g : (member fuel inRuleset t).Gives k r x l s) :
    ∃ inside close, r = Row.behind inside (Row.cons close s) ∧
      Closes inRuleset k l t x inside close ∧ Tidy inside := by
  obtain ⟨y, l', close, lead, kind, rfl, rfl⟩ := member_gives.mp g
  obtain ⟨before, paren, -, -, -, eq, -⟩ | ⟨before, u, us, d, ty, k', m, row, alone, stop⟩ :=
    leadLoop_empty_reads (lead_gives.mp lead)
  · exact nomatch eq
  generalize left : Row.cons close s = q at stop
  cases stop with
  | @text e _ ty' isEnd _ =>
    -- the text ends before the parenthesis, and nothing stands behind its end
    rw [← left] at row
    obtain ⟨rfl, -⟩ := Row.cons_inj.mp (final _ _ _ row isEnd)
    exact nomatch kind.symm.trans isEnd
  | @bracket e _ ty' isBracket _ _ =>
    obtain ⟨rfl, -⟩ := Row.cons_inj.mp left
    exact nomatch kind.symm.trans isBracket
  | @paren e _ ty' isParen _ typed =>
    obtain ⟨rfl, rfl⟩ := Row.cons_inj.mp left
    obtain rfl : ty = ty' := Option.some.inj (alone.typed.symm.trans typed)
    exact ⟨before ++ u :: us, close, row, alone.closes opens kind, alone.tidy⟩
  | @comma e _ ty' isComma listed typed =>
    obtain rfl : ty = ty' := Option.some.inj (alone.typed.symm.trans typed)
    subst left
    refine ⟨before ++ u :: us ++ [e], close, ?_,
      alone.closes_comma listed opens isComma kind, ?_⟩
    · rw [row, Row.behind_append (before ++ u :: us)]
      rfl
    · exact alone.tidy.append (.cons (by simp [isComma]) (by simp [isComma]) .nil)

end QualityRules.Read
