import QualityRules.Proofs.Ledger.Member

/-!
# Proofs — Ledger — Group

What a combined rule is read from: members, and connectives between them.

* `DeclEnd`: how a declaration ends.
* `GroupAccount` and `GroupShape`: what a stretch of a combined rule costs and what it is; each step
  of the loop adds to both.
* `groupLoop_reads`: a member and what follows it, or a connective and what follows it.
-/

namespace QualityRules.Read
open Grammar
open Node (bag bagOfRules)

variable {fuel n : Nat} {inRuleset : Bool} {t : Token} {r s : Row} {k l : Tray} {x : Member}

/-- How a declaration ends: the token that is taken at its end, if any, and what is left then. -/
inductive DeclEnd (inRuleset : Bool) : List Token → Row → Prop
  | text {u q} (kind : u.kind = .eof) : DeclEnd inRuleset [u] q
  | comma {u q} (kind : u.kind = .comma) (listed : inRuleset) : DeclEnd inRuleset [u] q
  | bracket {u q} (kind : u.kind = .rightBracket) (listed : inRuleset) :
      DeclEnd inRuleset [] (Row.cons u q)

namespace DeclEnd

variable {stop : List Token}

/-- What ends a declaration is no comment. -/
theorem solid_eq (h : DeclEnd inRuleset stop s) : solid stop = stop := by
  cases h with
  | text kind | comma kind _ => exact solid_cons (by simp [kind]) []
  | bracket _ _ => rfl

/-- What ends a declaration holds no comment. -/
theorem commentsOf_eq (h : DeclEnd inRuleset stop s) : commentsOf stop = [] := by
  cases h with
  | text kind | comma kind _ => exact commentsOf_cons (by simp [kind]) []
  | bracket _ _ => rfl

/-- What ends a declaration opens no parenthesis. -/
theorem dated (h : DeclEnd inRuleset stop s) (K : Option Kind) : Dated K stop := by
  cases h with
  | text kind | comma kind _ => exact ⟨by simp [kind], trivial⟩
  | bracket _ _ => trivial

end DeclEnd

/-- The next kind is that of the first token but for comments. -/
theorem nextKind_append (us vs : List Token) :
    nextKind (us ++ vs) = (solid us ++ solid vs).head?.map Token.kind := by
  rw [nextKind, solid_append]

/-- No connective ends a declaration. -/
theorem DeclEnd.not_joins {stop us vs : List Token} {s' : Row} (h : DeclEnd inRuleset stop s)
    (eq : solid us = stop) (row : s = Row.behind vs s') : joins (nextKind (us ++ vs)) = false := by
  rw [nextKind_append, eq]
  cases h with
  | text kind => simp [joins, kind, Connective.ofKind?]
  | comma kind _ => simp [joins, kind, Connective.ofKind?]
  | bracket kind _ =>
    cases vs with
    | nil => rfl
    | cons v vs =>
      obtain ⟨rfl, -⟩ := Row.cons_inj.mp row
      rw [solid_cons (by simp [kind])]
      simp [joins, kind, Connective.ofKind?]

/-- What is read on from a combined rule: `expects` says whether a member has to follow, `before`
and `after` are the connectives known before and in the end. -/
inductive GroupShape (inRuleset : Bool) (expects : Bool) (before after : Option Connective) :
    List Token → List Member → Prop
  | lone {ts y} (waits : expects) (first : before = none) (last : after = none)
      (is : IsMember inRuleset ts y) : GroupShape inRuleset expects before after ts [y]
  | chain {ts operator xs} (waits : expects) (same : ∀ o ∈ before, o = operator)
      (known : after = some operator) (is : IsChain inRuleset operator ts xs)
      (several : before = none → 2 ≤ xs.length) : GroupShape inRuleset expects before after ts xs
  | joined {conj ts operator xs} (complete : expects = false) (same : ∀ o ∈ before, o = operator)
      (known : after = some operator) (is_joined : Connective.ofKind? conj.kind = some operator)
      (is : IsChain inRuleset operator ts xs) :
      GroupShape inRuleset expects before after (conj :: ts) xs
  | nothing (complete : expects = false) (same : after = before) :
      GroupShape inRuleset expects before after [] []

/-- The account of a stretch of a combined rule: the members `new` are read from the tokens `us`,
and `ms` says what is between their parentheses. -/
structure GroupAccount (K : Option Kind) (d d' : GroupDraft) (k l : Tray) (us : List Token)
    (s : Row) (ms : List Enclosed) (new : List Member) : Prop where
  members : d'.members = d.members ++ new
  kept : bagOfRules (new.map Member.rule) + d'.trailing + l.bag
      + (ms.flatMap fun m => waiting m.inside : List Comment)
    = d.trailing + k.bag + commentsOf us
  enclosed : ∀ vs s', s = Row.behind vs s' →
    enclosed K (us ++ vs) = ms ++ enclosed (lastKind K us) vs
  apart : (ms.flatMap Enclosed.inside).Sublist us
  lone : ∀ m ∈ ms, m.lone = d'.operator.isNone
  descriptions : List.Forall₂
    (fun x m => CommentGroup.listOf x.rule.description = describing m.inside) new ms

/-- A token that is no opening parenthesis opens nothing. -/
theorem enclosed_cons {K : Option Kind} (h : t.kind ≠ .leftParen) (ts : List Token) :
    enclosed K (t :: ts) = enclosed (kindBehind K t) ts := by
  rw [enclosed, if_neg fun e => h e.1]

/-- A parenthesis that is no date's opens a rule, up to the one that closes it. -/
theorem enclosed_member {K : Option Kind} {paren close : Token} {inside ts : List Token}
    (opens : paren.kind = .leftParen) (closes : close.kind = .rightParen) (tidy : Tidy inside)
    (free : compares K = false) :
    enclosed K (paren :: (inside ++ close :: ts)) =
      ⟨inside, !joins K && !joins (nextKind ts)⟩ :: enclosed (some .rightParen) ts := by
  have stops : depthBehind 0 close = none := by simp [depthBehind, closes]
  have solid_close : close.kind ≠ .comment := by simp [closes]
  rw [enclosed, if_pos ⟨opens, free⟩, untilClose_append (tidy.balanced 0),
    enclosed_append (tidy.dated _), enclosed_cons (by simp [closes]),
    kindBehind_of_kind solid_close, closes]
  simp [untilClose, stops]

/-- A connective is neither a comment nor a parenthesis nor a comparison. -/
theorem solid_of_connective {operator : Connective}
    (h : Connective.ofKind? t.kind = some operator) :
    t.kind ≠ .comment ∧ t.kind ≠ .leftParen ∧ compares (some t.kind) = false := by
  cases e : t.kind <;> simp_all [Connective.ofKind?, compares, Kind.isComparison]

variable {d d' : GroupDraft} {K : Option Kind} {us : List Token} {ms : List Enclosed}
  {new : List Member} {operator : Connective}

namespace GroupAccount

/-- A comment among the members trails the combined rule. -/
theorem comment (h : GroupAccount K { d with trailing := d.trailing ++ [Comment.ofToken t] } d' k l
    us s ms new) (kind : t.kind = .comment) : GroupAccount K d d' k l (t :: us) s ms new where
  members := h.members
  kept := by
    have trails : ((d.trailing ++ [Comment.ofToken t] : List Comment) : Multiset Comment)
        = d.trailing + {Comment.ofToken t} := by
      rw [← Multiset.coe_add, Multiset.coe_singleton]
    rw [h.kept, trails, commentsOf_cons_comment kind, ← Multiset.cons_coe,
      ← Multiset.singleton_add]
    abel
  enclosed := by
    intro vs s' row
    rw [List.cons_append, enclosed_cons (by simp [kind]), kindBehind, if_pos kind,
      h.enclosed vs s' row, lastKind_cons, kindBehind, if_pos kind]
  apart := h.apart.cons t
  lone := h.lone
  descriptions := h.descriptions

theorem connective (h : GroupAccount (some t.kind)
      { d with operator := some operator, expectsMember := true } d' k l us s ms new)
    (kind : Connective.ofKind? t.kind = some operator) :
    GroupAccount K d d' k l (t :: us) s ms new where
  members := h.members
  kept := by rw [commentsOf_cons (solid_of_connective kind).1, h.kept]
  enclosed := by
    obtain ⟨solid_t, other, -⟩ := solid_of_connective kind
    intro vs s' row
    rw [List.cons_append, enclosed_cons other, kindBehind_of_kind solid_t, h.enclosed vs s' row,
      lastKind_cons, kindBehind_of_kind solid_t]
  apart := h.apart.cons t
  lone := h.lone
  descriptions := h.descriptions

/-- A member loses what waits at its closing parenthesis; whether it is lone shows on both sides of
it. -/
theorem member {inside : List Token} {close : Token} {k₁ : Tray}
    (h : GroupAccount (some .rightParen)
      { d with members := d.members ++ [x], expectsMember := false } d' k₁ l us s ms new)
    (opens : t.kind = .leftParen) (closes : Closes inRuleset k k₁ t x inside close)
    (tidy : Tidy inside) (free : compares K = false)
    (lone : ∀ vs s', s = Row.behind vs s' →
      (!joins K && !joins (nextKind (us ++ vs))) = d'.operator.isNone) :
    GroupAccount K d d' k l (t :: (inside ++ close :: us)) s
      (⟨inside, d'.operator.isNone⟩ :: ms) (x :: new) where
  members := by rw [h.members, List.append_assoc, List.singleton_append]
  kept := by
    have inner := closes.kept
    have outer := h.kept
    rw [commentsOf_cons (by simp [opens]), commentsOf_append,
      commentsOf_cons (by simp [closes.kind]), List.map_cons, Node.bagOfRules_cons,
      List.flatMap_cons, ← Multiset.coe_add, ← Multiset.coe_add]
    calc _ = (bagOfRules (new.map Member.rule) + d'.trailing + l.bag
          + (ms.flatMap fun m => waiting m.inside : List Comment))
          + (bag (.single x.rule) + waiting inside) := by abel
      _ = d.trailing + commentsOf us + (bag (.single x.rule) + k₁.bag + waiting inside) := by
        rw [outer]
        abel
      _ = _ := by
        rw [inner]
        abel
  enclosed := by
    intro vs s' row
    have reassoc : t :: (inside ++ close :: us) ++ vs = t :: (inside ++ close :: (us ++ vs)) := by
      simp
    have solid_close : close.kind ≠ .comment := by simp [closes.kind]
    rw [reassoc, enclosed_member opens closes.kind tidy free, h.enclosed vs s' row, lone vs s' row,
      List.cons_append, lastKind_cons, lastKind_append, lastKind_cons,
      kindBehind_of_kind solid_close, closes.kind]
  apart := ((List.Sublist.refl inside).append (h.apart.cons close)).cons t
  lone := by
    intro m mem
    rcases List.mem_cons.mp mem with rfl | mem
    · rfl
    · exact h.lone m mem
  descriptions := .cons closes.description h.descriptions

/-- At the end of a declaration no member is read. -/
theorem stop {ts : List Token} (ends : DeclEnd inRuleset ts s) :
    GroupAccount K d d k k ts s [] [] where
  members := by simp
  kept := by simp [ends.commentsOf_eq]
  enclosed := fun vs _ _ => enclosed_append (ends.dated K) vs
  apart := List.nil_sublist _
  lone := by simp
  descriptions := .nil

end GroupAccount

namespace GroupShape

variable {ts stop : List Token} {xs : List Member} {before after : Option Connective}

/-- A connective that is the same as before leads on to a member. -/
theorem connective (h : GroupShape inRuleset true (some operator) after ts xs)
    (kind : Connective.ofKind? t.kind = some operator) (same : ∀ o ∈ before, o = operator) :
    GroupShape inRuleset false before after (t :: ts) xs := by
  cases h with
  | lone _ first => cases first
  | @chain _ operator' _ _ same' known is _ =>
    obtain rfl : operator = operator' := same' operator rfl
    exact .joined rfl same known kind is
  | joined complete => cases complete
  | nothing complete => cases complete

/-- A member leads on to a connective or the end. -/
theorem member (h : GroupShape inRuleset false before after ts xs) {us : List Token}
    (is : IsMember inRuleset us x) :
    GroupShape inRuleset true before after (us ++ ts) (x :: xs) := by
  cases h with
  | lone waits => cases waits
  | chain waits => cases waits
  | @joined conj ts operator _ _ same known is_joined others =>
    refine .chain rfl same known (.more is is_joined others) fun _ => ?_
    cases others <;> simp
  | nothing _ same =>
    rw [List.append_nil]
    cases o : before with
    | none => exact .lone rfl rfl (same.trans o) is
    | some operator => exact .chain rfl (by simp) (same.trans o) (.one is) (by simp)

/-- Behind a member, a connective is next just if one is known in the end that was not known
before. -/
theorem joins_nextKind (h : GroupShape inRuleset false before after ts xs)
    (eq : solid us = ts ++ stop) (ends : DeclEnd inRuleset stop s) {vs : List Token} {s' : Row}
    (row : s = Row.behind vs s') :
    joins (nextKind (us ++ vs)) = true ∧ after.isSome ∨
      joins (nextKind (us ++ vs)) = false ∧ after = before := by
  cases h with
  | lone waits => cases waits
  | chain waits => cases waits
  | joined _ _ known is_joined _ =>
    refine .inl ⟨?_, by rw [known]; rfl⟩
    rw [nextKind_append, eq]
    simp [joins, is_joined]
  | nothing _ same => exact .inr ⟨ends.not_joins (by simpa using eq) row, same⟩

end GroupShape

/-- A member and what follows it is read, or a connective and what follows it. -/
theorem groupLoop_reads (g : (groupLoop fuel inRuleset n d).Gives k r d' l s) (final : r.Final)
    (fits : d.expectsMember → compares K = false ∧ joins K = d.operator.isSome) :
    ∃ us ms new ts stop, r = Row.behind us s ∧ GroupAccount K d d' k l us s ms new ∧
      solid us = ts ++ stop ∧ DeclEnd inRuleset stop s ∧
      GroupShape inRuleset d.expectsMember d.operator d'.operator ts (new.map Member.bare) := by
  -- on the fuel; `K` is the kind before, and with the draft it says whether something joins
  induction n generalizing d k r K with
  | zero => exact absurd (ParseRules.gives_lift.mp g).2 not_gives_fail
  | succ n ih =>
    obtain ⟨d₁, k₁, m, step, rest⟩ | ⟨stop, rfl, rfl⟩ := groupLoop_gives.mp g
    · cases step with
      | @comment t m kind =>
        obtain ⟨us, ms, new, ts, stop, rfl, account, eq, ends, shape⟩ := ih rest final.tail fits
        exact ⟨t :: us, ms, new, ts, stop, rfl, account.comment kind,
          by rwa [solid_cons_comment kind], ends, shape⟩
      | @connective t m operator kind complete same =>
        have solid_t := solid_of_connective kind
        obtain ⟨us, ms, new, ts, stop, rfl, account, eq, ends, shape⟩ :=
          ih (K := some t.kind) rest final.tail fun _ => ⟨solid_t.2.2, by simp [joins, kind]⟩
        refine ⟨t :: us, ms, new, t :: ts, stop, rfl, account.connective kind,
          by rw [solid_cons solid_t.1, eq, List.cons_append], ends, ?_⟩
        rw [complete]
        exact shape.connective kind same
      | @member t m x k₁ m₁ kind expected read =>
        obtain ⟨inside, close, rfl, closes, tidy⟩ := member_reads final.tail kind read
        have solid_t : t.kind ≠ .comment := by simp [kind]
        have solid_close : close.kind ≠ .comment := by simp [closes.kind]
        obtain ⟨us, ms, new, ts, stop, rfl, account, eq, ends, shape⟩ :=
          ih (K := some .rightParen) rest (final.tail.rest rfl).tail (by simp)
        obtain ⟨free, before⟩ := fits expected
        -- whether a connective follows is known from what is read behind the member
        have lone : ∀ vs s', s = Row.behind vs s' →
            (!joins K && !joins (nextKind (us ++ vs))) = d'.operator.isNone := by
          intro vs s' row
          rcases shape.joins_nextKind eq ends row with ⟨yes, known⟩ | ⟨no, same⟩
          · obtain ⟨operator, known⟩ := Option.isSome_iff_exists.mp known
            simp [yes, known]
          · rw [no, before, same]
            cases d.operator <;> rfl
        refine ⟨t :: (inside ++ close :: us), ⟨inside, d'.operator.isNone⟩ :: ms, x :: new,
          t :: (solid inside ++ [close]) ++ ts, stop, ?_, account.member kind closes tidy free lone,
          ?_, ends, ?_⟩
        · rw [Row.behind_cons, Row.behind_append, Row.behind_cons]
        · rw [solid_cons solid_t, solid_append, solid_cons solid_close, eq]
          simp
        · rw [expected]
          exact shape.member closes.isMember
    · cases stop with
      | @text t s kind complete =>
        have ends : DeclEnd inRuleset [t] s := .text kind
        exact ⟨[t], [], [], [], [t], rfl, .stop ends, ends.solid_eq, ends, .nothing complete rfl⟩
      | @comma t s kind listed complete =>
        have ends : DeclEnd inRuleset [t] s := .comma kind listed
        exact ⟨[t], [], [], [], [t], rfl, .stop ends, ends.solid_eq, ends, .nothing complete rfl⟩
      | @bracket t m kind listed complete =>
        have ends : DeclEnd inRuleset [] (Row.cons t m) := .bracket kind listed
        exact ⟨[], [], [], [], [], rfl, .stop ends, rfl, ends, .nothing complete rfl⟩

end QualityRules.Read
