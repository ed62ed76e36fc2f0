import QualityRules.Proofs.Described.Run
import QualityRules.Proofs.Described.Shares
import QualityRules.Proofs.Places

/-!
# Proofs — Described — Rules

Rules and combined rules take their descriptions from the comments right before them.  While one is
read nothing waits in front of the next one.

* `Declaration.Described`: the comments at the end of what stands before a declaration describe it,
  or float.
* `Alone.described`: a rule by itself; `member_described`: one between two parentheses.
* `rule_described`: all that a rule or a combined rule declares.
-/

namespace QualityRules

open CommentGroup (listOf)

variable {A B F G : List Comment} {ts ws us : List Token} {t : Token} {D : Declaration}
  {k l : Tray} {before : List Token}

/-- Where the same tokens come first, but for the end of the text, a declaration opens alike. -/
theorem Declaration.Opens.imp (h : D.Opens ts before t)
    (first : ∀ {vs u ws}, ts = vs ++ u :: ws → u.kind ≠ .eof → ∃ ws, us = vs ++ u :: ws) :
    D.Opens us before t := by
  cases h with
  | ruleset split kind start =>
    obtain ⟨after, split⟩ := first split (by simp [kind])
    exact .ruleset split kind start
  | combined split kind start =>
    obtain ⟨after, split⟩ := first split (by simp [kind])
    exact .combined split kind start
  | member split kind start =>
    obtain ⟨after, split⟩ := first split (by simp [kind])
    exact .member split kind start
  | single split kind start free =>
    obtain ⟨after, split⟩ := first split (by simp [kind])
    exact .single split kind start free
  | @lone r _ _ vs u after split kind comments type start =>
    -- up to the name of the rule type, behind the parenthesis
    have upTo : ts = before ++ t :: vs ++ u :: after := by simp [split]
    obtain ⟨after, split⟩ := first upTo (by simp [type])
    rw [List.append_assoc] at split
    exact .lone split kind comments type start

/-- The first token of a declaration stays the first when more tokens follow. -/
theorem Declaration.Opens.append (h : D.Opens ts before t) (us : List Token) :
    D.Opens (ts ++ us) before t :=
  h.imp fun {_ _ ws} split _ => ⟨ws ++ us, by simp [split]⟩

/-- Among the tokens `ts` the declaration has its first token behind comments that describe it;
those of them that do not are in `F`.  Comments right before them, which are among `A`, do not
count. -/
def Declaration.Described (A F : List Comment) (ts : List Token) (D : Declaration) : Prop :=
  ∃ before t cs, D.Opens ts before t ∧ EndsIn A before cs ∧
    Describes cs t.start.line D.description ∧ cs ⊆ listOf D.description ++ F

namespace Declaration.Described

/-- A declaration stays described when more tokens follow. -/
theorem append (h : D.Described A F ts) (us : List Token) : D.Described A F (ts ++ us) := by
  obtain ⟨before, t, cs, opens, rest⟩ := h
  exact ⟨before, t, cs, opens.append us, rest⟩

/-- A declaration stays described when more comments may trail before it or float. -/
theorem mono (h : D.Described A F ts) (more : A ⊆ B) (more' : F ⊆ G) : D.Described B G ts := by
  obtain ⟨before, t, cs, opens, ends, describes, inside⟩ := h
  refine ⟨before, t, cs, opens, ends.mono more, describes, List.Subset.trans inside ?_⟩
  exact List.append_subset.mpr ⟨List.subset_append_left _ _,
    List.Subset.trans more' (List.subset_append_right _ _)⟩

/-- A declaration stays described when more comments float. -/
theorem loose (h : D.Described A F ts) (more : F ⊆ G) : D.Described A G ts :=
  h.mono (List.Subset.refl A) more

end Declaration.Described

/-- What waits describes what comes next, or floats from then on. -/
theorem Tray.Awaits.described (h : k.Awaits A ws) (opens : D.Opens ts ws t)
    (takes : D.description = (k.takeDescription t.start).1) :
    D.Described A (k.takeDescription t.start).2.loose ts := by
  obtain ⟨cs, ends, kept, inside⟩ := h
  refine ⟨ws, t, cs, opens, ends, ?_, ?_⟩ <;> rw [takes]
  · exact k.describes kept t.start
  · exact List.Subset.trans inside (k.comments_subset_takeDescription t.start)

/-- The next declaration finds its comments on the tray and stands behind no parenthesis, unless a
closing bracket comes next. -/
def Tray.Ready (A : List Comment) (ws : List Token) (k : Tray) (r : Row) : Prop :=
  k.Awaits A ws ∧ lastKind none ws ≠ some .leftParen ∨
    ∃ t m, r = Row.cons t m ∧ t.kind = .rightBracket

/-- Behind a comma or the end of the text nothing waits. -/
theorem Tray.Ready.of_token (ws : List Token) (r : Row) (none : k.run = [])
    (kind : t.kind = .comma ∨ t.kind = .eof) : k.Ready A (ws ++ [t]) r := by
  have solid_t : t.kind ≠ .comment := by rcases kind with kind | kind <;> simp [kind]
  refine .inl ⟨.of_empty (.token A ws solid_t) none, ?_⟩
  rw [lastKind_append, lastKind_cons, kindBehind_of_kind solid_t, lastKind_nil]
  rcases kind with kind | kind <;> simp [kind]

namespace Read

open Grammar

variable {fuel n : Nat} {inRuleset : Bool} {place : Place} {r s m : Row} {d : Draft} {ty : Ident}
  {k' : Tray} {x : Rule}

/-! ### A rule by itself -/

/-- A rule starts at the place that the draft was given. -/
theorem Alone.start_eq (h : Alone k before t us d ty k') : t.start = (d.toRule ty).pos := by
  obtain ⟨u, vs, eq, start⟩ := h.plain.startsAt
  obtain ⟨rfl, -⟩ := List.cons.inj eq
  exact start.symm

/-- A rule that stands alone is described by what waited on the tray. -/
theorem Alone.described (h : Alone k before t us d ty k') (awaits : k.Awaits A ws)
    (opens : D.Opens ts (ws ++ before) t) (same : D.description = d.description) :
    D.Described A k'.loose ts := by
  refine ((awaits.comments h.comments).described opens (same.trans h.description)).loose ?_
  rw [h.tray]
  exact Tray.loose_subset_foldl_add _ _

/-- What floats when a rule is read floats on. -/
theorem Alone.loose (h : Alone k before t us d ty k') : k.loose ⊆ k'.loose := by
  rw [h.tray]
  exact List.Subset.trans (Tray.loose_subset_foldl_add k _)
    (List.Subset.trans (Tray.loose_subset_takeDescription _ _) (Tray.loose_subset_foldl_add _ _))

/-- A rule that ends leaves what floats as it was. -/
theorem LeadEnd.leaves (stop : LeadEnd place d k r (.rule x) l s) (typed : d.ruleType = some ty) :
    x = d.toRule ty ∧ k.loose ⊆ l.loose ∧ ∃ us, r = Row.behind us s := by
  have same : ∀ {ty'}, d.ruleType = some ty' → d.toRule ty' = d.toRule ty := fun typed' =>
    congrArg d.toRule (Option.some.inj (typed'.symm.trans typed))
  cases stop with
  | @text t m ty' _ typed' | @comma t m ty' _ _ typed' =>
    exact ⟨same typed', k.loose_subset_spill, [t], rfl⟩
  | bracket _ _ typed' => exact ⟨same typed', k.loose_subset_spill, [], rfl⟩
  | paren _ _ typed' => exact ⟨same typed', List.Subset.refl _, [], rfl⟩

/-- Where a rule ends that is no member, nothing waits for the next one. -/
theorem LeadEnd.ready (stop : LeadEnd ⟨inRuleset, false⟩ d k r (.rule x) l s) (A : List Comment)
    (ws : List Token) : ∃ us, r = Row.behind us s ∧ l.Ready A (ws ++ us) s := by
  cases stop with
  | @text t m _ kind _ => exact ⟨[t], rfl, .of_token ws _ k.run_spill (.inr kind)⟩
  | @comma t m _ kind _ _ => exact ⟨[t], rfl, .of_token ws _ k.run_spill (.inl kind)⟩
  | bracket kind _ _ => exact ⟨[], rfl, .inr ⟨_, _, rfl, kind⟩⟩
  | paren _ nested _ => cases nested

/-! ### Rules in parentheses -/

/-- The rule behind the parenthesis `t` starts the tokens `vs`, apart from comments. -/
structure Member.Heads (x : Member) (t : Token) (vs : List Token) : Prop where
  leftParen : x.leftParen = t.start
  type : ∃ before u us, vs = before ++ u :: us ∧ (∀ v ∈ before, v.kind = .comment) ∧
    u.kind = .ident ∧ u.start = x.rule.pos

/-- A rule between two parentheses takes its description from the comments behind the first. -/
theorem member_described {x : Member} (g : (member fuel inRuleset t).Gives k r x l s)
    (kind : t.kind = .leftParen) (A : List Comment) (ws : List Token) :
    ∃ vs, r = Row.behind vs s ∧ x.Heads t vs ∧
      (Declaration.member x.rule).Described A l.loose (ws ++ t :: vs) ∧
      k.loose ⊆ l.loose ∧ l.run = k.run := by
  obtain ⟨y, l', close, lead, closes, rfl, rfl⟩ := member_gives.mp g
  obtain ⟨_, _, -, -, -, eq, -⟩ | ⟨before, u, us, d, ty, k', m, rfl, alone, stop⟩ :=
    leadLoop_empty_reads (lead_gives.mp lead)
  · cases eq
  obtain ⟨rfl, floats, stops, rfl⟩ := stop.leaves alone.typed
  have fresh : (Tray.mk k.floating []).Awaits A (ws ++ [t]) :=
    .of_empty (.token A ws (by simp [kind])) rfl
  have split : ws ++ t :: (before ++ u :: (us ++ stops ++ [close])) =
      ws ++ [t] ++ before ++ u :: (us ++ stops ++ [close]) := by simp
  have opens := Declaration.Opens.member split alone.kind alone.start_eq
  refine ⟨before ++ u :: (us ++ stops ++ [close]), by simp [Row.behind_append],
    ⟨rfl, before, u, _, rfl, alone.comments, alone.kind, alone.start_eq⟩,
    (alone.described fresh opens rfl).loose floats, List.Subset.trans alone.loose floats, rfl⟩

variable {g g' : GroupDraft}

/-- Every rule of a combined one takes its description from the comments behind its parenthesis. -/
theorem groupLoop_described (read : (groupLoop fuel inRuleset n g).Gives k r g' l s)
    (A : List Comment) (ws : List Token) (none : k.run = []) :
    ∃ us new, r = Row.behind us s ∧ g'.members = g.members ++ new ∧
      (∀ x ∈ new, (Declaration.member x.rule).Described A l.loose (ws ++ us)) ∧
      k.loose ⊆ l.loose ∧ l.Ready A (ws ++ us) s := by
  induction n generalizing g k r ws with
  | zero => exact absurd (ParseRules.gives_lift.mp read).2 not_gives_fail
  | succ n ih =>
    obtain ⟨g₁, k₁, m, step, rest⟩ | ⟨stop, rfl, rfl⟩ := groupLoop_gives.mp read
    · cases step with
      | @comment t m kind | @connective t m operator kind _ _ =>
        obtain ⟨us, new, rfl, members, described, floats, ready⟩ := ih rest (ws ++ [t]) none
        rw [List.append_assoc] at described ready
        exact ⟨t :: us, new, rfl, members, described, floats, ready⟩
      | @member t m x l₁ s₁ kind _ read =>
        obtain ⟨vs, rfl, -, first, floats₁, run⟩ := member_described read kind A ws
        obtain ⟨us, new, rfl, members, described, floats, ready⟩ :=
          ih rest (ws ++ t :: vs) (run.trans none)
        rw [List.append_assoc] at described ready
        refine ⟨t :: vs ++ us, x :: new, by simp [Row.behind_append],
          by simp [members], List.forall_mem_cons.mpr ⟨?_, described⟩,
          List.Subset.trans floats₁ floats, ready⟩
        rw [← List.append_assoc]
        exact (first.loose floats).append us
    · cases stop with
      | @text t m kind _ =>
        exact ⟨[t], [], rfl, by simp, by simp, List.Subset.refl _, .of_token ws _ none (.inr kind)⟩
      | @comma t m kind _ _ =>
        exact ⟨[t], [], rfl, by simp, by simp, List.Subset.refl _, .of_token ws _ none (.inl kind)⟩
      | bracket kind _ _ =>
        exact ⟨[], [], rfl, by simp, by simp, List.Subset.refl _, .inr ⟨_, _, rfl, kind⟩⟩

variable {decl : RuleDecl}

/-- What stands in parentheses takes its description from the comments before the first of them: a
combined rule, or a lone rule that has lost its own. -/
theorem group_described
    (read : (group fuel inRuleset (k.takeDescription t.start).1).Gives
      (k.takeDescription t.start).2 (Row.cons t m) decl l s)
    (kind : t.kind = .leftParen) (awaits : k.Awaits A ws) :
    ∃ us, Row.cons t m = Row.behind us s ∧
      (∀ D ∈ decl.declarations, D.Described A l.loose (ws ++ us)) ∧
      k.loose ⊆ l.loose ∧ l.Ready A (ws ++ us) s := by
  obtain ⟨g, loop, gives⟩ := group_gives.mp read
  obtain ⟨i, x, k₁, m₁, first, rest⟩ := groupLoop_gives_first kind loop
  obtain ⟨vs, rfl, heads, own, floats₁, run⟩ := member_described first kind A ws
  obtain ⟨us, new, rfl, members, others, floats, ready⟩ :=
    groupLoop_described rest A (ws ++ t :: vs) (run.trans (k.run_takeDescription _))
  rw [List.append_assoc] at others ready
  have whole : ∀ {D : Declaration}, D.Opens (ws ++ (t :: vs ++ us)) ws t →
      D.description = (k.takeDescription t.start).1 →
      D.Described A l.loose (ws ++ (t :: vs ++ us)) := fun opens same =>
    (awaits.described opens same).loose (List.Subset.trans floats₁ floats)
  refine ⟨t :: vs ++ us, by simp [Row.behind_append], ?_, List.Subset.trans
    (k.loose_subset_takeDescription _) (List.Subset.trans floats₁ floats), ready⟩
  obtain ⟨⟨y, -, only, rfl⟩ | ⟨operator, y, ys, -, all, rfl⟩, -, -⟩ := toRule_gives.mp gives
  · obtain ⟨rfl, rfl⟩ : x = y ∧ new = [] := by simpa [only] using members.symm
    obtain ⟨before, u, us₁, rfl, comments, type, start⟩ := heads.type
    have split : ws ++ (t :: (before ++ u :: us₁) ++ us) =
        ws ++ t :: (before ++ u :: (us₁ ++ us)) := by simp
    exact List.forall_mem_singleton.mpr (whole (.lone split kind comments type start) rfl)
  · obtain ⟨rfl, rfl⟩ : x = y ∧ new = ys := by simpa [all] using members.symm
    refine List.forall_mem_cons.mpr ⟨whole (.combined rfl kind heads.leftParen.symm) rfl, ?_⟩
    simp only [List.map_cons, List.map_map]
    refine List.forall_mem_cons.mpr ⟨?_, List.forall_mem_map.mpr others⟩
    rw [← List.append_assoc]
    exact (own.loose floats).append us

/-- All that a rule or a combined rule declares takes its description from the comments before
it. -/
theorem rule_described (read : (rule fuel inRuleset).Gives k r decl l s) (awaits : k.Awaits A ws)
    (free : lastKind none ws ≠ some .leftParen) :
    ∃ us, r = Row.behind us s ∧ (∀ D ∈ decl.declarations, D.Described A l.loose (ws ++ us)) ∧
      k.loose ⊆ l.loose ∧ l.Ready A (ws ++ us) s := by
  obtain ⟨x, lead, rfl⟩ | ⟨d, paren, k', m, lead, untyped, group⟩ := rule_gives.mp read
  · obtain ⟨_, _, -, -, -, eq, -⟩ | ⟨before, t, us, d, ty, k', m, rfl, alone, stop⟩ :=
      leadLoop_empty_reads (lead_gives.mp lead)
    · cases eq
    obtain ⟨rfl, floats, -⟩ := stop.leaves alone.typed
    obtain ⟨stops, rfl, ready⟩ := stop.ready A (ws ++ (before ++ t :: us))
    rw [List.append_assoc] at ready
    have split : ws ++ (before ++ t :: us ++ stops) = ws ++ before ++ t :: (us ++ stops) := by simp
    have free : lastKind none (ws ++ before) ≠ some .leftParen := by
      rwa [lastKind_append, lastKind_comments _ alone.comments]
    have opens := Declaration.Opens.single split alone.kind alone.start_eq free
    refine ⟨before ++ t :: us ++ stops, by rw [Row.behind_append (before ++ t :: us)],
      List.forall_mem_singleton.mpr ((alone.described awaits opens rfl).loose floats),
      List.Subset.trans alone.loose floats, ready⟩
  · obtain ⟨before, t, rfl, comments, opens, eq, rfl⟩ | ⟨_, _, _, _, _, _, _, _, alone, stop⟩ :=
      leadLoop_empty_reads (lead_gives.mp lead)
    · obtain ⟨rfl, rfl⟩ := Lead.group.inj eq
      obtain ⟨us, row, described, floats, ready⟩ :=
        group_described group opens (awaits.comments comments)
      rw [List.append_assoc] at described ready
      exact ⟨before ++ us, by rw [row, Row.behind_append], described,
        List.Subset.trans (Tray.loose_subset_foldl_add k _) floats, ready⟩
    · cases stop with
      | group _ => exact nomatch alone.typed.symm.trans untyped

end Read

end QualityRules
