import QualityRules.Proofs.Described.Rules
import QualityRules.Proofs.NoRules

/-!
# Proofs — Described — Rulesets

Rulesets take their descriptions from the comments right before them, but for those that trail the
ruleset before; the first rule of a ruleset does not take those that trail the opening bracket.

* `RulesetDraft.Settled`: what is described while a ruleset is read; `RulesetStep.settled`: each
  step keeps it.
* `ruleset_described`: a ruleset with all that it lists.
* `rulesetsLoop_described`: the rulesets of a file; what trails one of them does not describe the
  next.
-/

namespace QualityRules

variable {A : List Comment} {ws us : List Token} {t : Token} {r s m : Row} {k l : Tray}
  {x : Ruleset} {D : Declaration}

/-- The comments `cs` stand somewhere behind a token that starts at `pos`. -/
def StandBehind (pos : Pos) (cs : List Comment) (ws : List Token) : Prop :=
  ∃ before t after, ws = before ++ t :: after ∧ t.start = pos ∧ cs ⊆ commentsOf after

/-- Comments among the tokens that follow stand behind the token too. -/
theorem StandBehind.append {pos : Pos} {cs cs' : List Comment} (h : StandBehind pos cs ws)
    (more : cs' ⊆ commentsOf us) : StandBehind pos (cs ++ cs') (ws ++ us) := by
  obtain ⟨before, t, after, rfl, start, inside⟩ := h
  refine ⟨before, t, after ++ us, by simp, start, ?_⟩
  rw [commentsOf_append]
  exact List.append_subset.mpr ⟨List.subset_append_of_subset_left _ inside,
    List.subset_append_of_subset_right _ more⟩

/-- Comments that stand behind a token still do when more tokens follow. -/
theorem StandBehind.tokens {pos : Pos} {cs : List Comment} (h : StandBehind pos cs ws)
    (us : List Token) : StandBehind pos cs (ws ++ us) := by
  simpa using h.append (List.nil_subset (commentsOf us))

namespace Read

variable {fuel n : Nat} {d d' : RulesetDraft}

/-! ### A ruleset -/

/-- From the tokens `ws` a ruleset was read so far.  Until it is opened, the comments before it wait
on the tray; then they describe it, and the inner tray is ready for what it lists. -/
structure RulesetDraft.Settled (A : List Comment) (ws : List Token) (d : RulesetDraft) (k : Tray)
    (r : Row) : Prop where
  outside : d.header = none → d.rules = [] ∧ d.inner = Tray.empty ∧ k.Awaits A ws
  opened : ∀ h ∈ d.header, ∀ x : Ruleset, x.declPos = h.declPos → x.description = h.description →
    (Declaration.ruleset x).Described A k.loose ws
  behind : ∀ h ∈ d.header, StandBehind h.declPos h.comments ws
  rules : ∀ h ∈ d.header, ∀ x ∈ d.rules, ∀ D ∈ x.declarations,
    D.Described h.comments d.inner.loose ws
  inner : ∀ h ∈ d.header, d.inner.Ready h.comments ws r

/-- The word that opens a ruleset takes the description, and the comments behind the bracket are no
description of the first rule. -/
theorem takeHeader_settled {h : Header} (kind : t.kind = .kwRules) (awaits : k.Awaits A ws)
    (g : (takeHeader fuel t).Gives k r h l s) :
    ∃ us, r = Row.behind us s ∧ k.loose ⊆ l.loose ∧
      (⟨some h, [], Tray.empty⟩ : RulesetDraft).Settled A (ws ++ t :: us) l s := by
  obtain ⟨equal, m, bracket, cs, rfl, isEqual, trail, opens, rfl, rfl⟩ := takeHeader_gives.mp g
  obtain ⟨m, rfl, ⟨isEnd, -⟩ | ⟨-, trail⟩⟩ := popTrailing_gives.mp trail
  · exact nomatch opens.symm.trans isEnd
  obtain ⟨us, rfl, block, rfl, -⟩ := trailing_gives trail
  have solid_bracket : bracket.kind ≠ .comment := by simp [opens]
  refine ⟨equal :: bracket :: us, rfl, k.loose_subset_takeDescription _, nofun, ?_, ?_, ?_, ?_⟩
  · rintro _ ⟨⟩ x start same
    exact awaits.described (.ruleset rfl kind start.symm) same
  · rintro _ ⟨⟩
    refine ⟨ws, t, equal :: bracket :: us, rfl, rfl, ?_⟩
    rw [← commentsOf_eq_map block.kind_eq]
    exact ((List.suffix_append [equal, bracket] us).sublist.filter _ |>.map _).subset
  · rintro _ ⟨⟩ x mem
    cases mem
  · rintro _ ⟨⟩
    have split : ws ++ t :: equal :: bracket :: us = ws ++ [t, equal] ++ bracket :: us := by simp
    rw [split]
    refine .inl ⟨.of_empty (.block _ solid_bracket block.kind_eq (List.Subset.refl _)) rfl, ?_⟩
    rw [lastKind_append, lastKind_cons, lastKind_comments _ block.kind_eq,
      kindBehind_of_kind solid_bracket, opens]
    nofun

/-- **A turn of the loop of a ruleset keeps what was read so far settled.** -/
theorem RulesetStep.settled (step : RulesetStep fuel d k r d' l m) (h : d.Settled A ws k r) :
    ∃ us, r = Row.behind us m ∧ k.loose ⊆ l.loose ∧ d'.Settled A (ws ++ us) l m := by
  cases step with
  | @before t m kind outside =>
    obtain ⟨rules, inner, awaits⟩ := h.outside outside
    have one : ∀ u ∈ [t], u.kind = .comment := List.forall_mem_singleton.mpr kind
    refine ⟨[t], rfl, k.loose_subset_foldl_add [Comment.ofToken t],
      fun _ => ⟨rules, inner, awaits.comments one⟩, ?_, ?_, ?_, ?_⟩ <;>
      simp [outside]
  | @header t m₁ h' l m kind outside read =>
    obtain ⟨rules, inner, awaits⟩ := h.outside outside
    obtain ⟨us, rfl, floats, settled⟩ := takeHeader_settled kind awaits read
    rw [rules, inner]
    exact ⟨t :: us, rfl, floats, settled⟩
  | @comment t m h' kind inside =>
    have one : ∀ u ∈ [t], u.kind = .comment := List.forall_mem_singleton.mpr kind
    have floats := d.inner.loose_subset_foldl_add [Comment.ofToken t]
    refine ⟨[t], rfl, List.Subset.refl _, fun none => (nomatch none.symm.trans inside),
      ?_, ?_, ?_, ?_⟩
    · exact fun h' mem x start same => (h.opened h' mem x start same).append [t]
    · exact fun h' mem => (h.behind h' mem).tokens [t]
    · exact fun h' mem x listed D mem' =>
        ((h.rules h' mem x listed D mem').loose floats).append [t]
    · intro h' mem
      -- the comment waits on the inner tray, unless the closing bracket came next
      obtain ⟨awaits, free⟩ | ⟨u, q, row, closes⟩ := h.inner h' mem
      · refine .inl ⟨awaits.comments one, ?_⟩
        rwa [lastKind_append, lastKind_comments _ one]
      · obtain ⟨rfl, -⟩ := Row.cons_inj.mp row
        exact nomatch kind.symm.trans closes
  | @rule t m₁ h' decl inner m other inside read =>
    obtain ⟨awaits, free⟩ | ⟨u, q, row, closes⟩ := h.inner h' inside
    · obtain ⟨us, row, described, floats, ready⟩ := rule_described read awaits free
      have same : ∀ h'' ∈ d.header, h'' = h' := fun h'' mem =>
        Option.some.inj (mem.symm.trans inside)
      refine ⟨us, row, List.Subset.refl _, fun none => (nomatch none.symm.trans inside),
        ?_, ?_, ?_, ?_⟩
      · exact fun h'' mem x start same => (h.opened h'' mem x start same).append us
      · exact fun h'' mem => (h.behind h'' mem).tokens us
      · intro h'' mem
        rw [same h'' mem]
        refine List.forall_mem_append.mpr ⟨fun x listed D mem' => ?_,
          List.forall_mem_singleton.mpr described⟩
        exact ((h.rules h' inside x listed D mem').loose floats).append us
      · intro h'' mem
        rw [same h'' mem]
        exact ready
    · obtain ⟨rfl, -⟩ := Row.cons_inj.mp row
      exact absurd closes other.2.1

/-- What a ruleset declares, when `A` are the comments that trail something before it and `F` float
outside of it. -/
structure DescribesAll (A F : List Comment) (ws : List Token) (x : Ruleset) : Prop where
  all : ∀ D ∈ x.declarations,
    D.Described (A ++ (Node.ruleset x).trailing) (F ++ (Node.ruleset x).upright) ws
  ends : EndsIn (Node.ruleset x).trailing ws []
  behind : StandBehind x.declPos (Node.ruleset x).trailing ws

/-- A ruleset that is closed describes all that it declares. -/
theorem RulesetEnd.described (stop : RulesetEnd fuel d r x s) (h : d.Settled A ws k r) :
    ∃ us, r = Row.behind us s ∧ DescribesAll A k.loose (ws ++ us) x := by
  cases stop with
  | @bracket t m h' cs s kind inside trail =>
    obtain ⟨us, rfl, block, rfl, -⟩ := trailing_gives trail
    refine ⟨t :: us, rfl, List.forall_mem_cons.mpr ⟨?_, ?_⟩, ?_, ?_⟩
    · exact ((h.opened h' inside _ rfl rfl).append (t :: us)).mono (List.subset_append_left _ _)
        (List.subset_append_left _ _)
    · intro D mem
      obtain ⟨y, listed, mem⟩ := List.mem_flatMap.mp mem
      refine ((h.rules h' inside y listed D mem).append (t :: us)).mono ?_ ?_
      · simp only [Node.trailing, CommentGroup.listOf_ofList?]
        exact List.subset_append_of_subset_right _ (List.subset_append_left _ _)
      · refine List.Subset.trans d.inner.loose_subset_spill ?_
        exact List.subset_append_of_subset_right _ (List.subset_append_right _ _)
    · refine .block ws (by simp [kind]) block.kind_eq ?_
      simp only [Node.trailing, CommentGroup.listOf_ofList?]
      exact List.subset_append_right _ _
    · simp only [Node.trailing, CommentGroup.listOf_ofList?]
      refine (h.behind h' inside).append ?_
      rw [← commentsOf_eq_map block.kind_eq]
      exact ((List.suffix_cons t us).sublist.filter _ |>.map _).subset

/-- A ruleset that was settled at some point describes all that it declares. -/
theorem rulesetLoop_described (g : (rulesetLoop fuel n d).Gives k r x l s)
    (h : d.Settled A ws k r) :
    ∃ us, r = Row.behind us s ∧ k.loose ⊆ l.loose ∧ DescribesAll A l.loose (ws ++ us) x := by
  induction n generalizing d k r ws with
  | zero => exact absurd (ParseRules.gives_lift.mp g).2 not_gives_fail
  | succ n ih =>
    obtain ⟨d', k', m, step, rest⟩ | ⟨stop, rfl⟩ := rulesetLoop_gives.mp g
    · obtain ⟨us, rfl, floats, settled⟩ := step.settled h
      obtain ⟨vs, rfl, floats', all⟩ := ih rest settled
      rw [List.append_assoc] at all
      exact ⟨us ++ vs, (Row.behind_append us vs s).symm, List.Subset.trans floats floats', all⟩
    · obtain ⟨us, row, all⟩ := stop.described h
      exact ⟨us, row, List.Subset.refl _, all⟩

/-- A ruleset and all that it lists take their descriptions from the comments before them. -/
theorem ruleset_described (g : (ruleset fuel).Gives k r x l s) (ends : EndsIn A ws []) :
    ∃ us, r = Row.behind us s ∧ k.loose ⊆ l.loose ∧ DescribesAll A l.loose (ws ++ us) x := by
  obtain ⟨l', loop, rfl⟩ := ruleset_gives.mp g
  have fresh : RulesetDraft.empty.Settled A ws ⟨k.floating, []⟩ r :=
    ⟨fun _ => ⟨rfl, rfl, .of_empty ends rfl⟩, nofun, nofun, nofun, nofun⟩
  obtain ⟨us, row, floats, all⟩ := rulesetLoop_described loop fresh
  exact ⟨us, row, floats, all⟩

/-! ### A file -/

variable {before all : List Ruleset} {ts : List Token} {left : Nat}

/-- All declarations of the rulesets `xs` are described; `F` floats outside of them. -/
structure AllDescribed (F : List Comment) (ws : List Token) (xs : List Ruleset) : Prop where
  all : ∀ x ∈ xs, ∀ D ∈ x.declarations,
    D.Described (xs.flatMap fun x => (Node.ruleset x).trailing)
      (F ++ xs.flatMap fun x => (Node.ruleset x).upright) ws
  behind : ∀ x ∈ xs, StandBehind x.declPos (Node.ruleset x).trailing ws

namespace AllDescribed

variable {F G : List Comment}

/-- No rulesets declare nothing. -/
theorem nil (F : List Comment) : AllDescribed F [] [] :=
  ⟨List.forall_mem_nil _, List.forall_mem_nil _⟩

/-- Rulesets stay described when more tokens follow. -/
theorem tokens (h : AllDescribed F ws all) (us : List Token) : AllDescribed F (ws ++ us) all :=
  ⟨fun x listed D mem => (h.all x listed D mem).append us,
    fun x listed => (h.behind x listed).tokens us⟩

/-- Rulesets stay described when more comments float. -/
theorem loose (h : AllDescribed F ws all) (more : F ⊆ G) : AllDescribed G ws all := by
  refine ⟨fun x listed D mem => (h.all x listed D mem).loose ?_, h.behind⟩
  exact List.append_subset.mpr ⟨List.subset_append_of_subset_left _ more,
    List.subset_append_right _ _⟩

/-- One more ruleset that is described joins those before it. -/
theorem append (h : AllDescribed F ws before) (more : F ⊆ G)
    (one : DescribesAll (before.flatMap fun x => (Node.ruleset x).trailing) G (ws ++ us) x) :
    AllDescribed G (ws ++ us) (before ++ [x]) := by
  have grows : ∀ f : Ruleset → List Comment, before.flatMap f ⊆ (before ++ [x]).flatMap f :=
    fun f => by simp
  constructor
  · refine List.forall_mem_append.mpr ⟨fun y old D mem => ?_,
      List.forall_mem_singleton.mpr fun D mem => ?_⟩
    · refine ((h.all y old D mem).append us).mono (grows _) ?_
      exact List.append_subset.mpr ⟨List.subset_append_of_subset_left _ more,
        List.subset_append_of_subset_right _ (grows _)⟩
    · refine (one.all D mem).mono (by simp) ?_
      refine List.append_subset.mpr ⟨List.subset_append_left _ _,
        List.subset_append_of_subset_right _ ?_⟩
      simp
  · exact List.forall_mem_append.mpr ⟨fun y old => (h.behind y old).tokens us,
      List.forall_mem_singleton.mpr one.behind⟩

end AllDescribed

/-- All rulesets of a file are described. -/
theorem rulesetsLoop_described (g : (rulesetsLoop fuel n before).Gives k r all l s)
    (remains : r.Remains ts left) (h : AllDescribed k.loose ws before)
    (ends : EndsIn (before.flatMap fun x => (Node.ruleset x).trailing) ws []) :
    ∃ us, r = Row.behind us s ∧ AllDescribed l.loose (ws ++ us) all := by
  induction n generalizing before k r ws left with
  | zero => exact absurd (ParseRules.gives_lift.mp g).2 not_gives_fail
  | succ n ih =>
    obtain ⟨x, k', t, m, read, rest⟩ | ⟨some, rfl, wanting⟩ := rulesetsLoop_gives.mp g
    · obtain ⟨us, row, floats, one⟩ := ruleset_described read ends
      have both := h.append floats one
      rcases rest with ⟨-, rfl, rfl, rfl⟩ | ⟨-, rest⟩
      · refine ⟨us ++ [t], by rw [row, Row.behind_append]; rfl, ?_⟩
        rw [← List.append_assoc]
        exact both.tokens [t]
      · obtain ⟨fewer, -, remains⟩ := (spends_ruleset remains (le_refl fuel)).holds read
        obtain ⟨vs, row', all⟩ := ih rest remains both (one.ends.mono (by simp))
        rw [List.append_assoc] at all
        exact ⟨us ++ vs, by rw [row, row', Row.behind_append], all⟩
    · obtain ⟨us, t, ⟨rfl, -, -⟩, rfl⟩ := ruleset_fails remains wanting
      refine ⟨us ++ [t], by rw [Row.behind_append]; rfl, ?_⟩
      have floats := List.Subset.trans
        (Tray.loose_subset_foldl_add ⟨k.floating, []⟩ (us.map Comment.ofToken))
        (Tray.loose_subset_spill _)
      exact (h.loose floats).tokens _

end Read

end QualityRules
