import Mathlib.Data.List.Chain
import QualityRules.Proofs.Ledger.Lead

/-!
# Proofs — Described — Run

Which of the comments before a declaration describe it.  The tray keeps the last ones that stand on
lines that follow each other, and gives them away when they end right above what comes next.

* `LongestStack`: the longest end of a row of comments that has no gap between its lines;
  `longestStack_lastRun`: the tray keeps that.
* `Describes`: what a row of comments says of the line on which a declaration starts.
* `EndsIn`: the comments at the end of some tokens, without those that trail something before;
  `Tray.Awaits`: they are on the tray.
-/

namespace QualityRules

open CommentGroup (listOf)

variable {cs run : List Comment} {c : Comment} {k l : Tray} {pos : Pos}

/-! ### Runs of comments -/

/-- The comments stand on lines that follow each other. -/
def Stacked (cs : List Comment) : Prop := cs.IsChain fun a b => a.pos.line + 1 = b.pos.line

/-- The longest end of the comments `cs` that stand on lines that follow each other. -/
structure LongestStack (cs run : List Comment) : Prop where
  suffix : run <:+ cs
  stacked : Stacked run
  longest : ∀ s, s <:+ cs → Stacked s → s.length ≤ run.length

/-- What the comments `cs` say of a declaration that starts on a line: when the last of them stands
on the line above, the longest end without a gap is the description, and otherwise there is none. -/
structure Describes (cs : List Comment) (line : Int) (description : Option CommentGroup) :
    Prop where
  present : description.isSome ↔ ∃ c ∈ cs.getLast?, c.pos.line + 1 = line
  run : ∀ g ∈ description, LongestStack cs g.comments

/-- A run ends right above a line when its last comment is on the line before. -/
theorem endsAbove_iff {line : Int} : Tray.endsAbove cs line ↔
    ∃ c ∈ cs.getLast?, c.pos.line + 1 = line := by
  unfold Tray.endsAbove
  cases cs.getLast? <;> simp

/-- The last run goes on with a comment on the next line; any other comment starts a run. -/
theorem lastRun_append (cs : List Comment) (c : Comment) : lastRun (cs ++ [c]) =
    if Tray.endsAbove (lastRun cs) c.pos.line then lastRun cs ++ [c] else [c] := by
  have add : ∀ k : Tray, (k.add c).run =
      if Tray.endsAbove k.run c.pos.line then k.run ++ [c] else [c] := by
    rintro ⟨floating, _ | ⟨a, as⟩⟩
    · rfl
    · simp only [Tray.add, List.isEmpty_cons, Bool.false_or]
      split <;> rfl
  rw [lastRun, List.foldl_append]
  exact add _

/-- The last comment is the last of its run. -/
theorem getLast?_lastRun (cs : List Comment) : (lastRun cs).getLast? = cs.getLast? := by
  induction cs using List.reverseRecOn with
  | nil => rfl
  | append_singleton cs c =>
    rw [lastRun_append]
    split <;> simp

/-- A run goes on with a comment on the line below. -/
theorem stacked_append_singleton (some : run ≠ []) :
    Stacked (run ++ [c]) ↔ Stacked run ∧ ∃ d ∈ run.getLast?, d.pos.line + 1 = c.pos.line := by
  have last := List.getLast?_eq_some_getLast some
  simp [Stacked, List.isChain_append, last]

/-- **The tray keeps the longest end of the comments that has no gap.** -/
theorem longestStack_lastRun (cs : List Comment) : LongestStack cs (lastRun cs) := by
  induction cs using List.reverseRecOn with
  | nil =>
    refine ⟨List.suffix_rfl, .nil, fun s suffix _ => ?_⟩
    rw [List.suffix_nil.mp suffix]
    exact Nat.zero_le _
  | append_singleton cs c ih =>
    rw [lastRun_append]
    -- a longer end of all is `c` behind an end of the comments before
    have shape : ∀ s, s <:+ cs ++ [c] → Stacked s → s = [] ∨
        ∃ s', s = s' ++ [c] ∧ s' <:+ cs ∧ Stacked s' ∧ (s' ≠ [] →
          ∃ d ∈ (lastRun cs).getLast?, d.pos.line + 1 = c.pos.line) := by
      intro s suffix stacked
      rcases List.suffix_concat_iff.mp suffix with rfl | ⟨s', rfl, suffix'⟩
      · exact .inl rfl
      refine .inr ⟨s', rfl, suffix', ?_⟩
      by_cases some : s' = []
      · subst some
        exact ⟨.nil, fun none => absurd rfl none⟩
      · obtain ⟨stacked', d, last, above⟩ := (stacked_append_singleton some).mp stacked
        refine ⟨stacked', fun _ => ⟨d, ?_, above⟩⟩
        obtain ⟨rest, rfl⟩ := suffix'
        rw [getLast?_lastRun]
        exact List.mem_getLast?_append_of_mem_getLast? last
    split
    · next above =>
      obtain ⟨d, last, above⟩ := endsAbove_iff.mp above
      have some : lastRun cs ≠ [] := by
        intro none
        rw [none] at last
        cases last
      refine ⟨?_, (stacked_append_singleton some).mpr ⟨ih.stacked, d, last, above⟩, ?_⟩
      · obtain ⟨rest, eq⟩ := ih.suffix
        exact ⟨rest, by rw [← List.append_assoc, eq]⟩
      · intro s suffix stacked
        rcases shape s suffix stacked with rfl | ⟨s', rfl, suffix', stacked', -⟩
        · exact Nat.zero_le _
        · simpa using ih.longest s' suffix' stacked'
    · next apart =>
      refine ⟨List.suffix_append cs [c], .singleton c, fun s suffix stacked => ?_⟩
      rcases shape s suffix stacked with rfl | ⟨s', rfl, -, -, follows⟩
      · exact Nat.zero_le _
      · by_cases some : s' = []
        · rw [some]
          rfl
        · exact absurd (endsAbove_iff.mpr (follows some)) apart

/-! ### Comments on a tray -/

namespace Tray

/-- The comments that float. -/
def loose (k : Tray) : List Comment := k.floating.flatMap CommentGroup.comments

/-- On a tray are the comments that float and those that wait. -/
theorem comments_eq (k : Tray) : k.comments = k.loose ++ k.run := rfl

/-- What waits is the description of what starts right below, as far as there is no gap. -/
theorem describes (kept : k.run = lastRun cs) (pos : Pos) :
    Describes cs pos.line (k.takeDescription pos).1 := by
  unfold takeDescription
  rw [kept]
  split
  · next above =>
    obtain ⟨c, last, line⟩ := endsAbove_iff.mp above
    have some : lastRun cs ≠ [] := by
      intro none
      rw [none] at last
      cases last
    refine ⟨?_, fun g known => ?_⟩
    · have isSome : (CommentGroup.ofList? (lastRun cs)).isSome := by
        rw [Option.isSome_iff_ne_none]
        exact fun none => some (CommentGroup.ofList?_eq_none_iff.mp none)
      rw [getLast?_lastRun] at last
      exact iff_of_true isSome ⟨c, last, line⟩
    · rw [CommentGroup.comments_of_ofList? known]
      exact longestStack_lastRun cs
  · next apart =>
    refine ⟨iff_of_false (by simp) fun follows => apart ?_, nofun⟩
    rw [← getLast?_lastRun] at follows
    exact endsAbove_iff.mpr follows

/-- What was on a tray is given or floats. -/
theorem comments_subset_takeDescription (k : Tray) (pos : Pos) :
    k.comments ⊆ listOf (k.takeDescription pos).1 ++ (k.takeDescription pos).2.loose := by
  intro c mem
  rw [← k.comments_takeDescription pos, comments_eq, run_takeDescription, List.append_nil] at mem
  exact List.mem_append.mpr (List.mem_append.mp mem).symm

/-- What was on a tray floats when it is spilled. -/
theorem comments_subset_spill (k : Tray) : k.comments ⊆ k.spill.loose := by
  rw [← k.comments_spill, comments_eq, run_spill, List.append_nil]
  exact List.Subset.refl _

/-- What floats is on the tray. -/
theorem loose_subset_comments (k : Tray) : k.loose ⊆ k.comments := List.subset_append_left _ _

/-- What floats still does when the tray is spilled. -/
theorem loose_subset_spill (k : Tray) : k.loose ⊆ k.spill.loose :=
  List.Subset.trans k.loose_subset_comments k.comments_subset_spill

/-- What floats still does when a description is asked for. -/
theorem loose_subset_takeDescription (k : Tray) (pos : Pos) :
    k.loose ⊆ (k.takeDescription pos).2.loose := by
  unfold takeDescription
  split
  · exact List.Subset.refl _
  · exact k.loose_subset_spill

/-- What floats still does when comments are put on the tray. -/
theorem loose_subset_foldl_add (k : Tray) (cs : List Comment) :
    k.loose ⊆ (cs.foldl add k).loose := by
  induction cs generalizing k with
  | nil => exact List.Subset.refl _
  | cons c cs ih =>
    refine List.Subset.trans ?_ (ih (k.add c))
    unfold add
    split
    · exact List.Subset.refl _
    · exact k.loose_subset_spill

end Tray

/-! ### Comments at the end of tokens -/

/-- The tokens `ws` end in the comments `cs`; comments right before these are among `A`. -/
def EndsIn (A : List Comment) (ws : List Token) (cs : List Comment) : Prop :=
  ∃ base us vs, ws = base ++ (us ++ vs) ∧ (∀ t ∈ base.getLast?, t.kind ≠ .comment) ∧
    (∀ t ∈ us ++ vs, t.kind = .comment) ∧ us.map Comment.ofToken ⊆ A ∧
    vs.map Comment.ofToken = cs

variable {A B : List Comment} {ws us : List Token} {t : Token}

namespace EndsIn

/-- No tokens end in no comments. -/
theorem nil (A : List Comment) : EndsIn A [] [] :=
  ⟨[], [], [], rfl, by simp, List.forall_mem_nil _, by simp, rfl⟩

/-- More comments may stand right before the end. -/
theorem mono (h : EndsIn A ws cs) (more : A ⊆ B) : EndsIn B ws cs := by
  obtain ⟨base, us, vs, eq, ends, comments, old, rest⟩ := h
  exact ⟨base, us, vs, eq, ends, comments, List.Subset.trans old more, rest⟩

/-- Comments that follow belong to the end. -/
theorem comments (h : EndsIn A ws cs) (all : ∀ t ∈ us, t.kind = .comment) :
    EndsIn A (ws ++ us) (cs ++ us.map Comment.ofToken) := by
  obtain ⟨base, us₁, vs, rfl, ends, comments, old, rfl⟩ := h
  refine ⟨base, us₁, vs ++ us, by simp, ends, ?_, old, by simp⟩
  rw [← List.append_assoc]
  exact List.forall_mem_append.mpr ⟨comments, all⟩

/-- Behind another token, the comments that trail it do not count. -/
theorem block (ws : List Token) (kind : t.kind ≠ .comment) (all : ∀ t ∈ us, t.kind = .comment)
    (trail : us.map Comment.ofToken ⊆ A) : EndsIn A (ws ++ t :: us) [] := by
  refine ⟨ws ++ [t], us, [], by simp, ?_, by simpa using all, trail, rfl⟩
  simpa using kind

/-- Behind another token no comments wait. -/
theorem token (A : List Comment) (ws : List Token) (kind : t.kind ≠ .comment) :
    EndsIn A (ws ++ [t]) [] :=
  block ws kind (List.forall_mem_nil _) (by simp)

end EndsIn

namespace Tray

/-- The comments at the end of the tokens `ws` are on the tray, the last run of them as what
waits. -/
def Awaits (A : List Comment) (ws : List Token) (k : Tray) : Prop :=
  ∃ cs, EndsIn A ws cs ∧ k.run = lastRun cs ∧ cs ⊆ k.comments

namespace Awaits

/-- Where no comments are at the end nothing waits. -/
theorem of_empty (ends : EndsIn A ws []) (none : k.run = []) : k.Awaits A ws :=
  ⟨[], ends, none, List.nil_subset _⟩

/-- Comments that follow are put on the tray and wait. -/
theorem comments (h : k.Awaits A ws) (all : ∀ t ∈ us, t.kind = .comment) :
    ((us.map Comment.ofToken).foldl add k).Awaits A (ws ++ us) := by
  obtain ⟨cs, ends, kept, inside⟩ := h
  refine ⟨cs ++ us.map Comment.ofToken, ends.comments all, ?_, fun c mem => ?_⟩
  · rw [lastRun, List.foldl_append]
    exact run_foldl_add kept _
  · rw [← Multiset.mem_coe, show ((_ : Tray).comments : Multiset Comment) = bag _ from rfl,
      bag_foldl_add, Multiset.mem_add]
    exact (List.mem_append.mp mem).imp_left fun mem => Multiset.mem_coe.mpr (inside mem)

end Awaits

end Tray

end QualityRules
