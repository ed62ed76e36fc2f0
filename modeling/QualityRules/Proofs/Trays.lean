import Mathlib.Data.Multiset.AddSub
import QualityRules.Proofs.Described.Run

/-!
# Proofs — Trays

Several runs of comments float into one place, and what is done to one of them is done between what
is done to the others.  No comment is lost on the way, none is made up, and none overtakes another
that was put on the same tray.

* `TrayFamily.Deed`: what is done to a tray; `TrayFamily.Record`: a deed with the group that it gave
  and the groups that floated by it.
* `TrayFamily.Reaches`: the families that deeds lead to, with the records of these.
* `Tray.Moves`: what one operation does to one tray; `TrayFamily.Turns` says it of one deed in a
  family.
* `TrayFamily.Reaches.accounted` is the main result.
-/

namespace QualityRules

open CommentGroup (ofList?)

/-! ### One tray -/

/-- The comments `cs` are put on the tray `k`; the groups `floated` float then, the group `given` is
taken away, and `k'` is left. -/
structure Tray.Moves (k k' : Tray) (cs : List Comment) (floated : List CommentGroup)
    (given : Option CommentGroup) : Prop where
  floating : k'.floating = k.floating ++ floated
  run : k.run ++ cs = (floated ++ given.toList).flatMap CommentGroup.comments ++ k'.run
  stacked : Stacked k.run →
    (∀ g ∈ floated ++ given.toList, Stacked g.comments) ∧ Stacked k'.run

namespace Tray

variable {k : Tray}

/-- A group of comments, if there are any, has these comments. -/
theorem flatMap_ofList? (cs : List Comment) :
    (ofList? cs).toList.flatMap CommentGroup.comments = cs := by
  cases cs <;> simp

/-- A group of comments on lines that follow each other is such a group. -/
theorem stacked_ofList? {cs : List Comment} (h : Stacked cs) :
    ∀ g ∈ (ofList? cs).toList, Stacked g.comments := by
  intro g mem
  rwa [CommentGroup.comments_of_ofList? (Option.mem_toList.mp mem)]

/-- What waits becomes a group that floats. -/
theorem spill_moves (k : Tray) : k.Moves k.spill [] (ofList? k.run).toList none where
  floating := rfl
  run := by simp [flatMap_ofList?]
  stacked stacked := ⟨by simpa using stacked_ofList? stacked, .nil⟩

/-- A comment goes on with what waits, or what waits floats and the comment waits alone. -/
theorem add_moves (k : Tray) (c : Comment) : ∃ floated, k.Moves (k.add c) [c] floated none := by
  unfold add
  split
  · next goes =>
    refine ⟨[], by simp, rfl, fun stacked => ⟨List.forall_mem_nil _, ?_⟩⟩
    by_cases none : k.run = []
    · rw [none]
      exact .singleton c
    · have above : endsAbove k.run c.pos.line := by simpa [none] using goes
      exact (stacked_append_singleton none).mpr ⟨stacked, endsAbove_iff.mp above⟩
  · refine ⟨(ofList? k.run).toList, rfl, by simp [flatMap_ofList?], fun stacked => ?_⟩
    exact ⟨by simpa using stacked_ofList? stacked, .singleton c⟩

/-- What waits is given when it ends right above the place that asks; otherwise it floats. -/
theorem takeDescription_moves (k : Tray) (pos : Pos) : ∃ floated,
    k.Moves (k.takeDescription pos).2 [] floated (k.takeDescription pos).1 := by
  unfold takeDescription
  split
  · refine ⟨[], by simp, by simp [flatMap_ofList?], fun stacked => ⟨?_, .nil⟩⟩
    exact stacked_ofList? stacked
  · exact ⟨_, k.spill_moves⟩

/-- What is taken away as a description ends on the line above. -/
theorem line_takeDescription {pos : Pos} {g : CommentGroup}
    (given : (k.takeDescription pos).1 = some g) :
    (g.comments.getLast g.ne_nil).pos.line + 1 = pos.line := by
  unfold takeDescription at given
  split at given
  · next above =>
    obtain ⟨c, last, line⟩ := endsAbove_iff.mp above
    have run : g.comments = k.run := CommentGroup.comments_of_ofList? given
    rw [← run, List.getLast?_eq_some_getLast g.ne_nil] at last
    rwa [Option.some.inj last]
  · exact nomatch given

end Tray

/-! ### Deeds -/

namespace TrayFamily

/-- What is done to the tray of that number. -/
inductive Deed where
  | add (i : Nat) (c : Comment)
  | take (i : Nat) (pos : Pos)
  | spill (i : Nat)
  /-- One more tray that floats into the same place as this one. -/
  | child (i : Nat)
deriving DecidableEq

namespace Deed

/-- The tray to which something is done. -/
def tray : Deed → Nat
  | add i _ | take i _ | spill i | child i => i

/-- The comment that is put on the tray. -/
def comment? : Deed → Option Comment
  | add _ c => some c
  | _ => none

/-- The tray is cleared. -/
def clears : Deed → Bool
  | take _ _ | spill _ => true
  | _ => false

end Deed

/-- The family behind a deed. -/
def after (f : TrayFamily) : Deed → TrayFamily
  | .add i c => f.add i c
  | .take i pos => (f.takeDescription i pos).2
  | .spill i => f.spill i
  | .child _ => f.child

/-- The group that a deed gives. -/
def answer (f : TrayFamily) : Deed → Option CommentGroup
  | .take i pos => (f.takeDescription i pos).1
  | _ => none

/-- A deed, the group that it gave, and the groups that floated by it. -/
structure Record where
  deed : Deed
  given : Option CommentGroup
  floated : List CommentGroup
deriving DecidableEq

/-- The groups that left the tray. -/
def Record.left (r : Record) : List CommentGroup := r.floated ++ r.given.toList

/-- A deed with what comes of it; a group floats by it when it did not float before. -/
def record (f : TrayFamily) (d : Deed) : Record :=
  ⟨d, f.answer d, (f.after d).floating.drop f.floating.length⟩

/-- What deeds lead to, one after the other on any of the trays that are there, from a single empty
one. -/
inductive Reaches : List Record → TrayFamily → Prop
  | start : Reaches [] TrayFamily.start
  | step {h : List Record} {f : TrayFamily} (before : Reaches h f) (d : Deed)
      (there : d.tray < f.runs.length) : Reaches (h ++ [f.record d]) (f.after d)

variable {f f' : TrayFamily} {d : Deed} {i j : Nat} {k : Tray} {r : Record} {h : List Record}
  {cs : List Comment} {floated : List CommentGroup} {given : Option CommentGroup}

/-- What the deed of the record `r` makes of the family `f`: the run of its tray goes on with a
comment or leaves, and the other runs stay. -/
structure Turns (f f' : TrayFamily) (r : Record) : Prop where
  floating : f'.floating = f.floating ++ r.floated
  run : (f.tray r.deed.tray).run ++ r.deed.comment?.toList
    = r.left.flatMap CommentGroup.comments ++ (f'.tray r.deed.tray).run
  others : ∀ j, j ≠ r.deed.tray → (f'.tray j).run = (f.tray j).run
  waiting : (f.runs.flatten : Multiset Comment) + r.deed.comment?.toList
    = (r.left.flatMap CommentGroup.comments : Multiset Comment) + f'.runs.flatten
  stacked : (∀ run ∈ f.runs, Stacked run) →
    (∀ g ∈ r.left, Stacked g.comments) ∧ ∀ run ∈ f'.runs, Stacked run

/-- The comments that wait when one of several runs is another one. -/
theorem coe_flatten_set {runs : List (List Comment)} (there : i < runs.length)
    (run : List Comment) : ((runs.set i run).flatten : Multiset Comment) + runs[i]
      = runs.flatten + run := by
  have split : runs.take i ++ runs[i] :: runs.drop (i + 1) = runs := by
    rw [← List.drop_eq_getElem_cons there, List.take_append_drop]
  rw [List.set_eq_take_append_cons_drop, if_pos there]
  conv_rhs => rw [← split]
  simp only [List.flatten_append, List.flatten_cons, ← Multiset.coe_add]
  ac_rfl

/-- What waits on a tray is what waits on it in the family. -/
theorem run_tray (there : i < f.runs.length) : (f.tray i).run = f.runs[i] := by
  simp [tray, there]

/-- To change one tray is a turn of the family. -/
theorem turns_setTray (moves : (f.tray d.tray).Moves k d.comment?.toList floated given)
    (there : d.tray < f.runs.length) :
    Turns f (f.setTray d.tray k) ⟨d, given, floated⟩ where
  floating := moves.floating
  run := by
    have now : ((f.setTray d.tray k).tray d.tray).run = k.run := by simp [tray, setTray, there]
    rw [now]
    exact moves.run
  others j other := by simp [tray, setTray, Ne.symm other]
  waiting := by
    have run := congrArg Multiset.ofList moves.run
    rw [← Multiset.coe_add, ← Multiset.coe_add, run_tray there] at run
    -- both sides with the run that waited before
    refine add_right_cancel (b := (f.runs[d.tray] : Multiset Comment)) ?_
    rw [add_assoc, add_comm (d.comment?.toList : Multiset Comment), run, add_assoc,
      setTray, coe_flatten_set there]
    exact add_left_comm _ _ _
  stacked all := by
    obtain ⟨left, now⟩ := moves.stacked (run_tray there ▸ all _ (List.getElem_mem there))
    refine ⟨left, fun run mem => ?_⟩
    rcases List.mem_or_eq_of_mem_set mem with old | rfl
    · exact all run old
    · exact now

/-- One more tray waits with nothing on it. -/
theorem run_child (f : TrayFamily) (j : Nat) : (f.child.tray j).run = (f.tray j).run := by
  by_cases there : j < f.runs.length
  · simp [tray, child, List.getElem?_append_left there]
  · have none : f.runs[j]? = none := List.getElem?_eq_none (Nat.le_of_not_lt there)
    simp only [tray, child, List.getElem?_append_right (Nat.le_of_not_lt there), none]
    cases j - f.runs.length <;> rfl

/-- A new tray is empty, and nothing changes on the others. -/
theorem turns_child (f : TrayFamily) (i : Nat) : Turns f f.child ⟨.child i, none, []⟩ where
  floating := (List.append_nil _).symm
  run := by rw [run_child]; simp [Record.left, Deed.comment?]
  others j _ := f.run_child j
  waiting := by simp [Record.left, Deed.comment?, child]
  stacked all := by
    refine ⟨List.forall_mem_nil _, List.forall_mem_append.mpr ⟨all, ?_⟩⟩
    exact List.forall_mem_singleton.mpr .nil

/-- **Each deed is a turn of the family**, and its record says which groups floated by it. -/
theorem turns_after (f : TrayFamily) (d : Deed) (there : d.tray < f.runs.length) :
    Turns f (f.after d) (f.record d) := by
  have record {floated : List CommentGroup} (turns : Turns f (f.after d) ⟨d, f.answer d, floated⟩) :
      Turns f (f.after d) (f.record d) := by
    have same : f.record d = ⟨d, f.answer d, floated⟩ := by
      rw [TrayFamily.record, turns.floating, List.drop_left]
    rwa [same]
  cases d with
  | add i c =>
    obtain ⟨floated, moves⟩ := (f.tray i).add_moves c
    exact record (turns_setTray (d := .add i c) moves there)
  | take i pos =>
    obtain ⟨floated, moves⟩ := (f.tray i).takeDescription_moves pos
    exact record (turns_setTray (d := .take i pos) moves there)
  | spill i => exact record (turns_setTray (d := .spill i) (f.tray i).spill_moves there)
  | child i => exact record (turns_child f i)

/-! ### Any number of deeds -/

/-- The comments that were put on a tray, in the order in which they were. -/
def addedTo (i : Nat) (h : List Record) : List Comment :=
  (h.filter fun r => r.deed.tray = i).filterMap fun r => r.deed.comment?

/-- The groups that left a tray, in the order in which they did. -/
def leftFrom (i : Nat) (h : List Record) : List CommentGroup :=
  (h.filter fun r => r.deed.tray = i).flatMap Record.left

/-- Where the comments are that the deeds of some records put on the trays of the family. -/
structure Accounted (h : List Record) (f : TrayFamily) : Prop where
  /-- What floats has floated by one of the deeds, in this order. -/
  floating : f.floating = h.flatMap Record.floated
  /-- Each comment floats, was given, or waits. -/
  all : (h.filterMap fun r => r.deed.comment? : Multiset Comment)
    = (f.floating.flatMap CommentGroup.comments : Multiset Comment)
      + (h.filterMap Record.given).flatMap CommentGroup.comments + f.runs.flatten
  /-- What left a tray was put there first, and what waits on it last. -/
  order (i : Nat) : addedTo i h = (leftFrom i h).flatMap CommentGroup.comments ++ (f.tray i).run
  floats : ∀ g ∈ f.floating, Stacked g.comments
  gives : ∀ g ∈ h.filterMap Record.given, Stacked g.comments
  waits : ∀ run ∈ f.runs, Stacked run
  /-- What a deed gives ends on the line above the place that it is given for. -/
  above : ∀ r ∈ h, ∀ i pos, r.deed = .take i pos → ∀ g ∈ r.given,
    (g.comments.getLast g.ne_nil).pos.line + 1 = pos.line
  /-- Nothing waits on a tray that was cleared. -/
  cleared : ∀ r ∈ h.getLast?, r.deed.clears → (f.tray r.deed.tray).isEmpty

namespace Accounted

/-- Nothing was put on the single tray at the start. -/
theorem start : Accounted [] TrayFamily.start where
  floating := rfl
  all := rfl
  order i := by cases i <;> rfl
  floats := List.forall_mem_nil _
  gives := List.forall_mem_nil _
  waits := List.forall_mem_singleton.mpr .nil
  above := List.forall_mem_nil _
  cleared := nofun

/-- A deed keeps the account. -/
theorem step (account : Accounted h f) (turns : Turns f f' r)
    (above : ∀ i pos, r.deed = .take i pos → ∀ g ∈ r.given,
      (g.comments.getLast g.ne_nil).pos.line + 1 = pos.line)
    (cleared : r.deed.clears → (f'.tray r.deed.tray).isEmpty) : Accounted (h ++ [r]) f' where
  floating := by
    rw [turns.floating, account.floating]
    simp
  all := by
    -- what waited and what the deed put on a tray waits now, or has left it
    have waiting := turns.waiting
    rw [Record.left, List.flatMap_append, ← Multiset.coe_add] at waiting
    have added : ((h ++ [r]).filterMap fun r => r.deed.comment? : Multiset Comment)
        = (h.filterMap fun r => r.deed.comment?) + r.deed.comment?.toList := by
      rw [Multiset.coe_add, List.filterMap_append]
      cases deed : r.deed.comment? <;> simp [deed]
    have given : (h ++ [r]).filterMap Record.given
        = h.filterMap Record.given ++ r.given.toList := by
      rw [List.filterMap_append]
      cases given : r.given <;> simp [given]
    rw [added, given, turns.floating, List.flatMap_append, List.flatMap_append,
      ← Multiset.coe_add, ← Multiset.coe_add, account.all, add_assoc, waiting]
    ac_rfl
  order i := by
    -- only the run of the tray where it is done goes on
    by_cases here : r.deed.tray = i
    · have run := turns.run
      rw [here] at run
      have added : addedTo i (h ++ [r]) = addedTo i h ++ r.deed.comment?.toList := by
        cases deed : r.deed.comment? <;> simp [addedTo, here, deed]
      have left : leftFrom i (h ++ [r]) = leftFrom i h ++ r.left := by simp [leftFrom, here]
      rw [added, left, account.order i, List.append_assoc, run, List.flatMap_append,
        List.append_assoc]
    · have added : addedTo i (h ++ [r]) = addedTo i h := by simp [addedTo, here]
      have left : leftFrom i (h ++ [r]) = leftFrom i h := by simp [leftFrom, here]
      rw [added, left, turns.others i (Ne.symm here), account.order i]
  floats := by
    obtain ⟨left, -⟩ := turns.stacked account.waits
    rw [turns.floating]
    exact List.forall_mem_append.mpr
      ⟨account.floats, fun g mem => left g (List.mem_append_left _ mem)⟩
  gives := by
    obtain ⟨left, -⟩ := turns.stacked account.waits
    intro g mem
    obtain ⟨r', mem, given⟩ := List.mem_filterMap.mp mem
    rcases List.mem_append.mp mem with old | new
    · exact account.gives g (List.mem_filterMap.mpr ⟨r', old, given⟩)
    · obtain rfl := List.mem_singleton.mp new
      exact left g (List.mem_append_right _ (Option.mem_toList.mpr given))
  waits := (turns.stacked account.waits).2
  above := List.forall_mem_append.mpr ⟨account.above, List.forall_mem_singleton.mpr above⟩
  cleared := by
    intro r' last
    rw [List.getLast?_concat] at last
    obtain rfl := Option.some.inj last
    exact cleared

end Accounted

/-- A tray that is cleared holds no run. -/
theorem isEmpty_after (there : d.tray < f.runs.length) (clears : d.clears) :
    ((f.after d).tray d.tray).isEmpty := by
  cases d with
  | add i c | child i => exact nomatch clears
  | take i pos =>
    have there : i < f.runs.length := there
    simp [after, takeDescription, setTray, tray, Deed.tray, Tray.isEmpty, there]
  | spill i =>
    have there : i < f.runs.length := there
    simp [after, spill, setTray, tray, Deed.tray, Tray.isEmpty, there]

/-- **Whatever is done to the trays of a family, each comment that was put on one of them floats, was
given, or waits**, behind those that were put there before it.  What floats, was given or waits stands
on lines that follow each other; what is given ends right above what it is given for, and leaves the
tray empty. -/
theorem Reaches.accounted (reached : Reaches h f) : Accounted h f := by
  induction reached with
  | start => exact .start
  | @step h f _ d there account =>
    refine account.step (turns_after f d there) ?_ (isEmpty_after there)
    intro i pos deed g given
    obtain rfl : d = .take i pos := deed
    exact Tray.line_takeDescription given

/-- Two trays: on the second a run is broken while one grows on the first, which is given then. -/
def brokenRuns : List Deed :=
  [.add 0 ⟨⟨0, 1, 1⟩, "# a"⟩, .child 0, .add 1 ⟨⟨4, 2, 1⟩, "# b"⟩, .add 0 ⟨⟨8, 2, 9⟩, "# c"⟩,
    .add 1 ⟨⟨12, 9, 1⟩, "# d"⟩, .take 0 ⟨16, 3, 1⟩, .spill 1]

/-- A run that is broken on one tray while another grows is kept whole, and both are found again. -/
theorem accounted_brokenRuns : ∃ h f, Reaches h f ∧ h.map Record.deed = brokenRuns ∧
    f.floating.map CommentGroup.texts = [["# b"], ["# d"]] ∧
    (h.filterMap Record.given).map CommentGroup.texts = [["# a", "# c"]] ∧ Accounted h f := by
  have begun := ((Reaches.start.step (.add 0 ⟨⟨0, 1, 1⟩, "# a"⟩) (by decide)).step
    (.child 0) (by decide)).step (.add 1 ⟨⟨4, 2, 1⟩, "# b"⟩) (by decide)
  have broken := (begun.step (.add 0 ⟨⟨8, 2, 9⟩, "# c"⟩) (by decide)).step
    (.add 1 ⟨⟨12, 9, 1⟩, "# d"⟩) (by decide)
  have reached := (broken.step (.take 0 ⟨16, 3, 1⟩) (by decide)).step (.spill 1) (by decide)
  exact ⟨_, _, reached, rfl, by decide, by decide, reached.accounted⟩

end TrayFamily

end QualityRules
