import QualityRules.Tree.Comment

/-!
# Read — Tray

Comments wait on a tray until it shows where they belong.  The run that waits stands on lines that
follow each other; it describes what starts on the line right below it, and otherwise floats.

* `Tray.add`, `Tray.takeDescription` and `Tray.spill` are the operations; `comments_add`,
  `comments_takeDescription` and `comments_spill` say that none loses a comment.
* `TrayFamily` holds several runs that float into one place.
-/

namespace QualityRules

/-- The groups that float, and the run that waits. -/
structure Tray where
  floating : List CommentGroup
  run : List Comment
deriving DecidableEq

namespace Tray

/-- Nothing floats and nothing waits. -/
def empty : Tray := ⟨[], []⟩

/-- No comment waits. -/
def isEmpty (t : Tray) : Bool := t.run.isEmpty

/-- Lets the run float. -/
def spill (t : Tray) : Tray := ⟨t.floating ++ (CommentGroup.ofList? t.run).toList, []⟩

/-- The comments `run` end on the line right above `line`. -/
def endsAbove (run : List Comment) (line : Int) : Bool :=
  match run.getLast? with
  | none => false
  | some last => last.pos.line + 1 = line

/-- Puts a comment on the tray; a run that it does not go on with floats. -/
def add (t : Tray) (c : Comment) : Tray :=
  if t.run.isEmpty || endsAbove t.run c.pos.line then { t with run := t.run ++ [c] }
  else { t.spill with run := [c] }

/-- Takes the run as the description of what starts at `pos`, or lets it float. -/
def takeDescription (t : Tray) (pos : Pos) : Option CommentGroup × Tray :=
  if endsAbove t.run pos.line then (CommentGroup.ofList? t.run, { t with run := [] })
  else (none, t.spill)

/-- All comments on a tray, those that float first. -/
def comments (t : Tray) : List Comment := t.floating.flatMap CommentGroup.comments ++ t.run

@[simp] theorem run_spill (t : Tray) : t.spill.run = [] := rfl

@[simp] theorem comments_spill (t : Tray) : t.spill.comments = t.comments := by
  cases h : t.run with
  | nil => simp [comments, spill, h]
  | cons c cs => simp [comments, spill, h]

@[simp] theorem comments_add (t : Tray) (c : Comment) :
    (t.add c).comments = t.comments ++ [c] := by
  unfold add
  split
  · simp [comments]
  · have := t.comments_spill
    simp only [comments, run_spill, List.append_nil] at this
    simp [comments, this]

theorem comments_takeDescription (t : Tray) (pos : Pos) :
    (t.takeDescription pos).2.comments ++ CommentGroup.listOf (t.takeDescription pos).1
      = t.comments := by
  unfold takeDescription
  split
  · simp [comments]
  · simp [CommentGroup.listOf]

@[simp] theorem run_takeDescription (t : Tray) (pos : Pos) :
    (t.takeDescription pos).2.run = [] := by
  unfold takeDescription; split <;> rfl

end Tray

/-- Several runs that float into one place. -/
structure TrayFamily where
  floating : List CommentGroup
  runs : List (List Comment)
deriving DecidableEq

namespace TrayFamily

/-- One run, empty. -/
def start : TrayFamily := ⟨[], [[]]⟩

/-- The tray of the run with that number. -/
def tray (f : TrayFamily) (i : Nat) : Tray := ⟨f.floating, (f.runs[i]?).getD []⟩

/-- The family when that tray was changed. -/
def setTray (f : TrayFamily) (i : Nat) (t : Tray) : TrayFamily := ⟨t.floating, f.runs.set i t.run⟩

/-- Puts a comment on a tray. -/
def add (f : TrayFamily) (i : Nat) (c : Comment) : TrayFamily := f.setTray i ((f.tray i).add c)

/-- Takes a run as a description, or lets it float. -/
def takeDescription (f : TrayFamily) (i : Nat) (pos : Pos) : Option CommentGroup × TrayFamily :=
  let (g, t) := (f.tray i).takeDescription pos
  (g, f.setTray i t)

/-- Lets a run float. -/
def spill (f : TrayFamily) (i : Nat) : TrayFamily := f.setTray i (f.tray i).spill

/-- One more run, which floats into the same place. -/
def child (f : TrayFamily) : TrayFamily := { f with runs := f.runs ++ [[]] }

end TrayFamily

end QualityRules
