/-!
# Text — Pos

A position in a text is an index, counted in code points from zero, with the line and the column
that a reader would name, both counted from one.  Positions are ordered by index first, then line,
then column.  A line that is not positive marks a position that points nowhere.

* `Pos.past` moves over one character, `Pos.pastAll` over a list of them; `pastAll_append` says
  that two moves in a row are one move over both.
* `Pos.le_total` and `Pos.le_trans` are what sorting by position needs.
-/

namespace QualityRules

/-- A place in a text. -/
structure Pos where
  /-- Code points before this place. -/
  index : Nat
  /-- Line number, one for the first line. -/
  line : Int
  /-- Column number, one for the first column. -/
  column : Int
deriving DecidableEq

/-- What is wrong with the coordinates of a place. -/
inductive PosFault where
  | negativeIndex
deriving DecidableEq

/-- The wording of a fault in coordinates. -/
def PosFault.message : PosFault → String
  | .negativeIndex => "Pos index cannot be negative"

namespace Pos

/-- The place before the first character. -/
def origin : Pos := ⟨0, 1, 1⟩

/-- The place that stands for "no place". -/
def nowhere : Pos := ⟨0, 0, 0⟩

instance : Inhabited Pos := ⟨nowhere⟩

/-- A place from any three integers; the index has to be a count. -/
def ofInts (index line column : Int) : Except PosFault Pos :=
  if index < 0 then .error .negativeIndex else .ok ⟨index.toNat, line, column⟩

/-- A place lies in the text when its line does. -/
def isValid (p : Pos) : Bool := 0 < p.line

/-- The place `n` code points further on the same line. -/
def addColumns (p : Pos) (n : Nat) : Pos := ⟨p.index + n, p.line, p.column + n⟩

/-- The place `n` code points further, or back, on the same line. -/
def moveColumns (p : Pos) (n : Int) : Except PosFault Pos :=
  ofInts (p.index + n) p.line (p.column + n)

/-- The start of the line `n` lines further, or back, with one code point to each. -/
def moveLines (p : Pos) (n : Int) : Except PosFault Pos :=
  ofInts (p.index + n) (p.line + n) 1

/-- The place after the character `c` that stands at `p`. -/
def past (p : Pos) (c : Char) : Pos :=
  if c = '\n' then ⟨p.index + 1, p.line + 1, 1⟩ else p.addColumns 1

/-- The place after the characters `cs` that stand at `p`. -/
def pastAll (p : Pos) (cs : List Char) : Pos := cs.foldl past p

@[simp] theorem pastAll_nil (p : Pos) : p.pastAll [] = p := rfl

@[simp] theorem pastAll_cons (p : Pos) (c : Char) (cs : List Char) :
    p.pastAll (c :: cs) = (p.past c).pastAll cs := rfl

theorem pastAll_append (p : Pos) (cs ds : List Char) :
    p.pastAll (cs ++ ds) = (p.pastAll cs).pastAll ds := by
  simp [pastAll]

@[simp] theorem index_past (p : Pos) (c : Char) : (p.past c).index = p.index + 1 := by
  unfold past addColumns; split <;> rfl

@[simp] theorem index_pastAll (p : Pos) (cs : List Char) :
    (p.pastAll cs).index = p.index + cs.length := by
  induction cs generalizing p with
  | nil => rfl
  | cons c cs ih => simp [ih]; omega

/-- On a stretch without a line break only the column moves. -/
theorem pastAll_of_no_newline (p : Pos) (cs : List Char) (h : '\n' ∉ cs) :
    p.pastAll cs = p.addColumns cs.length := by
  induction cs generalizing p with
  | nil => simp [addColumns]
  | cons c cs ih =>
    have hc : c ≠ '\n' := fun e => h (by simp [e])
    rw [pastAll_cons, ih _ (fun m => h (List.mem_cons_of_mem _ m))]
    simp only [past, hc, if_false, addColumns, List.length_cons, Pos.mk.injEq, true_and]
    omega

instance : LT Pos where
  lt p q := p.index < q.index ∨ p.index = q.index ∧
    (p.line < q.line ∨ p.line = q.line ∧ p.column < q.column)

instance : LE Pos where
  le p q := p < q ∨ p = q

instance (p q : Pos) : Decidable (p < q) :=
  inferInstanceAs (Decidable (p.index < q.index ∨ p.index = q.index ∧
    (p.line < q.line ∨ p.line = q.line ∧ p.column < q.column)))

instance (p q : Pos) : Decidable (p ≤ q) := inferInstanceAs (Decidable (p < q ∨ p = q))

theorem lt_iff {p q : Pos} : p < q ↔ p.index < q.index ∨ p.index = q.index ∧
    (p.line < q.line ∨ p.line = q.line ∧ p.column < q.column) := Iff.rfl

theorem le_iff {p q : Pos} : p ≤ q ↔ p < q ∨ p = q := Iff.rfl

theorem le_refl (p : Pos) : p ≤ p := .inr rfl

theorem lt_trans {p q r : Pos} (h : p < q) (k : q < r) : p < r := by
  rw [lt_iff] at *; omega

theorem le_trans {p q r : Pos} (h : p ≤ q) (k : q ≤ r) : p ≤ r := by
  rcases h with h | rfl
  · rcases k with k | rfl
    · exact .inl (lt_trans h k)
    · exact .inl h
  · exact k

theorem le_total (p q : Pos) : p ≤ q ∨ q ≤ p := by
  obtain ⟨i, l, c⟩ := p
  obtain ⟨j, m, d⟩ := q
  simp only [le_iff, lt_iff, Pos.mk.injEq]
  omega

/-- A smaller index comes first whatever the lines and columns are. -/
theorem le_of_index_lt {p q : Pos} (h : p.index < q.index) : p ≤ q := .inl (.inl h)

theorem index_le_of_le {p q : Pos} (h : p ≤ q) : p.index ≤ q.index := by
  rcases h with h | rfl
  · rw [lt_iff] at h; omega
  · exact Nat.le_refl _

/-- The short form `line:column`; a dash for a place that lies nowhere, the line alone where
there is no column. -/
def text (p : Pos) : String :=
  if !p.isValid then "-"
  else if p.column = 0 then toString p.line
  else toString p.line ++ ":" ++ toString p.column

/-- The long form with all three coordinates. -/
def detail (p : Pos) : String :=
  "Pos(" ++ toString p.index ++ ", " ++ toString p.line ++ ", " ++ toString p.column ++ ")"

end Pos

end QualityRules
