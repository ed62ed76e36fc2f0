import Mathlib.Data.List.DropRight
import QualityRules.Proofs.Spelling

/-!
# Proofs — Coordinates

What the three coordinates of a place say about a text, and which places near a token say the truth.

* `Pos.Faithful`: so many characters, line breaks, and characters since the last one stand before
  the place.
* `Token.Covers.faithful_addColumns_iff`, `faithful_addColumns_of_mem_lex`: to go on by columns from
  the start of a token is right as long as no line break of the token is passed.
-/

namespace QualityRules

namespace Pos

/-- A place in a text: the line counts the line breaks before it, and the column the characters
since the last of them. -/
structure Faithful (source : String) (p : Pos) : Prop where
  within : p.index ≤ source.length
  line : p.line = 1 + (source.toList.take p.index).count '\n'
  column : p.column = 1 + ((source.toList.take p.index).rtakeWhile (· ≠ '\n')).length

instance (source : String) (p : Pos) : Decidable (p.Faithful source) :=
  decidable_of_iff (p.index ≤ source.length ∧ p.line = 1 + (source.toList.take p.index).count '\n' ∧
      p.column = 1 + ((source.toList.take p.index).rtakeWhile (· ≠ '\n')).length)
    ⟨fun ⟨a, b, c⟩ => ⟨a, b, c⟩, fun ⟨a, b, c⟩ => ⟨a, b, c⟩⟩

/-- The coordinates behind a text count its line breaks and the characters since the last. -/
theorem pastAll_origin (cs : List Char) : origin.pastAll cs =
    ⟨cs.length, 1 + cs.count '\n', 1 + (cs.rtakeWhile (· ≠ '\n')).length⟩ := by
  induction cs using List.reverseRecOn with
  | nil => rfl
  | append_singleton cs c ih =>
    rw [pastAll_append, ih, pastAll_cons, pastAll_nil, past]
    by_cases h : c = '\n'
    · simp [h, add_assoc]
    · simp [h, addColumns, add_assoc]

variable {source : String} {p : Pos} {cs : List Char}

/-- Behind the first characters of a text the coordinates are right. -/
theorem faithful_of_prefix (h : cs <+: source.toList) : (origin.pastAll cs).Faithful source := by
  obtain ⟨rest, eq⟩ := h
  have first : source.toList.take cs.length = cs := by rw [← eq, List.take_left]
  have le : cs.length ≤ source.length := by
    rw [← String.length_toList, ← eq, List.length_append]
    omega
  rw [pastAll_origin]
  exact ⟨le, by rw [first], by rw [first]⟩

/-- The coordinates are right in one way only: they are those behind the characters before. -/
theorem faithful_iff : p.Faithful source ↔
    p.index ≤ source.length ∧ p = origin.pastAll (source.toList.take p.index) := by
  constructor
  · intro h
    refine ⟨h.within, ?_⟩
    have length : (source.toList.take p.index).length = p.index := by
      rw [List.length_take, String.length_toList, Nat.min_eq_left h.within]
    rw [pastAll_origin, length, ← h.line, ← h.column]
  · rintro ⟨-, eq⟩
    rw [eq]
    exact faithful_of_prefix (List.take_prefix _ _)

/-- On a line break the line goes on, and it never goes back. -/
theorem line_pastAll (p : Pos) (cs : List Char) : (p.pastAll cs).line = p.line + cs.count '\n' := by
  induction cs generalizing p with
  | nil => simp
  | cons c cs ih =>
    rw [pastAll_cons, ih, past]
    by_cases h : c = '\n'
    · simp [h]
      omega
    · simp [h, addColumns]

/-- Going on by columns is going on over characters just if there is no line break among them. -/
theorem pastAll_eq_addColumns_iff : p.pastAll cs = p.addColumns cs.length ↔ '\n' ∉ cs := by
  refine ⟨fun eq mem => ?_, pastAll_of_no_newline p cs⟩
  have line := congrArg Pos.line eq
  have some := List.count_pos_iff.mpr mem
  rw [line_pastAll] at line
  simp only [addColumns] at line
  omega

end Pos

namespace Token.Covers

variable {source : String} {t : Token} {before text : List Char} {n : Nat}

/-- A token that covers a stretch of the text starts where it does. -/
theorem faithful_start (h : t.Covers source.toList before text) : t.start.Faithful source := by
  rw [h.start]
  exact Pos.faithful_of_prefix ((List.prefix_append _ _).trans h.inside)

/-- A token that covers a stretch of the text stops where it does. -/
theorem faithful_stop (h : t.Covers source.toList before text) : t.stop.Faithful source := by
  rw [h.stop]
  exact Pos.faithful_of_prefix h.inside

/-- Going on by columns from the start of a token is right as long as no line break of it is
passed. -/
theorem faithful_addColumns_iff (h : t.Covers source.toList before text) (le : n ≤ text.length) :
    (t.start.addColumns n).Faithful source ↔ '\n' ∉ text.take n := by
  have inside : before ++ text.take n <+: source.toList :=
    ((List.prefix_append_right_inj _).mpr (List.take_prefix _ _)).trans h.inside
  have length : (before ++ text.take n).length = (t.start.addColumns n).index := by
    rw [h.start, List.length_append, List.length_take, Nat.min_eq_left le]
    simp [Pos.addColumns, Pos.origin]
  have taken : source.toList.take (t.start.addColumns n).index = before ++ text.take n := by
    rw [← length]
    exact (List.prefix_iff_eq_take.mp inside).symm
  have within : (t.start.addColumns n).index ≤ source.length := by
    rw [← length, ← String.length_toList]
    exact inside.length_le
  have passes : t.start.pastAll (text.take n) = t.start.addColumns (text.take n).length ↔
      '\n' ∉ text.take n := Pos.pastAll_eq_addColumns_iff
  rw [List.length_take_of_le le] at passes
  rw [Pos.faithful_iff, taken, Pos.pastAll_append, ← h.start, eq_comm (a := t.start.addColumns n),
    passes]
  exact and_iff_right within

end Token.Covers

variable {source : String} {t : Token} {n : Nat}

/-- Every token of a text starts at a place of the text. -/
theorem faithful_start_of_mem_lex (h : t ∈ lex source) : t.start.Faithful source := by
  obtain ⟨before, text, covers⟩ := covers_of_mem_lex h
  exact covers.faithful_start

/-- The text of every token but the last is one of its kind. -/
theorem spells_of_mem_lex (h : t ∈ lex source) (other : t.kind.isTerminal = false) :
    t.kind.Spells t.text.toList := by
  obtain ⟨before, text, covers⟩ := covers_of_mem_lex h
  obtain ⟨eq, spells⟩ := covers.spells other
  rwa [eq, String.toList_ofList]

/-- Going on by columns from the start of a token is right up to its first line break. -/
theorem faithful_addColumns_of_mem_lex (h : t ∈ lex source) (other : t.kind.isTerminal = false)
    (le : n ≤ t.text.length) :
    (t.start.addColumns n).Faithful source ↔ '\n' ∉ t.text.toList.take n := by
  obtain ⟨before, text, covers⟩ := covers_of_mem_lex h
  obtain ⟨eq, -⟩ := covers.spells other
  rw [eq, String.length_ofList] at le
  rw [covers.faithful_addColumns_iff le, eq, String.toList_ofList]

end QualityRules
