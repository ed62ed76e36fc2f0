import QualityRules.Text.Pos

/-!
# Text — Excerpt

The piece of a text that a report quotes.  It starts one character before the place that the
report names, stops where that line ends, and is cut to a width; a cut is marked by three dots.

A width below zero counts from the far end, so that `clip (-2)` drops the last two characters.
-/

namespace QualityRules

/-- The first `width` characters; with a width below zero, all but the last `-width`. -/
def clip (width : Int) (cs : List Char) : List Char :=
  if 0 ≤ width then cs.take width.toNat else cs.take (cs.length - width.natAbs)

namespace Excerpt

/-- The width of an excerpt where nothing else is asked for. -/
def defaultWidth : Int := 20

/-- What follows the place `pos`, and the character before it, up to the end of the line. -/
def line (source : String) (pos : Pos) : List Char :=
  (source.toList.drop (pos.index - 1)).takeWhile (· ≠ '\n')

/-- The excerpt of `source` near `pos`. -/
def near (source : String) (pos : Pos) (width : Int) : String :=
  let shown := line source pos
  if width < shown.length then String.ofList (clip width shown) ++ "..." else String.ofList shown

/-- An excerpt never runs over a line break. -/
theorem newline_not_mem_line (source : String) (pos : Pos) : '\n' ∉ line source pos := by
  intro h
  have := List.all_eq_true.mp List.all_takeWhile _ h
  simp at this

end Excerpt

end QualityRules
