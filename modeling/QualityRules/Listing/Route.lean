/-!
# Listing — Route

Names of files as the steps that lead to them.  Empty steps and single dots lead nowhere and are
left out, two dots lead up and are kept.

* `Route.text_here`: no step at all is the place itself.
-/

namespace QualityRules

/-- Where a route starts. -/
inductive Start where
  /-- In the folder where one is. -/
  | here
  /-- At the root of all files, which one slash names. -/
  | root
  /-- At the root of all files, where the text of the route has exactly two slashes. -/
  | doubleRoot
deriving DecidableEq

namespace Start

/-- What the text of a route begins with. -/
def text : Start → String
  | here => ""
  | root => "/"
  | doubleRoot => "//"

/-- The start of a route whose text begins with so many slashes. -/
def ofSlashes : Nat → Start
  | 0 => here
  | 2 => doubleRoot
  | _ => root

end Start

/-- The steps that lead to a file, and where they start. -/
structure Route where
  start : Start
  steps : List String
deriving DecidableEq

namespace Route

/-- The pieces of a text between slashes. -/
def pieces (text : String) : List String :=
  (go [] text.toList).map String.ofList
where
  /-- The pieces of what is left, where `piece` is the first so far, backwards. -/
  go (piece : List Char) : List Char → List (List Char)
    | [] => [piece.reverse]
    | c :: rest => if c = '/' then piece.reverse :: go [] rest else go (c :: piece) rest

/-- The route that a text names. -/
def ofText (text : String) : Route :=
  ⟨.ofSlashes (text.toList.takeWhile (· = '/')).length,
    (pieces text).filter fun s => s ≠ "" && s ≠ "."⟩

/-- The shortest text that names a route. -/
def text (r : Route) : String :=
  if r.start = .here ∧ r.steps = [] then "." else r.start.text ++ "/".intercalate r.steps

/-- The route to what holds the file. -/
def parent (r : Route) : Route := { r with steps := r.steps.dropLast }

/-- The last step without its suffix.  The suffix starts at the last dot, which is neither the
first nor the last character. -/
def stem (r : Route) : String :=
  let name := (r.steps.getLastD "").toList
  let suffix := name.reverse.takeWhile (· ≠ '.')
  let body := (name.reverse.drop (suffix.length + 1)).reverse
  if suffix.isEmpty || body.isEmpty then String.ofList name else String.ofList body

/-- No step at all is the place itself. -/
theorem text_here : (Route.mk .here []).text = "." := rfl

end Route

end QualityRules
