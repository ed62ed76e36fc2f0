import QualityRules.Listing.FileFault
import QualityRules.Listing.Route

/-!
# Listing — Homes

The folders of users.  A route from here whose first step is a tilde goes on from one's own folder,
one whose first step is a tilde and a name from the folder of the user of that name.

* `Route.fromHome` puts the folder in place of that step; `fromHome_of_plain`: a route with no
  tilde is left as it is.
-/

namespace QualityRules

/-- Where the folders of users are. -/
structure Homes where
  /-- One's own folder. -/
  own : Option Route
  /-- Users by their names, with their folders. -/
  users : List (String × Route)

namespace Homes

/-- The folder that a text names; an empty text names the root of all files. -/
def folder (text : String) : Route :=
  if text.isEmpty then ⟨.root, []⟩ else Route.ofText text

/-- The folder of the user of that name; the empty name is one's own. -/
def find? (homes : Homes) (name : String) : Option Route :=
  if name.isEmpty then homes.own else homes.users.lookup name

/-- The users in a table of accounts, one account a line, with colons between its entries.  The
first entry is the name and the sixth the folder. -/
def accounts (table : String) : List (String × Route) :=
  (table.splitOn "\n").filterMap fun line =>
    match line.splitOn ":" with
    | name :: _ :: _ :: _ :: _ :: home :: _ => some (name, folder home)
    | _ => none

end Homes

/-- The name behind the tilde of a step; none if there is no tilde. -/
def Route.userOf? (step : String) : Option String :=
  match step.toList with
  | '~' :: name => some (String.ofList name)
  | _ => none

/-- The route with the folder of a user in place of a first step that names the user. -/
def Route.fromHome (homes : Homes) (r : Route) : Except FileFault Route :=
  match r.start, r.steps with
  | .here, step :: rest =>
    match Route.userOf? step with
    | none => .ok r
    | some name =>
      if name.contains '\x00' then .error .zeroInName
      else match homes.find? name with
        | none => .error .noHome
        | some home => .ok { home with steps := home.steps ++ rest }
  | _, _ => .ok r

/-- A route whose first step names no user stays as it is. -/
theorem Route.fromHome_of_plain (homes : Homes) (r : Route)
    (h : ∀ step ∈ r.steps.head?, Route.userOf? step = none) : r.fromHome homes = .ok r := by
  obtain ⟨start, steps⟩ := r
  cases start with
  | here =>
    cases steps with
    | nil => rfl
    | cons step rest => simp [fromHome, h step (by simp)]
  | root | doubleRoot => rfl

end QualityRules
