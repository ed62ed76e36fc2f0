/-!
# Fault — Template

The wording of a report, with named holes for what was found in the text.

* `Template.source` shows the wording with its holes in braces.
* `Template.fill` puts values in; with no values at all the wording stays unfilled, and otherwise
  every hole needs one.  `fill_isOk_iff` says when that works.
-/

namespace QualityRules

/-- A piece of a wording. -/
inductive Piece where
  | text (words : String)
  | hole (name : String)
deriving DecidableEq

/-- A wording is a row of pieces. -/
abbrev Template := List Piece

/-- A hole for which no value was given. -/
structure MissingValue where
  name : String
deriving DecidableEq

/-- Values by the names of the holes that they go into. -/
abbrev Values := List (String × String)

namespace Template

/-- The names of the holes, from left to right. -/
def holes (t : Template) : List String :=
  t.filterMap fun
    | .text _ => none
    | .hole name => some name

/-- The wording with `value name` in the place of each hole. -/
def write (t : Template) (value : String → String) : String :=
  String.join <| t.map fun
    | .text words => words
    | .hole name => value name

/-- The wording with its holes shown, each by its name in braces. -/
def source (t : Template) : String := t.write fun name => "\x7b" ++ name ++ "\x7d"

/-- The wording with values in its holes. -/
def fill (t : Template) (values : Values) : Except MissingValue String :=
  if values.isEmpty then .ok t.source
  else match t.holes.find? fun name => (values.lookup name).isNone with
    | some name => .error ⟨name⟩
    | none => .ok (t.write fun name => (values.lookup name).getD "")

@[simp] theorem fill_nil (t : Template) : t.fill [] = .ok t.source := rfl

/-- Filling works when no value is given or every hole has one. -/
theorem fill_isOk_iff (t : Template) (values : Values) :
    (∃ s, t.fill values = .ok s) ↔
      values = [] ∨ ∀ name ∈ t.holes, (values.lookup name).isNone = false := by
  unfold fill
  cases values with
  | nil => simp
  | cons v vs =>
    simp only [List.isEmpty_cons, Bool.false_eq_true, if_false, reduceCtorEq, false_or]
    split
    · next name h =>
      have unbound := List.find?_some h
      have mem := List.mem_of_find?_eq_some h
      refine ⟨fun ⟨_, e⟩ => (nomatch e), fun all => ?_⟩
      rw [all name mem] at unbound
      exact nomatch unbound
    · next h =>
      refine ⟨fun _ name mem => ?_, fun _ => ⟨_, rfl⟩⟩
      exact Bool.eq_false_iff.mpr (List.find?_eq_none.mp h name mem)

end Template

end QualityRules
