import QualityRules.Fault.Reason
import QualityRules.Text.Excerpt

/-!
# Fault — Diagnostic

A report on a text: the reason, its wording with what was found, the place and an excerpt.

* `Diagnostic.report` makes the report; it needs a value for every hole of the wording.
-/

namespace QualityRules

/-- A report on a place in a text. -/
structure Diagnostic where
  reason : Reason
  message : String
  pos : Pos
  snippet : String
deriving DecidableEq

namespace Diagnostic

/-- The report in one line. -/
def wording (message : String) (pos : Pos) (snippet : String) : String :=
  "syntax error near " ++ pos.text ++ " `" ++ snippet ++ "`, " ++ message

/-- The report in one line. -/
def render (d : Diagnostic) : String := wording d.message d.pos d.snippet

/-- The report on `source` at `pos`, with an excerpt of that width and with `values` in the
wording. -/
def report (reason : Reason) (source : String) (pos : Pos) (width : Int) (values : Values) :
    Except MissingValue Diagnostic := do
  let message ← reason.template.fill values
  return ⟨reason, message, pos, Excerpt.near source pos width⟩

end Diagnostic

end QualityRules
