import QualityRules.Text.Pos
import QualityRules.Token.Kind

/-!
# Token — Basic

A token is a kind, a text and the two places between which it stands.  The text is what the source
holds there, except for a fault, whose text says what is wrong.
-/

namespace QualityRules

/-- A piece of a text, with its kind and its place. -/
structure Token where
  kind : Kind
  text : String
  /-- The place of its first character. -/
  start : Pos
  /-- The place after its last character. -/
  stop : Pos
deriving DecidableEq

namespace Token

/-- The code points of `source` from index `first` up to index `last`. -/
def slice (source : String) (first last : Nat) : String :=
  String.ofList ((source.toList.drop first).take (last - first))

/-- The part of `source` that the token covers; nothing for the end of the text and for a
fault. -/
def covered (source : String) (t : Token) : String :=
  if t.kind.isTerminal then "" else slice source t.start.index t.stop.index

/-- What a report says was found where the token stands: its text, or its kind where it has
none. -/
def found (t : Token) : String := if t.text = "" then t.kind.display else t.text

end Token

end QualityRules
