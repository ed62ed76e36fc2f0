import QualityRules.Text.Quoted
import QualityRules.Token.Basic

/-!
# Token — Listing

Tokens as lines of text, one line each, with the text of the token in quotes.  There are two
layouts: `dumpLine` starts with a padded number and puts the text last, `listLine` starts with a
number in brackets, puts the text before the places and marks a fault.
-/

namespace QualityRules.Token

/-- A number in decimal digits, at least `width` of them. -/
def paddedNumber (width n : Nat) : String :=
  String.ofList ((Nat.toDigits 10 n).leftpad width '0')

/-- A word with blanks behind it, `width` characters in all. -/
def paddedWord (width : Nat) (word : String) : String :=
  String.ofList (word.toList.rightpad width ' ')

/-- The two places of a token. -/
def span (t : Token) : String := "start=" ++ t.start.text ++ " end=" ++ t.stop.text

/-- The token by itself. -/
def detail (t : Token) : String :=
  "Token(" ++ t.kind.name ++ ", start=" ++ t.start.text ++ ", end=" ++ t.stop.text ++ ", text="
    ++ Quoted.text t.text ++ ")"

/-- The line of the token with that number in a dump. -/
def dumpLine (number : Nat) (t : Token) : String :=
  paddedNumber 3 number ++ " " ++ paddedWord 14 t.kind.name ++ " " ++ t.span ++ " text="
    ++ Quoted.text t.text

/-- The line of the token with that number in a listing. -/
def listLine (number : Nat) (t : Token) : String :=
  "[" ++ toString number ++ "] kind=" ++ t.kind.name ++ " text=" ++ Quoted.text t.text ++ " "
    ++ t.span ++ (if t.kind = .illegal then " error=True" else "")

/-- The lines of `ts`, each with its number, counted from zero. -/
def lines (line : Nat → Token → String) (ts : List Token) : List String :=
  ts.zipIdx.map fun (t, number) => line number t

/-- Lines as one text, each closed by a line feed. -/
def unlines (ls : List String) : String := String.join (ls.map (· ++ "\n"))

/-- The dump of a row of tokens. -/
def dump (ts : List Token) : String := unlines (lines dumpLine ts)

/-- The listing of a row of tokens. -/
def listing (ts : List Token) : String := unlines (lines listLine ts)

/-- There is one line for each token. -/
theorem length_lines (line : Nat → Token → String) (ts : List Token) :
    (lines line ts).length = ts.length := by
  simp [lines]

end QualityRules.Token
