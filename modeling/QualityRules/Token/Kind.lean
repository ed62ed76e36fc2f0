import QualityRules.Text.Quoted

/-!
# Token — Kind

What a token is: a word, a literal, a comment, one of the keywords, an operator or a bracket, the
end of the text, or a fault that ends the text early.  Every kind has a name, a number and the
spelling that reports use.

* `Kind.ofWord` reads a run of letters, `Kind.ofSymbol` a single character.
* `Kind.ofName_name` and `Kind.ofCode_code`: a kind is told by its name and by its number.
-/

namespace QualityRules

/-- The kinds of token. -/
inductive Kind where
  /-- A fault; the text of the token says which. -/
  | illegal
  | eof
  | ident
  | number
  /-- A text in double quotes, quotes kept. -/
  | string
  /-- From a number sign to the end of the line. -/
  | comment
  | kwBetween
  | kwAnd
  | kwOr
  | kwIn
  | kwMatches
  /-- The word `now` with the parentheses that follow it. -/
  | kwNow
  | kwDays
  | kwHours
  | kwWith
  | kwThreshold
  | kwTrue
  | kwFalse
  | kwRules
  | equal
  | greater
  | less
  | greaterEqual
  | lessEqual
  | plus
  | minus
  | times
  | divide
  | leftParen
  | rightParen
  | leftBracket
  | rightBracket
  | comma
deriving DecidableEq

namespace Kind

/-- All kinds, in the order of their numbers. -/
def all : List Kind :=
  [illegal, eof, ident, number, string, comment, kwBetween, kwAnd, kwOr, kwIn, kwMatches, kwNow,
    kwDays, kwHours, kwWith, kwThreshold, kwTrue, kwFalse, kwRules, equal, greater, less,
    greaterEqual, lessEqual, plus, minus, times, divide, leftParen, rightParen, leftBracket,
    rightBracket, comma]

theorem mem_all (k : Kind) : k ∈ all := by cases k <;> decide

/-- The name of a kind in listings. -/
def name : Kind → String
  | illegal => "ILLEGAL"
  | eof => "EOF"
  | ident => "IDENT"
  | number => "NUMBER"
  | string => "STRING"
  | comment => "COMMENT"
  | kwBetween => "BETWEEN"
  | kwAnd => "AND"
  | kwOr => "OR"
  | kwIn => "IN"
  | kwMatches => "MATCHES"
  | kwNow => "NOW"
  | kwDays => "DAYS"
  | kwHours => "HOURS"
  | kwWith => "WITH"
  | kwThreshold => "THRESHOLD"
  | kwTrue => "TRUE"
  | kwFalse => "FALSE"
  | kwRules => "RULES"
  | equal => "EQUAL"
  | greater => "GREATER_THAN"
  | less => "LESS_THAN"
  | greaterEqual => "GREATER_EQUAL"
  | lessEqual => "LESS_EQUAL"
  | plus => "PLUS"
  | minus => "MINUS"
  | times => "MULTIPLY"
  | divide => "DIVIDE"
  | leftParen => "LEFT_PAREN"
  | rightParen => "RIGHT_PAREN"
  | leftBracket => "LEFT_BRACKET"
  | rightBracket => "RIGHT_BRACKET"
  | comma => "COMMA"

/-- The number of a kind; each family of kinds has its own ten. -/
def code : Kind → Nat
  | illegal => 0
  | eof => 1
  | ident => 10
  | number => 11
  | string => 12
  | comment => 13
  | kwBetween => 20
  | kwAnd => 21
  | kwOr => 22
  | kwIn => 23
  | kwMatches => 24
  | kwNow => 25
  | kwDays => 26
  | kwHours => 27
  | kwWith => 28
  | kwThreshold => 29
  | kwTrue => 30
  | kwFalse => 31
  | kwRules => 32
  | equal => 40
  | greater => 41
  | less => 42
  | greaterEqual => 43
  | lessEqual => 44
  | plus => 45
  | minus => 46
  | times => 47
  | divide => 48
  | leftParen => 50
  | rightParen => 51
  | leftBracket => 52
  | rightBracket => 53
  | comma => 54

/-- The spelling of a kind in reports. -/
def display : Kind → String
  | illegal => "ILLEGAL"
  | eof => "EOF"
  | ident => "IDENT"
  | number => "NUMBER"
  | string => "STRING"
  | comment => "COMMENT"
  | kwBetween => "between"
  | kwAnd => "and"
  | kwOr => "or"
  | kwIn => "in"
  | kwMatches => "matches"
  | kwNow => "now()"
  | kwDays => "days"
  | kwHours => "hours"
  | kwWith => "with"
  | kwThreshold => "threshold"
  | kwTrue => "true"
  | kwFalse => "false"
  | kwRules => "Rules"
  | equal => "="
  | greater => ">"
  | less => "<"
  | greaterEqual => ">="
  | lessEqual => "<="
  | plus => "+"
  | minus => "-"
  | times => "*"
  | divide => "/"
  | leftParen => "("
  | rightParen => ")"
  | leftBracket => "["
  | rightBracket => "]"
  | comma => ","

/-- An expression starts with a comparison, `between`, `in` or `matches`. -/
def startsExpression : Kind → Bool
  | kwBetween | kwIn | kwMatches | equal | greater | less | greaterEqual | lessEqual => Bool.true
  | _ => Bool.false

/-- A parameter starts with a literal or with `now()`. -/
def startsParameter : Kind → Bool
  | number | string | kwTrue | kwFalse | kwNow => Bool.true
  | _ => Bool.false

/-- The five comparisons. -/
def isComparison : Kind → Bool
  | equal | greater | less | greaterEqual | lessEqual => Bool.true
  | _ => Bool.false

/-- No token follows the end of the text or a fault. -/
def isTerminal : Kind → Bool
  | eof | illegal => Bool.true
  | _ => Bool.false

/-- Every comparison starts an expression. -/
theorem startsExpression_of_isComparison {k : Kind} (h : k.isComparison) : k.startsExpression := by
  cases k <;> simp_all [isComparison, startsExpression]

/-- The words that are not free to name a rule type. -/
def keywords : List (String × Kind) :=
  [("between", kwBetween), ("and", kwAnd), ("or", kwOr), ("in", kwIn), ("matches", kwMatches),
    ("now", kwNow), ("hours", kwHours), ("days", kwDays), ("with", kwWith),
    ("threshold", kwThreshold), ("true", kwTrue), ("false", kwFalse), ("Rules", kwRules)]

/-- The kind of a run of letters: its keyword, or a name. -/
def ofWord (word : String) : Kind := (keywords.lookup word).getD ident

/-- The kind that a single character makes by itself. -/
def ofSymbol : Char → Option Kind
  | '(' => some leftParen
  | ')' => some rightParen
  | '[' => some leftBracket
  | ']' => some rightBracket
  | ',' => some comma
  | '+' => some plus
  | '-' => some minus
  | '*' => some times
  | '/' => some divide
  | '=' => some equal
  | _ => none

/-- What goes wrong when a kind is asked for by name or number. -/
inductive Unknown where
  | name (asked : String)
  | code (asked : Int)
deriving DecidableEq

/-- The wording of a failed look-up: the name in quotes, or the number. -/
def Unknown.message : Unknown → String
  | .name asked => Quoted.text asked
  | .code asked => toString asked ++ " is not a valid TokenKind"

/-- The kind of that name. -/
def ofName (asked : String) : Except Unknown Kind :=
  match all.find? fun k => k.name = asked with
  | some k => .ok k
  | none => .error (.name asked)

/-- The kind of that number. -/
def ofCode (asked : Int) : Except Unknown Kind :=
  match all.find? fun k => (k.code : Int) = asked with
  | some k => .ok k
  | none => .error (.code asked)

theorem ofName_name (k : Kind) : ofName k.name = .ok k := by cases k <;> rfl

theorem ofCode_code (k : Kind) : ofCode k.code = .ok k := by cases k <;> rfl

end Kind

end QualityRules
