import QualityRules.Fault.Reason
import QualityRules.Text.Quoted
import QualityRules.Token.Kind

/-!
# Token — Lexeme

What stands at the head of a text that starts with no blank.  The first character decides: a
letter starts a word, a digit a number, a double quote a string and a number sign a comment;
everything else stands for itself, but that a greater or less sign takes an equals sign that
follows it.

* `Lexeme.read_eq`: the characters that a lexeme takes and those that it leaves are the text.
* `Lexeme.left_read_lt`: a lexeme leaves less than the text that it heads.
-/

namespace QualityRules

/-- What is wrong with the characters at the head of a text. -/
inductive LexemeFault where
  | unrecognized (c : Char)
  | unterminatedString
  | invalidNumber
  | malformedNow
deriving DecidableEq

namespace LexemeFault

/-- A character by its code point, and by itself where it is printable. -/
def describe (c : Char) : String :=
  let code := "U+" ++ String.ofList (Quoted.upperHex 4 c.toNat)
  if Printable.isPrintable c then code ++ " \x27" ++ String.singleton c ++ "\x27" else code

/-- The wording of a fault. -/
def message : LexemeFault → String
  | unrecognized c => Reason.unrecognizedCharacter.template.write fun _ => describe c
  | unterminatedString => Reason.unterminatedString.template.source
  | invalidNumber => Reason.invalidNumber.template.source
  | malformedNow => Reason.malformedNow.template.source

end LexemeFault

/-- What stands at the head of a text: a piece of some kind, a fault, or nothing. -/
inductive Lexeme where
  /-- The characters `text` make a piece of that kind, and `rest` follows. -/
  | piece (kind : Kind) (text rest : List Char)
  /-- The characters `text` were looked at when the fault showed, and `rest` follows. -/
  | fault (fault : LexemeFault) (text rest : List Char)
  /-- The text is at its end. -/
  | finish
deriving DecidableEq

namespace Lexeme

/-- Blanks stand between tokens and mean nothing. -/
def isBlank (c : Char) : Bool := c = ' ' || c = '\t' || c = '\n'

/-- The letters of ASCII. -/
def isLetter (c : Char) : Bool := ('a' ≤ c && c ≤ 'z') || ('A' ≤ c && c ≤ 'Z')

/-- The digits of ASCII. -/
def isDigit (c : Char) : Bool := '0' ≤ c && c ≤ '9'

/-- The characters that a lexeme takes. -/
def taken : Lexeme → List Char
  | piece _ text _ => text
  | fault _ text _ => text
  | finish => []

/-- The characters that a lexeme leaves. -/
def left : Lexeme → List Char
  | piece _ _ rest => rest
  | fault _ _ rest => rest
  | finish => []

/-- The word `now` is complete with a pair of parentheses right behind it. -/
def now (word : List Char) : List Char → Lexeme
  | '(' :: ')' :: rest => piece .kwNow (word ++ ['(', ')']) rest
  | '(' :: c :: rest => fault .malformedNow (word ++ ['(', c]) rest
  | c :: rest => fault .malformedNow (word ++ [c]) rest
  | [] => fault .malformedNow word []

/-- The longest run of letters, which is a keyword or a name. -/
def word (cs : List Char) : Lexeme :=
  let run := cs.takeWhile isLetter
  let rest := cs.dropWhile isLetter
  match Kind.ofWord (String.ofList run) with
  | .kwNow => now run rest
  | kind => piece kind run rest

/-- The characters up to the next double quote, which closes the string. -/
def string (cs : List Char) : Lexeme :=
  let body := cs.takeWhile (· != '"')
  match cs.dropWhile (· != '"') with
  | mark :: rest => piece .string ('"' :: body ++ [mark]) rest
  | [] => fault .unterminatedString ('"' :: body) []

/-- The end of a number, unless one of the characters in `bad` follows. -/
def numberEnd (digits : List Char) (bad : Char → Bool) : List Char → Lexeme
  | [] => piece .number digits []
  | c :: rest =>
    if bad c then fault .invalidNumber (digits ++ [c]) rest else piece .number digits (c :: rest)

/-- Digits, which may go on with a point and more digits; neither a letter nor another point may
follow. -/
def number (cs : List Char) : Lexeme :=
  let whole := cs.takeWhile isDigit
  match cs.dropWhile isDigit with
  | '.' :: rest =>
    let digits := whole ++ '.' :: rest.takeWhile isDigit
    numberEnd digits (fun c => c = '.' || isLetter c) (rest.dropWhile isDigit)
  | rest => numberEnd whole isLetter rest

/-- The characters up to the end of the line. -/
def comment (cs : List Char) : Lexeme :=
  piece .comment ('#' :: cs.takeWhile (· != '\n')) (cs.dropWhile (· != '\n'))

/-- A greater or less sign, with the equals sign that may follow it. -/
def comparison (c : Char) : List Char → Lexeme
  | '=' :: rest => piece (if c = '>' then .greaterEqual else .lessEqual) [c, '='] rest
  | rest => piece (if c = '>' then .greater else .less) [c] rest

/-- The lexeme that starts with `c`. -/
def startingWith (c : Char) (rest : List Char) : Lexeme :=
  if isLetter c then word (c :: rest)
  else if c = '"' then string rest
  else if isDigit c then number (c :: rest)
  else if c = '#' then comment rest
  else if c = '>' ∨ c = '<' then comparison c rest
  else match Kind.ofSymbol c with
    | some kind => piece kind [c] rest
    | none => fault (.unrecognized c) [c] rest

/-- The lexeme at the head of a text. -/
def read : List Char → Lexeme
  | [] => finish
  | c :: rest => startingWith c rest

theorem now_eq (run rest : List Char) :
    (now run rest).taken ++ (now run rest).left = run ++ rest := by
  unfold now; split <;> simp [taken, left]

theorem word_eq (cs : List Char) : (word cs).taken ++ (word cs).left = cs := by
  unfold word
  simp only
  split
  · rw [now_eq, List.takeWhile_append_dropWhile]
  · simp [taken, left]

theorem string_eq (cs : List Char) : (string cs).taken ++ (string cs).left = '"' :: cs := by
  unfold string
  simp only
  split
  · next h => simp [taken, left, ← h]
  · next h =>
    have := List.takeWhile_append_dropWhile (p := (· != '"')) (l := cs)
    rw [h, List.append_nil] at this
    simp only [taken, left, List.append_nil, this]

theorem numberEnd_eq (digits : List Char) (bad : Char → Bool) (rest : List Char) :
    (numberEnd digits bad rest).taken ++ (numberEnd digits bad rest).left = digits ++ rest := by
  unfold numberEnd
  split
  · simp [taken, left]
  · split <;> simp [taken, left]

theorem number_eq (cs : List Char) : (number cs).taken ++ (number cs).left = cs := by
  unfold number
  simp only
  split
  · next rest h =>
    rw [numberEnd_eq]
    simp [← h]
  · rw [numberEnd_eq, List.takeWhile_append_dropWhile]

theorem comparison_eq (c : Char) (cs : List Char) :
    (comparison c cs).taken ++ (comparison c cs).left = c :: cs := by
  unfold comparison; split <;> simp [taken, left]

/-- Nothing is lost: what a lexeme takes and what it leaves make up the text. -/
theorem read_eq (cs : List Char) : (read cs).taken ++ (read cs).left = cs := by
  cases cs with
  | nil => rfl
  | cons c rest =>
    simp only [read, startingWith]
    split
    · exact word_eq _
    split
    · next h => rw [h, string_eq]
    split
    · exact number_eq _
    split
    · next h => simp [comment, taken, left, h]
    split
    · exact comparison_eq _ _
    split <;> simp [taken, left]

/-- A run of letters that starts with one is not empty. -/
theorem takeWhile_cons_ne_nil {p : Char → Bool} {c : Char} (h : p c) (rest : List Char) :
    (c :: rest).takeWhile p ≠ [] := by simp [h]

theorem now_taken_ne_nil {run : List Char} (h : run ≠ []) (rest : List Char) :
    (now run rest).taken ≠ [] := by
  unfold now; split <;> simp [taken, h]

theorem numberEnd_taken_ne_nil {digits : List Char} (h : digits ≠ []) (bad : Char → Bool)
    (rest : List Char) : (numberEnd digits bad rest).taken ≠ [] := by
  unfold numberEnd
  split
  · simp [taken, h]
  · split <;> simp [taken, h]

/-- A lexeme takes at least its first character. -/
theorem startingWith_taken_ne_nil (c : Char) (rest : List Char) :
    (startingWith c rest).taken ≠ [] := by
  unfold startingWith
  split
  · next h =>
    simp only [word]
    split
    · exact now_taken_ne_nil (takeWhile_cons_ne_nil h rest) _
    · exact takeWhile_cons_ne_nil h rest
  split
  · simp only [string]; split <;> simp [taken]
  split
  · simp only [number]
    split
    · exact numberEnd_taken_ne_nil (by simp) _ _
    · next h _ _ => exact numberEnd_taken_ne_nil (takeWhile_cons_ne_nil h rest) _ _
  split
  · simp [comment, taken]
  split
  · unfold comparison; split <;> simp [taken]
  split <;> simp [taken]

/-- What is left behind a lexeme is shorter than the text that it heads. -/
theorem left_read_lt (c : Char) (rest : List Char) :
    (read (c :: rest)).left.length < (c :: rest).length := by
  have whole := congrArg List.length (read_eq (c :: rest))
  have some : (read (c :: rest)).taken.length ≠ 0 := fun h =>
    startingWith_taken_ne_nil c rest (List.eq_nil_of_length_eq_zero h)
  rw [List.length_append] at whole
  omega

end Lexeme

end QualityRules
