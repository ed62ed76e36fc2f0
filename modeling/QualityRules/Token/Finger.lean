import QualityRules.Token.Scanner

/-!
# Token — Finger

The scanner at the grain of single characters.  A finger moves over a text, one character at a time,
and remembers where it stood before its last move, to which it can go back once.  Line and column
are counted on the way.  It also remembers where the token starts that is being read.

* `Finger.next`, `Finger.back`, `Finger.accept`, `Finger.ignore` and `Finger.emit` are the moves.
* `Finger.turn` is one turn in a state, which gives a token or goes on in another state.
* `Finger.Visits`: the states that come up between two turns; `Finger.Gives`: the tokens that are
  given from a state on; `Finger.Pull`: one of them at a time, for one who may ask to stop.
-/

namespace QualityRules

open Lexeme (isBlank isLetter isDigit)

/-- A place in a text, the place before the last move, and where the token starts. -/
structure Finger where
  source : String
  here : Pos
  before : Pos
  start : Pos
deriving DecidableEq

namespace Finger

/-- A finger before the first character of a text. -/
def atStart (source : String) : Finger := ⟨source, .origin, .origin, .origin⟩

/-- The characters that the finger did not pass. -/
def rest (f : Finger) : List Char := f.source.toList.drop f.here.index

/-- Moves over the next character; at the end of the text there is none, and the finger stays. -/
def next (f : Finger) : Option Char × Finger :=
  match f.rest with
  | [] => (none, { f with before := f.here })
  | c :: _ => (some c, { f with before := f.here, here := f.here.past c })

/-- Takes the last move back. -/
def back (f : Finger) : Finger := { f with here := f.before }

/-- Moves over the next character if it is `c`. -/
def accept (f : Finger) (c : Char) : Bool × Finger :=
  let (d, g) := f.next
  if d = some c then (true, g) else (false, g.back)

/-- Drops what was read. -/
def ignore (f : Finger) : Finger := { f with start := f.here }

/-- What was read, as a token of that kind. -/
def token (f : Finger) (kind : Kind) : Token :=
  ⟨kind, Token.slice f.source f.start.index f.here.index, f.start, f.here⟩

/-- A fault over what was read. -/
def fault (f : Finger) (message : String) : Token := ⟨.illegal, message, f.start, f.here⟩

/-- What the finger reads. -/
inductive State where
  /-- Blanks, and the first character of a token. -/
  | outside
  | word
  | string
  | number
  | comment
deriving DecidableEq

/-- What a turn comes to: the token that it gives, the state that comes then, unless it was the last
one, and the finger. -/
structure Turn where
  token : Option Token
  state : Option State
  finger : Finger
deriving DecidableEq

/-- Gives what was read as a token, and goes on outside. -/
def emit (f : Finger) (kind : Kind) : Turn := ⟨some (f.token kind), some .outside, f.ignore⟩

/-- Gives a fault, and no more. -/
def stop (f : Finger) (fault : LexemeFault) : Turn := ⟨some (f.fault fault.message), none, f⟩

/-- Goes on in another state. -/
def enter (f : Finger) (state : State) : Turn := ⟨none, some state, f⟩

/-- A character that is passed is left no more. -/
theorem rest_next_lt {f g : Finger} {c : Char} (h : f.next = (some c, g)) :
    g.rest.length < f.rest.length := by
  unfold next at h
  split at h
  · cases h
  · next d cs e =>
    cases h
    have less := congrArg List.length e
    simp only [rest, List.length_drop, List.length_cons, Pos.index_past] at less ⊢
    omega

/-- Moves over characters as long as they are in `p`, and over the one behind them. -/
def sweep (p : Char → Bool) (f : Finger) : Option Char × Finger :=
  match _ : f.next with
  | (some c, g) => if p c then g.sweep p else (some c, g)
  | (none, g) => (none, g)
termination_by f.rest.length
decreasing_by exact rest_next_lt ‹_›

/-- Digits, and points between them; `point` says whether there was one. -/
def number (point : Bool) (f : Finger) : Turn :=
  match _ : f.next with
  | (some c, g) =>
    if isDigit c then g.number point
    else if c = '.' then if point then g.stop .invalidNumber else g.number true
    else if isLetter c then g.stop .invalidNumber
    else g.back.emit .number
  | (none, g) => g.back.emit .number
termination_by f.rest.length
decreasing_by all_goals exact rest_next_lt ‹_›

/-- The parentheses that `now` has to go on with. -/
def parens (f : Finger) : Turn :=
  let (opens, f) := f.next
  if opens ≠ some '(' then f.stop .malformedNow
  else
    let (closes, f) := f.next
    if closes ≠ some ')' then f.stop .malformedNow else f.emit .kwNow

/-- A keyword or a name. -/
def word (f : Finger) : Turn :=
  let f := (f.sweep isLetter).2.back
  let kind := Kind.ofWord (Token.slice f.source f.start.index f.here.index)
  if kind = .kwNow then f.parens else f.emit kind

/-- Up to the closing quote. -/
def string (f : Finger) : Turn :=
  match f.sweep (· != '"') with
  | (none, g) => g.stop .unterminatedString
  | (some _, g) => g.emit .string

/-- Up to the end of the line. -/
def comment (f : Finger) : Turn := (f.sweep (· != '\n')).2.back.emit .comment

/-- The first character of a token says in which state it is read, unless it is all of the token or
one of two. -/
def first (f : Finger) (c : Char) : Turn :=
  if isLetter c then f.back.enter .word
  else if c = '"' then f.enter .string
  else if isDigit c then f.back.enter .number
  else if c = '#' then f.enter .comment
  else if c = '>' ∨ c = '<' then
    match f.accept '=' with
    | (true, g) => g.emit (if c = '>' then .greaterEqual else .lessEqual)
    | (false, g) => g.emit (if c = '>' then .greater else .less)
  else match Kind.ofSymbol c with
    | some kind => f.emit kind
    | none => f.stop (.unrecognized c)

/-- Drops blanks up to the first character of a token, or up to the end of the text. -/
def outside (f : Finger) : Turn :=
  match _ : f.next with
  | (some c, g) => if isBlank c then g.ignore.outside else g.first c
  | (none, g) => { g.emit .eof with state := none }
termination_by f.rest.length
decreasing_by
  next moves _ => exact (rest_next_lt moves : g.rest.length < f.rest.length)

/-- One turn in a state. -/
def turn : State → Finger → Turn
  | .outside => outside
  | .word => word
  | .string => string
  | .number => number false
  | .comment => comment

/-- Where the finger comes between two turns, with the state that comes next, if one does. -/
inductive Visits (source : String) : Option State → Finger → Prop
  | start : Visits source (some .outside) (atStart source)
  | turn {state : State} {f : Finger} (visits : Visits source (some state) f) :
      Visits source (f.turn state).state (f.turn state).finger

/-- The tokens that are given from a state on, up to the last one. -/
inductive Gives : Option State → Finger → List Token → Prop
  | last (f : Finger) : Gives none f []
  | turn {state : State} {f : Finger} {ts : List Token}
      (behind : Gives (f.turn state).state (f.turn state).finger ts) :
      Gives (some state) f ((f.turn state).token.toList ++ ts)

/-- One pull, which takes turns from a state on until one gives a token: what is pulled, and the
state and the finger then.  Before each turn the finger looks at a flag that asks to stop. -/
inductive Pull (cancelled : Bool) : Option State → Finger → Option Token → Option State → Finger →
    Prop
  /-- Nothing comes behind the last token. -/
  | ended (f : Finger) : Pull cancelled none f none none f
  | stopped (asked : cancelled = true) (state : State) (f : Finger) :
      Pull cancelled (some state) f (some (f.fault Reason.canceled.template.source)) none f
  | given {state : State} {f : Finger} {t : Token} (going : cancelled = false)
      (gives : (f.turn state).token = some t) :
      Pull cancelled (some state) f (some t) (f.turn state).state (f.turn state).finger
  | turn {state : State} {state' : Option State} {f g : Finger} {item : Option Token}
      (going : cancelled = false) (none : (f.turn state).token = none)
      (behind : Pull cancelled (f.turn state).state (f.turn state).finger item state' g) :
      Pull cancelled (some state) f item state' g

end Finger

end QualityRules
