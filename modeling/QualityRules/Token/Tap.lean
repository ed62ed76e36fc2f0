import QualityRules.Text.Quoted
import QualityRules.Token.Scanner

/-!
# Token — Tap

A lexer is a scanner with a name that runs only once.  Its tokens are drawn through taps.  The
first tap from which a token is asked for gets the run; a tap that comes too late says so once and
is shut.

* `Lexer.draw` asks a tap for a token, `Lexer.lex` takes all tokens at once.
* `draw_of_ran` : the first draw from another tap fails and leaves the lexer as it is.
-/

namespace QualityRules

/-- A scanner with a name, and whether its one run was given away. -/
structure Lexer where
  name : String
  scanner : Scanner
  ran : Bool
deriving DecidableEq

/-- A tap of a lexer: nothing was asked of it, it has the run, or it is shut. -/
inductive Tap where
  | fresh
  | running
  | shut
deriving DecidableEq

/-- The run of a lexer was given away before. -/
structure AlreadyRun where
  name : String
deriving DecidableEq

/-- The wording of the failure to run twice. -/
def AlreadyRun.message (e : AlreadyRun) : String :=
  "lexer " ++ Quoted.text e.name ++ " has already been run"

namespace Lexer

/-- The name of a lexer that is given none. -/
def plainName : String := "input"

/-- A lexer at the start of a text. -/
def ofSource (name source : String) : Lexer := ⟨name, Scanner.start source, false⟩

/-- Draws a token from the tap that has the run. -/
def drawRunning (l : Lexer) (cancelled : Bool) :
    Except AlreadyRun (Option Token) × Tap × Lexer :=
  let (t, s) := l.scanner.pull cancelled
  (.ok t, .running, { l with scanner := s, ran := true })

/-- Draws a token from a tap, under a flag that asks to stop. -/
def draw (l : Lexer) (cancelled : Bool) : Tap → Except AlreadyRun (Option Token) × Tap × Lexer
  | .shut => (.ok none, .shut, l)
  | .running => l.drawRunning cancelled
  | .fresh => if l.ran then (.error ⟨l.name⟩, .shut, l) else l.drawRunning cancelled

/-- All tokens at once. -/
def lex (l : Lexer) : Except AlreadyRun (List Token) × Lexer :=
  if l.ran then (.error ⟨l.name⟩, l)
  else (.ok l.scanner.tokens, { l with scanner := l.scanner.last, ran := true })

/-- A tap that comes too late fails once, is shut then, and leaves the lexer as it is. -/
theorem draw_of_ran {l : Lexer} (h : l.ran) (cancelled : Bool) :
    l.draw cancelled .fresh = (.error ⟨l.name⟩, .shut, l) := by
  simp [draw, h]

/-- Whatever is drawn, the run of a lexer is not given back. -/
theorem ran_draw {l : Lexer} (h : l.ran) (cancelled : Bool) (tap : Tap) :
    (l.draw cancelled tap).2.2.ran = true := by
  cases tap <;> simp [draw, drawRunning, h]

end Lexer

end QualityRules
