import QualityRules.Read.Ruleset
import QualityRules.Token.Feed
import QualityRules.Tree.Node

/-!
# Read — Source

Reading whole texts: a rule, a ruleset, or a file of rulesets, with options for how the tokens are
handed over, how wide an excerpt is, and under which name the text goes.

* `Source.ruleOn`, `Source.rulesetOn` and `Source.fileOn` read a text and say what happened, on a
  stack that may have room for so many conditions inside one another only; a text that needs more is
  not read to its end.
* `Source.rule`, `Source.ruleset` and `Source.file` have all the room they need.
* `Options.resolve` and `Options.make` refuse options that make no sense.

Two things are left out.  A text is a `String`, so it never holds half of a surrogate pair.  And the
stack is measured in open conditions, as they alone are read inside one another without a bound:
what a call within a condition needs of it does not count, nor does the stack of the worker that
scans beside a reader.
-/

namespace QualityRules

/-- What is wrong with options. -/
inductive OptionFault where
  | narrowSnippet
  /-- A mode was given beside options that have one. -/
  | modeTwice
deriving DecidableEq

/-- The wording of a fault in options. -/
def OptionFault.message : OptionFault → String
  | .narrowSnippet => "snippet_width must be >= 1"
  | .modeTwice => "Pass either options or mode, not both"

/-- How a text is read. -/
structure Options where
  mode : LexMode
  snippetWidth : Int
  /-- The name of the text in messages, where it has one. -/
  name : Option String
  one_le_width : 1 ≤ snippetWidth
deriving DecidableEq

namespace Options

/-- How a text is read where nothing else is asked for. -/
def default : Options := ⟨.threaded, Excerpt.defaultWidth, none, by decide⟩

/-- Options with what is asked for and the defaults for the rest; an excerpt has to show
something. -/
def make (mode : Option LexMode) (snippetWidth : Option Int) (name : Option String) :
    Except OptionFault Options :=
  let width := snippetWidth.getD default.snippetWidth
  if h : 1 ≤ width then .ok ⟨mode.getD default.mode, width, name, h⟩ else .error .narrowSnippet

/-- The options of a call: those that are given, or the defaults in the mode that is given. -/
def resolve (options : Option Options) (mode : Option LexMode) : Except OptionFault Options :=
  match options, mode with
  | some _, some _ => .error .modeTwice
  | some options, none => .ok options
  | none, some mode => .ok { default with mode }
  | none, none => .ok default

/-- The name of the text in messages; `plain` where it has none. -/
def nameOr (o : Options) (plain : String) : String :=
  match o.name with
  | none | some "" => plain
  | some name => name

end Options

/-- What is worth a line in a log. -/
inductive Event where
  | parsing (name : String) (length : Nat)
  | failed (name message : String)
  | cancelling (name : String)
  | parsed (rulesets : Nat) (name : String)
deriving DecidableEq

/-- The line of an event. -/
def Event.text : Event → String
  | parsing name length => "Parsing " ++ name ++ " (" ++ toString length ++ " chars)"
  | failed name message => "Parse of " ++ name ++ " failed: " ++ message
  | cancelling name => "Cancelling lexer for " ++ name
  | parsed rulesets name => "Parsed " ++ toString rulesets ++ " ruleset(s) from " ++ name

/-- What came of reading a text, and what happened on the way. -/
structure Outcome (α : Type) where
  result : Except Failure α
  events : List Event

namespace Source

/-- The text that bytes encode, if they do. -/
def decode (bytes : ByteArray) : Option String := String.fromUTF8? bytes

/-- Reads `source` under the name `name` with the reader `p`, which is told how many steps are
enough; when that fails, the scanner is asked to stop. -/
def session {α : Type} (name source : String) (options : Options) (p : Nat → ParseRules α) :
    Outcome α :=
  let desk := Desk.ofTokens (Feed.tokens options.mode source)
  match (p desk.cursor.budget).runAt desk with
  | (.ok a, _) => ⟨.ok a, []⟩
  | (.error e, _) =>
    let failure := e.report source options.snippetWidth
    ⟨.error failure, [.failed name failure.message, .cancelling name]⟩

/-- Reads a text that is one rule, on a stack with room for so many open conditions. -/
def ruleOn (stack : Option Nat) (source : String) (options : Options) : Outcome RuleDecl :=
  session (options.nameOr "rule") source options fun steps => Read.rule (.on stack steps) false

/-- Reads the ruleset at the head of a text, on a stack with room for so many open conditions. -/
def rulesetOn (stack : Option Nat) (source : String) (options : Options) : Outcome Ruleset :=
  session (options.nameOr "ruleset") source options fun steps => Read.ruleset (.on stack steps)

/-- Reads a text of rulesets, as the file of that name, on a stack with room for so many open
conditions. -/
def fileOn (stack : Option Nat) (filename source : String) (options : Options) :
    Outcome RuleFile :=
  let run := session filename source options fun steps => Read.file (.on stack steps) filename
  let last := match run.result with
    | .ok f => [.parsed f.rulesets.length filename]
    | .error _ => []
  ⟨run.result, .parsing filename source.length :: run.events ++ last⟩

/-- Reads a text that is one rule. -/
def rule (source : String) (options : Options) : Outcome RuleDecl := ruleOn none source options

/-- Reads the ruleset at the head of a text. -/
def ruleset (source : String) (options : Options) : Outcome Ruleset :=
  rulesetOn none source options

/-- Reads a text of rulesets, as the file of that name. -/
def file (filename source : String) (options : Options) : Outcome RuleFile :=
  fileOn none filename source options

end Source

end QualityRules
