import QualityRules.Token.Tap

/-!
# Token — Taps

A lexer with the taps that were opened on it.  At any time another tap may be opened, a flag may be
raised that asks to stop, and any of the taps may be asked for a token.  A tap heeds one flag or
none, and several may heed the same.

* `Taps.Step` are the single steps and `Taps.Runs` runs of them, with what was done.
* `answersOf`: what a tap answered, in order; `flagsOf`: the flags under which it did.
-/

namespace QualityRules

/-- A lexer, its taps in the order in which they were opened, each with the flag that it heeds, and
the flags that are raised. -/
structure Taps where
  lexer : Lexer
  opened : List (Option Nat × Tap)
  raised : List Nat

namespace Taps

/-- What comes from a tap that is asked for a token: a token, nothing, or that it is too late. -/
abbrev Answer := Except AlreadyRun (Option Token)

/-- What is done with taps. -/
inductive Deed where
  | opens (flag : Option Nat)
  | raises (flag : Nat)
  /-- The tap is asked for a token, while its flag is raised or not. -/
  | draws (tap : Nat) (cancelled : Bool) (answer : Answer)

/-- A lexer at the start of a text, with no taps. -/
def ofSource (name source : String) : Taps := ⟨.ofSource name source, [], []⟩

/-- Somebody asked a tap that heeds this flag to stop. -/
def asked (w : Taps) (flag : Option Nat) : Bool := flag.any fun n => n ∈ w.raised

/-- The tap that was opened as number `i`, if there is one. -/
def tap? (w : Taps) (i : Nat) : Option Tap := w.opened[i]?.map Prod.snd

/-- The flag that it heeds. -/
def flag? (w : Taps) (i : Nat) : Option (Option Nat) := w.opened[i]?.map Prod.fst

/-- The single steps. -/
inductive Step : Taps → Deed → Taps → Prop
  | opens (w : Taps) (flag : Option Nat) :
      Step w (.opens flag) { w with opened := w.opened ++ [(flag, .fresh)] }
  | raises (w : Taps) (flag : Nat) : Step w (.raises flag) { w with raised := flag :: w.raised }
  | draws {w : Taps} {i : Nat} {flag : Option Nat} {tap tap' : Tap} {answer : Answer}
      {lexer : Lexer} (here : w.opened[i]? = some (flag, tap))
      (draw : w.lexer.draw (w.asked flag) tap = (answer, tap', lexer)) :
      Step w (.draws i (w.asked flag) answer)
        { w with lexer, opened := w.opened.set i (flag, tap') }

/-- Runs, with what is done in them. -/
inductive Runs (v : Taps) : List Deed → Taps → Prop
  | refl : Runs v [] v
  | more {w x : Taps} {d : Deed} {ds : List Deed} (run : Runs v ds w) (step : Step w d x) :
      Runs v (ds ++ [d]) x

/-- The tap that is asked, if one is. -/
def Deed.tap? : Deed → Option Nat
  | draws i _ _ => some i
  | _ => none

/-- The flags under which the tap `i` was asked, each with its answer. -/
def drawsOf (i : Nat) (ds : List Deed) : List (Bool × Answer) := ds.filterMap fun
  | .draws j cancelled answer => if j = i then some (cancelled, answer) else none
  | _ => none

/-- The answers of the tap `i`. -/
def answersOf (i : Nat) (ds : List Deed) : List Answer := (drawsOf i ds).map Prod.snd

/-- The flags under which the tap `i` was asked. -/
def flagsOf (i : Nat) (ds : List Deed) : List Bool := (drawsOf i ds).map Prod.fst

end Taps

end QualityRules
