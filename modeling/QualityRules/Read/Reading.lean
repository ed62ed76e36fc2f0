import QualityRules.Read.Cursor

/-!
# Read — Reading

A reader asks for tokens and puts some back, until it has a result or fails.  It is the tree of what
it does, so that one can say what it asks for without a row of tokens at hand: a step that takes a
token goes on as the token says.

* `Reading.run` lets a reader move a cursor; `run_pure`, `run_bind` and `run_mapError` say how
  readers in a row run.
* Readings are a monad, and a lawful one.
* `Parse` are the readers that fail by refusing the text; `pop`, `push`, `peek` and `refuse` are
  the steps they are made of.
-/

namespace QualityRules

/-- What a reader does next.  A failure to take a token is handed to the reader as well. -/
inductive Reading (ε α : Type) where
  | done (a : α)
  | fail (e : ε)
  | pop (next : Except Refusal Token → Reading ε α)
  | push (t : Token) (next : Reading ε α)

namespace Reading

variable {ε ε' α β : Type}

/-- One reader, and then another that knows its result. -/
def bind : Reading ε α → (α → Reading ε β) → Reading ε β
  | done a, f => f a
  | fail e, _ => fail e
  | pop next, f => pop fun r => (next r).bind f
  | push t next, f => push t (next.bind f)

/-- The same reader with its failures seen another way. -/
def mapError (f : ε → ε') : Reading ε α → Reading ε' α
  | done a => done a
  | fail e => fail (f e)
  | pop next => pop fun r => (next r).mapError f
  | push t next => push t (next.mapError f)

/-- The same reader with both its results and its failures turned into results. -/
def attempt : Reading ε α → Reading ε' (Except ε α)
  | done a => done (.ok a)
  | fail e => done (.error e)
  | pop next => pop fun r => (next r).attempt
  | push t next => push t next.attempt

instance : Monad (Reading ε) where
  pure := done
  bind := bind

theorem bind_done (p : Reading ε α) : p.bind done = p := by
  induction p with
  | done a => rfl
  | fail e => rfl
  | pop next ih => exact congrArg pop (funext ih)
  | push t next ih => exact congrArg (push t) ih

theorem bind_bind {γ : Type} (p : Reading ε α) (f : α → Reading ε β) (g : β → Reading ε γ) :
    (p.bind f).bind g = p.bind fun a => (f a).bind g := by
  induction p with
  | done a => rfl
  | fail e => rfl
  | pop next ih => exact congrArg pop (funext ih)
  | push t next ih => exact congrArg (push t) ih

instance : LawfulMonad (Reading ε) :=
  LawfulMonad.mk' _ bind_done (fun _ _ => rfl) bind_bind

/-- Lets a reader move a cursor. -/
def run : Reading ε α → Cursor → Except ε α × Cursor
  | done a, c => (.ok a, c)
  | fail e, c => (.error e, c)
  | pop next, c => (next c.pop.1).run c.pop.2
  | push t next, c => next.run (c.push t)

@[simp] theorem run_pure (a : α) (c : Cursor) : (pure a : Reading ε α).run c = (.ok a, c) := rfl

@[simp] theorem run_fail (e : ε) (c : Cursor) :
    (fail e : Reading ε α).run c = (.error e, c) := rfl

/-- Two readers in a row: the second starts where the first one stops, unless that one fails. -/
theorem run_bind (p : Reading ε α) (f : α → Reading ε β) (c : Cursor) :
    (p >>= f).run c = match p.run c with
      | (.ok a, c) => (f a).run c
      | (.error e, c) => (.error e, c) := by
  induction p generalizing c with
  | done a => rfl
  | fail e => rfl
  | pop next ih => exact ih _ _
  | push t next ih => exact ih _

theorem run_mapError (g : ε → ε') (p : Reading ε α) (c : Cursor) :
    (p.mapError g).run c = ((p.run c).1.mapError g, (p.run c).2) := by
  induction p generalizing c with
  | done a => rfl
  | fail e => rfl
  | pop next ih => exact ih _ _
  | push t next ih => exact ih _

theorem run_attempt (p : Reading ε α) (c : Cursor) :
    (p.attempt : Reading ε' (Except ε α)).run c = (.ok (p.run c).1, (p.run c).2) := by
  induction p generalizing c with
  | done a => rfl
  | fail e => rfl
  | pop next ih => exact ih _ _
  | push t next ih => exact ih _

end Reading

/-- A reader that fails by refusing the text. -/
abbrev Parse := Reading Refusal

namespace Read

/-- Takes the next token. -/
def pop : Parse Token := .pop fun
  | .ok t => .done t
  | .error e => .fail e

/-- Puts a token back. -/
def push (t : Token) : Parse Unit := .push t (.done ())

/-- Fails. -/
def fail {α : Type} (e : Refusal) : Parse α := .fail e

/-- Refuses the text for a cause at a place. -/
def refuse {α : Type} (cause : Cause) (pos : Pos) : Parse α := fail (.at cause pos)

/-- Looks at the next token. -/
def peek : Parse Token := do
  let t ← pop
  push t
  return t

/-- The next token is of that kind. -/
def at? (kind : Kind) : Parse Bool := do
  let t ← peek
  return t.kind = kind

theorem run_pop (c : Cursor) : pop.run c = c.pop := by
  simp only [pop, Reading.run]
  generalize c.pop = r
  obtain ⟨t | e, c⟩ := r <;> rfl

@[simp] theorem run_push (t : Token) (c : Cursor) : (push t).run c = (.ok (), c.push t) := rfl

@[simp] theorem run_refuse {α : Type} (cause : Cause) (pos : Pos) (c : Cursor) :
    (refuse cause pos : Parse α).run c = (.error (.at cause pos), c) := rfl

end Read

end QualityRules
