import QualityRules.Fault.Cause
import QualityRules.Token.Scanner

/-!
# Read — Cursor

A cursor stands in a row of tokens.  A token that was taken may be put back, any number of them;
those put back come first, the last one before all.  The end of the text can be taken again and
again.  A fault is never handed out: to take it is to refuse the text.

* `Cursor.pop` and `Cursor.push` move a cursor; `pop_push` says that a token that is put back is the
  next one.
* `Cursor.budget` bounds the steps of a loop that takes a token at each.
-/

namespace QualityRules

/-- A place in a row of tokens. -/
structure Cursor where
  /-- The tokens that were put back, the last one first. -/
  pushed : List Token
  /-- The end of the text, once it was taken. -/
  eof : Option Token
  /-- The tokens that were not taken yet. -/
  unread : List Token
  /-- The place after the last token that was taken for the first time. -/
  here : Pos
deriving DecidableEq

namespace Cursor

/-- The cursor before the first of the tokens `ts`. -/
def ofTokens (ts : List Token) : Cursor := ⟨[], none, ts, Pos.origin⟩

/-- The cursor behind a token that was not taken before. -/
def after (c : Cursor) (t : Token) (rest : List Token) : Cursor :=
  { c with unread := rest, here := t.stop, eof := if t.kind = .eof then some t else c.eof }

/-- Takes the next token. -/
def pop (c : Cursor) : Except Refusal Token × Cursor :=
  match c.pushed, c.eof, c.unread with
  | t :: ts, _, _ => (.ok t, { c with pushed := ts })
  | [], some t, _ => (.ok t, c)
  | [], none, [] => (.error .starved, c)
  | [], none, t :: ts =>
    (if t.kind = .illegal then .error (.at (.scan t.text) t.start) else .ok t, c.after t ts)

/-- Puts a token back. -/
def push (c : Cursor) (t : Token) : Cursor := { c with pushed := t :: c.pushed }

/-- A bound on the steps of a loop that takes a token at each. -/
def budget (c : Cursor) : Nat := c.pushed.length + c.unread.length + 1

/-- Ends the tokens early; the one that says so is the next that was not put back. -/
def cancel (c : Cursor) : Cursor :=
  if c.unread.isEmpty then c else { c with unread := [Scanner.canceled c.here] }

/-- Drops the tokens that were not taken. -/
def close (c : Cursor) : Cursor := { c with unread := [] }

/-- A token that is put back is the next one. -/
theorem pop_push (c : Cursor) (t : Token) : (c.push t).pop = (.ok t, c) := rfl

theorem pop_of_pushed {c : Cursor} {t : Token} {ts : List Token} (h : c.pushed = t :: ts) :
    c.pop = (.ok t, { c with pushed := ts }) := by
  simp [pop, h]

theorem pop_of_eof {c : Cursor} {t : Token} (h : c.pushed = []) (e : c.eof = some t) :
    c.pop = (.ok t, c) := by
  simp [pop, h, e]

theorem pop_of_unread {c : Cursor} {t : Token} {ts : List Token} (h : c.pushed = [])
    (e : c.eof = none) (u : c.unread = t :: ts) (k : t.kind ≠ .illegal) :
    c.pop = (.ok t, c.after t ts) := by
  simp [pop, h, e, u, k]

theorem pop_of_illegal {c : Cursor} {t : Token} {ts : List Token} (h : c.pushed = [])
    (e : c.eof = none) (u : c.unread = t :: ts) (k : t.kind = .illegal) :
    c.pop = (.error (.at (.scan t.text) t.start), c.after t ts) := by
  simp [pop, h, e, u, k]

end Cursor

end QualityRules
