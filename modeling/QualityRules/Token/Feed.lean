import QualityRules.Text.Quoted
import QualityRules.Token.Handoff

/-!
# Token — Feed

The tokens of a text, one at a time, to a reader that may stop early.  In one mode each token is
scanned when it is asked for, in the other a second process scans ahead.  A feed is started once;
once it has given its last token it is closed and gives no more.

* `Feed.next` gives the next token, `Feed.drain` drops all up to the end of the text, `Feed.close`
  all that are left, `Feed.rest` gives them.
* `next_of_closed`: a closed feed gives nothing and stays as it is.
* `tokens_eq_lex`: both modes hand over the tokens of the text.
-/

namespace QualityRules

/-- How tokens reach the reader: each is scanned when it is asked for, or a second process scans
ahead. -/
inductive LexMode where
  | threaded
  | inline
deriving DecidableEq

namespace LexMode

/-- There is no mode of that name. -/
structure Unknown where
  asked : String
deriving DecidableEq

/-- The wording of a failed look-up. -/
def Unknown.message (u : Unknown) : String := Quoted.text u.asked ++ " is not a valid LexMode"

/-- The word for a mode. -/
def text : LexMode → String
  | threaded => "threaded"
  | inline => "inline"

/-- The mode of that word. -/
def ofText (asked : String) : Except Unknown LexMode :=
  if asked = threaded.text then .ok threaded
  else if asked = inline.text then .ok inline
  else .error ⟨asked⟩

theorem ofText_text (m : LexMode) : ofText m.text = .ok m := by cases m <;> rfl

end LexMode

/-- Where the tokens of a feed come from: from nowhere before it is started, from a scanner, or from
a second process. -/
inductive Supply where
  | idle
  | direct (s : Scanner)
  | handoff (h : Handoff)
deriving DecidableEq

/-- The tokens of a text, one at a time. -/
structure Feed where
  mode : LexMode
  /-- The scanner at the start of the text. -/
  scanner : Scanner
  supply : Supply
  cancelled : Bool
  closed : Bool
deriving DecidableEq

/-- What a feed is asked for in vain. -/
inductive FeedFault where
  | startedTwice
  | notStarted
deriving DecidableEq

/-- The wording of a fault in the use of a feed. -/
def FeedFault.message : FeedFault → String
  | .startedTwice => "token stream already started"
  | .notStarted => "token stream not started"

namespace Feed

/-- A feed of the tokens of `source`, not started. -/
def ofSource (mode : LexMode) (source : String) : Feed :=
  ⟨mode, Scanner.start source, .idle, false, false⟩

/-- The feed once it is started. -/
def started (f : Feed) : Feed :=
  let supply := match f.mode with
    | .inline => .direct f.scanner
    | .threaded => .handoff (Handoff.start f.scanner f.cancelled)
  { f with supply }

/-- Starts a feed. -/
def start (f : Feed) : Except FeedFault Feed :=
  match f.supply with
  | .idle => .ok f.started
  | _ => .error .startedTwice

/-- The feed after a token was asked for; it closes when there is none. -/
def received (f : Feed) (t : Option Token) (supply : Supply) : Option Token × Feed :=
  (t, { f with supply, closed := t.isNone })

/-- The next token. -/
def next (f : Feed) : Except FeedFault (Option Token × Feed) :=
  if f.closed then .ok (none, f)
  else match f.supply with
    | .idle => .error .notStarted
    | .direct s => let (t, s) := s.pull f.cancelled; .ok (f.received t (.direct s))
    | .handoff h => let (t, h) := h.receive; .ok (f.received t (.handoff h))

/-- Asks the scanner to stop. -/
def cancel (f : Feed) : Feed :=
  let supply := match f.supply with
    | .handoff h => .handoff h.cancel
    | supply => supply
  { f with supply, cancelled := true }

/-- Asks a second process to stop once it waits or has ended, and waits until it has ended. -/
def abandon (f : Feed) : Feed :=
  let supply := match f.supply with
    | .handoff h => .handoff h.settle.cancel.settle
    | supply => supply
  { f with supply, cancelled := true }

/-- More tokens than are left. -/
def budget (f : Feed) : Nat := f.scanner.budget + 2

/-- Drops at most so many tokens, up to the end of the text. -/
def drainTo : Nat → Feed → Except FeedFault (Option Token × Feed)
  | 0, f => .ok (none, f)
  | n + 1, f => do
    let (t, f) ← f.next
    match t with
    | none => return (none, f)
    | some t => if t.kind = .eof then return (some t, f) else drainTo n f

/-- Drops the tokens up to the end of the text and gives that one; nothing if it was given before
or never comes. -/
def drain (f : Feed) : Except FeedFault (Option Token × Feed) := f.drainTo f.budget

/-- Drops the tokens that are left. -/
def close (f : Feed) : Except FeedFault Feed := do
  let (_, f) ← f.drain
  return { f with closed := true }

/-- At most so many tokens. -/
def restTo : Nat → Feed → Except FeedFault (List Token × Feed)
  | 0, f => .ok ([], f)
  | n + 1, f => do
    let (t, f) ← f.next
    match t with
    | none => return ([], f)
    | some t =>
      let (ts, f) ← restTo n f
      return (t :: ts, f)

/-- The tokens that are left. -/
def rest (f : Feed) : Except FeedFault (List Token × Feed) := f.restTo f.budget

/-- All tokens of `source`, as they are handed over in that mode. -/
def tokens (mode : LexMode) (source : String) : List Token :=
  match (ofSource mode source).started.rest with
  | .ok (ts, _) => ts
  | .error _ => []

/-- A closed feed gives nothing and stays as it is. -/
theorem next_of_closed {f : Feed} (h : f.closed) : f.next = .ok (none, f) := by
  simp [next, h]

/-! ### Both modes hand over the same tokens -/

/-- The tokens that a feed has yet to give; it has given its last one when it is closed. -/
def pending (f : Feed) : List Token :=
  if f.closed then []
  else match f.supply with
    | .idle => []
    | .direct s => s.tokens
    | .handoff h => h.tokens

/-- The feed was started and nobody asked it to stop. -/
def Orderly (f : Feed) : Prop :=
  f.cancelled = false ∧ match f.supply with
    | .idle => False
    | .direct _ => True
    | .handoff h => h.Orderly

/-- The next token is the first of those that are left. -/
theorem next_eq {f : Feed} (o : f.Orderly) :
    ∃ g : Feed, f.next = .ok (f.pending.head?, g) ∧ g.pending = f.pending.tail ∧ g.Orderly := by
  obtain ⟨mode, scanner, supply, cancelled, closed⟩ := f
  obtain ⟨rfl, o⟩ := o
  cases closed with
  | true => exact ⟨_, rfl, rfl, rfl, o⟩
  | false =>
    cases supply with
    | idle => exact o.elim
    | direct s =>
      have tokens := s.tokens_eq
      rcases e : s.next with ⟨t, s'⟩
      rw [e] at tokens
      refine ⟨⟨mode, scanner, .direct s', false, t.isNone⟩, ?_, ?_, rfl, trivial⟩
      · cases t <;> simp [next, pending, Scanner.pull, e, received, tokens]
      · cases t <;> simp [pending, tokens]
    | handoff h =>
      obtain ⟨head, tail, o'⟩ := Handoff.receive_eq o
      refine ⟨⟨mode, scanner, .handoff h.receive.2, false, h.receive.1.isNone⟩, ?_, ?_, rfl, o'⟩
      · simp [next, pending, received, ← head]
      · rw [head]
        cases e : h.tokens <;> simp [pending, tail, e]

/-- Asking for enough tokens gives those that are left. -/
theorem restTo_eq (n : Nat) {f : Feed} (o : f.Orderly) (le : f.pending.length ≤ n) :
    ∃ g, f.restTo n = .ok (f.pending, g) := by
  induction n generalizing f with
  | zero => exact ⟨f, by rw [List.eq_nil_of_length_eq_zero (Nat.le_zero.mp le)]; rfl⟩
  | succ n ih =>
    obtain ⟨g, next, tail, o'⟩ := next_eq o
    cases e : f.pending with
    | nil => exact ⟨g, by simp [restTo, next, e, bind, Except.bind, pure, Except.pure]⟩
    | cons t ts =>
      rw [e] at tail le
      obtain ⟨k, rest⟩ := ih o' (by rw [tail]; exact Nat.le_of_succ_le_succ le)
      exact ⟨k, by simp [restTo, next, e, bind, Except.bind, pure, Except.pure, rest, tail]⟩

/-- Whichever way they are handed over, the tokens are those of the text. -/
theorem tokens_eq_lex (mode : LexMode) (source : String) : tokens mode source = lex source := by
  have o : (ofSource mode source).started.Orderly := by
    cases mode
    · exact ⟨rfl, rfl, fun m => nomatch m⟩
    · exact ⟨rfl, trivial⟩
  have all : (ofSource mode source).started.pending = lex source := by
    cases mode <;> rfl
  have le : (lex source).length ≤ (ofSource mode source).started.budget :=
    Nat.le_trans (Scanner.length_tokens_le _) (Nat.le_add_right _ 2)
  obtain ⟨g, rest⟩ := restTo_eq _ o (all ▸ le)
  rw [tokens, Feed.rest, rest, all]

end Feed

end QualityRules
