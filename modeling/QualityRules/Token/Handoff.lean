import QualityRules.Token.Scanner

/-!
# Token — Handoff

Two processes that share a slot for one item.  The producer scans tokens and puts them into the
slot, and at last an end marker; the consumer takes what the slot holds.  A put waits while the slot
is full and a take while it is empty; either wait may time out at any moment.  Once somebody asks to
stop, a producer whose put timed out gives up, and the next scan gives the last token.

* `Handoff.Step` are the steps of both processes, in any order, and `Handoff.Reaches` runs of the
  producer alone.
* `Handoff.settle` runs the producer until it waits or has ended; `reaches_settle` says that these
  are steps of it, `advance?_settle` that nothing is left to do.
* `receive_eq`: unless somebody asks to stop, the consumer receives the tokens of the scanner, in
  their order.
-/

namespace QualityRules

/-- Where the producer stands. -/
inductive Producer where
  /-- About to scan a token. -/
  | scanning (s : Scanner)
  /-- About to put a token, and to go on from there. -/
  | offering (t : Token) (s : Scanner)
  /-- About to put the end marker. -/
  | closing
  | ended
deriving DecidableEq

/-- The producer, the slot, and whether somebody asked to stop.  An item without a token is the end
marker. -/
structure Handoff where
  producer : Producer
  slot : Option (Option Token)
  cancelled : Bool
deriving DecidableEq

namespace Handoff

/-- A producer at the start of its run, with the slot empty. -/
def start (s : Scanner) (cancelled : Bool) : Handoff := ⟨.scanning s, none, cancelled⟩

/-- The producer behind its next scan. -/
def scanned (s : Scanner) (cancelled : Bool) : Producer :=
  match s.pull cancelled with
  | (some t, s) => .offering t s
  | (none, _) => .closing

/-- What a step shows to the outside. -/
inductive Action where
  /-- A step of the producer. -/
  | produce
  /-- The consumer receives a token, or nothing. -/
  | receive (item : Option Token)
  /-- Somebody asks to stop. -/
  | cancel
deriving DecidableEq

/-- The steps of the two processes. -/
inductive Step : Handoff → Action → Handoff → Prop where
  | scan (s : Scanner) (slot : Option (Option Token)) (c : Bool) :
      Step ⟨.scanning s, slot, c⟩ .produce ⟨scanned s c, slot, c⟩
  /-- Asked to stop in the middle of a scan, which covers what was scanned so far. -/
  | breakOff (s : Scanner) (slot : Option (Option Token)) (start stop : Pos)
      (h : s.finished = false) :
      Step ⟨.scanning s, slot, true⟩ .produce
        ⟨.offering { Scanner.canceled start with stop } { s with finished := true }, slot, true⟩
  | put (t : Token) (s : Scanner) (c : Bool) :
      Step ⟨.offering t s, none, c⟩ .produce ⟨.scanning s, some (some t), c⟩
  | putEnd (c : Bool) : Step ⟨.closing, none, c⟩ .produce ⟨.ended, some none, c⟩
  /-- A put that timed out gives up. -/
  | giveUp (t : Token) (s : Scanner) (slot : Option (Option Token)) :
      Step ⟨.offering t s, slot, true⟩ .produce ⟨.closing, slot, true⟩
  | giveUpEnd (slot : Option (Option Token)) :
      Step ⟨.closing, slot, true⟩ .produce ⟨.ended, slot, true⟩
  | take (p : Producer) (item : Option Token) (c : Bool) :
      Step ⟨p, some item, c⟩ (.receive item) ⟨p, none, c⟩
  /-- A take that timed out finds that the producer has ended and left nothing. -/
  | findEnded (c : Bool) : Step ⟨.ended, none, c⟩ (.receive none) ⟨.ended, none, c⟩
  | cancel (p : Producer) (slot : Option (Option Token)) (c : Bool) :
      Step ⟨p, slot, c⟩ .cancel ⟨p, slot, true⟩

/-- Runs of the producer alone. -/
inductive Reaches : Handoff → Handoff → Prop where
  | refl (h : Handoff) : Reaches h h
  | more {h k l : Handoff} (step : Step h .produce k) (rest : Reaches k l) : Reaches h l

/-- The next step of a producer that waits as long as it may; none when it waits or has ended. -/
def advance? (h : Handoff) : Option Handoff :=
  match h.producer, h.slot with
  | .scanning s, _ => some { h with producer := scanned s h.cancelled }
  | .offering t s, none => some { h with producer := .scanning s, slot := some (some t) }
  | .closing, none => some { h with producer := .ended, slot := some none }
  | .offering _ _, some _ => if h.cancelled then some { h with producer := .closing } else none
  | .closing, some _ => if h.cancelled then some { h with producer := .ended } else none
  | .ended, _ => none

/-- At most so many steps of the producer. -/
def advanceTo : Nat → Handoff → Handoff
  | 0, h => h
  | n + 1, h =>
    match h.advance? with
    | some h => advanceTo n h
    | none => h

/-- The producer runs until it waits or has ended; that takes five steps at most. -/
def settle (h : Handoff) : Handoff := advanceTo 5 h

/-- The consumer takes from a producer that had all the time it wants. -/
def receive (h : Handoff) : Option Token × Handoff :=
  let h := h.settle
  match h.slot with
  | some item => (item, { h with slot := none })
  | none => (none, h)

/-- Somebody asks to stop. -/
def cancel (h : Handoff) : Handoff := { h with cancelled := true }

theorem step_of_advance? {h k : Handoff} (a : h.advance? = some k) : Step h .produce k := by
  obtain ⟨p, slot, c⟩ := h
  cases p with
  | scanning s => cases a; exact .scan s slot c
  | offering t s =>
    cases slot with
    | none => cases a; exact .put t s c
    | some item =>
      cases c with
      | true => cases a; exact .giveUp t s _
      | false => exact nomatch a
  | closing =>
    cases slot with
    | none => cases a; exact .putEnd c
    | some item =>
      cases c with
      | true => cases a; exact .giveUpEnd _
      | false => exact nomatch a
  | ended => exact nomatch a

theorem reaches_advanceTo (n : Nat) (h : Handoff) : Reaches h (advanceTo n h) := by
  induction n generalizing h with
  | zero => exact .refl h
  | succ n ih =>
    unfold advanceTo
    split
    · next k a => exact .more (step_of_advance? a) (ih k)
    · exact .refl h

/-- Settling is a run of the producer. -/
theorem reaches_settle (h : Handoff) : Reaches h h.settle := reaches_advanceTo 5 h

/-- What is left to do for a producer that nobody takes from. -/
def remaining (h : Handoff) : Nat :=
  (match h.producer with
    | .scanning _ => 3
    | .offering _ _ => 2
    | .closing => 1
    | .ended => 0) + if h.slot.isNone then 2 else 0

/-- Every step leaves less to do. -/
theorem remaining_advance? {h k : Handoff} (a : h.advance? = some k) :
    k.remaining < h.remaining := by
  obtain ⟨p, slot, c⟩ := h
  cases p with
  | scanning s =>
    cases a
    unfold scanned
    generalize s.pull c = r
    obtain ⟨t, s⟩ := r
    cases t <;> simp [remaining]
  | offering t s =>
    cases slot with
    | none => cases a; simp [remaining]
    | some item =>
      cases c with
      | true => cases a; simp [remaining]
      | false => exact nomatch a
  | closing =>
    cases slot with
    | none => cases a; simp [remaining]
    | some item =>
      cases c with
      | true => cases a; simp [remaining]
      | false => exact nomatch a
  | ended => exact nomatch a

theorem advance?_advanceTo (n : Nat) (h : Handoff) (le : h.remaining ≤ n) :
    (advanceTo n h).advance? = none := by
  induction n generalizing h with
  | zero =>
    cases a : h.advance? with
    | none => exact a
    | some k => have := remaining_advance? a; omega
  | succ n ih =>
    unfold advanceTo
    split
    · next k a => exact ih k (by have := remaining_advance? a; omega)
    · next a => exact a

theorem remaining_le (h : Handoff) : h.remaining ≤ 5 := by
  unfold remaining
  split <;> split <;> omega

/-- A settled producer waits or has ended. -/
theorem advance?_settle (h : Handoff) : h.settle.advance? = none :=
  advance?_advanceTo 5 h h.remaining_le

/-! ### The tokens on their way -/

/-- The tokens that the producer has yet to put. -/
def Producer.tokens : Producer → List Token
  | .scanning s => s.tokens
  | .offering t s => t :: s.tokens
  | .closing | .ended => []

/-- The tokens on their way to the consumer when nobody asks to stop. -/
def tokens (h : Handoff) : List Token :=
  match h.slot with
  | some (some t) => t :: Producer.tokens h.producer
  | _ => Producer.tokens h.producer

/-- The end marker is the last item that is put, and nobody asked to stop. -/
def Orderly (h : Handoff) : Prop :=
  h.cancelled = false ∧ (h.slot = some none → h.producer = .ended)

/-- A scan takes no token off the way. -/
theorem tokens_scanned (s : Scanner) : Producer.tokens (scanned s false) = s.tokens := by
  rw [Scanner.tokens_eq, scanned, Scanner.pull]
  generalize s.next = r
  obtain ⟨_ | t, s⟩ := r <;> rfl

/-- A step of the producer takes no token off the way. -/
theorem Step.tokens_eq {h k : Handoff} (step : Step h .produce k) (o : h.Orderly) :
    k.tokens = h.tokens ∧ k.Orderly := by
  obtain ⟨going, marker⟩ := o
  cases step with
  | scan s slot c =>
    obtain rfl : c = false := going
    refine ⟨?_, rfl, fun full => nomatch marker full⟩
    match slot with
    | some (some t) => exact congrArg (t :: ·) (tokens_scanned s)
    | some none => exact nomatch marker rfl
    | none => exact tokens_scanned s
  | breakOff | giveUp | giveUpEnd => exact nomatch going
  | put => exact ⟨rfl, going, nofun⟩
  | putEnd => exact ⟨rfl, going, fun _ => rfl⟩

theorem tokens_advanceTo (n : Nat) {h : Handoff} (o : h.Orderly) :
    (advanceTo n h).tokens = h.tokens ∧ (advanceTo n h).Orderly := by
  induction n generalizing h with
  | zero => exact ⟨rfl, o⟩
  | succ n ih =>
    unfold advanceTo
    split
    · next k a =>
      obtain ⟨same, o⟩ := (step_of_advance? a).tokens_eq o
      obtain ⟨eq, o⟩ := ih o
      exact ⟨eq.trans same, o⟩
    · exact ⟨rfl, o⟩

/-- A consumer receives the tokens that are on their way in order, and nothing once there are
none. -/
theorem receive_eq {h : Handoff} (o : h.Orderly) :
    h.receive.1 = h.tokens.head? ∧ h.receive.2.tokens = h.tokens.tail ∧ h.receive.2.Orderly := by
  obtain ⟨same, o⟩ := tokens_advanceTo 5 o
  have rest := advance?_settle h
  unfold receive
  simp only
  change (settle h).tokens = h.tokens at same
  change (settle h).Orderly at o
  rw [← same]
  generalize h.settle = k at o rest
  obtain ⟨p, slot, c⟩ := k
  obtain ⟨rfl, marker⟩ := o
  match slot with
  | some (some t) => exact ⟨rfl, rfl, rfl, fun m => nomatch m⟩
  | some none =>
    cases marker rfl
    exact ⟨rfl, rfl, rfl, fun m => nomatch m⟩
  | none =>
    cases p with
    | ended => exact ⟨rfl, rfl, rfl, fun m => nomatch m⟩
    | _ => exact nomatch rest

end Handoff

end QualityRules
