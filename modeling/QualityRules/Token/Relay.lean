import QualityRules.Token.Handoff

/-!
# Token — Relay

The hand-off at the grain of its single steps.  A worker scans tokens, puts each into a slot for one
item and at last an end marker; whoever asks takes what the slot holds.  Every wait may time out at
any moment.  A worker that timed out looks whether somebody asked to stop, and gives up or waits
again; an asker that timed out looks whether the worker is alive, and waits again or looks into the
slot once more.  The worker is alive for a while behind its end marker, and who was given nothing is
given nothing from then on.

* `Worker.Step` and `Relay.Step` are the single steps, in any order; `Relay.Runs` are runs of them,
  with the items that are given.
* `Relay.Step.refines`: seen as a hand-off, a single step is a step of it or none.
-/

namespace QualityRules

/-- A slot for one item; an item without a token is the end marker. -/
abbrev Slot := Option (Option Token)

/-- Where the worker stands. -/
inductive Worker where
  /-- About to scan a token. -/
  | scanning (s : Scanner)
  /-- Waits to put a token, and goes on from there. -/
  | putting (t : Token) (s : Scanner)
  /-- That wait timed out, and the worker is about to look whether somebody asked to stop. -/
  | late (t : Token) (s : Scanner)
  /-- Waits to put the end marker. -/
  | marking
  | markingLate
  /-- Has nothing left to put, and is alive. -/
  | leaving
  | dead
deriving DecidableEq

/-- Where the one who asks for a token stands. -/
inductive Asker where
  | idle
  | waiting
  /-- The wait timed out, and the asker is about to look whether the worker is alive. -/
  | late
  /-- The worker is dead, and the asker is about to look into the slot once more. -/
  | alone
deriving DecidableEq

/-- The worker, the slot, whether somebody asked to stop, the asker, and whether it was given the
end marker. -/
structure Relay where
  worker : Worker
  slot : Slot
  cancelled : Bool
  asker : Asker
  closed : Bool
deriving DecidableEq

/-- The worker behind a scan. -/
def Worker.scanned : Option Token × Scanner → Worker
  | (some t, s) => .putting t s
  | (none, _) => .marking

/-- The single steps of the worker, which change the slot; `cancelled` says whether somebody asked
to stop. -/
inductive Worker.Step (cancelled : Bool) : Worker → Slot → Worker → Slot → Prop
  | scan (s : Scanner) (slot : Slot) :
      Step cancelled (.scanning s) slot (.scanned (s.pull cancelled)) slot
  /-- Asked to stop in the middle of a scan, which covers what was scanned so far. -/
  | breakOff {s : Scanner} (asked : cancelled = true) (going : s.finished = false)
      (start stop : Pos) (slot : Slot) :
      Step cancelled (.scanning s) slot
        (.putting { Scanner.canceled start with stop } { s with finished := true }) slot
  | put (t : Token) (s : Scanner) :
      Step cancelled (.putting t s) none (.scanning s) (some (some t))
  | timeOut (t : Token) (s : Scanner) (slot : Slot) :
      Step cancelled (.putting t s) slot (.late t s) slot
  | putAgain (asked : cancelled = false) (t : Token) (s : Scanner) (slot : Slot) :
      Step cancelled (.late t s) slot (.putting t s) slot
  | giveUp (asked : cancelled = true) (t : Token) (s : Scanner) (slot : Slot) :
      Step cancelled (.late t s) slot .marking slot
  | mark : Step cancelled .marking none .leaving (some none)
  | markTimeOut (slot : Slot) : Step cancelled .marking slot .markingLate slot
  | markAgain (asked : cancelled = false) (slot : Slot) :
      Step cancelled .markingLate slot .marking slot
  | markGiveUp (asked : cancelled = true) (slot : Slot) :
      Step cancelled .markingLate slot .leaving slot
  | leave (slot : Slot) : Step cancelled .leaving slot .dead slot

namespace Worker

/-- The worker seen as the producer of a hand-off. -/
def producer : Worker → Producer
  | .scanning s => .scanning s
  | .putting t s | .late t s => .offering t s
  | .marking | .markingLate => .closing
  | .leaving | .dead => .ended

theorem producer_scanned (s : Scanner) (cancelled : Bool) :
    (scanned (s.pull cancelled)).producer = Handoff.scanned s cancelled := by
  unfold Handoff.scanned
  generalize s.pull cancelled = out
  obtain ⟨_ | t, s⟩ := out <;> rfl

/-- A step of the worker is a step of the producer or none. -/
theorem Step.refines {cancelled : Bool} {w w' : Worker} {slot slot' : Slot}
    (step : Step cancelled w slot w' slot') :
    (⟨w'.producer, slot', cancelled⟩ : Handoff) = ⟨w.producer, slot, cancelled⟩ ∨
      Handoff.Step ⟨w.producer, slot, cancelled⟩ .produce ⟨w'.producer, slot', cancelled⟩ := by
  cases step with
  | scan s slot =>
    rw [producer_scanned]
    exact .inr (.scan s slot cancelled)
  | breakOff asked going start stop slot =>
    subst asked
    exact .inr (.breakOff _ slot start stop going)
  | put t s => exact .inr (.put t s cancelled)
  | timeOut | putAgain | markTimeOut | markAgain | leave => exact .inl rfl
  | giveUp asked t s slot =>
    subst asked
    exact .inr (.giveUp t s slot)
  | mark => exact .inr (.putEnd cancelled)
  | markGiveUp asked slot =>
    subst asked
    exact .inr (.giveUpEnd slot)

end Worker

namespace Relay

/-- What a single step shows. -/
inductive Action where
  /-- Nothing. -/
  | work
  /-- The asker asks for a token. -/
  | ask
  /-- The asker is given a token, or nothing. -/
  | give (item : Option Token)
  /-- Somebody asks to stop. -/
  | cancel
deriving DecidableEq

/-- The asker is given an item. -/
def given (r : Relay) (item : Option Token) : Relay :=
  { r with asker := .idle, closed := item.isNone }

/-- The single steps of a relay. -/
inductive Step : Relay → Action → Relay → Prop
  | work {r : Relay} {worker : Worker} {slot : Slot}
      (step : Worker.Step r.cancelled r.worker r.slot worker slot) :
      Step r .work { r with worker, slot }
  | ask {r : Relay} (idle : r.asker = .idle) (isOpen : r.closed = false) :
      Step r .ask { r with asker := .waiting }
  | giveClosed {r : Relay} (idle : r.asker = .idle) (closed : r.closed = true) :
      Step r (.give none) r
  | take {r : Relay} {item : Option Token} (waits : r.asker = .waiting)
      (full : r.slot = some item) : Step r (.give item) ({ r with slot := none }.given item)
  | timeOut {r : Relay} (waits : r.asker = .waiting) : Step r .work { r with asker := .late }
  | findAlive {r : Relay} (late : r.asker = .late) (alive : r.worker ≠ .dead) :
      Step r .work { r with asker := .waiting }
  | findDead {r : Relay} (late : r.asker = .late) (dead : r.worker = .dead) :
      Step r .work { r with asker := .alone }
  | takeLast {r : Relay} {item : Option Token} (alone : r.asker = .alone)
      (full : r.slot = some item) : Step r (.give item) ({ r with slot := none }.given item)
  | findNothing {r : Relay} (alone : r.asker = .alone) (empty : r.slot = none) :
      Step r (.give none) (r.given none)
  | cancel (r : Relay) : Step r .cancel { r with cancelled := true }

/-- The items that a step gives. -/
def Action.items : Action → List (Option Token)
  | give item => [item]
  | _ => []

/-- Runs, with the items that are given in them. -/
inductive Runs (r : Relay) : List (Option Token) → Relay → Prop
  | refl : Runs r [] r
  | more {items : List (Option Token)} {s s' : Relay} {a : Action} (run : Runs r items s)
      (step : Step s a s') : Runs r (items ++ a.items) s'

/-- A relay at the start of a text. -/
def start (source : String) : Relay :=
  ⟨.scanning (Scanner.start source), none, false, .idle, false⟩

/-! ### Single steps are steps of the hand-off or none -/

/-- The relay seen as a hand-off. -/
def handoff (r : Relay) : Handoff := ⟨r.worker.producer, r.slot, r.cancelled⟩

/-- What a step of a relay is for the hand-off: nothing or a step of the producer, an item that is
received, or the wish to stop.  Who was given the end marker is given nothing, and the hand-off does
nothing. -/
def Action.Seen (r r' : Relay) : Action → Prop
  | work | ask => r'.handoff = r.handoff ∨ Handoff.Step r.handoff .produce r'.handoff
  | give item =>
    r.closed = true ∧ item = none ∧ r' = r ∨
      r.asker ≠ .idle ∧ r'.closed = item.isNone ∧
        Handoff.Step r.handoff (.receive item) r'.handoff
  | cancel => Handoff.Step r.handoff .cancel r'.handoff

/-- A single step is a step of the hand-off or none, as its action shows. -/
theorem Step.refines {r r' : Relay} {a : Action} (step : Step r a r')
    (lone : r.asker = .alone → r.worker = .dead) : a.Seen r r' := by
  cases step with
  | work step => exact step.refines
  | ask | timeOut | findAlive | findDead => exact .inl rfl
  | giveClosed idle closed => exact .inl ⟨closed, rfl, rfl⟩
  | take waits full =>
    refine .inr ⟨by simp [waits], rfl, ?_⟩
    rw [handoff, full]
    exact .take _ _ _
  | takeLast alone full =>
    refine .inr ⟨by simp [alone], rfl, ?_⟩
    rw [handoff, full]
    exact .take _ _ _
  | findNothing alone empty =>
    refine .inr ⟨by simp [alone], rfl, ?_⟩
    have ended : r.handoff = ⟨.ended, none, r.cancelled⟩ := by
      rw [handoff, lone alone, empty]
      rfl
    change Handoff.Step r.handoff (.receive none) r.handoff
    rw [ended]
    exact .findEnded r.cancelled
  | cancel => exact .cancel _ _ _

end Relay

end QualityRules
