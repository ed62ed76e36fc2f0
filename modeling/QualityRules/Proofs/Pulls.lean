import QualityRules.Proofs.Finger
import QualityRules.Proofs.Relay
import QualityRules.Proofs.Tiling
import QualityRules.Token.Feed

/-!
# Proofs — Pulls

Whoever pulls tokens one by one may ask to stop behind any of them.  What was pulled before are the
first tokens of the text; behind them comes one that says that the scanner was told to stop, where
the last of them stops, and then nothing.  Behind the last token of the text comes nothing at all.

* `farewell`: what is still given to one who asks to stop.
* `Cut`: what was given before somebody asked to stop, and behind that.
* `Scanner.pulls`: pulls from a scanner, each under a flag; `Scanner.cut` says what is pulled before
  the flag is raised and behind it.
* `Finger.pulls_iff`: the same pulls at the grain of single characters.
* `Feed.cut`: the same of a feed whose tokens are scanned when they are asked for.
-/

namespace QualityRules

/-- What is given to one who asks to stop when the tokens `ts` were given: nothing behind the last
token of a text, and otherwise a fault that covers nothing and stands where the last of `ts` stops,
or at the start of the text. -/
def farewell (ts : List Token) : List Token :=
  if ts.any fun t => t.kind.isTerminal then []
  else
    let here := (ts.getLast?.map Token.stop).getD ⟨0, 1, 1⟩
    [⟨.illegal, "canceled", here, here⟩]

/-- The items that are given before somebody asks to stop are the first tokens of the text, the
items behind that are the farewell, and behind all of these comes nothing. -/
structure Cut (source : String) (before behind : List (Option Token)) : Prop where
  first : ∃ us, Delivers before (lex source) us
  last : ∃ us, Delivers behind (farewell ((lex source).take before.length)) us

namespace Scanner

/-! ### Pulls from a scanner -/

/-- What is pulled from a scanner under the flags `cs`, one pull under each. -/
def pulls : Scanner → List Bool → List (Option Token)
  | _, [] => []
  | s, c :: cs => (s.pull c).1 :: (s.pull c).2.pulls cs

/-- The scanner behind these pulls. -/
def pulled : Scanner → List Bool → Scanner
  | s, [] => s
  | s, c :: cs => (s.pull c).2.pulled cs

variable {s : Scanner} {n : Nat} {source : String}

theorem pulls_append (s : Scanner) (cs ds : List Bool) :
    s.pulls (cs ++ ds) = s.pulls cs ++ (s.pulled cs).pulls ds := by
  induction cs generalizing s with
  | nil => rfl
  | cons c cs ih => exact congrArg _ (ih _)

theorem pulled_append (s : Scanner) (cs ds : List Bool) :
    s.pulled (cs ++ ds) = (s.pulled cs).pulled ds := by
  induction cs generalizing s with
  | nil => rfl
  | cons c cs ih => exact ih _

@[simp] theorem length_pulls (s : Scanner) (cs : List Bool) : (s.pulls cs).length = cs.length := by
  induction cs generalizing s with
  | nil => rfl
  | cons c cs ih => exact congrArg Nat.succ (ih _)

theorem pull_of_going (going : s.finished = false) : s.pull false = (some s.scan.1, s.scan.2) :=
  next_of_not_finished going

theorem stop_of_going (going : s.finished = false) :
    s.pull true = (some (canceled s.here), { s with finished := true }) := by
  simp [pull, cancel, going]

/-- A scanner from which nothing is pulled is finished. -/
theorem finished_of_pull_none {c : Bool} (none : (s.pull c).1 = none) : (s.pull c).2.finished := by
  cases f : s.finished with
  | true => rwa [pull_of_finished f]
  | false =>
    cases c with
    | true => rw [stop_of_going f]
    | false =>
      rw [pull_of_going f] at none
      cases none

/-- Unless somebody asks to stop, the tokens are pulled in their order. -/
theorem delivers_pulls (s : Scanner) (n : Nat) :
    Delivers (s.pulls (.replicate n false)) s.tokens (s.pulled (.replicate n false)).tokens := by
  induction n generalizing s with
  | zero => rfl
  | succ n ih =>
    rw [List.replicate_succ, pulls, pulled]
    cases f : s.finished with
    | true =>
      have others := ih s
      rw [tokens_of_finished f] at others ⊢
      rw [pull_of_finished f]
      exact ⟨rfl, others⟩
    | false =>
      rw [pull_of_going f, tokens_of_not_finished f]
      exact ⟨rfl, ih _⟩

/-- Behind these pulls the scanner is finished if one of them took the last token. -/
theorem finished_pulled (s : Scanner) (n : Nat) :
    (s.pulled (.replicate n false)).finished
      = (s.finished || (s.tokens.take n).any fun t => t.kind.isTerminal) := by
  induction n generalizing s with
  | zero => simp [pulled]
  | succ n ih =>
    rw [List.replicate_succ, pulled]
    cases f : s.finished with
    | true => rw [pull_of_finished f, ih, f, Bool.true_or, Bool.true_or]
    | false =>
      rw [pull_of_going f, ih, tokens_of_not_finished f, List.take_succ_cons, List.any_cons,
        Bool.false_or, ← finished_scan]

/-- The scanner stands where the last token stops that was pulled. -/
theorem here_pulled (s : Scanner) (n : Nat) :
    (s.pulled (.replicate n false)).here
      = ((s.tokens.take n).getLast?.map Token.stop).getD s.here := by
  induction n generalizing s with
  | zero => rfl
  | succ n ih =>
    rw [List.replicate_succ, pulled]
    cases f : s.finished with
    | true => rw [pull_of_finished f, ih, tokens_of_finished f, List.take_nil, List.take_nil]
    | false =>
      rw [pull_of_going f, ih, tokens_of_not_finished f, List.take_succ_cons, List.getLast?_cons,
        ← stop_scan]
      cases (s.scan.2.tokens.take n).getLast? <;> rfl

theorem delivers_of_finished (f : s.finished) (cs : List Bool) : Delivers (s.pulls cs) [] [] := by
  induction cs with
  | nil => rfl
  | cons c cs ih =>
    rw [pulls, pull_of_finished f]
    exact ⟨rfl, ih⟩

/-- Who asks to stop is told so, unless the scanner is finished, and is given nothing then. -/
theorem exists_delivers_stopped (s : Scanner) (n : Nat) : ∃ us,
    Delivers (s.pulls (.replicate n true)) (if s.finished then [] else [canceled s.here]) us := by
  cases f : s.finished with
  | true => exact ⟨[], delivers_of_finished f _⟩
  | false =>
    cases n with
    | zero => exact ⟨_, rfl⟩
    | succ n =>
      rw [List.replicate_succ, pulls, stop_of_going f]
      exact ⟨[], rfl, delivers_of_finished rfl _⟩

/-- Pulls before a flag is raised and behind that cut the tokens off. -/
theorem cut (source : String) (k n : Nat) :
    Cut source ((start source).pulls (.replicate k false))
      (((start source).pulled (.replicate k false)).pulls (.replicate n true)) where
  first := ⟨_, (start source).delivers_pulls k⟩
  last := by
    have word : Reason.canceled.template.source = "canceled" := by decide +kernel
    have finished := (start source).finished_pulled k
    rw [show (start source).finished = false from rfl, Bool.false_or] at finished
    have same : farewell ((lex source).take k)
        = if ((start source).pulled (.replicate k false)).finished then []
          else [canceled ((start source).pulled (.replicate k false)).here] := by
      rw [finished, here_pulled, canceled, word]
      rfl
    rw [length_pulls, List.length_replicate, same]
    exact exists_delivers_stopped _ n

end Scanner

/-! ### Pulls of a finger -/

namespace Finger

variable {source : String} {state state' state'' : Option State} {f g g' : Finger}
  {item item' : Option Token} {items : List (Option Token)} {c : Bool} {cs : List Bool}

/-- Pulls under the flags `cs`, one under each, with the items that are pulled. -/
inductive Pulls : Option State → Finger → List Bool → List (Option Token) → Prop
  | nil (state : Option State) (f : Finger) : Pulls state f [] []
  | cons {state state' : Option State} {f g : Finger} {c : Bool} {cs : List Bool}
      {item : Option Token} {items : List (Option Token)} (first : Pull c state f item state' g)
      (others : Pulls state' g cs items) : Pulls state f (c :: cs) (item :: items)

theorem Pull.unique (h : Pull c state f item state' g) (k : Pull c state f item' state'' g') :
    item = item' ∧ state' = state'' ∧ g = g' := by
  induction h with
  | ended => cases k; exact ⟨rfl, rfl, rfl⟩
  | stopped asked =>
    cases k with
    | stopped => exact ⟨rfl, rfl, rfl⟩
    | given going | turn going => exact nomatch asked.symm.trans going
  | given going gives =>
    cases k with
    | stopped asked => exact nomatch asked.symm.trans going
    | given _ gives' => exact ⟨gives.symm.trans gives', rfl, rfl⟩
    | turn _ none => cases gives.symm.trans none
  | turn going none _ ih =>
    cases k with
    | stopped asked => exact nomatch asked.symm.trans going
    | given _ gives => cases gives.symm.trans none
    | turn _ _ behind => exact ih behind

/-- A finger pulls what a scanner does that it is abreast of, and nothing else. -/
theorem Abreast.pulls_iff {s : Scanner} (abreast : Abreast s state f) :
    Pulls state f cs items ↔ items = s.pulls cs := by
  induction cs generalizing s state f items with
  | nil =>
    constructor
    · rintro ⟨⟩
      rfl
    · rintro rfl
      exact .nil state f
  | cons c cs ih =>
    obtain ⟨state', g, first, abreast'⟩ := abreast.pull c
    constructor
    · rintro (_ | ⟨pull, others⟩)
      obtain ⟨rfl, rfl, rfl⟩ := first.unique pull
      rw [(ih abreast').mp others]
      rfl
    · rintro rfl
      exact .cons first ((ih abreast').mpr rfl)

/-- From the start of a text a finger pulls what a scanner does. -/
theorem pulls_iff : Pulls (some .outside) (atStart source) cs items ↔
    items = (Scanner.start source).pulls cs :=
  (abreast_atStart source).pulls_iff

end Finger

/-! ### A feed that scans when it is asked -/

namespace Feed

variable {f g : Feed} {n : Nat} {source : String}

/-- The next `n` items. -/
def nexts : Nat → Feed → Except FeedFault (List (Option Token) × Feed)
  | 0, f => .ok ([], f)
  | n + 1, f => do
    let (item, f) ← f.next
    let (items, f) ← f.nexts n
    return (item :: items, f)

/-- The feed scans its tokens with `s` when it is asked for them; when it is closed, the scanner is
finished. -/
structure Direct (f : Feed) (s : Scanner) : Prop where
  supply : f.supply = .direct s
  closed : f.closed → s.finished

theorem Direct.cancel {s : Scanner} (h : f.Direct s) : f.cancel.Direct s where
  supply := by simp [Feed.cancel, h.supply]
  closed := h.closed

/-- The next item is what is pulled. -/
theorem Direct.next {s : Scanner} (h : f.Direct s) : ∃ g : Feed,
    f.next = .ok ((s.pull f.cancelled).1, g) ∧ g.Direct (s.pull f.cancelled).2 ∧
      g.cancelled = f.cancelled := by
  cases closed : f.closed with
  | true =>
    have finished := h.closed closed
    rw [Scanner.pull_of_finished finished, next_of_closed closed]
    exact ⟨f, rfl, h, rfl⟩
  | false =>
    have out : f.next =
        .ok (f.received (s.pull f.cancelled).1 (.direct (s.pull f.cancelled).2)) := by
      simp [Feed.next, closed, h.supply]
    exact ⟨_, out, ⟨rfl, fun none => Scanner.finished_of_pull_none (by simpa using none)⟩, rfl⟩

/-- The next items are what is pulled. -/
theorem Direct.nexts {s : Scanner} (h : f.Direct s) (n : Nat) : ∃ g : Feed,
    f.nexts n = .ok (s.pulls (.replicate n f.cancelled), g) ∧
      g.Direct (s.pulled (.replicate n f.cancelled)) ∧ g.cancelled = f.cancelled := by
  induction n generalizing f s with
  | zero => exact ⟨f, rfl, h, rfl⟩
  | succ n ih =>
    obtain ⟨g, next, direct, same⟩ := h.next
    obtain ⟨k, nexts, direct', same'⟩ := ih direct
    rw [same] at nexts direct' same'
    refine ⟨k, ?_, direct', same'⟩
    rw [Feed.nexts, next]
    change Except.bind (g.nexts n) _ = _
    rw [nexts]
    rfl

/-- A feed that is asked to stop cuts the tokens off. -/
theorem cut (source : String) (k n : Nat) : ∃ f g h before behind,
    (ofSource .inline source).start = .ok f ∧ f.nexts k = .ok (before, g) ∧
      g.cancel.nexts n = .ok (behind, h) ∧ before.length = k ∧ behind.length = n ∧
      Cut source before behind := by
  have direct : (ofSource .inline source).started.Direct (Scanner.start source) := ⟨rfl, nofun⟩
  obtain ⟨g, before, direct, -⟩ := direct.nexts k
  obtain ⟨h, behind, -⟩ := direct.cancel.nexts n
  exact ⟨_, g, h, _, _, rfl, before, behind, by simp, by simp, Scanner.cut source k n⟩

end Feed

end QualityRules
