import QualityRules.Proofs.Gives
import QualityRules.Proofs.Shift

/-!
# Proofs — Follows — Calculus

A reader cannot tell where a text begins: whatever it does on tokens, it does on the same tokens
further down, and all that it reads is as far down.  With more fuel it does the same, unless it ran
out of it before.

* `Reading.Follows`: one reader does what another does, `o` further down.  The other fails where it
  cannot take a token, and with that; a failure of its own is no such fault.
* `Follows.bind`, `Follows.mapError` and `Follows.attempt_bind` put readers together;
  `ParseRules.Follows` is the same on every tray.
* `Reading.Follows.gives` and `ParseRules.Follows.gives` say it of rows.
-/

namespace QualityRules

variable {ε ε' α β : Type} {o : Offset}

instance [Shift ε] [Shift α] : Shift (Except ε α) where
  shift o
    | .ok a => .ok (shift o a)
    | .error e => .error (shift o e)
  shift_zero x := by cases x <;> simp

instance : Shift Refusal where
  shift o
    | .at cause pos => .at cause (shift o pos)
    | e => e
  shift_zero e := by cases e <;> simp

instance : Shift Tray := ⟨fun o k => ⟨shift o k.floating, shift o k.run⟩, fun k => by simp⟩

/-- There was no token to take. -/
def Refusal.isFault : Refusal → Bool
  | .at (.scan _) _ | .starved => true
  | _ => false

namespace Reading

/-- The reader `q` does what `p` does, `o` further down; it may go on where `p` runs out of fuel.
The refusal in a failure is `ref`. -/
inductive Follows [Shift ε] [Shift α] (o : Offset) (ref : ε → Refusal) :
    Reading ε α → Reading ε α → Prop
  | done (a : α) : Follows o ref (.done a) (.done (shift o a))
  | fail {e : ε} (own : (ref e).isFault = false) : Follows o ref (.fail e) (.fail (shift o e))
  | overrun {e : ε} (spent : ref e = .overrun) (q : Reading ε α) : Follows o ref (.fail e) q
  | pop {next next' : Except Refusal Token → Reading ε α}
      (token : ∀ t, Follows o ref (next (.ok t)) (next' (.ok (shift o t))))
      (fault : ∀ e, e.isFault → ∃ failure, ref failure = e ∧ next (.error e) = .fail failure ∧
        next' (.error (shift o e)) = .fail (shift o failure)) :
      Follows o ref (.pop next) (.pop next')
  | push (t : Token) {next next' : Reading ε α} (rest : Follows o ref next next') :
      Follows o ref (.push t next) (.push (shift o t) next')

namespace Follows

variable [Shift ε] [Shift ε'] [Shift α] [Shift β] {ref : ε → Refusal} {ref' : ε' → Refusal}
  {p q : Reading ε α}

/-- What moves with the offset is given further down. -/
theorem of_eq {a b : α} (h : b = shift o a) : Follows o ref (pure a) (pure b) := h ▸ .done a

/-- Two readers in turn move when each one does. -/
theorem bind {f g : α → Reading ε β} (h : Follows o ref p q)
    (rest : ∀ a, Follows o ref (f a) (g (shift o a))) : Follows o ref (p >>= f) (q >>= g) := by
  change Follows o ref (p.bind f) (q.bind g)
  induction h with
  | done a => exact rest a
  | fail own => exact .fail own
  | overrun spent q => exact .overrun spent _
  | pop _ fault token =>
    refine .pop token fun e isFault => ?_
    obtain ⟨failure, ref_eq, here, there⟩ := fault e isFault
    exact ⟨failure, ref_eq, by rw [here]; rfl, by rw [there]; rfl⟩
  | push t _ rest => exact .push t rest

/-- Failures may be told in other words, if these move too. -/
theorem mapError {c c' : ε → ε'} (h : Follows o ref p q) (refs : ∀ e, ref' (c e) = ref e)
    (moves : ∀ e, c' (shift o e) = shift o (c e)) :
    Follows o ref' (p.mapError c) (q.mapError c') := by
  induction h with
  | done a => exact .done a
  | @fail e own =>
    rw [Reading.mapError, Reading.mapError, moves]
    exact .fail (by rw [refs, own])
  | @overrun e spent q => exact .overrun ((refs e).trans spent) _
  | pop _ fault token =>
    refine .pop token fun e isFault => ?_
    obtain ⟨failure, ref_eq, here, there⟩ := fault e isFault
    exact ⟨c failure, (refs failure).trans ref_eq, by rw [here]; rfl,
      by rw [there, Reading.mapError, moves]⟩
  | push t _ rest => exact .push t rest

/-- A failure may be taken up again, unless there was no token to take or no fuel was left. -/
theorem attempt_bind {f g : Except ε α → Reading ε' β} (h : Follows o ref p q)
    (result : ∀ a, Follows o ref' (f (.ok a)) (g (.ok (shift o a))))
    (own : ∀ e, (ref e).isFault = false →
      Follows o ref' (f (.error e)) (g (.error (shift o e))))
    (spent : ∀ e, ref e = .overrun → ∃ e', ref' e' = .overrun ∧ f (.error e) = .fail e')
    (fault : ∀ e, (ref e).isFault → ∃ e', ref' e' = ref e ∧ f (.error e) = .fail e' ∧
      g (.error (shift o e)) = .fail (shift o e')) :
    Follows o ref' (p.attempt >>= f) (q.attempt >>= g) := by
  change Follows o ref' (p.attempt.bind f) (q.attempt.bind g)
  induction h with
  | done a => exact result a
  | fail isOwn => exact own _ isOwn
  | @overrun e isOver q =>
    obtain ⟨e', spent', eq⟩ := spent e isOver
    change Follows o ref' (f (.error e)) _
    rw [eq]
    exact .overrun spent' _
  | pop _ popped token =>
    refine .pop token fun e isFault => ?_
    obtain ⟨failure, rfl, here, there⟩ := popped e isFault
    obtain ⟨e', ref_eq, here', there'⟩ := fault failure isFault
    exact ⟨e', ref_eq, (congrArg (·.attempt.bind f) here).trans here',
      (congrArg (·.attempt.bind g) there).trans there'⟩
  | push t _ rest => exact .push t rest

end Follows

end Reading

/-! ### Readers that know of no tray -/

/-- A reader that does what another one does, `o` further down. -/
abbrev Parse.Follows [Shift α] (o : Offset) (p q : Parse α) : Prop := Reading.Follows o id p q

namespace Read
open Reading (Follows)

/-- The next token is taken further down. -/
theorem follows_pop : Parse.Follows o pop pop :=
  .pop (fun t => .done t) fun e _ => ⟨e, rfl, rfl, rfl⟩

/-- A token that was moved is put back further down. -/
theorem follows_push (t : Token) : Parse.Follows o (push t) (push (shift o t)) :=
  .push t (.done ())

/-- A reader that fails by itself does so further down. -/
theorem follows_fail [Shift α] {e : Refusal} (own : e.isFault = false) :
    Parse.Follows o (fail e : Parse α) (fail (shift o e)) :=
  .fail own

/-- A refusal moves with the place that it names. -/
theorem follows_refuse [Shift α] {cause : Cause} {pos : Pos}
    (own : (Refusal.at cause pos).isFault = false) :
    Parse.Follows o (refuse cause pos : Parse α) (refuse cause (shift o pos)) :=
  .fail own

end Read

/-! ### Readers with a tray -/

namespace ParseRules

/-- On every tray a reader does what another one does, `o` further down. -/
def Follows [Shift α] (o : Offset) (p q : ParseRules α) : Prop :=
  ∀ k, Reading.Follows o Prod.fst (p k) (q (shift o k))

namespace Follows

variable [Shift α] [Shift β]

theorem of_eq {a b : α} (h : b = shift o a) : Follows o (pure a : ParseRules α) (pure b) :=
  fun k => .of_eq (a := (a, k)) (by rw [h]; rfl)

theorem done (a : α) : Follows o (pure a : ParseRules α) (pure (shift o a)) := of_eq rfl

theorem bind {p q : ParseRules α} {f g : α → ParseRules β} (h : Follows o p q)
    (rest : ∀ a, Follows o (f a) (g (shift o a))) : Follows o (p >>= f) (q >>= g) :=
  fun k => (h k).bind fun x => rest x.1 x.2

/-- A reader without a tray moves on every tray. -/
theorem lift {p q : Parse α} (h : Parse.Follows o p q) :
    Follows o (liftM p : ParseRules α) (liftM q) := by
  intro k
  have failing : Reading.Follows o Prod.fst (p.mapError fun e => (e, k))
      (q.mapError fun e => (e, shift o k)) := h.mapError (fun _ => rfl) fun _ => rfl
  exact failing.bind fun a => .done (a, k)

/-- A reader moves on another tray when the ways to that tray and back do. -/
theorem onTray {p q : ParseRules α} {enter enter' : Tray → Tray} {leave leave' : Tray → Tray → Tray}
    (h : Follows o p q) (enters : ∀ k, enter' (shift o k) = shift o (enter k))
    (leaves : ∀ k l, leave' (shift o k) (shift o l) = shift o (leave k l)) :
    Follows o (Read.onTray enter leave p) (Read.onTray enter' leave' q) := by
  intro k
  refine Reading.Follows.bind ?_ fun x => .of_eq (a := (x.1, leave k x.2)) ?_
  · rw [enters]
    exact (h (enter k)).mapError (fun _ => rfl) fun e => Prod.ext rfl (leaves k e.2)
  · exact Prod.ext rfl (leaves k x.2)

/-- What only changes the tray. -/
theorem modifyGet {f g : Tray → α × Tray} (moves : ∀ k, g (shift o k) = shift o (f k)) :
    Follows o (modifyGet f : ParseRules α) (modifyGet g) :=
  fun k => .of_eq (a := f k) (moves k)

end Follows

end ParseRules

/-! ### Rows -/

instance : Shift Row where
  shift o := Stream'.map (shift o)
  shift_zero r := Stream'.ext fun n => shift_zero (r.get n)

namespace Row

variable {t last : Token} {ts : List Token} {r : Row}

@[simp] theorem shift_cons : shift o (cons t r) = cons (shift o t) (shift o r) :=
  Stream'.map_cons _ _ _

@[simp] theorem shift_behind : shift o (behind ts r) = behind (shift o ts) (shift o r) := by
  induction ts with
  | nil => rfl
  | cons t ts ih => rw [behind_cons, shift_cons, ih]; rfl

/-- What comes behind the last token moves with it. -/
theorem shift_ending : shift o (ending last) = ending (shift o last) := by
  unfold ending
  rw [Token.kind_shift]
  split
  · exact Stream'.map_cons _ _ _
  · exact Stream'.map_const _ _

/-- The row of tokens that were moved is the moved row. -/
theorem shift_ofTokens : shift o (ofTokens ts) = ofTokens (shift o ts) := by
  induction ts with
  | nil => exact Stream'.map_const _ _
  | cons t ts ih =>
    rw [QualityRules.shift_cons, ofTokens, ofTokens, Token.kind_shift]
    split
    · exact Stream'.map_const _ _
    · split
      · rw [← ih]
        exact Stream'.map_cons _ _ _
      · rw [shift_cons, ih]

/-- Where a row holds no token, there is none to take. -/
def Regular (r : Row) : Prop := ∀ n e, r.get n = .error e → e.isFault

/-- Behind the first of its tokens a row is as regular. -/
theorem Regular.tail (h : r.Regular) : Regular r.tail := fun n e eq => h (n + 1) e eq

/-- A token more leaves a row regular. -/
theorem Regular.cons (h : r.Regular) : (Row.cons t r).Regular := by
  intro n e eq
  cases n with
  | zero => exact nomatch eq
  | succ n => exact h n e eq

/-- Tokens before it leave a row regular. -/
theorem Regular.behind (h : r.Regular) : (Row.behind ts r).Regular := by
  induction ts with
  | nil => exact h
  | cons t ts ih => exact ih.cons

/-- Behind the last token of a text a row is regular. -/
theorem regular_ending (last : Token) : (ending last).Regular := by
  unfold ending
  split
  · intro n e eq
    cases n with
    | zero => cases eq; rfl
    | succ n => cases eq; rfl
  · exact fun n e eq => nomatch eq

end Row

/-- Where a reader succeeds on a regular row, the other one does further down. -/
theorem Reading.Follows.gives [Shift ε] [Shift α] {ref : ε → Refusal} {p q : Reading ε α} {a : α}
    {r s : Row} (h : Follows o ref p q) (regular : r.Regular) (g : p.Gives r a s) :
    q.Gives (shift o r) (shift o a) (shift o s) := by
  induction h generalizing r with
  | done b =>
    obtain ⟨rfl, rfl⟩ := gives_pure.mp g
    exact gives_pure.mpr ⟨rfl, rfl⟩
  | fail own => exact absurd g not_gives_fail
  | overrun spent q => exact absurd g not_gives_fail
  | @pop next next' token fault ih =>
    change (next r.head).Gives r.tail a s at g
    change (next' (shift o r.head)).Gives (shift o r.tail) _ _
    cases head : r.head with
    | ok t =>
      rw [head] at g
      exact ih t regular.tail g
    | error e =>
      rw [head] at g
      obtain ⟨failure, -, here, -⟩ := fault e (regular 0 e head)
      rw [here] at g
      exact absurd g not_gives_fail
  | push t rest ih =>
    have := ih regular.cons g
    rwa [Row.shift_cons] at this

/-- Where a reader of rules succeeds on a regular row, the other one does further down. -/
theorem ParseRules.Follows.gives [Shift α] {p q : ParseRules α} {a : α} {k l : Tray} {r s : Row}
    (h : Follows o p q) (regular : r.Regular) (g : p.Gives k r a l s) :
    q.Gives (shift o k) (shift o r) (shift o a) (shift o l) (shift o s) :=
  Reading.Follows.gives (h k) regular g

end QualityRules
