import QualityRules.Proofs.Row

/-!
# Proofs — Gives

`p.Gives r a s`: on the row `r` the reader `p` succeeds with the result `a` and leaves the row `s`.
One equivalence for each way in which readers are put together says when that is so; they take a
run apart and they build one.

* `gives_pop` and `gives_push`: a token is taken off a row and put back.
* `gives_bind`: two readers in a row meet on a row between them.
* `ParseRules.Gives` is the same with the tray before and after, and so are its equivalences;
  `gives_pop_bind` opens a loop.
* `Reading.Fails` and `ParseRules.fails_bind` are their counterparts for failures.
* `Source.session_eq_ok_iff` and `Source.session_eq_error_iff`: a session succeeds or fails as its
  reader does on the tokens of the text; `Source.rule_eq_ok_iff` leaves nothing of a text but its
  tokens.
-/

namespace QualityRules

variable {ε ε' α β : Type}

namespace Reading

/-- On the row `r` the reader succeeds with `a` and leaves `s`. -/
def Gives (p : Reading ε α) (r : Row) (a : α) (s : Row) : Prop := p.along r = (.ok a, s)

/-- On the row `r` the reader fails with `e` and leaves `s`. -/
def Fails (p : Reading ε α) (r : Row) (e : ε) (s : Row) : Prop := p.along r = (.error e, s)

/-- A reader that fails on some tokens fails on their row. -/
theorem fails_of_run {p : Reading ε α} {ts : List Token} {e : ε}
    (failed : (p.run (Cursor.ofTokens ts)).1 = .error e) :
    p.Fails (Row.ofTokens ts) e (p.run (Cursor.ofTokens ts)).2.row :=
  (p.along_ofTokens ts).trans (congrArg (·, _) failed)

@[simp] theorem gives_pure {a b : α} {r s : Row} :
    (pure a : Reading ε α).Gives r b s ↔ b = a ∧ s = r := by
  change (Except.ok a, r) = (Except.ok b, s) ↔ _
  simp [eq_comm]

@[simp] theorem not_gives_fail {e : ε} {a : α} {r s : Row} :
    ¬ (fail e : Reading ε α).Gives r a s :=
  fun h => nomatch congrArg Prod.fst h

/-- Two readers in turn succeed when each one does. -/
theorem gives_bind {p : Reading ε α} {f : α → Reading ε β} {r s : Row} {b : β} :
    (p >>= f).Gives r b s ↔ ∃ a m, p.Gives r a m ∧ (f a).Gives m b s := by
  simp only [Gives, along_bind]
  rcases p.along r with ⟨a | e, m⟩ <;> simp

/-- Two readers in turn fail when one of them does. -/
theorem fails_bind {p : Reading ε α} {f : α → Reading ε β} {r s : Row} {e : ε} :
    (p >>= f).Fails r e s ↔ p.Fails r e s ∨ ∃ a m, p.Gives r a m ∧ (f a).Fails m e s := by
  simp only [Gives, Fails, along_bind]
  rcases p.along r with ⟨a | e, m⟩ <;> simp

@[simp] theorem gives_mapError {g : ε → ε'} {p : Reading ε α} {r s : Row} {a : α} :
    (p.mapError g).Gives r a s ↔ p.Gives r a s := by
  simp only [Gives, along_mapError]
  rcases p.along r with ⟨a | e, m⟩ <;> simp [Except.mapError]

/-- An attempt that comes to a result is a success. -/
theorem gives_attempt_ok {p : Reading ε α} {r s : Row} {a : α} :
    (p.attempt : Reading ε' _).Gives r (.ok a) s ↔ p.Gives r a s := by
  simp only [Gives, along_attempt, Prod.mk.injEq, Except.ok.injEq]
  rcases p.along r with ⟨a | e, m⟩ <;> simp

/-- An attempt that comes to a failure is one. -/
theorem gives_attempt_error {p : Reading ε α} {r s : Row} {e : ε} :
    (p.attempt : Reading ε' _).Gives r (.error e) s ↔ p.Fails r e s := by
  simp only [Gives, Fails, along_attempt, Prod.mk.injEq, Except.ok.injEq]
  rcases p.along r with ⟨a | e, m⟩ <;> simp

end Reading

namespace Read
open Reading

/-- Taking a token takes the first of the row. -/
theorem gives_pop {t : Token} {r s : Row} : pop.Gives r t s ↔ r = Row.cons t s := by
  have split : r = Stream'.cons r.head r.tail := (Stream'.eta r).symm
  simp only [Gives, pop, along, Row.cons]
  constructor
  · intro h
    rw [split]
    cases e : r.head with
    | ok u => rw [e] at h; cases h; rfl
    | error x => rw [e] at h; cases congrArg Prod.fst h
  · rintro rfl
    rfl

/-- A token that is put back is the first of the row. -/
@[simp] theorem gives_push {t : Token} {u : Unit} {r s : Row} :
    (push t).Gives r u s ↔ s = Row.cons t r := by
  change (Except.ok (), Row.cons t r) = (Except.ok u, s) ↔ _
  simp [eq_comm]

@[simp] theorem not_gives_refuse {cause : Cause} {pos : Pos} {a : α} {r s : Row} :
    ¬ (refuse cause pos : Parse α).Gives r a s := not_gives_fail

@[simp] theorem not_gives_fail {e : Refusal} {a : α} {r s : Row} :
    ¬ (fail e : Parse α).Gives r a s := Reading.not_gives_fail

end Read

namespace ParseRules

/-- On the row `r` and with the tray `k` the reader succeeds with `a` and leaves `s` and `l`. -/
def Gives (p : ParseRules α) (k : Tray) (r : Row) (a : α) (l : Tray) (s : Row) : Prop :=
  (p k).Gives r (a, l) s

variable {k l : Tray} {r s : Row} {a : α} {b : β} {e : Refusal}

@[simp] theorem gives_pure {a' : α} :
    (pure a' : ParseRules α).Gives k r a l s ↔ a = a' ∧ l = k ∧ s = r := by
  change (pure (a', k) : Reading _ _).Gives r (a, l) s ↔ _
  simp [and_assoc]

/-- Two readers of rules in turn succeed when each one does. -/
theorem gives_bind {p : ParseRules α} {f : α → ParseRules β} :
    (p >>= f).Gives k r b l s ↔ ∃ a m q, p.Gives k r a m q ∧ (f a).Gives m q b l s := by
  change (p k >>= fun x => f x.1 x.2).Gives r (b, l) s ↔ _
  rw [Reading.gives_bind]
  exact ⟨fun ⟨x, q, h⟩ => ⟨x.1, x.2, q, h⟩, fun ⟨a, m, q, h⟩ => ⟨(a, m), q, h⟩⟩

/-- A reader that knows of no tray leaves it as it is. -/
@[simp] theorem gives_lift {p : Parse α} :
    (liftM p : ParseRules α).Gives k r a l s ↔ l = k ∧ p.Gives r a s := by
  change ((p.mapError _) >>= fun a => pure (a, k)).Gives r (a, l) s ↔ _
  rw [Reading.gives_bind]
  simp only [Reading.gives_mapError, Reading.gives_pure, Prod.mk.injEq]
  constructor
  · rintro ⟨b, q, h, ⟨rfl, rfl⟩, rfl⟩
    exact ⟨rfl, h⟩
  · rintro ⟨rfl, h⟩
    exact ⟨a, s, h, ⟨rfl, rfl⟩, rfl⟩

/-- What pops a token first goes on behind it. -/
theorem gives_pop_bind {f : Token → ParseRules α} :
    ((liftM Read.pop : ParseRules Token) >>= f).Gives k r a l s ↔
      ∃ t m, r = Row.cons t m ∧ (f t).Gives k m a l s := by
  simp only [gives_bind, gives_lift, Read.gives_pop]
  constructor
  · rintro ⟨t, _, m, ⟨rfl, rfl⟩, h⟩
    exact ⟨t, m, rfl, h⟩
  · rintro ⟨t, m, rfl, h⟩
    exact ⟨t, k, m, ⟨rfl, rfl⟩, h⟩

/-- A reader on another tray succeeds as it does there, and the way back leads to what is left. -/
theorem gives_onTray {enter : Tray → Tray} {leave : Tray → Tray → Tray} {p : ParseRules α} :
    (Read.onTray enter leave p).Gives k r a l s ↔
      ∃ m, p.Gives (enter k) r a m s ∧ l = leave k m := by
  change (((p (enter k)).mapError _) >>= fun x => pure (x.1, leave k x.2)).Gives r (a, l) s ↔ _
  rw [Reading.gives_bind]
  simp only [Reading.gives_mapError, Reading.gives_pure, Prod.mk.injEq, Prod.exists, Gives]
  constructor
  · rintro ⟨b, m, q, h, ⟨rfl, rfl⟩, rfl⟩
    exact ⟨m, h, rfl⟩
  · rintro ⟨m, h, rfl⟩
    exact ⟨a, m, s, h, ⟨rfl, rfl⟩, rfl⟩

/-- A run of its own starts empty and is dropped; what floats stays. -/
theorem gives_withFreshRun {p : ParseRules α} :
    (Read.withFreshRun p).Gives k r a l s ↔
      ∃ m, p.Gives ⟨k.floating, []⟩ r a m s ∧ l = ⟨m.floating, k.run⟩ :=
  gives_onTray

/-- With a tray of its own a reader leaves the one that was there. -/
theorem gives_withTray {inner m : Tray} {p : ParseRules α} :
    (Read.withTray inner p).Gives k r (a, m) l s ↔ l = k ∧ p.Gives inner r a m s := by
  rw [Read.withTray, gives_onTray]
  simp only [gives_bind]
  constructor
  · rintro ⟨n, ⟨b, o, q, h, t, o', q', get, rest⟩, rfl⟩
    -- the inner tray is looked at before it is put away
    change (pure (o, o) : Reading _ _).Gives q (t, o') q' at get
    simp only [Reading.gives_pure, Prod.mk.injEq] at get
    obtain ⟨⟨rfl, rfl⟩, rfl⟩ := get
    simp only [gives_pure, Prod.mk.injEq] at rest
    obtain ⟨⟨rfl, rfl⟩, rfl, rfl⟩ := rest
    exact ⟨rfl, h⟩
  · rintro ⟨rfl, h⟩
    exact ⟨m, ⟨a, m, s, h, m, m, s, (Reading.gives_pure.mpr ⟨rfl, rfl⟩ : _),
      gives_pure.mpr ⟨rfl, rfl, rfl⟩⟩, rfl⟩

/-- Two readers of rules in turn fail when one of them does. -/
theorem fails_bind {p : ParseRules α} {f : α → ParseRules β} :
    ((p >>= f) k).Fails r (e, l) s ↔
      (p k).Fails r (e, l) s ∨ ∃ a m q, p.Gives k r a m q ∧ (f a m).Fails q (e, l) s := by
  change (p k >>= fun x => f x.1 x.2).Fails r (e, l) s ↔ _
  rw [Reading.fails_bind]
  exact or_congr_right
    ⟨fun ⟨x, q, h⟩ => ⟨x.1, x.2, q, h⟩, fun ⟨a, m, q, h⟩ => ⟨(a, m), q, h⟩⟩

/-- A reader on another tray fails as it does there. -/
theorem fails_onTray {enter : Tray → Tray} {leave : Tray → Tray → Tray} {p : ParseRules α} :
    (Read.onTray enter leave p k).Fails r (e, l) s ↔
      ∃ m, (p (enter k)).Fails r (e, m) s ∧ l = leave k m := by
  change (((p (enter k)).mapError _) >>= fun x => pure (x.1, leave k x.2)).Fails r (e, l) s ↔ _
  simp only [Reading.Fails, Reading.along_bind, Reading.along_mapError]
  rcases (p (enter k)).along r with ⟨⟨e', m⟩ | ⟨a, m⟩, q⟩
  · simp only [Except.mapError, Prod.mk.injEq, Except.error.injEq]
    constructor
    · rintro ⟨⟨rfl, rfl⟩, rfl⟩
      exact ⟨m, ⟨⟨rfl, rfl⟩, rfl⟩, rfl⟩
    · rintro ⟨-, ⟨⟨rfl, rfl⟩, rfl⟩, rfl⟩
      exact ⟨⟨rfl, rfl⟩, rfl⟩
  · constructor
    · intro h
      cases congrArg Prod.fst h
    · rintro ⟨_, h, _⟩
      cases congrArg Prod.fst h

@[simp] theorem gives_spill {u : Unit} : Read.spill.Gives k r u l s ↔ l = k.spill ∧ s = r := by
  change (pure ((), k.spill) : Reading _ _).Gives r (u, l) s ↔ _
  simp

@[simp] theorem gives_addComment {t : Token} {u : Unit} :
    (Read.addComment t).Gives k r u l s ↔ l = k.add (Comment.ofToken t) ∧ s = r := by
  change (pure ((), k.add (Comment.ofToken t)) : Reading _ _).Gives r (u, l) s ↔ _
  simp

@[simp] theorem gives_takeDescription {pos : Pos} {g : Option CommentGroup} :
    (Read.takeDescription pos).Gives k r g l s ↔ (g, l) = k.takeDescription pos ∧ s = r := by
  change (pure (k.takeDescription pos) : Reading _ _).Gives r (g, l) s ↔ _
  simp

end ParseRules

/-- What was read can be looked at when it is known what there is to see. -/
theorem Outcome.exists_ok {α : Type} {o : Outcome α} {P : α → Prop} [DecidablePred P]
    (h : o.result.toOption.any fun a => P a) : ∃ a, o.result = .ok a ∧ P a := by
  cases e : o.result with
  | ok a => exact ⟨a, rfl, by simpa [e, Except.toOption] using h⟩
  | error x => simp [e, Except.toOption] at h

/-- A file is read in a session, on whatever stack. -/
theorem Source.result_fileOn (stack : Option Nat) (filename source : String) (options : Options) :
    (fileOn stack filename source options).result
      = (session filename source options
          fun steps => Read.file (.on stack steps) filename).result := by
  simp only [fileOn]

/-- A file is read in a session, on a stack without an end. -/
theorem Source.result_file (filename source : String) (options : Options) :
    (file filename source options).result
      = (session filename source options fun steps => Read.file steps filename).result :=
  result_fileOn none filename source options

/-- What comes of a session is what its reader does along the tokens of the text. -/
theorem Source.result_session (name source : String) (options : Options) (p : Nat → ParseRules α) :
    (session name source options p).result =
      match (p ((lex source).length + 1) Tray.empty).along (Row.ofTokens (lex source)) with
      | (.ok (a, _), _) => .ok a
      | (.error (e, _), _) => .error (e.report source options.snippetWidth) := by
  -- a session runs on a cursor; what is before that is the row of the tokens
  have same := (p ((lex source).length + 1) Tray.empty).along_ofTokens (lex source)
  have fuel : (Cursor.ofTokens (lex source)).budget = (lex source).length + 1 := by
    simp [Cursor.budget, Cursor.ofTokens]
  rw [same]
  simp only [session, Feed.tokens_eq_lex, Desk.ofTokens, ParseRules.runAt, fuel]
  rcases (p ((lex source).length + 1) Tray.empty).run (Cursor.ofTokens (lex source)) with
    ⟨⟨x, k⟩ | ⟨a, k⟩, c⟩ <;> rfl

/-- A session succeeds when its reader does on the tokens of the text. -/
theorem Source.session_eq_ok_iff {name source : String} {options : Options}
    {p : Nat → ParseRules α} {a : α} :
    (session name source options p).result = .ok a ↔
      ∃ k s, (p ((lex source).length + 1)).Gives Tray.empty (Row.ofTokens (lex source)) a k s := by
  rw [result_session]
  simp only [ParseRules.Gives, Reading.Gives]
  rcases (p ((lex source).length + 1) Tray.empty).along (Row.ofTokens (lex source)) with
    ⟨⟨x, k⟩ | ⟨b, k⟩, s⟩
  · simp
  · simp [eq_comm]

/-- A session fails when its reader does, and reports why. -/
theorem Source.session_eq_error_iff {name source : String} {options : Options}
    {p : Nat → ParseRules α} {failure : Failure} :
    (session name source options p).result = .error failure ↔
      ∃ e k s, (p ((lex source).length + 1) Tray.empty).Fails (Row.ofTokens (lex source)) (e, k) s ∧
        failure = e.report source options.snippetWidth := by
  rw [result_session]
  simp only [Reading.Fails]
  rcases (p ((lex source).length + 1) Tray.empty).along (Row.ofTokens (lex source)) with
    ⟨⟨x, k⟩ | ⟨b, k⟩, s⟩
  · simp [eq_comm]
  · simp

/-- What comes of reading the tokens `ts` as a rule. -/
def Source.ruleOf (ts : List Token) : Except Refusal RuleDecl :=
  let desk := Desk.ofTokens ts
  ((Read.rule desk.cursor.budget false).runAt desk).1

/-- Tokens are a rule when the reader succeeds on them with as many steps as there are. -/
theorem Source.ruleOf_eq_ok_iff {ts : List Token} {d : RuleDecl} : ruleOf ts = .ok d ↔
    ∃ k s, (Read.rule ↑(ts.length + 1) false).Gives Tray.empty (Row.ofTokens ts) d k s := by
  have same := (Read.rule ↑(ts.length + 1) false Tray.empty).along_ofTokens ts
  have fuel : (Cursor.ofTokens ts).budget = ts.length + 1 := by
    simp [Cursor.budget, Cursor.ofTokens]
  simp only [ParseRules.Gives, Reading.Gives, same, ruleOf, Desk.ofTokens, ParseRules.runAt, fuel]
  rcases (Read.rule ↑(ts.length + 1) false Tray.empty).run (Cursor.ofTokens ts) with
    ⟨⟨x, k⟩ | ⟨b, k⟩, c⟩
  · simp
  · simp [eq_comm]

/-- To read a text as a rule is to read its tokens as one. -/
theorem Source.rule_eq_ok_iff {source : String} {options : Options} {d : RuleDecl} :
    (rule source options).result = .ok d ↔ ruleOf (lex source) = .ok d :=
  session_eq_ok_iff.trans ruleOf_eq_ok_iff.symm

end QualityRules
