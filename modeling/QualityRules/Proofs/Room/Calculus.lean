import QualityRules.Proofs.Gives
import QualityRules.Proofs.Putback.Calculus

/-!
# Proofs — Room — Calculus

A reader that has room for fewer open conditions does what one with more room does, until it is
stopped.  As trees of what they do, the first one is the second one with some branches cut off; and
it goes down to a cut past so many words `with`, for each of them opens a condition.

* `withs` counts these words.
* `Reading.Prunes`: one reader is another one with branches cut off, none of them before so many
  words were taken.  `Prunes.bind` puts readers together, `Prunes.run_or_stops` runs them, and
  `Prunes.run_eq` says that on few such words the cuts are never reached.
* `Reading.Narrows`: besides, with enough room no result is cut off.
* `ParseRules.Narrows` is the same on every tray.
-/

namespace QualityRules

variable {ε ε' α β : Type} {ref : ε → Refusal} {E : Prop} {k j : Int} {held : Option Token}

/-- How often the word `with` stands among tokens. -/
def withs (ts : List Token) : Nat := ts.countP fun t => t.kind = .kwWith

/-- How often it stands there is 0 or 1, for at most one token. -/
def withOf (held : Option Token) : Int := withs held.toList

theorem withOf_nonneg (held : Option Token) : 0 ≤ withOf held := Int.natCast_nonneg _

@[simp] theorem withOf_none : withOf none = 0 := rfl

namespace Reading

/-- The reader `p` does what `q` does, but may be stopped by a bound where `q` goes on; at least `k`
of the words `with` are taken before, less those that are put back. -/
inductive Prunes (ref : ε → Refusal) : Int → Reading ε α → Reading ε α → Prop
  | done (k a) : Prunes ref k (done a) (done a)
  | fail (k e) : Prunes ref k (fail e) (fail e)
  | pop {k next next'} (rest : ∀ r, Prunes ref (k - withOf r.toOption) (next r) (next' r)) :
      Prunes ref k (pop next) (pop next')
  | push {k t next next'} (rest : Prunes ref (k + withOf (some t)) next next') :
      Prunes ref k (push t next) (push t next')
  | stop {k e} (bound : ref e = .overrun) (past : k ≤ 0) (q) : Prunes ref k (fail e) q

namespace Prunes

variable {p q : Reading ε α} {f g : α → Reading ε β} {Q : α → Option Token → Prop}

/-- A reader is itself with nothing cut off. -/
theorem refl (k : Int) (p : Reading ε α) : Prunes ref k p p := by
  induction p generalizing k with
  | done a => exact .done k a
  | fail e => exact .fail k e
  | pop next ih => exact .pop fun r => ih r _
  | push t next ih => exact .push (ih _)

theorem mono (h : Prunes ref k p q) (le : j ≤ k) : Prunes ref j p q := by
  induction h generalizing j with
  | done k a => exact .done j a
  | fail k e => exact .fail j e
  | pop _ ih => exact .pop fun r => ih r (by omega)
  | push _ ih => exact .push (ih (by omega))
  | stop bound past q => exact .stop bound (by omega) q

/-- A reader puts back only what it took last, so it never has fewer words behind it than before,
but for the one that was taken before it. -/
theorem bind (h : Prunes ref k p q) (back : p.Heeds held Q)
    (rest : ∀ a held', Q a held' →
      Prunes ref (k + withOf held - withOf held') (f a) (g a)) :
    Prunes ref k (p >>= f) (q >>= g) := by
  induction h generalizing held with
  | done k a => exact (rest a held back).mono (by omega)
  | fail k e => exact .fail k e
  | pop _ ih =>
    refine .pop fun r => ih r (back r) fun a held' holds => (rest a held' holds).mono ?_
    have none_below := withOf_nonneg held
    omega
  | push _ ih =>
    obtain ⟨rfl, back⟩ := back
    refine .push (ih back fun a held' holds => (rest a held' holds).mono ?_)
    simp
  | stop bound past q => exact .stop bound past _

/-- Behind a reader that hands nothing on. -/
theorem andThen (h : Prunes ref k p q) (back : p.PutsBack) (rest : ∀ a, Prunes ref k (f a) (g a)) :
    Prunes ref k (p >>= f) (q >>= g) :=
  h.bind (back none) fun a held' _ => (rest a).mono <| by
    have some_above := withOf_nonneg held'
    simp only [withOf_none]
    omega

theorem mapError {ref' : ε' → Refusal} {c : ε → ε'} (h : Prunes ref k p q)
    (same : ∀ e, ref' (c e) = ref e) : Prunes ref' k (p.mapError c) (q.mapError c) := by
  induction h with
  | done k a => exact .done k a
  | fail k e => exact .fail k (c e)
  | pop _ ih => exact .pop ih
  | push _ ih => exact .push ih
  | stop bound past q => exact .stop ((same _).trans bound) past _

/-- What looks at failures goes on alike, if it is stopped by the bounds that stop the reader. -/
theorem attempt_bind {f : Except ε α → Reading ε β} (h : Prunes ref k p q)
    (stops : ∀ e, ref e = .overrun → ∃ e', f (.error e) = .fail e' ∧ ref e' = .overrun) :
    Prunes ref k (p.attempt >>= f) (q.attempt >>= f) := by
  induction h with
  | done k a => exact refl k (f (.ok a))
  | fail k e => exact refl k (f (.error e))
  | pop _ ih => exact .pop ih
  | push _ ih => exact .push ih
  | @stop k e bound past q =>
    obtain ⟨e', failed, short⟩ := stops e bound
    have cut : (Reading.fail e : Reading ε α).attempt >>= f = .fail e' := failed
    exact cut ▸ .stop short past _

/-- Before a cursor both readers do the same, or the first one is stopped by a bound. -/
theorem run_or_stops (h : Prunes ref k p q) (c : Cursor) :
    p.run c = q.run c ∨ ∃ e d, p.run c = (.error e, d) ∧ ref e = .overrun := by
  induction h generalizing c with
  | done k a => exact .inl rfl
  | fail k e => exact .inl rfl
  | pop _ ih => exact ih _ _
  | push _ ih => exact ih _
  | stop bound past q => exact .inr ⟨_, c, rfl, bound⟩

end Prunes

end Reading

/-! ### Few words -/

/-- At most `n` of the words `with` can be taken, whatever else is. -/
structure Cursor.Within (n : Int) (c : Cursor) : Prop where
  count : (withs (c.pushed ++ c.unread) : Int) ≤ n
  ended : ∀ t ∈ c.eof, t.kind = .eof

namespace Cursor.Within

variable {n : Int} {c : Cursor}

/-- A word that is taken is one less. -/
theorem pop (h : c.Within n) : c.pop.2.Within (n - withOf c.pop.1.toOption) := by
  obtain ⟨pushed, eof, unread, here⟩ := c
  obtain ⟨count, ended⟩ := h
  cases pushed with
  | cons t ts =>
    refine ⟨?_, ended⟩
    simp only [Cursor.pop, withOf, withs, Except.toOption, Option.toList,
      List.cons_append, List.countP_cons, List.countP_nil] at count ⊢
    omega
  | nil =>
    cases eof with
    | some t =>
      have other : t.kind ≠ .kwWith := by simp [ended t rfl]
      refine ⟨?_, ended⟩
      simpa [Cursor.pop, withOf, withs, Except.toOption, other] using count
    | none =>
      cases unread with
      | nil => exact ⟨by simpa [Cursor.pop, Except.toOption] using count, ended⟩
      | cons t ts =>
        constructor
        · simp only [Cursor.pop, Cursor.after, List.nil_append, withs,
            List.countP_cons] at count ⊢
          split
          · simp only [Except.toOption, withOf_none]
            omega
          · simp only [Except.toOption, withOf, withs, Option.toList, List.countP_cons,
              List.countP_nil]
            omega
        · intro u mem
          simp only [Cursor.pop, Cursor.after] at mem
          split at mem
          · next isEnd => exact Option.some.inj mem ▸ isEnd
          · cases mem

/-- A token that is put back can be taken again. -/
theorem push (h : c.Within n) (t : Token) : (c.push t).Within (n + withOf (some t)) := by
  refine ⟨?_, h.ended⟩
  have count := h.count
  simp only [Cursor.push, withs, withOf, Option.toList, List.cons_append,
    List.countP_cons, List.countP_nil] at count ⊢
  omega

/-- Of a row the words that stand in it can be taken. -/
theorem ofTokens (ts : List Token) : (Cursor.ofTokens ts).Within (withs ts) :=
  ⟨Int.le_refl _, nofun⟩

end Cursor.Within

namespace Reading

/-- Where fewer words can be taken than stand before the cuts, none of them is reached. -/
theorem Prunes.run_eq {p q : Reading ε α} {n : Int} (h : Prunes ref k p q) {c : Cursor}
    (few : c.Within n) (lt : n < k) : p.run c = q.run c := by
  induction h generalizing c n with
  | done k a => rfl
  | fail k e => rfl
  | pop _ ih => exact ih _ few.pop (by omega)
  | push _ ih => exact ih (few.push _) (by omega)
  | stop bound past q =>
    have counted := few.count
    omega

/-! ### Results -/

/-- A result was reached in a way that is heeded. -/
theorem Heeds.exists_of_gives {p : Reading ε α} {Q : α → Option Token → Prop} {r s : Row} {a : α}
    (h : p.Heeds held Q) (g : p.Gives r a s) : ∃ held', Q a held' := by
  induction p generalizing held r with
  | done b =>
    obtain ⟨rfl, -⟩ := gives_pure.mp g
    exact ⟨held, h⟩
  | fail e => exact absurd g not_gives_fail
  | pop next ih => exact ih r.head (h r.head) g
  | push t next ih => exact ih h.2 g

/-- The reader `p` is `q` with branches cut off, none before `k` of the words `with`; and if
`E` holds, `p` comes to every result of `q`. -/
structure Narrows (ref : ε → Refusal) (k : Int) (E : Prop) (p q : Reading ε α) : Prop where
  prunes : Prunes ref k p q
  keeps : E → ∀ r a s, q.Gives r a s → p.Gives r a s

namespace Narrows

variable {p q : Reading ε α} {f g : α → Reading ε β} {Q : α → Option Token → Prop}

theorem refl (p : Reading ε α) : Narrows ref k E p p := ⟨.refl k p, fun _ _ _ _ => id⟩

theorem mono (h : Narrows ref k E p q) (le : j ≤ k) : Narrows ref j E p q :=
  ⟨h.prunes.mono le, h.keeps⟩

/-- Two readers in turn are cut off no sooner than each one is, by the words that were taken before.
-/
theorem bind (h : Narrows ref k E p q) (back : p.Heeds held Q)
    (rest : ∀ a held', Q a held' →
      Narrows ref (k + withOf held - withOf held') E (f a) (g a)) :
    Narrows ref k E (p >>= f) (q >>= g) where
  prunes := h.prunes.bind back fun a held' holds => (rest a held' holds).prunes
  keeps enough r b s given := by
    obtain ⟨a, m, first, second⟩ := gives_bind.mp given
    have first := h.keeps enough r a m first
    obtain ⟨held', holds⟩ := back.exists_of_gives first
    exact gives_bind.mpr ⟨a, m, first, (rest a held' holds).keeps enough m b s second⟩

/-- Behind a reader that hands nothing on. -/
theorem andThen (h : Narrows ref k E p q) (back : p.PutsBack)
    (rest : ∀ a, Narrows ref k E (f a) (g a)) : Narrows ref k E (p >>= f) (q >>= g) :=
  h.bind (back none) fun a held' _ => (rest a).mono <| by
    have some_above := withOf_nonneg held'
    simp only [withOf_none]
    omega

/-- Failures do not count. -/
theorem mapError {ref' : ε' → Refusal} {c : ε → ε'} (h : Narrows ref k E p q)
    (same : ∀ e, ref' (c e) = ref e) : Narrows ref' k E (p.mapError c) (q.mapError c) where
  prunes := h.prunes.mapError same
  keeps enough r a s given := gives_mapError.mpr (h.keeps enough r a s (gives_mapError.mp given))

end Narrows

end Reading

/-- `Reading.Narrows` whatever is on the tray. -/
def ParseRules.Narrows (k : Int) (E : Prop) (p q : ParseRules α) : Prop :=
  ∀ tray, Reading.Narrows Prod.fst k E (p tray) (q tray)

namespace ParseRules.Narrows

variable {p q : ParseRules α} {f g : α → ParseRules β} {Q : α → Option Token → Prop}

theorem refl (p : ParseRules α) : Narrows k E p p := fun tray => .refl (p tray)

theorem mono (h : Narrows k E p q) (le : j ≤ k) : Narrows j E p q := fun tray => (h tray).mono le

/-- Behind a token that may be such a word, one less of them may be wanted. -/
theorem behind (h : Narrows k E p q) (held : Option Token) : Narrows (k - withOf held) E p q :=
  h.mono <| by
    have none_below := withOf_nonneg held
    omega

theorem bind (h : Narrows k E p q) (back : p.Heeds held Q)
    (rest : ∀ a held', Q a held' →
      Narrows (k + withOf held - withOf held') E (f a) (g a)) :
    Narrows k E (p >>= f) (q >>= g) := fun tray =>
  (h tray).bind (back tray) fun x held' holds => rest x.1 held' holds x.2

/-- A reader that puts back only what it took may go first. -/
theorem andThen (h : Narrows k E p q) (back : p.PutsBack) (rest : ∀ a, Narrows k E (f a) (g a)) :
    Narrows k E (p >>= f) (q >>= g) := fun tray =>
  (h tray).andThen (fun held => back held tray) fun x => rest x.1 x.2

/-- What follows a token that is taken is that word further on, if it is one. -/
theorem pop_bind {f g : Token → ParseRules β}
    (rest : ∀ t, Narrows (k - withOf (some t)) E (f t) (g t)) :
    Narrows k E (liftM Read.pop >>= f) (liftM Read.pop >>= g) := by
  refine fun tray => ⟨.pop fun r => ?_, fun enough r b s given => ?_⟩
  · cases r with
    | ok t => exact (rest t tray).prunes
    | error e => exact .fail _ _
  · obtain ⟨t, m, rfl, given⟩ := gives_pop_bind.mp given
    exact gives_pop_bind.mpr ⟨t, m, rfl, (rest t tray).keeps enough m _ s given⟩

/-- A turn of a loop: a token is taken, what is done with it may put it back, and so it goes on. -/
theorem turn {f f' : Token → ParseRules α} {g g' : Token → α → ParseRules β}
    {Q : Token → α → Option Token → Prop}
    (h : ∀ t, Narrows (k - withOf (some t)) E (f t) (f' t))
    (back : ∀ t, (f t).Heeds (some t) (Q t)) (rest : ∀ t a, Narrows k E (g t a) (g' t a)) :
    Narrows k E (liftM Read.pop >>= fun t => f t >>= g t)
      (liftM Read.pop >>= fun t => f' t >>= g' t) :=
  pop_bind fun t => (h t).bind (back t) fun a held' _ => ((rest t a).behind held').mono (by omega)

/-- What follows a token that is put back has it to take again. -/
theorem push_bind {t : Token} {f g : Unit → ParseRules β}
    (rest : Narrows (k + withOf (some t)) E (f ()) (g ())) :
    Narrows k E (liftM (Read.push t) >>= f) (liftM (Read.push t) >>= g) := fun tray =>
  ⟨.push (rest tray).prunes, fun enough _ b s given => (rest tray).keeps enough _ b s given⟩

/-- A reader without a tray is cut off alike on every tray. -/
theorem lift {p q : Parse α} (h : Reading.Narrows id k E p q) (back : p.PutsBack) :
    Narrows k E (liftM p : ParseRules α) (liftM q) := fun tray =>
  (h.mapError (c := fun e => (e, tray)) fun _ => rfl).andThen (back.mapError _) fun _ => .refl _

/-- A reader on another tray is cut off as it is there. -/
theorem onTray {enter : Tray → Tray} {leave : Tray → Tray → Tray} (h : Narrows k E p q)
    (back : p.PutsBack) : Narrows k E (Read.onTray enter leave p) (Read.onTray enter leave q) :=
  fun tray => ((h (enter tray)).mapError (c := fun x => (x.1, leave tray x.2)) fun _ => rfl).andThen
    (fun held => (back held (enter tray)).mapError _ |>.imp fun _ _ _ => trivial) fun _ => .refl _

end ParseRules.Narrows

end QualityRules
