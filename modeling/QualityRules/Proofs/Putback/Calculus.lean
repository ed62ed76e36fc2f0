import QualityRules.Read.Ruleset

/-!
# Proofs — Putback — Calculus

A reader puts back the token that it took last, and no other one.  So it has to know that token; it
may have been handed to it by the reader before, and it may be left to the one behind.

* `Reading.Heeds`: a reader puts back only what was taken last, where the token `held` was taken
  last before it; behind a result, `Q` says what was.
* `Heeds.bind` puts readers together; a failure ends them.
* `Reading.PutsBack`: it does so whatever was taken before, and hands nothing on.
* `ParseRules.Heeds` and `ParseRules.PutsBack` are the same on every tray.
-/

namespace QualityRules

variable {ε ε' α β : Type} {held : Option Token} {t : Token}

namespace Reading

/-- Where the token `held` was taken last, if any, the reader puts back nothing but what was taken
last, and that only once; with a result, `Q` says of it and of what was taken last then. -/
def Heeds (held : Option Token) : Reading ε α → (α → Option Token → Prop) → Prop
  | done a, Q => Q a held
  | fail _, _ => True
  | pop next, Q => ∀ r, (next r).Heeds r.toOption Q
  | push t next, Q => held = some t ∧ next.Heeds none Q

/-- Whatever was taken before, the reader puts back nothing but what it took last itself. -/
def PutsBack (p : Reading ε α) : Prop := ∀ held, p.Heeds held fun _ _ => True

variable {p : Reading ε α} {f : α → Reading ε β} {Q : α → Option Token → Prop}
  {R : β → Option Token → Prop}

theorem Heeds.imp {Q' : α → Option Token → Prop} (h : p.Heeds held Q)
    (rest : ∀ a held, Q a held → Q' a held) : p.Heeds held Q' := by
  induction p generalizing held with
  | done a => exact rest a held h
  | fail e => trivial
  | pop next ih => exact fun r => ih r (h r)
  | push t next ih => exact ⟨h.1, ih h.2⟩

theorem Heeds.bind (h : p.Heeds held Q) (rest : ∀ a held, Q a held → (f a).Heeds held R) :
    (p >>= f).Heeds held R := by
  induction p generalizing held with
  | done a => exact rest a held h
  | fail e => trivial
  | pop next ih => exact fun r => ih r (h r)
  | push t next ih => exact ⟨h.1, ih h.2⟩

theorem Heeds.mapError (g : ε → ε') (h : p.Heeds held Q) : (p.mapError g).Heeds held Q := by
  induction p generalizing held with
  | done a => exact h
  | fail e => trivial
  | pop next ih => exact fun r => ih r (h r)
  | push t next ih => exact ⟨h.1, ih h.2⟩

/-- A failure that is seen as a result says nothing of what was taken last. -/
theorem Heeds.attempt (h : p.Heeds held Q) :
    (p.attempt : Reading ε' _).Heeds held fun x held => ∀ a, x = .ok a → Q a held := by
  induction p generalizing held with
  | done a => exact fun b eq => Except.ok.inj eq ▸ h
  | fail e => exact fun b eq => nomatch eq
  | pop next ih => exact fun r => ih r (h r)
  | push t next ih => exact ⟨h.1, ih h.2⟩

theorem putsBack_pure (a : α) : (pure a : Reading ε α).PutsBack := fun _ => trivial

theorem putsBack_fail (e : ε) : (fail e : Reading ε α).PutsBack := fun _ => trivial

namespace PutsBack

theorem bind (h : p.PutsBack) (rest : ∀ a, (f a).PutsBack) : (p >>= f).PutsBack := fun held =>
  (h held).bind fun a held _ => rest a held

theorem mapError (g : ε → ε') (h : p.PutsBack) : (p.mapError g).PutsBack := fun held =>
  (h held).mapError g

end PutsBack

end Reading

namespace Read
open Reading

variable {f : Token → Parse α}

theorem putsBack_refuse (cause : Cause) (pos : Pos) : (refuse cause pos : Parse α).PutsBack :=
  putsBack_fail _

/-- What follows a token that is taken may put that one back. -/
theorem putsBack_pop_bind (rest : ∀ t, (f t).Heeds (some t) fun _ _ => True) :
    (pop >>= f).PutsBack := by
  intro held r
  cases r with
  | ok t => exact rest t
  | error e => trivial

theorem putsBack_pop : pop.PutsBack := by
  intro held r
  cases r <;> trivial

/-- The token that was taken last is put back, and then it is not at hand any more. -/
theorem heeds_push_bind {g : Unit → Parse α} (rest : (g ()).PutsBack) :
    (push t >>= g).Heeds (some t) fun _ _ => True :=
  ⟨rfl, rest none⟩

end Read

namespace ParseRules

/-- `Reading.Heeds` whatever is on the tray. -/
def Heeds (held : Option Token) (p : ParseRules α) (Q : α → Option Token → Prop) : Prop :=
  ∀ k, (p k).Heeds held fun x => Q x.1

/-- `Reading.PutsBack` whatever is on the tray. -/
def PutsBack (p : ParseRules α) : Prop := ∀ held, p.Heeds held fun _ _ => True

variable {p : ParseRules α} {f : α → ParseRules β} {Q : α → Option Token → Prop}
  {R : β → Option Token → Prop}

theorem Heeds.imp {Q' : α → Option Token → Prop} (h : p.Heeds held Q)
    (rest : ∀ a held, Q a held → Q' a held) : p.Heeds held Q' :=
  fun k => (h k).imp fun x => rest x.1

theorem Heeds.bind (h : p.Heeds held Q) (rest : ∀ a held, Q a held → (f a).Heeds held R) :
    (p >>= f).Heeds held R :=
  fun k => (h k).bind fun x held holds => rest x.1 held holds x.2

theorem Heeds.done {a : α} (h : Q a held) : (pure a : ParseRules α).Heeds held Q := fun _ => h

/-- What fails leaves nothing at hand. -/
theorem Heeds.fail (e : Refusal) :
    (liftM (Reading.fail e : Parse α) : ParseRules α).Heeds held Q := fun _ => trivial

/-- What only changes the tray leaves at hand what was. -/
theorem Heeds.modifyGet (g : Tray → α × Tray) (h : ∀ a, Q a held) :
    (modifyGet g : ParseRules α).Heeds held Q := fun k => h (g k).1

/-- What follows a token that is taken may put that one back. -/
theorem Heeds.pop_bind {f : Token → ParseRules β} (rest : ∀ t, (f t).Heeds (some t) R) :
    (liftM Read.pop >>= f).Heeds held R := by
  intro k r
  cases r with
  | ok t => exact rest t k
  | error e => trivial

/-- The token that was taken last is put back, and then it is not at hand any more. -/
theorem Heeds.push_bind {f : Unit → ParseRules β} (rest : (f ()).Heeds none R) :
    (liftM (Read.push t) >>= f).Heeds (some t) R := fun k => ⟨rfl, rest k⟩

namespace PutsBack

theorem done (a : α) : (pure a : ParseRules α).PutsBack := fun _ => .done trivial

theorem fail (e : Refusal) : (liftM (Reading.fail e : Parse α) : ParseRules α).PutsBack :=
  fun _ => .fail e

theorem modifyGet (g : Tray → α × Tray) : (modifyGet g : ParseRules α).PutsBack :=
  fun _ => .modifyGet g fun _ => trivial

theorem lift {q : Parse α} (h : q.PutsBack) : (liftM q : ParseRules α).PutsBack :=
  fun held k => ((h.mapError _).bind fun a => Reading.putsBack_pure (a, k)) held

theorem bind (h : p.PutsBack) (rest : ∀ a, (f a).PutsBack) : (p >>= f).PutsBack := fun held =>
  (h held).bind fun a held _ => rest a held

theorem onTray (h : p.PutsBack) (enter : Tray → Tray) (leave : Tray → Tray → Tray) :
    (Read.onTray enter leave p).PutsBack :=
  fun held k => ((h held (enter k)).mapError _).bind fun _ _ _ => trivial

end PutsBack

end ParseRules

end QualityRules
