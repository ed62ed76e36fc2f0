import QualityRules.Proofs.Gives

/-!
# Proofs — Lookahead — Calculus

A reader looks one token ahead.  What it comes to depends on the tokens that it takes and on the one
that it leaves at the head of the row.  There one token may be as good as another: a closing bracket
as the end of the text.

* `Standing` and `Token.Turns`: which token may stand at the head of what is left in the place of
  another one.
* `Reading.PeeksAs`: what one reader does with some tokens and the one behind them, another one does
  with the same tokens and one that may stand there, whatever comes then.
* `PeeksAs.bind` puts readers together; `Reading.peeks_look` opens a reader that takes a token and
  may put it back (`Look`).
* `ParseRules.PeeksAs` is the same on every tray.
-/

namespace QualityRules

/-- Which kinds may stand in the place of which where a token is left: such that no value goes on
with. -/
structure Standing where
  allows : Kind → Kind → Prop
  halts : ∀ {kind kind' : Kind}, allows kind kind' →
    kind' ≠ .comment ∧ kind' ≠ .kwWith ∧ TimeUnit.ofKind? kind' = none

variable {ε ε' α β : Type} {stands : Standing}

/-- The token `t'` may stand where `t` is the first one that was left: the same token, or one of
those that may stand in its place. -/
inductive Token.Turns (stands : Standing) (t : Token) : Token → Prop
  | same (going : t.kind ≠ .eof) : Turns stands t t
  | stands {t' : Token} (allowed : stands.allows t.kind t'.kind) : Turns stands t t'

namespace Reading

/-- What `p` does with some tokens, none of them the end of the text, and the one behind them, `q`
does with the same tokens and one that may stand there. -/
structure PeeksAs (stands : Standing) (p q : Reading ε α) : Prop where
  suffix : ∀ {r a s}, p.Gives r a s → ∃ us, r = Row.behind us s
  turn : ∀ {r a t m}, r.Final → p.Gives r a (Row.cons t m) → ∀ {t' : Token}, t.Turns stands t' →
    ∃ us, (∀ u ∈ us, u.kind ≠ .eof) ∧ r = Row.behind us (Row.cons t m) ∧
      ∀ m', q.Gives (Row.behind us (Row.cons t' m')) a (Row.cons t' m')

/-- A reader that looks one token ahead. -/
abbrev Peeks (stands : Standing) (p : Reading ε α) : Prop := PeeksAs stands p p

/-- A reader that never succeeds. -/
def Refuses (p : Reading ε α) : Prop := ∀ r a s, ¬ p.Gives r a s

variable {p q : Reading ε α} {f g : α → Reading ε β}

theorem refuses_fail (e : ε) : Refuses (fail e : Reading ε α) := fun _ _ _ => not_gives_fail

/-- A reader that is refused at first is refused. -/
theorem Refuses.bind (h : p.Refuses) (f : α → Reading ε β) : (p >>= f).Refuses := by
  intro r b s gives
  obtain ⟨a, m, first, -⟩ := gives_bind.mp gives
  exact h r a m first

/-- Of a reader that never succeeds nothing is asked. -/
theorem Refuses.peeksAs (h : p.Refuses) : p.PeeksAs stands q :=
  ⟨fun gives => absurd gives (h _ _ _), fun _ gives => absurd gives (h _ _ _)⟩

/-- A reader that takes no token needs not look. -/
theorem peeks_pure (a : α) : Peeks stands (pure a : Reading ε α) where
  suffix gives := ⟨[], (gives_pure.mp gives).2.symm⟩
  turn _ gives _ _ := by
    obtain ⟨rfl, row⟩ := gives_pure.mp gives
    exact ⟨[], List.forall_mem_nil _, row.symm, fun _ => gives_pure.mpr ⟨rfl, rfl⟩⟩

/-- Two readers in turn look one token ahead when each one does. -/
theorem PeeksAs.bind (h : p.PeeksAs stands q) (rest : ∀ a, (f a).PeeksAs stands (g a)) :
    (p >>= f).PeeksAs stands (q >>= g) where
  suffix := by
    intro r b s gives
    obtain ⟨a, m, first, second⟩ := gives_bind.mp gives
    obtain ⟨us, rfl⟩ := h.suffix first
    obtain ⟨vs, rfl⟩ := (rest a).suffix second
    exact ⟨us ++ vs, (Row.behind_append us vs s).symm⟩
  turn := by
    intro r b t m final gives t' turns
    obtain ⟨a, n, first, second⟩ := gives_bind.mp gives
    obtain ⟨us, row⟩ := h.suffix first
    obtain ⟨vs, going, rfl, second'⟩ := (rest a).turn (final.rest row) second turns
    -- the first reader leaves what the second one takes, or what both leave
    cases vs with
    | nil =>
      obtain ⟨us, going', rfl, first'⟩ := h.turn final first turns
      exact ⟨us, going', rfl, fun m' => gives_bind.mpr ⟨a, _, first' m', second' m'⟩⟩
    | cons v vs =>
      have stays : v.Turns stands v := .same (going v List.mem_cons_self)
      obtain ⟨us, going', rfl, first'⟩ := h.turn final first stays
      refine ⟨us ++ v :: vs, List.forall_mem_append.mpr ⟨going', going⟩, ?_, fun m' => ?_⟩
      · rw [Row.behind_append]
        rfl
      · rw [Row.behind_append]
        exact gives_bind.mpr ⟨a, _, first' _, second' m'⟩

/-- Failures do not count. -/
theorem PeeksAs.mapError (h : p.PeeksAs stands q) (c c' : ε → ε') :
    (p.mapError c).PeeksAs stands (q.mapError c') where
  suffix gives := h.suffix (gives_mapError.mp gives)
  turn final gives _ turns := by
    obtain ⟨us, going, row, gives'⟩ := h.turn final (gives_mapError.mp gives) turns
    exact ⟨us, going, row, fun m' => gives_mapError.mpr (gives' m')⟩

/-- What readers do with a token that they took: the first refuses it; or both go on behind it; or
they put it back, whichever it is of those that may stand there.  To take the end of the text leaves
it, too. -/
inductive Look (stands : Standing) (f f' : Token → Reading ε α) (t : Token) : Prop
  | refuses (refuses : (f t).Refuses)
  | takes (going : t.kind ≠ .eof) (rest : (f t).PeeksAs stands (f' t))
  | leaves {g g' : Reading ε α} (rest : g.PeeksAs stands g')
      (eq : f t = .push t g ∨ t.kind = .eof ∧ f t = g)
      (eq' : ∀ t', t.Turns stands t' → f' t' = .push t' g')

/-- What is read behind a token that was taken leads on. -/
theorem Look.suffix {f f' : Token → Reading ε α} {t : Token} (h : Look stands f f' t) {a : α}
    {m s : Row} (read : (f t).Gives m a s) : ∃ us, Row.cons t m = Row.behind us s := by
  cases h with
  | refuses refuses => exact absurd read (refuses _ _ _)
  | takes going rest =>
    obtain ⟨us, row⟩ := rest.suffix read
    exact ⟨t :: us, congrArg (Row.cons t) row⟩
  | leaves rest eq eq' =>
    rcases eq with eq | ⟨-, eq⟩
    · rw [eq] at read
      exact rest.suffix (r := Row.cons t m) read
    · rw [eq] at read
      obtain ⟨us, row⟩ := rest.suffix read
      exact ⟨t :: us, congrArg (Row.cons t) row⟩

/-- The token that was taken first is taken first again, or it is the one that may stand there. -/
theorem Look.turn {f f' : Token → Reading ε α} {t u u' : Token} (h : Look stands f f' t) {a : α}
    {n m : Row} (final : (Row.cons t n).Final) (read : (f t).Gives n a (Row.cons u m))
    (turns : u.Turns stands u') :
    ∃ us, (∀ v ∈ us, v.kind ≠ .eof) ∧ Row.cons t n = Row.behind us (Row.cons u m) ∧
      ∀ m', ∃ v n', Row.behind us (Row.cons u' m') = Row.cons v n' ∧
        (f' v).Gives n' a (Row.cons u' m') := by
  cases h with
  | refuses refuses => exact absurd read (refuses _ _ _)
  | takes going rest =>
    obtain ⟨us, going', rfl, read'⟩ := rest.turn final.tail read turns
    exact ⟨t :: us, List.forall_mem_cons.mpr ⟨going, going'⟩, rfl,
      fun m' => ⟨t, _, rfl, read' m'⟩⟩
  | @leaves g g' rest eq eq' =>
    have put : g.Gives (Row.cons t n) a (Row.cons u m) := by
      rcases eq with eq | ⟨isEnd, eq⟩
      · rwa [eq] at read
      · rwa [eq, final [] t n rfl isEnd] at read
    obtain ⟨us, going, row, read'⟩ := rest.turn final put turns
    refine ⟨us, going, row, fun m' => ?_⟩
    cases us with
    | nil =>
      obtain ⟨rfl, -⟩ := Row.cons_inj.mp row
      refine ⟨u', m', rfl, ?_⟩
      rw [eq' u' turns]
      exact read' m'
    | cons v us =>
      obtain ⟨rfl, -⟩ := Row.cons_inj.mp row
      refine ⟨t, _, rfl, ?_⟩
      rw [eq' t (.same (going t List.mem_cons_self))]
      exact read' m'

/-- Readers that take a token look ahead when they do so with each token. -/
theorem peeks_look {next next' : Except Refusal Token → Reading ε α}
    (fault : ∀ e, (next (.error e)).Refuses)
    (look : ∀ t, Look stands (fun t => next (.ok t)) (fun t => next' (.ok t)) t) :
    PeeksAs stands (.pop next) (.pop next') := by
  have took : ∀ {r a s}, (pop next).Gives r a s →
      ∃ t m, r = Row.cons t m ∧ (next (.ok t)).Gives m a s := by
    intro r a s gives
    change (next r.head).Gives r.tail a s at gives
    cases head : r.head with
    | error e => exact absurd (head ▸ gives) (fault e _ _ _)
    | ok t => exact ⟨t, r.tail, by rw [Row.cons, ← head, Stream'.eta], head ▸ gives⟩
  constructor
  · intro r a s gives
    obtain ⟨t, m, rfl, read⟩ := took gives
    exact (look t).suffix read
  · intro r a u m final gives u' turns
    obtain ⟨t, n, rfl, read⟩ := took gives
    obtain ⟨us, going, row, read'⟩ := (look t).turn final read turns
    refine ⟨us, going, row, fun m' => ?_⟩
    obtain ⟨v, n', first, rest⟩ := read' m'
    rw [first]
    exact rest

end Reading

/-! ### Readers with a tray -/

namespace ParseRules
open Reading (Look)

/-- On every tray one reader does what another one does, looking one token ahead. -/
def PeeksAs (stands : Standing) (p q : ParseRules α) : Prop :=
  ∀ k, Reading.PeeksAs stands (p k) (q k)

/-- On no tray the reader succeeds. -/
def Refuses (p : ParseRules α) : Prop := ∀ k, (p k).Refuses

variable {p q : ParseRules α} {f g : α → ParseRules β}

theorem Refuses.fail (e : Refusal) : Refuses (liftM (Reading.fail e : Parse α)) :=
  fun _ _ _ _ => Reading.not_gives_fail

theorem Refuses.refuse (cause : Cause) (pos : Pos) :
    Refuses (liftM (Read.refuse cause pos : Parse α)) := .fail _

theorem Refuses.bind (h : p.Refuses) (f : α → ParseRules β) : (p >>= f).Refuses :=
  fun k => (h k).bind _

theorem Refuses.peeksAs (h : p.Refuses) : p.PeeksAs stands q := fun k => (h k).peeksAs

namespace PeeksAs

theorem done (a : α) : PeeksAs stands (pure a : ParseRules α) (pure a) :=
  fun k => Reading.peeks_pure (a, k)

theorem bind (h : p.PeeksAs stands q) (rest : ∀ a, (f a).PeeksAs stands (g a)) :
    (p >>= f).PeeksAs stands (q >>= g) :=
  fun k => (h k).bind fun x => rest x.1 x.2

/-- A reader without a tray looks one token ahead on every tray. -/
theorem lift {p q : Parse α} (h : Reading.PeeksAs stands p q) :
    PeeksAs stands (liftM p : ParseRules α) (liftM q) :=
  fun k => (h.mapError _ _).bind fun a => Reading.peeks_pure (a, k)

/-- A reader on another tray looks one token ahead when it does there. -/
theorem onTray (h : p.PeeksAs stands q) (enter : Tray → Tray) (leave : Tray → Tray → Tray) :
    PeeksAs stands (Read.onTray enter leave p) (Read.onTray enter leave q) :=
  fun k => ((h (enter k)).mapError _ _).bind fun x => Reading.peeks_pure (x.1, leave k x.2)

/-- What only changes the tray. -/
theorem modifyGet (f : Tray → α × Tray) :
    PeeksAs stands (modifyGet f : ParseRules α) (modifyGet f) :=
  fun k => Reading.peeks_pure (f k)

/-- A token that is put back is taken again. -/
theorem push_pop {t : Token} {f f' : Token → ParseRules α} (rest : (f t).PeeksAs stands (f' t)) :
    PeeksAs stands (liftM (Read.push t) >>= fun _ => liftM Read.pop >>= f)
      (liftM (Read.push t) >>= fun _ => liftM Read.pop >>= f') :=
  fun k => ⟨(rest k).suffix, (rest k).turn⟩

/-- What is done with the next token may depend on the tray. -/
theorem pop_bind {f f' : Token → ParseRules α}
    (look : ∀ k t, Look stands (f · k) (f' · k) t) :
    PeeksAs stands (liftM Read.pop >>= f) (liftM Read.pop >>= f') := by
  intro k
  refine Reading.peeks_look (fun e => ?_) (look k)
  exact Reading.refuses_fail _

end PeeksAs

end ParseRules

end QualityRules
