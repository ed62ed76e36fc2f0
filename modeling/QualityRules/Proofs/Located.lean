import QualityRules.Proofs.Coordinates
import QualityRules.Proofs.Finger

/-!
# Proofs — Located

The coordinates of tokens are true, and so are those of the place where a scanner stands between
two tokens.  A finger that goes back takes index, line and column back at once, so whatever moves it
makes, its places stay right.

* `Finger.Faithful`: the three places of a finger are right; `Faithful.turn` says that a turn keeps
  to that, and `Visits.faithful` that every run does.
* `Pos.Faithful.index_lt_iff`: places that are right are ordered alike by index and by line and
  column.
* `lex_located` is the main result.
-/

namespace QualityRules

open Lexeme (isLetter)

namespace Finger

variable {source : String} {f g : Finger} {p : Char → Bool}

/-! ### The places of a finger -/

/-- The places of a finger in `source` are right. -/
structure Faithful (source : String) (f : Finger) : Prop where
  text : f.source = source
  here : f.here.Faithful source
  before : f.before.Faithful source
  start : f.start.Faithful source

/-- A finger that takes a character is faithful. -/
theorem Faithful.next (h : f.Faithful source) : f.next.2.Faithful source := by
  obtain ⟨rfl, here, -, start⟩ := h
  unfold Finger.next
  split
  · exact ⟨rfl, here, here, start⟩
  · next c cs rest =>
    refine ⟨rfl, ?_, here, start⟩
    -- the characters before the new place are those before the old one, and `c`
    have split := List.take_append_drop f.here.index f.source.toList
    have passed :
        f.here.past c = Pos.origin.pastAll (f.source.toList.take f.here.index ++ [c]) := by
      rw [Pos.pastAll_append, ← (Pos.faithful_iff.mp here).2]
      rfl
    rw [passed]
    refine Pos.faithful_of_prefix ⟨cs, ?_⟩
    rw [List.append_assoc, List.singleton_append, ← rest]
    exact split

/-- A finger that gives a character back is faithful. -/
theorem Faithful.back (h : f.Faithful source) : f.back.Faithful source :=
  ⟨h.text, h.before, h.before, h.start⟩

theorem Faithful.ignore (h : f.Faithful source) : f.ignore.Faithful source :=
  ⟨h.text, h.here, h.before, h.here⟩

theorem Faithful.of_next {d : Option Char} (h : f.Faithful source) (moves : f.next = (d, g)) :
    g.Faithful source := by
  simpa only [moves] using h.next

theorem Faithful.accept (h : f.Faithful source) (c : Char) :
    (f.accept c).2.Faithful source := by
  unfold Finger.accept
  dsimp only
  split
  · exact h.next
  · exact h.next.back

theorem Faithful.sweep (h : f.Faithful source) : (f.sweep p).2.Faithful source := by
  fun_induction Finger.sweep p f with
  | case1 f c g moves _ ih => exact ih (h.of_next moves)
  | case2 f c g moves _ => exact h.of_next moves
  | case3 f g moves => exact h.of_next moves

/-- The places of a turn are right: those of the finger, and those of the token. -/
structure Turn.Faithful (source : String) (t : Turn) : Prop where
  finger : t.finger.Faithful source
  token : ∀ k ∈ t.token, k.start.Faithful source ∧ k.stop.Faithful source

/-- A token that a faithful finger gives is at its true places. -/
theorem Faithful.emit (h : f.Faithful source) (kind : Kind) : (f.emit kind).Faithful source where
  finger := h.ignore
  token := by rintro _ ⟨⟩; exact ⟨h.start, h.here⟩

/-- A fault that a faithful finger finds is at its true place. -/
theorem Faithful.stop (h : f.Faithful source) (fault : LexemeFault) :
    (f.stop fault).Faithful source where
  finger := h
  token := by rintro _ ⟨⟩; exact ⟨h.start, h.here⟩

theorem Faithful.enter (h : f.Faithful source) (state : State) :
    (f.enter state).Faithful source :=
  ⟨h, fun _ none => nomatch none⟩

theorem Faithful.parens (h : f.Faithful source) : f.parens.Faithful source := by
  unfold Finger.parens
  dsimp only
  split
  · exact h.next.stop _
  split
  · exact h.next.next.stop _
  · exact h.next.next.emit _

theorem Faithful.word (h : f.Faithful source) : f.word.Faithful source := by
  have read : (f.sweep isLetter).2.back.Faithful source := h.sweep.back
  unfold Finger.word
  dsimp only
  split
  · exact read.parens
  · exact read.emit _

theorem Faithful.string (h : f.Faithful source) : f.string.Faithful source := by
  have read : (f.sweep (· != '"')).2.Faithful source := h.sweep
  unfold Finger.string
  split
  · next g moves =>
    rw [moves] at read
    exact read.stop _
  · next g moves =>
    rw [moves] at read
    exact read.emit _

theorem Faithful.number (h : f.Faithful source) (point : Bool) :
    (f.number point).Faithful source := by
  fun_induction Finger.number point f with
  | case1 _ f c g moves _ ih => exact ih (h.of_next moves)
  | case2 f g moves _ => exact (h.of_next moves).stop _
  | case3 _ f g _ moves _ ih => exact ih (h.of_next moves)
  | case4 _ f c g moves _ _ _ => exact (h.of_next moves).stop _
  | case5 _ f c g moves _ _ _ => exact (h.of_next moves).back.emit _
  | case6 _ f g moves => exact (h.of_next moves).back.emit _

theorem Faithful.first (h : f.Faithful source) (c : Char) : (f.first c).Faithful source := by
  have accepts := h.accept '='
  unfold Finger.first
  split
  · exact h.back.enter _
  split
  · exact h.enter _
  split
  · exact h.back.enter _
  split
  · exact h.enter _
  split
  · split
    all_goals
      next g moves =>
        rw [moves] at accepts
        exact accepts.emit _
  split
  · exact h.emit _
  · exact h.stop _

/-- A finger outside of a token stays faithful over a whole turn. -/
theorem Faithful.outside (h : f.Faithful source) : f.outside.Faithful source := by
  fun_induction Finger.outside f with
  | case1 f c g moves _ ih => exact ih (h.of_next moves).ignore
  | case2 f c g moves _ => exact (h.of_next moves).first c
  | case3 f g moves =>
    have last := (h.of_next moves).emit .eof
    exact ⟨last.finger, last.token⟩

/-- A turn leaves places that are right, and gives a token whose places are right. -/
theorem Faithful.turn (h : f.Faithful source) (state : State) : (f.turn state).Faithful source := by
  cases state with
  | outside => exact h.outside
  | word => exact h.word
  | string => exact h.string
  | number => exact h.number false
  | comment => exact h.sweep.back.emit .comment

/-- **Wherever the finger comes, its places are right.** -/
theorem Visits.faithful {state : Option State} (visits : Visits source state f) :
    f.Faithful source := by
  induction visits with
  | start =>
    have origin : Pos.origin.Faithful source := Pos.faithful_of_prefix (List.nil_prefix)
    exact ⟨rfl, origin, origin, origin⟩
  | turn _ ih => exact (ih.turn _).finger

end Finger

/-! ### The order of places -/

namespace Pos

/-- `p` comes before `q` as a reader names them, by lines and then by columns. -/
def Above (p q : Pos) : Prop := p.line < q.line ∨ p.line = q.line ∧ p.column < q.column

/-- Behind some characters a place comes later, by its line or by its column. -/
theorem above_pastAll (p : Pos) {cs : List Char} (some : cs ≠ []) : p.Above (p.pastAll cs) := by
  by_cases mem : '\n' ∈ cs
  · have pos := List.count_pos_iff.mpr mem
    refine .inl ?_
    rw [line_pastAll]
    omega
  · have pos := List.length_pos_iff.mpr some
    rw [pastAll_of_no_newline p cs mem]
    refine .inr ⟨rfl, ?_⟩
    simp only [addColumns]
    omega

variable {source : String} {p q : Pos}

/-- Of two places in a text the one with the lesser index is above. -/
theorem Faithful.above_of_index_lt (hp : p.Faithful source) (hq : q.Faithful source)
    (lt : p.index < q.index) : p.Above q := by
  obtain ⟨-, eq⟩ := faithful_iff.mp hp
  obtain ⟨within, eq'⟩ := faithful_iff.mp hq
  -- what lies between both places is not empty
  have split : source.toList.take q.index =
      source.toList.take p.index ++ (source.toList.drop p.index).take (q.index - p.index) := by
    rw [← List.take_add, Nat.add_sub_cancel' lt.le]
  have some : (source.toList.drop p.index).take (q.index - p.index) ≠ [] := by
    rw [← List.length_pos_iff, List.length_take, List.length_drop, String.length_toList]
    omega
  rw [eq', split, pastAll_append, ← eq]
  exact p.above_pastAll some

/-- **Places that are right are ordered alike** by their indices and by their lines and columns. -/
theorem Faithful.index_lt_iff (hp : p.Faithful source) (hq : q.Faithful source) :
    p.index < q.index ↔ p.Above q := by
  refine ⟨hp.above_of_index_lt hq, fun above => ?_⟩
  rcases Nat.lt_trichotomy p.index q.index with lt | eq | gt
  · exact lt
  · have same : p = q := by rw [(faithful_iff.mp hp).2, (faithful_iff.mp hq).2, eq]
    subst same
    unfold Above at above
    omega
  · have back := hq.above_of_index_lt hp gt
    unfold Above at above back
    omega

end Pos

/-! ### The coordinates of a text -/

namespace Scanner

/-- The scanners that come up while tokens are pulled, whether somebody asks to stop or not. -/
inductive Pulled (source : String) : Scanner → Prop
  | start : Pulled source (start source)
  | pull {s : Scanner} (pulled : Pulled source s) (cancelled : Bool) :
      Pulled source (s.pull cancelled).2

/-- A scanner stands behind some of the characters, whatever was pulled. -/
theorem Pulled.behind {source : String} {s : Scanner} (pulled : Pulled source s) :
    ∃ before, s.Behind source.toList before := by
  induction pulled with
  | start => exact ⟨[], rfl, rfl⟩
  | @pull s _ cancelled ih =>
    obtain ⟨before, behind⟩ := ih
    cases finished : s.finished with
    | true =>
      rw [pull_of_finished finished]
      exact ⟨before, behind⟩
    | false =>
      cases cancelled with
      | true =>
        have stops : s.pull true = (some (canceled s.here), { s with finished := true }) := by
          simp [Scanner.pull, cancel, finished]
        rw [stops]
        exact ⟨before, behind⟩
      | false =>
        obtain ⟨text, -, after⟩ := behind.scan
        exact ⟨_, by simpa [Scanner.pull, next, finished] using after⟩

/-- A scanner is at a true place, whatever was pulled. -/
theorem Pulled.faithful {source : String} {s : Scanner} (pulled : Pulled source s) :
    s.here.Faithful source := by
  obtain ⟨before, whole, here⟩ := pulled.behind
  rw [here]
  exact Pos.faithful_of_prefix ⟨s.rest, whole.symm⟩

end Scanner

/-- Where a token starts and where it stops. -/
def Token.places (t : Token) : List Pos := [t.start, t.stop]

/-- The coordinates of the tokens of a text are true, and so are those of whoever scans it. -/
structure Located (source : String) : Prop where
  tokens : ∀ t ∈ lex source, t.start.Faithful source ∧ t.stop.Faithful source ∧
    t.start.index ≤ t.stop.index
  /-- A scanner stands at a true place between two tokens. -/
  scanners : ∀ s, Scanner.Pulled source s → s.here.Faithful source
  /-- A finger that moves by single characters, forward and back, gives the same tokens. -/
  given : ∀ ts, Finger.Gives (some .outside) (Finger.atStart source) ts ↔ ts = lex source
  /-- It stands at a true place between two turns, and so does what it started to read. -/
  fingers : ∀ state f, Finger.Visits source state f →
    f.here.Faithful source ∧ f.start.Faithful source
  /-- Indices put places in the same order as lines and columns do. -/
  order : ∀ p ∈ (lex source).flatMap Token.places, ∀ q ∈ (lex source).flatMap Token.places,
    p.index < q.index ↔ p.Above q

/-- **The coordinates of tokens are true**, those of the last one as well, and so is the place of
the scanner between two of them; and they put the tokens in one order. -/
theorem lex_located (source : String) : Located source := by
  have tokens : ∀ t ∈ lex source, t.start.Faithful source ∧ t.stop.Faithful source ∧
      t.start.index ≤ t.stop.index := by
    intro t mem
    obtain ⟨before, text, covers⟩ := covers_of_mem_lex mem
    refine ⟨covers.faithful_start, covers.faithful_stop, ?_⟩
    rw [covers.start, covers.stop, Pos.pastAll_append, Pos.index_pastAll _ text]
    omega
  have places : ∀ p ∈ (lex source).flatMap Token.places, p.Faithful source := by
    intro p mem
    obtain ⟨t, mem, place⟩ := List.mem_flatMap.mp mem
    obtain ⟨start, stop, -⟩ := tokens t mem
    have either : p = t.start ∨ p = t.stop := by simpa [Token.places] using place
    rcases either with rfl | rfl
    · exact start
    · exact stop
  exact {
    tokens
    scanners := fun _ pulled => pulled.faithful
    given := Finger.gives_iff source
    fingers := fun _ _ visits => ⟨visits.faithful.here, visits.faithful.start⟩
    order := fun p mem q mem' => (places p mem).index_lt_iff (places q mem') }

end QualityRules
