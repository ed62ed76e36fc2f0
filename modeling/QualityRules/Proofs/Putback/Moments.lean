import QualityRules.Proofs.Putback.Rule
import QualityRules.Proofs.Upcoming

/-!
# Proofs — Putback — Moments

At every moment of a run at most one token is put back, and it is the one that was taken last.  So a
cursor with its put-back tokens is no more than a place in the row of tokens of a text, which never
changes: to take a token is to go one place on, and to put it back is to go one place back.

* `Cursor.Move` and `Reading.Reaches`: what was done to a cursor so far, and what is still to do.
* `Reading.moment` finds the moment after so many moves.
* `Cursor.OneBack`: what holds of a cursor at every moment.
* `Reading.onRow`: a reader moves over a row that stays as it is.
* `Entry.oneBack` is the main result.
-/

namespace QualityRules

variable {ε α : Type} {source : String} {t e : Token} {c d : Cursor}

namespace Cursor

/-! ### Moves -/

/-- What is done to a cursor: the next token is taken, or a fault in its place; or a token is put
back. -/
inductive Move where
  | take (r : Except Refusal Token)
  | put (t : Token)

/-- The token that was taken by the last of the moves. -/
def lastTaken (ms : List Move) : Option Token :=
  match ms.getLast? with
  | some (.take r) => r.toOption
  | _ => none

/-- How many places on the moves lead. -/
def place (ms : List Move) : Nat :=
  ms.foldl (fun n m => match m with
    | .take _ => n + 1
    | .put _ => n - 1) 0

variable {ms : List Move} {r : Except Refusal Token}

@[simp] theorem lastTaken_take : lastTaken (ms ++ [.take r]) = r.toOption := by
  simp [lastTaken]

@[simp] theorem lastTaken_put : lastTaken (ms ++ [.put t]) = none := by
  simp [lastTaken]

@[simp] theorem place_take : place (ms ++ [.take r]) = place ms + 1 := by
  simp [place]

@[simp] theorem place_put : place (ms ++ [.put t]) = place ms - 1 := by
  simp [place]

theorem getLast?_of_lastTaken (h : lastTaken ms = some t) : ms.getLast? = some (.take (.ok t)) := by
  unfold lastTaken at h
  split at h
  · next r last =>
    cases r with
    | ok u => rw [last, Option.some.inj h]
    | error _ => exact nomatch h
  · exact nomatch h

/-- A cursor in a text where the moves `ms` led: at most one token is put back, which is the one that
was taken last.  It is followed by the tokens that were not taken yet, as the last ones of the text,
and by its end again and again once that was taken.  All in all the cursor is a place in the row of
the tokens. -/
structure OneBack (source : String) (ms : List Move) (c : Cursor) : Prop where
  few : c.pushed.length ≤ 1
  last : ∀ before t after, ms = before ++ .put t :: after →
    before.getLast? = some (.take (.ok t))
  suffix : c.pushed ++ c.unread <:+ lex source
  ends : ∀ e, .take (.ok e) ∈ ms → e.kind = .eof →
    c.row = Row.behind (c.pushed ++ c.unread) (Stream'.const (.ok e))
  row : c.row = (Row.ofTokens (lex source)).drop (place ms)

/-! ### What a move does -/

theorem pushed_pop (c : Cursor) : c.pop.2.pushed = c.pushed.tail := by
  obtain ⟨_ | ⟨u, pushed⟩, _ | e, _ | ⟨v, unread⟩, here⟩ := c <;> rfl

theorem eof_pop (taken : c.eof = some e) : c.pop.2.eof = some e := by
  obtain ⟨_ | ⟨u, pushed⟩, eof, unread, here⟩ := c
  · obtain rfl : eof = some e := taken
    rfl
  · exact taken

/-- A cursor at a moment of a run; also what is known of the token that was taken last, which may be
put back. -/
structure Tracks (source : String) (ms : List Move) (c : Cursor) : Prop where
  stands : c.StandsIn source
  few : c.pushed.length ≤ 1
  suffix : c.pushed ++ c.unread <:+ lex source
  row : c.row = (Row.ofTokens (lex source)).drop (place ms)
  last : ∀ before t after, ms = before ++ .put t :: after →
    before.getLast? = some (.take (.ok t))
  eof : ∀ e, .take (.ok e) ∈ ms → e.kind = .eof → c.eof = some e
  back : ∀ e ∈ c.pushed, e.kind = .eof → c.eof = some e
  held : ∀ t ∈ lastTaken ms, c.pushed = [] ∧ t :: c.unread <:+ lex source ∧
    (Row.ofTokens (lex source)).drop (place ms - 1) = Row.cons t c.row

namespace Tracks

theorem start (source : String) : Tracks source [] (ofTokens (lex source)) where
  stands := .start source
  few := Nat.zero_le 1
  suffix := List.suffix_rfl
  row := rfl
  last before t after split := by simp at split
  eof e mem := absurd mem List.not_mem_nil
  back e mem := absurd mem List.not_mem_nil
  held := by simp [lastTaken]

theorem isOneBack (h : Tracks source ms c) : OneBack source ms c where
  few := h.few
  last := h.last
  suffix := h.suffix
  row := h.row
  ends e mem isEnd := by
    have taken := h.eof e mem isEnd
    obtain ⟨-, -, none⟩ := h.stands.eof e taken
    simp [Cursor.row, taken, none]

/-- What is put back in a run of moves was put back before the last of them, or by it. -/
theorem last_concat {m : Move} (h : ∀ before t after, ms = before ++ .put t :: after →
      before.getLast? = some (.take (.ok t)))
    (this : ∀ t, m = .put t → ms.getLast? = some (.take (.ok t))) :
    ∀ before t after, ms ++ [m] = before ++ .put t :: after →
      before.getLast? = some (.take (.ok t)) := by
  intro before t after split
  rcases List.eq_nil_or_concat' after with rfl | ⟨after, m', rfl⟩
  · obtain ⟨rfl, one⟩ := List.append_inj' split rfl
    exact this t (List.head_eq_of_cons_eq one)
  · rw [← List.cons_append, ← List.append_assoc] at split
    exact h before t after (List.append_inj' split rfl).1

/-- A token that is taken stood right before those that are not taken yet. -/
theorem suffix_pop (h : Tracks source ms c) (took : c.pop.1 = .ok t) :
    t :: c.pop.2.unread <:+ lex source := by
  rcases pop_cases took with ⟨ts, pushed, eq⟩ | ⟨pushed, again, eq⟩ | ⟨ts, -, -, next, -, eq⟩ <;>
    rw [eq]
  · obtain rfl : ts = [] := by simpa [pushed] using h.few
    simpa [pushed] using h.suffix
  · obtain ⟨-, last, none⟩ := h.stands.eof t again
    obtain ⟨us, split⟩ := List.getLast?_eq_some_iff.mp last
    exact ⟨us, by rw [none, split]⟩
  · exact next ▸ h.stands.unread

/-- The end of the text stays taken. -/
theorem eof_of_took (h : Tracks source ms c) (took : c.pop.1 = .ok e) (isEnd : e.kind = .eof) :
    c.pop.2.eof = some e := by
  rcases pop_cases took with ⟨ts, pushed, eq⟩ | ⟨-, again, eq⟩ | ⟨ts, -, -, -, -, eq⟩ <;> rw [eq]
  · exact h.back e (by simp [pushed]) isEnd
  · exact again
  · simp [after, isEnd]

theorem take (h : Tracks source ms c) : Tracks source (ms ++ [.take c.pop.1]) c.pop.2 := by
  have none : c.pop.2.pushed = [] := by
    rw [pushed_pop, ← List.length_eq_zero_iff, List.length_tail]
    have := h.few
    omega
  have row := h.row
  rw [c.row_pop] at row
  refine ⟨h.stands.pop, by simp [none], by simpa [none] using h.stands.pop.unread, ?_,
    last_concat h.last fun _ put => Move.noConfusion put, ?_, by simp [none], ?_⟩
  · rw [place_take, ← Stream'.tail_drop', ← row, Stream'.tail_cons]
  · intro e mem isEnd
    rcases List.mem_append.mp mem with before | now
    · exact eof_pop (h.eof e before isEnd)
    · have took : .take (.ok e) = Move.take c.pop.1 := by simpa using now
      exact h.eof_of_took (Move.take.inj took).symm isEnd
  · intro t mem
    rw [lastTaken_take] at mem
    have took : c.pop.1 = .ok t := by
      cases item : c.pop.1 with
      | ok u => rw [item] at mem; exact congrArg _ (Option.some.inj mem)
      | error x => rw [item] at mem; exact nomatch mem
    refine ⟨none, h.suffix_pop took, ?_⟩
    rw [place_take, Nat.add_sub_cancel, ← row, took]
    rfl

theorem put (h : Tracks source ms c) (held : lastTaken ms = some t) :
    Tracks source (ms ++ [.put t]) (c.push t) := by
  obtain ⟨none, suffix, row⟩ := h.held t held
  have recent := getLast?_of_lastTaken held
  refine ⟨h.stands.push t, by simp [push, none], by simpa [push, none] using suffix, ?_,
    last_concat h.last (by rintro u ⟨⟩; exact recent), ?_, ?_, by simp⟩
  · rw [place_put, row]
    rfl
  · intro e mem isEnd
    exact h.eof e (by simpa using mem) isEnd
  · intro e mem isEnd
    obtain rfl : e = t := by simpa [push, none] using mem
    exact h.eof e (List.mem_of_getLast? recent) isEnd

end Tracks

end Cursor

namespace Reading
open Cursor (Move place lastTaken OneBack Tracks)

variable {p q : Reading ε α} {ms : List Move}

/-- By the moves `ms` the reader `p` came from the cursor `c` to the cursor `d`, and `q` is what it
still has to do. -/
inductive Reaches (p : Reading ε α) (c : Cursor) : List Move → Reading ε α → Cursor → Prop
  | start : Reaches p c [] p c
  | take {ms : List Move} {next : Except Refusal Token → Reading ε α} {d : Cursor}
      (h : Reaches p c ms (pop next) d) :
      Reaches p c (ms ++ [.take d.pop.1]) (next d.pop.1) d.pop.2
  | put {ms : List Move} {t : Token} {next : Reading ε α} {d : Cursor}
      (h : Reaches p c ms (push t next) d) : Reaches p c (ms ++ [.put t]) next (d.push t)

/-- The moment after so many moves, or the end of the run. -/
def moment (p : Reading ε α) (c : Cursor) : Nat → List Move × Reading ε α × Cursor
  | 0 => ([], p, c)
  | n + 1 => match p.moment c n with
    | (ms, pop next, d) => (ms ++ [.take d.pop.1], next d.pop.1, d.pop.2)
    | (ms, push t next, d) => (ms ++ [.put t], next, d.push t)
    | (ms, q, d) => (ms, q, d)

theorem reaches_moment (p : Reading ε α) (c : Cursor) (n : Nat) :
    p.Reaches c (p.moment c n).1 (p.moment c n).2.1 (p.moment c n).2.2 := by
  induction n with
  | zero => exact .start
  | succ n ih =>
    rw [moment]
    generalize p.moment c n = m at ih ⊢
    obtain ⟨ms, q, d⟩ := m
    cases q with
    | done a => exact ih
    | fail e => exact ih
    | pop next => exact ih.take
    | push t next => exact ih.put

/-- Lets a reader move over a row that stays as it is, from the place `n` on. -/
def onRow (r : Row) : Reading ε α → Nat → Except ε α × Nat
  | done a, n => (.ok a, n)
  | fail e, n => (.error e, n)
  | pop next, n => (next (r.get n)).onRow r (n + 1)
  | push _ next, n => next.onRow r (n - 1)

namespace Reaches

/-- The moments of a run lie on it. -/
theorem run_eq (h : p.Reaches c ms q d) : q.run d = p.run c := by
  induction h with
  | start => rfl
  | take _ ih => exact ih
  | put _ ih => exact ih

/-- What is still to do puts back nothing but what was taken last. -/
theorem heeds (h : p.Reaches c ms q d) (back : p.PutsBack) :
    q.Heeds (lastTaken ms) fun _ _ => True := by
  induction h with
  | start => exact back none
  | take _ ih =>
    rw [Cursor.lastTaken_take]
    exact ih _
  | put _ ih =>
    rw [Cursor.lastTaken_put]
    exact ih.2

theorem tracks (h : p.Reaches (Cursor.ofTokens (lex source)) ms q d) (back : p.PutsBack) :
    Tracks source ms d := by
  induction h with
  | start => exact .start source
  | take _ ih => exact ih.take
  | put h ih => exact ih.put (h.heeds back).1

/-- What is still to do comes to the same over the row of the tokens, from the place on to which the
moves led. -/
theorem onRow_eq (h : p.Reaches (Cursor.ofTokens (lex source)) ms q d) (back : p.PutsBack) :
    (q.onRow (Row.ofTokens (lex source)) (place ms)).1 = (q.run d).1 ∧
      (q.run d).2.row = (Row.ofTokens (lex source)).drop
        (q.onRow (Row.ofTokens (lex source)) (place ms)).2 := by
  induction q generalizing ms d with
  | done a => exact ⟨rfl, (h.tracks back).row⟩
  | fail e => exact ⟨rfl, (h.tracks back).row⟩
  | pop next ih =>
    have here : (Row.ofTokens (lex source)).get (place ms) = d.pop.1 := by
      rw [← Stream'.head_drop, ← (h.tracks back).row, d.row_pop, Stream'.head_cons]
    have rest := ih _ h.take
    rw [Cursor.place_take] at rest
    rw [onRow, here]
    exact rest
  | push t next ih =>
    have rest := ih h.put
    rw [Cursor.place_put] at rest
    exact rest

end Reaches

end Reading

namespace Entry
open Cursor (Move place OneBack)

variable {ms : List Move} {q : Reading (Refusal × Tray) (Node × Tray)}

/-- **At every moment of a run at most one token is put back, the one that was taken last**, and with
the tokens that were not taken yet it is the rest of the text.  What is still to do comes to the same
over the row of the tokens of the text, which never changes, and stops at the same place. -/
theorem oneBack (entry : Entry) (h : (entry.reading source).Reaches
      (Cursor.ofTokens (lex source)) ms q d) :
    OneBack source ms d ∧ (q.run d).1 = entry.outcome source ∧
      (q.onRow (Row.ofTokens (lex source)) (place ms)).1 = entry.outcome source ∧
      (q.run d).2.row = (Row.ofTokens (lex source)).drop
        (q.onRow (Row.ofTokens (lex source)) (place ms)).2 := by
  have back : (entry.reading source).PutsBack := by
    intro held
    rw [reading]
    exact entry.putsBack_reader _ held Tray.empty
  have same : (q.run d).1 = entry.outcome source := congrArg Prod.fst h.run_eq
  obtain ⟨result, left⟩ := h.onRow_eq back
  exact ⟨(h.tracks back).isOneBack, same, result.trans same, left⟩

/-- The end of the text was looked at behind a number: it is put back, and it is remembered as taken. -/
theorem oneBack_behindNumber : ∃ ms q d,
    (rule.reading "A 1").Reaches (Cursor.ofTokens (lex "A 1")) ms q d ∧
    d.pushed.map Token.kind = [.eof] ∧ d.eof.map Token.kind = some .eof ∧ ms.length = 6 ∧
    OneBack "A 1" ms d ∧
    (q.onRow (Row.ofTokens (lex "A 1")) (place ms)).1 = rule.outcome "A 1" := by
  have reached := (rule.reading "A 1").reaches_moment (Cursor.ofTokens (lex "A 1")) 6
  obtain ⟨oneBack, -, same, -⟩ := rule.oneBack reached
  exact ⟨_, _, _, reached, by decide +kernel, by decide +kernel, by decide +kernel, oneBack, same⟩

end Entry

end QualityRules
