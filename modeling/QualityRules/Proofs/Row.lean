import Mathlib.Data.Stream.Init
import QualityRules.Read.Source

/-!
# Proofs — Row

What a cursor hands out, one after the other, is a row without end: the end of the text comes again
and again, and behind a fault there is only starvation.  A reader cannot tell two cursors with the
same row apart, so what a reader does is said about rows.

* `Cursor.row` is the row before a cursor; `row_pop` says that taking a token takes the head of it.
* `Reading.along` lets a reader move along a row; `run_row` says that this is what it does to a
  cursor.
* `Row.behind`: the row `r` behind the tokens `ts`.
* `Row.ofTokens_eq`: the tokens of a text are a row behind all of them but the last, and the last
  one decides what comes then (`Row.ending`).
-/

namespace QualityRules

/-- What is handed out, one after the other. -/
abbrev Row := Stream' (Except Refusal Token)

namespace Row

/-- The row `r` with the token `t` before it. -/
def cons (t : Token) (r : Row) : Row := Stream'.cons (.ok t) r

/-- The row `r` with the tokens `ts` before it. -/
def behind (ts : List Token) (r : Row) : Row := ts.foldr cons r

/-- What comes when all tokens but the last were taken: the end of the text again and again, or the
fault and then nothing. -/
def ending (last : Token) : Row :=
  if last.kind = .illegal then
    Stream'.cons (.error (.at (.scan last.text) last.start)) (Stream'.const (.error .starved))
  else Stream'.const (.ok last)

/-- The row of tokens that were not taken yet. -/
def ofTokens : List Token → Row
  | [] => Stream'.const (.error .starved)
  | t :: ts =>
    if t.kind = .eof then Stream'.const (.ok t)
    else if t.kind = .illegal then
      Stream'.cons (.error (.at (.scan t.text) t.start)) (ofTokens ts)
    else cons t (ofTokens ts)

@[simp] theorem behind_nil (r : Row) : behind [] r = r := rfl

@[simp] theorem behind_cons (t : Token) (ts : List Token) (r : Row) :
    behind (t :: ts) r = cons t (behind ts r) := rfl

theorem behind_append (ts us : List Token) (r : Row) :
    behind (ts ++ us) r = behind ts (behind us r) := List.foldr_append

/-- The head of a row and what follows are told by the row. -/
theorem cons_inj {t u : Token} {r s : Row} :
    cons t r = cons u s ↔ t = u ∧ r = s := by
  constructor
  · intro h
    obtain ⟨head, tail⟩ := Stream'.cons_injective2 h
    exact ⟨Except.ok.inj head, tail⟩
  · rintro ⟨rfl, rfl⟩
    rfl

/-- The end of the text comes again. -/
theorem ending_eof {last : Token} (h : last.kind = .eof) :
    ending last = cons last (ending last) := by
  have eq : ending last = Stream'.const (.ok last) := by simp [ending, h]
  rw [eq]
  exact Stream'.const_eq _

/-- A fault is not handed out. -/
theorem ending_illegal {last t : Token} {r : Row} (h : last.kind = .illegal) :
    ending last ≠ cons t r := by
  intro eq
  rw [ending, if_pos h] at eq
  exact nomatch (Stream'.cons_injective2 eq).1

/-- When all tokens but the last were taken, only the end of the text can be taken. -/
theorem ending_eq_cons {last t : Token} {r : Row} (k : last.kind.isTerminal)
    (h : ending last = cons t r) : last.kind = .eof ∧ t = last ∧ r = ending last := by
  cases e : last.kind with
  | illegal => exact absurd h (ending_illegal e)
  | eof =>
    rw [ending_eof e] at h
    obtain ⟨rfl, rfl⟩ := cons_inj.mp h
    exact ⟨rfl, rfl, rfl⟩
  | _ => simp [e, Kind.isTerminal] at k

/-- Tokens that are neither the end of the text nor a fault are taken one after the other. -/
theorem ofTokens_append {ts : List Token} (h : ∀ t ∈ ts, t.kind.isTerminal = false)
    (us : List Token) : ofTokens (ts ++ us) = behind ts (ofTokens us) := by
  induction ts with
  | nil => rfl
  | cons t ts ih =>
    have ne : t.kind ≠ .eof ∧ t.kind ≠ .illegal := by
      have := h t List.mem_cons_self
      constructor <;> intro e <;> simp [e, Kind.isTerminal] at this
    rw [List.cons_append, ofTokens, if_neg ne.1, if_neg ne.2, behind_cons,
      ih fun u m => h u (List.mem_cons_of_mem _ m)]

/-- The last of the tokens decides what comes when the others were taken. -/
theorem ofTokens_eq {ts : List Token} {last : Token} (h : ∀ t ∈ ts, t.kind.isTerminal = false)
    (k : last.kind.isTerminal) : ofTokens (ts ++ [last]) = behind ts (ending last) := by
  rw [ofTokens_append h]
  cases e : last.kind with
  | illegal | eof => simp [ofTokens, ending, e]
  | _ => simp [e, Kind.isTerminal] at k

/-- Tokens that are taken from a row and end in another one than the end of the text are the first
of the row. -/
theorem prefix_of_behind {ts us : List Token} {last : Token} {r : Row}
    (k : last.kind.isTerminal) (h : behind ts (ending last) = behind us r)
    (last_ne : ∀ u ∈ us.getLast?, u.kind ≠ .eof) :
    ∃ vs, ts = us ++ vs ∧ r = behind vs (ending last) := by
  -- on the tokens that are taken: both rows go on alike until `ts` is used up
  induction us generalizing ts with
  | nil => exact ⟨ts, rfl, h.symm⟩
  | cons u us ih =>
    have rest_ne : ∀ x ∈ us.getLast?, x.kind ≠ .eof := by
      intro x m
      cases us with
      | nil => exact nomatch m
      | cons v vs => exact last_ne x (by rwa [List.getLast?_cons_cons])
    cases ts with
    | cons t ts =>
      rw [behind_cons, behind_cons, cons_inj] at h
      obtain ⟨rfl, h⟩ := h
      obtain ⟨vs, rfl, e⟩ := ih h rest_ne
      exact ⟨vs, rfl, e⟩
    | nil =>
      -- only the end of the text is left to take, so it is the last one taken
      obtain ⟨e, rfl, rest⟩ := ending_eq_cons k h
      cases us with
      | nil => exact absurd e (last_ne _ rfl)
      | cons v vs =>
        have rest : behind [] (ending u) = behind (v :: vs) r := rest.symm
        obtain ⟨ws, eq, -⟩ := ih rest rest_ne
        exact nomatch eq

/-- Behind the end of the text there is only the end of the text. -/
def Final (r : Row) : Prop :=
  ∀ us t m, r = behind us (cons t m) → t.kind = .eof → m = cons t m

theorem Final.rest {us : List Token} {r s : Row} (h : Final r) (eq : r = behind us s) :
    Final s := by
  intro vs t m row isEnd
  refine h (us ++ vs) t m ?_ isEnd
  rw [behind_append, ← row, eq]

theorem Final.tail {t : Token} {r : Row} (h : Final (cons t r)) : Final r :=
  h.rest (show cons t r = behind [t] r from rfl)

theorem final_behind {ts : List Token} {last : Token} (h : ∀ t ∈ ts, t.kind.isTerminal = false)
    (k : last.kind.isTerminal) : Final (behind ts (ending last)) := by
  intro us
  induction us generalizing ts with
  | nil =>
    intro t m row isEnd
    cases ts with
    | cons u us =>
      obtain ⟨rfl, -⟩ := cons_inj.mp row
      have := h _ List.mem_cons_self
      simp [isEnd, Kind.isTerminal] at this
    | nil =>
      obtain ⟨e, rfl, rfl⟩ := ending_eq_cons k row
      exact ending_eof e
  | cons u us ih =>
    intro t m row isEnd
    cases ts with
    | cons v vs =>
      exact ih (fun x i => h x (List.mem_cons_of_mem _ i)) t m (cons_inj.mp row).2 isEnd
    | nil =>
      obtain ⟨-, -, rest⟩ := ending_eq_cons k row
      exact ih (List.forall_mem_nil _) t m rest.symm isEnd

end Row

namespace Cursor

/-- What is before a cursor. -/
def row (c : Cursor) : Row :=
  Row.behind c.pushed (match c.eof with
    | some t => Stream'.const (.ok t)
    | none => Row.ofTokens c.unread)

@[simp] theorem row_ofTokens (ts : List Token) : (ofTokens ts).row = Row.ofTokens ts := rfl

/-- Taking a token takes the head of the row. -/
theorem row_pop (c : Cursor) : c.row = Stream'.cons c.pop.1 c.pop.2.row := by
  obtain ⟨pushed, eof, unread, here⟩ := c
  cases pushed with
  | cons t ts => rfl
  | nil =>
    cases eof with
    | some t => exact Stream'.const_eq _
    | none =>
      cases unread with
      | nil => exact Stream'.const_eq (Except.error Refusal.starved)
      | cons t ts =>
        by_cases e : t.kind = .eof
        · have again :
              Stream'.const (Except.ok t : Except Refusal Token) = Stream'.cons (.ok t) _ :=
            Stream'.const_eq _
          simpa [row, pop, after, Row.ofTokens, e] using again
        · by_cases i : t.kind = .illegal <;> simp [row, pop, after, Row.ofTokens, Row.cons, e, i]

end Cursor

namespace Reading

variable {ε ε' α β : Type}

/-- Lets a reader move along a row. -/
def along : Reading ε α → Row → Except ε α × Row
  | done a, r => (.ok a, r)
  | fail e, r => (.error e, r)
  | pop next, r => (next r.head).along r.tail
  | push t next, r => next.along (Row.cons t r)

/-- A reader does to a cursor what it does to the row before it. -/
theorem run_row (p : Reading ε α) (c : Cursor) :
    p.along c.row = ((p.run c).1, (p.run c).2.row) := by
  induction p generalizing c with
  | done a => rfl
  | fail e => rfl
  | pop next ih =>
    rw [along, c.row_pop, Stream'.head_cons, Stream'.tail_cons, ih]
    rfl
  | push t next ih => exact ih (c.push t)

theorem along_ofTokens (p : Reading ε α) (ts : List Token) : p.along (Row.ofTokens ts)
    = ((p.run (Cursor.ofTokens ts)).1, (p.run (Cursor.ofTokens ts)).2.row) :=
  p.run_row (Cursor.ofTokens ts)

theorem along_bind (p : Reading ε α) (f : α → Reading ε β) (r : Row) :
    (p >>= f).along r = match p.along r with
      | (.ok a, r) => (f a).along r
      | (.error e, r) => (.error e, r) := by
  induction p generalizing r with
  | done a => rfl
  | fail e => rfl
  | pop next ih => exact ih _ _
  | push t next ih => exact ih _

theorem along_mapError (g : ε → ε') (p : Reading ε α) (r : Row) :
    (p.mapError g).along r = ((p.along r).1.mapError g, (p.along r).2) := by
  induction p generalizing r with
  | done a => rfl
  | fail e => rfl
  | pop next ih => exact ih _ _
  | push t next ih => exact ih _

theorem along_attempt (p : Reading ε α) (r : Row) :
    (p.attempt : Reading ε' (Except ε α)).along r = (.ok (p.along r).1, (p.along r).2) := by
  induction p generalizing r with
  | done a => rfl
  | fail e => rfl
  | pop next ih => exact ih _ _
  | push t next ih => exact ih _

end Reading

end QualityRules
