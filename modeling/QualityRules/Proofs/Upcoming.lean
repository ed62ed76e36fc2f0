import QualityRules.Proofs.Unread

/-!
# Proofs — Upcoming

What a cursor has before it when it stands in a text: the tokens that were put back, those that were
not taken yet, and the end of the text again and again, once it was taken.

* `Cursor.pop_cases`: where a token that is taken comes from.
* `Cursor.StandsIn`: what was not taken yet are the last tokens of the text; `StandsIn.pop` and
  `StandsIn.push` keep it.
* `Cursor.StandsIn.row_eq`: as long as no fault was taken, the row before the cursor comes to the
  end of the text, or to the fault.
* `Row.behind_total`: of two heads of a row one goes on with the other.
-/

namespace QualityRules

variable {source : String} {t last : Token} {ts us vs : List Token} {r s : Row}

/-- The last token of a text is the only one that is its end or a fault. -/
theorem eq_nil_of_suffix_lex (suffix : t :: ts <:+ lex source) (terminal : t.kind.isTerminal) :
    ts = [] ∧ (lex source).getLast? = some t := by
  obtain ⟨us, last, eq, others, -⟩ := lex_eq source
  rw [eq] at suffix ⊢
  rcases List.suffix_concat_iff.mp suffix with none | ⟨vs, split, among⟩
  · exact nomatch none
  · cases vs with
    | nil =>
      obtain ⟨rfl, rfl⟩ := List.cons.inj split
      exact ⟨rfl, List.getLast?_concat⟩
    | cons v vs =>
      obtain ⟨rfl, -⟩ := List.cons.inj split
      rw [others t (among.subset List.mem_cons_self)] at terminal
      exact nomatch terminal

namespace Row

/-- Of two heads of a row one goes on with the other. -/
theorem behind_total (h : behind us r = behind vs s) :
    vs <+: us ∨ ∃ t ws, vs = us ++ t :: ws ∧ r = cons t (behind ws s) := by
  induction us generalizing vs with
  | nil =>
    cases vs with
    | nil => exact .inl List.prefix_rfl
    | cons v vs => exact .inr ⟨v, vs, rfl, h⟩
  | cons u us ih =>
    cases vs with
    | nil => exact .inl List.nil_prefix
    | cons v vs =>
      obtain ⟨rfl, rest⟩ := cons_inj.mp h
      rcases ih rest with short | ⟨t, ws, rfl, row⟩
      · exact .inl ((List.prefix_cons_inj u).mpr short)
      · exact .inr ⟨t, ws, rfl, row⟩

end Row

namespace Cursor

variable {c : Cursor}

/-- A token that is taken was put back, is the end of the text again, or is taken for the first
time. -/
theorem pop_cases (took : c.pop.1 = .ok t) :
    (∃ ts, c.pushed = t :: ts ∧ c.pop.2 = { c with pushed := ts }) ∨
    (c.pushed = [] ∧ c.eof = some t ∧ c.pop.2 = c) ∨
    ∃ ts, c.pushed = [] ∧ c.eof = none ∧ c.unread = t :: ts ∧ t.kind ≠ .illegal ∧
      c.pop.2 = c.after t ts := by
  obtain ⟨_ | ⟨u, pushed⟩, _ | e, _ | ⟨v, unread⟩, here⟩ := c
  case nil.none.nil => exact nomatch took
  case nil.none.cons =>
    by_cases fault : v.kind = .illegal
    · rw [pop_of_illegal rfl rfl rfl fault] at took
      exact nomatch took
    · rw [pop_of_unread rfl rfl rfl fault] at took ⊢
      obtain rfl := Except.ok.inj took
      exact .inr (.inr ⟨unread, rfl, rfl, rfl, fault, rfl⟩)
  case nil.some.nil | nil.some.cons =>
    obtain rfl := Except.ok.inj took
    exact .inr (.inl ⟨rfl, rfl, rfl⟩)
  all_goals
    obtain rfl := Except.ok.inj took
    exact .inl ⟨pushed, rfl, rfl⟩

/-- The cursor stands in a text: what was not taken yet are its last tokens, and none of them when
the end of the text was taken. -/
structure StandsIn (source : String) (c : Cursor) : Prop where
  unread : c.unread <:+ lex source
  eof : ∀ t ∈ c.eof, t.kind = .eof ∧ (lex source).getLast? = some t ∧ c.unread = []

namespace StandsIn

theorem start (source : String) : StandsIn source (ofTokens (lex source)) :=
  ⟨List.suffix_rfl, nofun⟩

theorem push (h : c.StandsIn source) (t : Token) : (c.push t).StandsIn source := ⟨h.unread, h.eof⟩

theorem pop (h : c.StandsIn source) : c.pop.2.StandsIn source := by
  obtain ⟨_ | ⟨u, pushed⟩, eof, unread, here⟩ := c
  · rcases eof with _ | e
    · cases unread with
      | nil => exact h
      | cons t ts =>
        refine ⟨(List.suffix_cons t ts).trans h.unread, fun u mem => ?_⟩
        have taken : u ∈ if t.kind = .eof then some t else none := mem
        split at taken
        · next isEnd =>
          obtain rfl := Option.some.inj taken
          obtain ⟨rfl, last⟩ := eq_nil_of_suffix_lex h.unread (by simp [isEnd, Kind.isTerminal])
          exact ⟨isEnd, last, rfl⟩
        · cases taken
    · exact h
  · exact ⟨h.unread, h.eof⟩

/-- Before a cursor where a token or a fault can be taken there are tokens, fewer than its budget, and
then the last one of the text. -/
theorem row_eq (h : c.StandsIn source) (ready : c.Ready) :
    ∃ ts last, c.row = Row.behind ts (Row.ending last) ∧ last.kind.isTerminal ∧
      (lex source).getLast? = some last ∧ ts.length < c.budget := by
  cases taken : c.eof with
  | none =>
    obtain ⟨us, last, eq, others, terminal⟩ := ready taken
    have isLast : (lex source).getLast? = some last := by
      obtain ⟨before, split⟩ := h.unread
      rw [← split, eq, ← List.append_assoc, List.getLast?_concat]
    refine ⟨c.pushed ++ us, last, ?_, terminal, isLast, ?_⟩
    · rw [row, taken, eq, Row.behind_append, ← Row.ofTokens_eq others terminal]
    · simp only [budget, eq, List.length_append, List.length_singleton]
      omega
  | some e =>
    obtain ⟨isEnd, isLast, -⟩ := h.eof e taken
    refine ⟨c.pushed, e, ?_, by simp [isEnd, Kind.isTerminal], isLast, ?_⟩
    · simp [row, taken, Row.ending, isEnd]
    · simp only [budget]
      omega

end StandsIn

end Cursor

end QualityRules
