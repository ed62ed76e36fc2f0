import QualityRules.Proofs.Comments
import QualityRules.Proofs.Row

/-!
# Proofs — Tokens

The tokens of a text: the last one, and only that, is the end of the text or a fault, and each
starts behind the one before it.

* `lex_eq`: the tokens are others and a last one.
* `pairwise_start`: no two tokens start at the same place, so no two comments are equal,
  `nodup_commentsOf_lex`.
* `Row.commentsOf_sublist_lex`: the comments that a reader meets come in the order of the text.
-/

namespace QualityRules

namespace Scanner

/-- A scanner is finished by its last token. -/
theorem finished_scan (s : Scanner) : s.scan.2.finished = s.scan.1.kind.isTerminal := by
  unfold scan
  dsimp only
  split <;> rfl

theorem tokens_of_finished {s : Scanner} (h : s.finished) : s.tokens = [] := by
  rw [tokens_eq, next_of_finished h]

/-- A scanner that gave its last token gives none, whether somebody asks to stop or not. -/
theorem pull_of_finished {s : Scanner} (h : s.finished) (cancelled : Bool) :
    s.pull cancelled = (none, s) := by
  cases cancelled <;> simp [pull, cancel, next, h]

theorem tokens_of_not_finished {s : Scanner} (h : s.finished = false) :
    s.tokens = s.scan.1 :: s.scan.2.tokens := by
  rw [tokens_eq, next_of_not_finished h]

/-- What holds of finished scanners, and of any other once it holds of the scanner behind the next
token, holds of all scanners. -/
@[elab_as_elim]
theorem induct {P : Scanner → Prop} (finished : ∀ s : Scanner, s.finished → P s)
    (scan : ∀ s : Scanner, s.finished = false → P s.scan.2 → P s) (s : Scanner) : P s := by
  generalize size : s.budget = n
  -- on what is left of the text: every scan takes some of it
  induction n using Nat.strongRecOn generalizing s with
  | ind n ih =>
    cases f : s.finished with
    | true => exact finished s f
    | false => exact scan s f (ih _ (size ▸ budget_scan_lt f) s.scan.2 rfl)

/-- The tokens that are left come to an end with the first that is the end of the text or a
fault. -/
theorem tokens_eq_append {s : Scanner} (h : s.finished = false) :
    ∃ ts last, s.tokens = ts ++ [last] ∧ (∀ t ∈ ts, t.kind.isTerminal = false) ∧
      last.kind.isTerminal := by
  induction s using induct with
  | finished s f => exact nomatch h.symm.trans f
  | scan s f ih =>
    rw [tokens_of_not_finished h]
    cases isLast : s.scan.1.kind.isTerminal with
    | true =>
      rw [tokens_of_finished (s.finished_scan.trans isLast)]
      exact ⟨[], _, rfl, by simp, isLast⟩
    | false =>
      obtain ⟨ts, last, eq, others, ends⟩ := ih (s.finished_scan.trans isLast)
      exact ⟨s.scan.1 :: ts, last, by rw [eq]; rfl, List.forall_mem_cons.mpr ⟨isLast, others⟩, ends⟩

/-- A token starts where the scanner stands or behind it, and the scanner goes on behind it. -/
theorem index_scan (s : Scanner) : s.here.index ≤ s.scan.1.start.index ∧
    (s.scan.1.kind.isTerminal = false → s.scan.1.start.index < s.scan.2.here.index) := by
  unfold scan
  dsimp only
  split
  · next kind text rest e =>
    refine ⟨by simp, fun _ => ?_⟩
    -- a piece has text, so the scanner ends up behind its start
    have some : text ≠ [] := by
      cases d : s.rest.dropWhile Lexeme.isBlank with
      | nil => rw [d] at e; exact nomatch e
      | cons c cs =>
        rw [d] at e
        have := Lexeme.startingWith_taken_ne_nil c cs
        rw [show Lexeme.startingWith c cs = .piece kind text rest from e] at this
        exact this
    have := List.length_pos_iff.mpr some
    simp only [Pos.index_pastAll]
    omega
  · exact ⟨by simp, nofun⟩
  · exact ⟨by simp, nofun⟩

theorem le_index_start (s : Scanner) : ∀ t ∈ s.tokens, s.here.index ≤ t.start.index := by
  induction s using induct with
  | finished s f =>
    rw [tokens_of_finished f]
    exact List.forall_mem_nil _
  | scan s f ih =>
    intro t mem
    rw [tokens_of_not_finished f] at mem
    obtain ⟨first, behind⟩ := s.index_scan
    rcases List.mem_cons.mp mem with rfl | mem
    · exact first
    · cases isLast : s.scan.1.kind.isTerminal with
      | true =>
        rw [tokens_of_finished (s.finished_scan.trans isLast)] at mem
        exact nomatch mem
      | false =>
        have := ih t mem
        have := behind isLast
        omega

/-- Each token starts behind those before it. -/
theorem pairwise_start (s : Scanner) :
    s.tokens.Pairwise fun t u => t.start.index < u.start.index := by
  induction s using induct with
  | finished s f =>
    rw [tokens_of_finished f]
    exact .nil
  | scan s f ih =>
    rw [tokens_of_not_finished f]
    refine .cons (fun t mem => ?_) ih
    cases isLast : s.scan.1.kind.isTerminal with
    | true =>
      rw [tokens_of_finished (s.finished_scan.trans isLast)] at mem
      exact nomatch mem
    | false => exact Nat.lt_of_lt_of_le (s.index_scan.2 isLast) (s.scan.2.le_index_start t mem)

end Scanner

/-- The tokens of a text are others and a last one. -/
theorem lex_eq (source : String) : ∃ ts last, lex source = ts ++ [last] ∧
    (∀ t ∈ ts, t.kind.isTerminal = false) ∧ last.kind.isTerminal :=
  Scanner.tokens_eq_append rfl

/-- The tokens of a text start one behind the other. -/
theorem pairwise_start_lex (source : String) :
    (lex source).Pairwise fun t u => t.start.index < u.start.index :=
  Scanner.pairwise_start _

/-- No two comments of a text are equal: they start at different places. -/
theorem nodup_commentsOf_lex (source : String) : (commentsOf (lex source)).Nodup := by
  refine List.Pairwise.map Comment.ofToken (fun t u lt eq => ?_)
    ((pairwise_start_lex source).filter _)
  have : t.start = u.start := congrArg Comment.pos eq
  rw [this] at lt
  exact Nat.lt_irrefl _ lt

namespace Row

theorem final_ofTokens (source : String) : (ofTokens (lex source)).Final := by
  obtain ⟨ts, last, eq, others, terminal⟩ := lex_eq source
  rw [eq, ofTokens_eq others terminal]
  exact final_behind others terminal

/-- What is read up to the end of the text ends there: not even a comment comes behind it. -/
theorem Final.of_solid {us ts : List Token} {t : Token} {r s : Row} (h : r.Final)
    (row : r = behind us s) (eq : solid us = ts ++ [t]) (isEnd : t.kind = .eof) :
    ∃ before, us = before ++ [t] ∧ solid before = ts ∧ s = cons t s := by
  obtain ⟨first, others, rfl, solid_first, rest⟩ := List.filter_eq_append_iff.mp eq
  obtain ⟨comments, after, rfl, all, -, none⟩ := List.filter_eq_cons_iff.mp rest
  have whole : solid (first ++ comments) = ts := by
    rw [solid_append, show solid comments = [] from List.filter_eq_nil_iff.mpr all,
      List.append_nil]
    exact solid_first
  rw [← List.append_assoc, behind_append] at row
  have again := h (first ++ comments) t (behind after s) row isEnd
  cases after with
  | nil => exact ⟨first ++ comments, by simp, whole, again⟩
  | cons u us =>
    -- what comes behind the end is the end again, which is no comment
    obtain ⟨rfl, -⟩ := cons_inj.mp again
    simp [isEnd] at none

/-- What a reader takes of a text has no comments but those of the text. -/
theorem commentsOf_prefix {ts us : List Token} {last : Token} {r : Row}
    (k : last.kind.isTerminal) (h : behind ts (ending last) = behind us r) :
    commentsOf us <+: commentsOf ts := by
  induction us generalizing ts with
  | nil => exact List.nil_prefix
  | cons u us ih =>
    cases ts with
    | cons t ts =>
      obtain ⟨rfl, rest⟩ := cons_inj.mp h
      by_cases c : t.kind = .comment
      · rw [commentsOf_cons_comment c, commentsOf_cons_comment c]
        exact (List.prefix_cons_inj _).mpr (ih rest)
      · rw [commentsOf_cons c, commentsOf_cons c]
        exact ih rest
    | nil =>
      -- the end of the text may be taken again and again, but it is no comment
      obtain ⟨e, rfl, rest⟩ := ending_eq_cons k h
      rw [commentsOf_cons (by simp [e])]
      exact ih (show behind [] (ending u) = behind us r from rest.symm)

/-- The comments of what is read of a text are some of the text, in their order. -/
theorem commentsOf_sublist_lex {source : String} {us : List Token} {s : Row}
    (row : ofTokens (lex source) = behind us s) :
    (commentsOf us).Sublist (commentsOf (lex source)) := by
  obtain ⟨ts, last, eq, others, terminal⟩ := lex_eq source
  rw [eq, ofTokens_eq others terminal] at row
  have first := commentsOf_prefix terminal row
  rw [eq, commentsOf_append]
  exact first.sublist.trans (List.sublist_append_left _ _)

/-- The tokens up to the end of the text, if one reads that far. -/
theorem eq_of_behind {ts us : List Token} {last t : Token} {r : Row}
    (others : ∀ t ∈ ts, t.kind.isTerminal = false) (k : last.kind.isTerminal)
    (h : behind ts (ending last) = behind (us ++ [t]) r) (isEnd : t.kind = .eof)
    (going : ∀ u ∈ us.getLast?, u.kind ≠ .eof) : ts ++ [last] = us ++ [t] := by
  rw [behind_append] at h
  obtain ⟨vs, rfl, row⟩ := prefix_of_behind k h going
  cases vs with
  | cons v vs =>
    obtain ⟨rfl, -⟩ := cons_inj.mp row
    have := others t (by simp)
    simp [isEnd, Kind.isTerminal] at this
  | nil =>
    obtain ⟨-, rfl, -⟩ := ending_eq_cons k row.symm
    rw [List.append_nil]

theorem ofTokens_cons {t : Token} (h : t.kind.isTerminal = false) (ts : List Token) :
    ofTokens (t :: ts) = cons t (ofTokens ts) :=
  ofTokens_append (List.forall_mem_singleton.mpr h) ts

theorem ofTokens_append_cons {us vs : List Token} {t : Token}
    (others : ∀ u ∈ us ++ t :: vs, u.kind.isTerminal = false) (last : Token) :
    ofTokens (us ++ t :: vs ++ [last]) = behind us (cons t (ofTokens (vs ++ [last]))) := by
  rw [List.append_assoc, ofTokens_append fun u mem => others u (List.mem_append_left _ mem),
    List.cons_append, ofTokens_cons (others t (by simp))]

/-- The tokens before one that was taken are the first, and those behind it are left. -/
theorem split_of_ofTokens {ts us : List Token} {last t : Token} {r : Row}
    (others : ∀ t ∈ ts, t.kind.isTerminal = false) (k : last.kind.isTerminal)
    (h : ofTokens (ts ++ [last]) = behind us (cons t r)) (going : t.kind ≠ .eof) :
    ∃ vs, ts = us ++ t :: vs ∧ r = ofTokens (vs ++ [last]) := by
  rw [ofTokens_eq others k] at h
  have h : behind ts (ending last) = behind (us ++ [t]) r := by rw [h, behind_append]; rfl
  obtain ⟨vs, rfl, rfl⟩ := prefix_of_behind k h (by simpa using going)
  refine ⟨vs, List.append_assoc us [t] vs, (ofTokens_eq (fun v mem => ?_) k).symm⟩
  exact others v (List.mem_append_right _ mem)

/-- The tokens that are left are told by the row. -/
theorem ofTokens_inj {ts us : List Token} {last : Token}
    (others : ∀ t ∈ ts, t.kind.isTerminal = false) (others' : ∀ u ∈ us, u.kind.isTerminal = false)
    (k : last.kind.isTerminal) (h : ofTokens (ts ++ [last]) = ofTokens (us ++ [last])) :
    ts = us := by
  rw [ofTokens_eq others k, ofTokens_eq others' k] at h
  have going : ∀ u ∈ us.getLast?, u.kind ≠ .eof := by
    intro u mem isEnd
    have := others' u (List.mem_of_getLast? mem)
    simp [isEnd, Kind.isTerminal] at this
  obtain ⟨vs, rfl, row⟩ := prefix_of_behind k h going
  cases vs with
  | nil => exact List.append_nil us
  | cons v vs =>
    -- only the last token could be taken again, and it is none of the others
    obtain ⟨-, rfl, -⟩ := ending_eq_cons k row
    have := others v (by simp)
    exact absurd k (by simp [this])

end Row

end QualityRules
