import QualityRules.Proofs.Coordinates
import QualityRules.Proofs.Tiling
import QualityRules.Proofs.Tokens

/-!
# Proofs — Lines

On which lines the tokens of a text stand.  Tokens never go back to a line above, a comment takes
the rest of its line, and only a string runs over a line break.

* `exists_char_of_mem_lex`: a token that is not the end of the text starts with a character that is
  no blank; `newline_of_comment`: behind a comment there is a line break, or nothing.
* `Lined`: the lines of tokens, one behind the other; `lined_lex`: the tokens of a text are lined,
  and `lined_of_row` says so of those that a reader takes.
* `Row.LinedBehind`: some tokens and all that a reader may take behind them are lined.
-/

namespace QualityRules

open Lexeme (isBlank)

variable {source : String} {t u : Token} {ts us : List Token}

/-! ### Characters around tokens -/

/-- A comment takes all characters up to a line break. -/
theorem Lexeme.newline_of_comment {cs text rest : List Char}
    (h : Lexeme.read cs = .piece .comment text rest) : ∀ c ∈ rest.head?, c = '\n' := by
  obtain ⟨body, -, rfl⟩ := Lexeme.spells_of_read h
  have whole := Lexeme.read_eq cs
  rw [h] at whole
  obtain rfl : '#' :: body ++ rest = cs := whole
  have read : Lexeme.read ('#' :: (body ++ rest)) = Lexeme.comment (body ++ rest) := rfl
  rw [List.cons_append, read] at h
  obtain ⟨-, -, left⟩ := Lexeme.piece.inj h
  intro c first
  have stops := List.head?_dropWhile_not (· != '\n') (body ++ rest)
  rw [left, first] at stops
  simpa using stops

namespace Scanner

variable {chars before : List Char} {s : Scanner}

/-- A token that is not the last one starts with a character that is no blank. -/
theorem Behind.exists_char (h : s.Behind chars before) : ∀ t ∈ s.tokens, t.kind ≠ .eof →
    ∃ c, chars[t.start.index]? = some c ∧ isBlank c = false := by
  induction s using induct generalizing before with
  | finished s f =>
    rw [tokens_of_finished f]
    exact List.forall_mem_nil _
  | scan s f ih =>
    obtain ⟨text, covers, behind⟩ := h.scan
    rw [tokens_of_not_finished f]
    refine List.forall_mem_cons.mpr ⟨fun other => ?_, ih behind⟩
    have split : chars = (before ++ s.rest.takeWhile isBlank) ++ s.rest.dropWhile isBlank := by
      rw [List.append_assoc, List.takeWhile_append_dropWhile, ← h.1]
    have index : s.scan.1.start.index = (before ++ s.rest.takeWhile isBlank).length := by
      rw [covers.start]
      simp [Pos.origin]
    cases left : s.rest.dropWhile isBlank with
    | nil =>
      -- nothing is left for a lexeme
      simp [Scanner.scan, left, Lexeme.read] at other
    | cons c cs =>
      have stops := List.head?_dropWhile_not isBlank s.rest
      rw [left] at stops
      refine ⟨c, ?_, by simpa using stops⟩
      rw [index, split, left, List.getElem?_append_right (Nat.le_refl _), Nat.sub_self]
      rfl

/-- Behind a comment the scanner stands before a line break, or at the end. -/
theorem newline_of_scan (h : s.scan.1.kind = .comment) : ∀ c ∈ s.scan.2.rest.head?, c = '\n' := by
  unfold scan at h ⊢
  dsimp only at h ⊢
  split at h
  · next kind text rest read =>
    obtain rfl : kind = .comment := h
    exact Lexeme.newline_of_comment read
  · cases h
  · cases h

/-- Behind a comment the line ends. -/
theorem Behind.newline_of_comment (h : s.Behind chars before) : ∀ t ∈ s.tokens,
    t.kind = .comment → ∀ c ∈ chars[t.stop.index]?, c = '\n' := by
  induction s using induct generalizing before with
  | finished s f =>
    rw [tokens_of_finished f]
    exact List.forall_mem_nil _
  | scan s f ih =>
    obtain ⟨text, -, behind⟩ := h.scan
    rw [tokens_of_not_finished f]
    refine List.forall_mem_cons.mpr ⟨fun kind c mem => newline_of_scan kind c ?_, ih behind⟩
    obtain ⟨whole, here⟩ := behind
    rwa [s.stop_scan, here, Pos.index_pastAll, show Pos.origin.index = 0 from rfl, Nat.zero_add,
      whole, List.getElem?_append_right (Nat.le_refl _), Nat.sub_self, ← List.head?_eq_getElem?]
      at mem

end Scanner

/-- At the start nothing was scanned. -/
theorem behind_start (source : String) : (Scanner.start source).Behind source.toList [] :=
  ⟨rfl, rfl⟩

/-- A token that is not the end of its text starts with a character that is no blank. -/
theorem exists_char_of_mem_lex (mem : t ∈ lex source) (other : t.kind ≠ .eof) :
    ∃ c, source.toList[t.start.index]? = some c ∧ isBlank c = false :=
  (behind_start source).exists_char t mem other

/-- Behind a comment there is a line break, or nothing. -/
theorem newline_of_comment (mem : t ∈ lex source) (kind : t.kind = .comment) :
    ∀ c ∈ source.toList[t.stop.index]?, c = '\n' :=
  (behind_start source).newline_of_comment t mem kind

/-! ### Lines -/

/-- Every token of a text stops at a place of the text. -/
theorem faithful_stop_of_mem_lex (mem : t ∈ lex source) : t.stop.Faithful source := by
  obtain ⟨before, text, covers⟩ := covers_of_mem_lex mem
  exact covers.faithful_stop

namespace Pos

variable {p q : Pos}

/-- Further on in a text the lines do not go back. -/
theorem Faithful.line_le (hp : p.Faithful source) (hq : q.Faithful source)
    (le : p.index ≤ q.index) : p.line ≤ q.line := by
  have more := (List.take_sublist_take_left (l := source.toList) le).count_le '\n'
  rw [hp.line, hq.line]
  omega

/-- Behind a line break comes another line. -/
theorem Faithful.line_lt (hp : p.Faithful source) (hq : q.Faithful source)
    (newline : source.toList[p.index]? = some '\n') (lt : p.index < q.index) :
    p.line < q.line := by
  have more := (List.take_sublist_take_left (l := source.toList) lt).count_le '\n'
  rw [List.take_add_one, newline, List.count_append] at more
  rw [hp.line, hq.line]
  simp at more
  omega

end Pos

/-- Only a string runs over a line break. -/
theorem line_stop_of_mem_lex (mem : t ∈ lex source) (other : t.kind.isTerminal = false)
    (plain : t.kind ≠ .string) : t.stop.line = t.start.line := by
  obtain ⟨before, text, covers⟩ := covers_of_mem_lex mem
  obtain ⟨-, spells⟩ := covers.spells other
  rw [covers.stop, Pos.pastAll_append, ← covers.start, Pos.line_pastAll,
    List.count_eq_zero.mpr (spells.newline_not_mem plain)]
  exact Int.add_zero _

/-- The token `u` may come behind `t`: it does not start on a line above, behind a comment it starts
on another line unless it is the end of the text, and behind the end only the end comes again. -/
structure Token.Leads (t u : Token) : Prop where
  le : t.start.line ≤ u.start.line
  lt : t.kind = .comment → u.kind ≠ .eof → t.start.line < u.start.line
  ends : t.kind.isTerminal → u.kind.isTerminal

/-- On the lines the tokens come in their order, and behind a comment comes another line. -/
def Lined (ts : List Token) : Prop := ts.Pairwise Token.Leads

namespace Lined

/-- Some of the tokens that are lined are lined. -/
theorem sublist (h : Lined us) (part : ts.Sublist us) : Lined ts := List.Pairwise.sublist part h

/-- The first of the tokens that are lined are lined. -/
theorem left (h : Lined (ts ++ us)) : Lined ts := h.sublist (List.sublist_append_left ts us)

/-- The last of the tokens that are lined are lined. -/
theorem right (h : Lined (ts ++ us)) : Lined us := h.sublist (List.sublist_append_right ts us)

/-- Of tokens that are lined an earlier one leads a later one. -/
theorem leads (h : Lined (ts ++ us)) (first : t ∈ ts) (second : u ∈ us) : t.Leads u :=
  (List.pairwise_append.mp h).2.2 t first u second

end Lined

/-- A token that stops before another one starts is on no line below that one. -/
theorem line_stop_le_of_mem_lex (mem : t ∈ lex source) (mem' : u ∈ lex source)
    (le : t.stop.index ≤ u.start.index) : t.stop.line ≤ u.start.line :=
  (faithful_stop_of_mem_lex mem).line_le (faithful_start_of_mem_lex mem') le

/-- No token stops on a line above the one where it starts. -/
theorem line_start_le_stop_of_mem_lex (mem : t ∈ lex source) : t.start.line ≤ t.stop.line := by
  obtain ⟨before, text, covers⟩ := covers_of_mem_lex mem
  rw [covers.stop, Pos.pastAll_append, ← covers.start, Pos.line_pastAll]
  omega

/-- A comment stops before the next token starts, but for the end of the text. -/
theorem stop_lt_start_of_comment (mem : t ∈ lex source) (mem' : u ∈ lex source)
    (kind : t.kind = .comment) (other : u.kind ≠ .eof) (le : t.stop.index ≤ u.start.index) :
    t.stop.index < u.start.index ∧ t.stop.line < u.start.line := by
  -- `u` starts with a character, so the comment does not end the text
  obtain ⟨c, here, blank⟩ := exists_char_of_mem_lex mem' other
  obtain ⟨inside, -⟩ := List.getElem?_eq_some_iff.mp here
  have newline : source.toList[t.stop.index]? = some '\n' := by
    have some := List.getElem?_eq_getElem (le.trans_lt inside)
    rw [some, newline_of_comment mem kind _ some]
  have ne : t.stop.index ≠ u.start.index := by
    intro same
    rw [same, here] at newline
    obtain rfl := Option.some.inj newline
    exact absurd blank (by decide)
  have lt : t.stop.index < u.start.index := by omega
  exact ⟨lt, (faithful_stop_of_mem_lex mem).line_lt (faithful_start_of_mem_lex mem') newline lt⟩

/-- **The tokens of a text are lined.** -/
theorem lined_lex (source : String) : Lined (lex source) := by
  obtain ⟨ts, last, eq, others, terminal⟩ := lex_eq source
  have ends : (lex source).Pairwise fun t u => t.kind.isTerminal → u.kind.isTerminal := by
    have inner : ∀ t ∈ ts, ∀ u : Token, t.kind.isTerminal → u.kind.isTerminal :=
      fun t mem u isEnd => by simp [others t mem] at isEnd
    rw [eq]
    refine List.pairwise_append.mpr ⟨?_, List.pairwise_singleton _ _, fun t mem u _ => inner t mem u⟩
    exact List.pairwise_of_forall_mem_list fun t mem u _ => inner t mem u
  refine ((pairwise_stop_lex source).and ends).imp_of_mem fun {t u} mem mem' ⟨le, ends⟩ => ?_
  have within := line_start_le_stop_of_mem_lex mem
  exact ⟨within.trans (line_stop_le_of_mem_lex mem mem' le), fun kind other =>
    within.trans_lt (stop_lt_start_of_comment mem mem' kind other le).2, ends⟩

/-- What is taken from the row of a text are its tokens, with the last one as often as it is taken
again. -/
theorem Row.prefix_of_ending {last : Token} {s : Row} (terminal : last.kind.isTerminal)
    (row : behind ts (ending last) = behind us s) :
    ∃ n, us <+: ts ++ List.replicate n last ∧ (n ≠ 0 → last.kind = .eof) := by
  induction us generalizing ts with
  | nil => exact ⟨0, List.nil_prefix, fun some => absurd rfl some⟩
  | cons u us ih =>
    cases ts with
    | cons t ts =>
      obtain ⟨rfl, rest⟩ := cons_inj.mp row
      obtain ⟨n, first, again⟩ := ih rest
      exact ⟨n, List.cons_prefix_cons.mpr ⟨rfl, first⟩, again⟩
    | nil =>
      obtain ⟨isEnd, rfl, rest⟩ := ending_eq_cons terminal row
      obtain ⟨n, first, -⟩ := ih (show behind [] (ending u) = behind us s from rest.symm)
      exact ⟨n + 1, List.cons_prefix_cons.mpr ⟨rfl, first⟩, fun _ => isEnd⟩

/-- What holds of the tokens of a text in their order, and of its end and the end once more, holds of
those that a reader takes. -/
theorem pairwise_of_row {R : Token → Token → Prop} {s : Row}
    (row : Row.ofTokens (lex source) = Row.behind us s) (h : (lex source).Pairwise R)
    (again : ∀ t ∈ lex source, t.kind = .eof → R t t) : us.Pairwise R := by
  obtain ⟨ts, last, eq, others, terminal⟩ := lex_eq source
  have mem : last ∈ lex source := by rw [eq]; simp
  rw [eq] at h row
  rw [Row.ofTokens_eq others terminal] at row
  obtain ⟨n, first, ends⟩ := Row.prefix_of_ending terminal row
  obtain ⟨inner, -, outer⟩ := List.pairwise_append.mp h
  have whole : (ts ++ List.replicate n last).Pairwise R := by
    refine List.pairwise_append.mpr ⟨inner, List.pairwise_replicate.mpr ?_, ?_⟩
    · by_cases none : n = 0
      · exact .inl (by omega)
      · exact .inr (again last mem (ends none))
    · intro t mem u mem'
      rw [(List.mem_replicate.mp mem').2]
      exact outer t mem last (List.mem_singleton_self last)
  exact whole.sublist first.sublist

/-- The tokens that a reader takes from a text are lined. -/
theorem lined_of_row {s : Row} (row : Row.ofTokens (lex source) = Row.behind us s) :
    Lined us :=
  pairwise_of_row row (lined_lex source) fun _ _ isEnd =>
    ⟨le_refl _, fun kind => by simp [isEnd] at kind, id⟩

/-- The tokens `ws`, and all that are taken behind them from the row `r`, are lined. -/
def Row.LinedBehind (ws : List Token) (r : Row) : Prop :=
  ∀ us s, r = behind us s → Lined (ws ++ us)

/-- The tokens of a text are lined. -/
theorem Row.linedBehind_lex (source : String) : LinedBehind [] (ofTokens (lex source)) :=
  fun _ _ row => lined_of_row row

namespace Row.LinedBehind

variable {ws : List Token} {r s : Row}

/-- Further down the tokens are lined behind those that were taken. -/
theorem rest (h : LinedBehind ws r) (row : r = behind us s) : LinedBehind (ws ++ us) s := by
  intro vs q row'
  rw [List.append_assoc]
  exact h (us ++ vs) q (by rw [row, row', behind_append])

/-- The tokens that were taken are lined. -/
theorem lined (h : LinedBehind ws r) : Lined ws := by
  simpa using h [] r rfl

end Row.LinedBehind

end QualityRules
