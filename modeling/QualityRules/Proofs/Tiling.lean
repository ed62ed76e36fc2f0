import Mathlib.Data.List.Chain
import QualityRules.Proofs.Spelling

/-!
# Proofs — Tiling

The tokens of a text lie in it one behind the other, with nothing but blanks between.

* `gaps`: the stretches of a text that no token covers; `woven`: gaps and tokens in turn.
* `Token.Covers.slice`: a token covers what the text holds between its two places.
* `lex_tiles`: tokens and gaps make up the text.
-/

namespace QualityRules

open Token (slice)

/-- The stretches of `source` from the index `first` on that are not covered by the tokens, each
before one of them. -/
def gaps (source : String) (first : Nat) : List Token → List String
  | [] => []
  | t :: ts => slice source first t.start.index :: gaps source t.stop.index ts

/-- The texts of the tokens, each with the gap before it, from the index `first` on. -/
def woven (source : String) (first : Nat) : List Token → String
  | [] => ""
  | t :: ts => slice source first t.start.index ++ t.text ++ woven source t.stop.index ts

/-- The tokens `ts` lie in a text one behind the other, up to a last one. -/
structure Tiles (source : String) (ts : List Token) : Prop where
  /-- The last token, and only that, is the end of the text or a fault. -/
  ends : ∃ us last, ts = us ++ [last] ∧ (∀ t ∈ us, t.kind.isTerminal = false) ∧ last.kind.isTerminal
  /-- Every other token has for its text the characters between its two places, at least one. -/
  texts : ∀ t ∈ ts, t.kind.isTerminal = false →
    t.text ≠ "" ∧ t.text = slice source t.start.index t.stop.index ∧ t.covered source = t.text
  /-- No token starts before the one before it stops. -/
  apart : ts.IsChain fun t u => t.stop.index ≤ u.start.index
  /-- There are only blanks before the first token and between two of them. -/
  blank : ∀ gap ∈ gaps source 0 ts, ∀ c ∈ gap.toList, c = ' ' ∨ c = '\t' ∨ c = '\n'
  /-- The end of the text is where the text ends, and then all of the text is there. -/
  whole : ∀ t ∈ ts, t.kind = .eof →
    t.start.index = source.length ∧ t.stop.index = source.length ∧ woven source 0 ts = source

/-! ### Slices -/

variable {source : String} {before text : List Char} {t : Token}

/-- The characters behind the first ones. -/
theorem Token.slice_eq (h : before ++ text <+: source.toList) :
    slice source before.length (before.length + text.length) = String.ofList text := by
  obtain ⟨rest, eq⟩ := h
  rw [slice, ← eq, List.append_assoc, List.drop_left, Nat.add_sub_cancel_left, List.take_left]

/-- Slices that follow each other make up one. -/
theorem Token.slice_append {i j k : Nat} (h : i ≤ j) (h' : j ≤ k) :
    slice source i j ++ slice source j k = slice source i k := by
  obtain ⟨m, rfl⟩ := Nat.exists_eq_add_of_le h
  obtain ⟨n, rfl⟩ := Nat.exists_eq_add_of_le h'
  have width : i + m + n - i = m + n := by omega
  simp only [slice, width, Nat.add_sub_cancel_left, ← String.ofList_append, ← List.drop_drop,
    List.take_add]

namespace Token.Covers

theorem index_start (h : t.Covers source.toList before text) : t.start.index = before.length := by
  simp [h.start, Pos.origin]

theorem index_stop (h : t.Covers source.toList before text) :
    t.stop.index = before.length + text.length := by
  simp [h.stop, Pos.origin]

/-- A token covers what the text holds between its two places. -/
theorem slice (h : t.Covers source.toList before text) :
    slice source t.start.index t.stop.index = String.ofList text := by
  rw [h.index_start, h.index_stop, slice_eq h.inside]

end Token.Covers

/-- A token but the last one has for its text what it covers. -/
theorem slice_of_mem_lex (h : t ∈ lex source) (other : t.kind.isTerminal = false) :
    slice source t.start.index t.stop.index = t.text := by
  obtain ⟨before, text, covers⟩ := covers_of_mem_lex h
  rw [covers.slice, (covers.spells other).1]

/-- A token but the last one stops so many characters behind its start as its text has. -/
theorem index_stop_of_mem_lex (h : t ∈ lex source) (other : t.kind.isTerminal = false) :
    t.stop.index = t.start.index + t.text.length := by
  obtain ⟨before, text, covers⟩ := covers_of_mem_lex h
  rw [covers.index_start, covers.index_stop, (covers.spells other).1, String.length_ofList]

theorem start_le_stop_of_mem_lex (h : t ∈ lex source) : t.start.index ≤ t.stop.index := by
  obtain ⟨before, text, covers⟩ := covers_of_mem_lex h
  rw [covers.index_start, covers.index_stop]
  omega

theorem start_lt_stop_of_mem_lex (h : t ∈ lex source) (other : t.kind.isTerminal = false) :
    t.start.index < t.stop.index := by
  obtain ⟨before, text, covers⟩ := covers_of_mem_lex h
  have some := List.length_pos_iff.mpr (covers.spells other).2.ne_nil
  rw [covers.index_start, covers.index_stop]
  omega

/-! ### Gaps -/

/-- The last token of a text is its end, if it is no fault. -/
theorem Kind.eq_eof {k : Kind} (last : k.isTerminal) (sound : k ≠ .illegal) : k = .eof := by
  cases k <;> first | rfl | contradiction

namespace Scanner

open Lexeme (isBlank)

variable {s : Scanner}

/-- A scanner goes on where the token stops. -/
theorem stop_scan (s : Scanner) : s.scan.1.stop = s.scan.2.here := by
  unfold scan
  dsimp only
  split <;> rfl

/-- The end of the text covers nothing, and nothing is left behind it. -/
theorem scan_eof (h : s.scan.1.kind = .eof) :
    s.scan.1.start = s.scan.1.stop ∧ s.scan.1.text = "" ∧ s.scan.2.rest = [] := by
  unfold scan at h ⊢
  dsimp only at h ⊢
  split at h
  · next kind text rest e =>
    have spells := Lexeme.spells_of_read e
    rw [show kind = .eof from h] at spells
    exact spells.elim
  · cases h
  · exact ⟨rfl, rfl, rfl⟩

/-- The gap before the next token is made of the blanks that stand there. -/
theorem Behind.gap (h : s.Behind source.toList before) :
    slice source before.length s.scan.1.start.index
      = String.ofList (s.rest.takeWhile isBlank) := by
  obtain ⟨text, covers, -⟩ := h.scan
  rw [covers.index_start, List.length_append]
  exact Token.slice_eq ((List.prefix_append _ _).trans covers.inside)

theorem Behind.gaps_blank (h : s.Behind source.toList before) :
    ∀ gap ∈ gaps source before.length s.tokens, ∀ c ∈ gap.toList, isBlank c := by
  induction s using induct generalizing before with
  | finished s f =>
    rw [tokens_of_finished f]
    exact List.forall_mem_nil _
  | scan s f ih =>
    obtain ⟨text, covers, behind⟩ := h.scan
    rw [tokens_of_not_finished f, gaps, h.gap, covers.index_stop, ← List.length_append]
    refine List.forall_mem_cons.mpr ⟨?_, ih behind⟩
    rw [String.toList_ofList]
    exact List.all_eq_true.mp List.all_takeWhile

/-- Where no fault comes, gaps and tokens are all that is left of the text. -/
theorem Behind.woven_eq (h : s.Behind source.toList before) (running : s.finished = false)
    (sound : ∀ t ∈ s.tokens, t.kind ≠ .illegal) :
    woven source before.length s.tokens = String.ofList s.rest := by
  induction s using induct generalizing before with
  | finished s f => exact nomatch running.symm.trans f
  | scan s f ih =>
    obtain ⟨text, covers, behind⟩ := h.scan
    have split : s.rest = s.rest.takeWhile isBlank ++ text ++ s.scan.2.rest := by
      have whole := h.1.symm.trans behind.1
      simpa only [List.append_assoc, List.append_cancel_left_eq] using whole
    rw [tokens_of_not_finished f] at sound ⊢
    obtain ⟨first, others⟩ := List.forall_mem_cons.mp sound
    rw [woven, h.gap, covers.index_stop, ← List.length_append]
    conv_rhs => rw [split, String.ofList_append, String.ofList_append]
    cases isLast : s.scan.1.kind.isTerminal with
    | true =>
      obtain ⟨same, none, left⟩ := scan_eof (Kind.eq_eof isLast first)
      have index := congrArg Pos.index same
      rw [covers.index_start, covers.index_stop] at index
      obtain rfl : text = [] := List.eq_nil_of_length_eq_zero (by omega)
      rw [tokens_of_finished (s.finished_scan.trans isLast), none, left]
      rfl
    | false =>
      rw [(covers.spells isLast).1, ih behind (s.finished_scan.trans isLast) others]

/-- Each token starts where those before it stop or behind that. -/
theorem pairwise_apart (s : Scanner) :
    s.tokens.Pairwise fun t u => t.stop.index ≤ u.start.index := by
  induction s using induct with
  | finished s f =>
    rw [tokens_of_finished f]
    exact .nil
  | scan s f ih =>
    rw [tokens_of_not_finished f, List.pairwise_cons]
    refine ⟨fun u mem => ?_, ih⟩
    rw [s.stop_scan]
    exact s.scan.2.le_index_start u mem

/-- The end of the text is where the text ends. -/
theorem Behind.index_eof (h : s.Behind source.toList before) :
    ∀ t ∈ s.tokens, t.kind = .eof →
      t.start.index = source.length ∧ t.stop.index = source.length := by
  induction s using induct generalizing before with
  | finished s f =>
    rw [tokens_of_finished f]
    exact List.forall_mem_nil _
  | scan s f ih =>
    obtain ⟨text, covers, behind⟩ := h.scan
    rw [tokens_of_not_finished f]
    refine List.forall_mem_cons.mpr ⟨fun isEnd => ?_, ih behind⟩
    obtain ⟨same, -, left⟩ := scan_eof isEnd
    have stop : s.scan.1.stop.index = source.length := by
      rw [covers.index_stop, ← List.length_append, ← String.length_toList, behind.1, left,
        List.append_nil]
    exact ⟨by rw [same, stop], stop⟩

end Scanner

/-! ### The tokens of a text -/

/-- Each token of a text starts where those before it stop or behind that. -/
theorem pairwise_stop_lex (source : String) :
    (lex source).Pairwise fun t u => t.stop.index ≤ u.start.index :=
  Scanner.pairwise_apart _

/-- The end of a text is where the text ends. -/
theorem index_of_eof (h : t ∈ lex source) (isEnd : t.kind = .eof) :
    t.start.index = source.length ∧ t.stop.index = source.length :=
  have start : (Scanner.start source).Behind source.toList [] := ⟨rfl, rfl⟩
  start.index_eof t h isEnd

/-- A text that has an end has no fault. -/
theorem ne_illegal_of_mem_lex (h : t ∈ lex source) (isEnd : t.kind = .eof) :
    ∀ u ∈ lex source, u.kind ≠ .illegal := by
  obtain ⟨ts, last, eq, others, -⟩ := lex_eq source
  have terminal : ∀ {v : Token}, v ∈ lex source → v.kind.isTerminal → v = last := by
    intro v mem isLast
    rw [eq] at mem
    rcases List.mem_append.mp mem with mem | mem
    · exact absurd isLast (by simp [others v mem])
    · exact List.mem_singleton.mp mem
  intro u mem isFault
  have first := terminal h (by rw [isEnd]; rfl)
  have second := terminal mem (by rw [isFault]; rfl)
  rw [first, ← second, isFault] at isEnd
  cases isEnd

/-- **The tokens of a text lie in it one behind the other**: the last one, and only that, is its end
or a fault, each other one has for its text what it covers, and the gaps are blank. -/
theorem lex_tiles (source : String) : Tiles source (lex source) where
  ends := lex_eq source
  texts := by
    intro t mem other
    have covered := slice_of_mem_lex mem other
    refine ⟨fun empty => ?_, covered.symm, ?_⟩
    · obtain ⟨before, text, covers⟩ := covers_of_mem_lex mem
      obtain ⟨eq, spells⟩ := covers.spells other
      refine spells.ne_nil ?_
      rw [← String.toList_ofList (l := text), ← eq, empty, String.toList_empty]
    · rw [Token.covered, other, covered]
      rfl
  apart := (pairwise_stop_lex source).isChain
  blank := by
    intro gap mem c inside
    have start : (Scanner.start source).Behind source.toList [] := ⟨rfl, rfl⟩
    have blank := start.gaps_blank gap mem c inside
    simpa [Lexeme.isBlank, or_assoc] using blank
  whole := by
    intro t mem isEnd
    have start : (Scanner.start source).Behind source.toList [] := ⟨rfl, rfl⟩
    obtain ⟨first, stop⟩ := start.index_eof t mem isEnd
    have all := start.woven_eq rfl (ne_illegal_of_mem_lex mem isEnd)
    exact ⟨first, stop, all.trans String.ofList_toList⟩

end QualityRules
