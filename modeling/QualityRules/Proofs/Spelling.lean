import QualityRules.Proofs.Tokens

/-!
# Proofs — Spelling

The texts that a token of a kind can have, and where a token of a text stands.

* `Kind.Spells`: names, numbers, strings and comments have a form, all other kinds one text.
* `Lexeme.spells_of_read`: a lexeme has a text of its kind.
* `Token.Covers`: a token stands behind some characters of the text and covers those that follow;
  `covers_of_mem_lex` says that every token of a text does.
-/

namespace QualityRules

open Lexeme (isLetter isDigit)

/-- The texts of a kind.  The last token of a text has none. -/
def Kind.Spells (k : Kind) (cs : List Char) : Prop :=
  match k with
  | .illegal | .eof => False
  | .ident => cs ≠ [] ∧ (∀ c ∈ cs, isLetter c) ∧ ofWord (String.ofList cs) = .ident
  | .number => ∃ whole, whole ≠ [] ∧ (∀ c ∈ whole, isDigit c) ∧
      (cs = whole ∨ ∃ fraction, (∀ c ∈ fraction, isDigit c) ∧ cs = whole ++ '.' :: fraction)
  | .string => ∃ body, '"' ∉ body ∧ cs = '"' :: body ++ ['"']
  | .comment => ∃ body, '\n' ∉ body ∧ cs = '#' :: body
  | k => cs = k.display.toList

/-- A word is a name, or one of the keywords. -/
theorem Kind.ofWord_cases (word : String) : ofWord word = .ident ∨ (word, ofWord word) ∈ keywords := by
  rw [ofWord]
  cases found : keywords.lookup word with
  | none => exact .inl rfl
  | some k =>
    obtain ⟨_, _, split, -⟩ := List.lookup_eq_some_iff.mp found
    refine .inr ?_
    rw [split]
    simp

/-- A keyword is spelled like its kind; `now` lacks its parentheses. -/
theorem Kind.display_of_mem_keywords {word : String} {k : Kind} (h : (word, k) ∈ keywords) :
    k = .kwNow ∧ word = "now" ∨
      k ≠ .kwNow ∧ word = k.display ∧ ∀ cs, k.Spells cs ↔ cs = k.display.toList := by
  simp only [keywords, List.mem_cons, Prod.mk.injEq, List.not_mem_nil, or_false] at h
  rcases h with ⟨rfl, rfl⟩ | ⟨rfl, rfl⟩ | ⟨rfl, rfl⟩ | ⟨rfl, rfl⟩ | ⟨rfl, rfl⟩ | ⟨rfl, rfl⟩ |
    ⟨rfl, rfl⟩ | ⟨rfl, rfl⟩ | ⟨rfl, rfl⟩ | ⟨rfl, rfl⟩ | ⟨rfl, rfl⟩ | ⟨rfl, rfl⟩ | ⟨rfl, rfl⟩ <;>
    simp [Spells, display]

theorem Kind.spells_ofSymbol {c : Char} {k : Kind} (h : ofSymbol c = some k) : k.Spells [c] := by
  unfold ofSymbol at h
  split at h <;> cases h <;> rfl

namespace Lexeme

variable {cs text rest : List Char} {k : Kind}

theorem spells_of_now {run : List Char} (is : String.ofList run = "now")
    (h : now run cs = .piece k text rest) : k.Spells text := by
  unfold now at h
  split at h
  · cases h
    obtain rfl : run = "now".toList := by rw [← is, String.toList_ofList]
    rfl
  all_goals cases h

theorem spells_of_word {c : Char} (letter : isLetter c)
    (h : word (c :: cs) = .piece k text rest) : k.Spells text := by
  simp only [word] at h
  have run := Kind.ofWord_cases (String.ofList ((c :: cs).takeWhile isLetter))
  split at h
  · next isNow =>
    rw [isNow] at run
    obtain name | keyword := run
    · cases name
    · obtain ⟨-, is⟩ | ⟨ne, -⟩ := Kind.display_of_mem_keywords keyword
      · exact spells_of_now is h
      · exact absurd rfl ne
  · next other =>
    cases h
    obtain name | keyword := run
    · rw [name]
      exact ⟨takeWhile_cons_ne_nil letter cs, List.all_eq_true.mp List.all_takeWhile, name⟩
    · obtain ⟨isNow, -⟩ | ⟨-, is, spells⟩ := Kind.display_of_mem_keywords keyword
      · exact absurd isNow other
      · rw [spells, ← is, String.toList_ofList]

theorem spells_of_string (h : string cs = .piece k text rest) : k.Spells text := by
  simp only [string] at h
  split at h
  · next mark rest' split =>
    cases h
    -- what ends the body is what the body does not hold
    have ends := List.head?_dropWhile_not (· != '"') cs
    rw [split] at ends
    obtain rfl : mark = '"' := by simpa using ends
    exact ⟨_, fun mem => by simpa using List.all_eq_true.mp List.all_takeWhile _ mem, rfl⟩
  · cases h

theorem spells_of_numberEnd {digits : List Char} {bad : Char → Bool} (is : Kind.number.Spells digits)
    (h : numberEnd digits bad cs = .piece k text rest) : k.Spells text := by
  unfold numberEnd at h
  split at h
  · cases h
    exact is
  · split at h
    · cases h
    · cases h
      exact is

theorem spells_of_number {c : Char} (digit : isDigit c)
    (h : number (c :: cs) = .piece k text rest) : k.Spells text := by
  have some : (c :: cs).takeWhile isDigit ≠ [] := takeWhile_cons_ne_nil digit cs
  have digits : ∀ {ds : List Char}, ∀ d ∈ ds.takeWhile isDigit, isDigit d :=
    List.all_eq_true.mp List.all_takeWhile
  simp only [number] at h
  split at h
  · exact spells_of_numberEnd ⟨_, some, digits, .inr ⟨_, digits, rfl⟩⟩ h
  · exact spells_of_numberEnd ⟨_, some, digits, .inl rfl⟩ h

theorem spells_of_comparison {c : Char} (sign : c = '>' ∨ c = '<')
    (h : comparison c cs = .piece k text rest) : k.Spells text := by
  unfold comparison at h
  rcases sign with rfl | rfl <;> split at h <;> cases h <;> rfl

/-- A lexeme has a text of its kind. -/
theorem spells_of_read (h : read cs = .piece k text rest) : k.Spells text := by
  cases cs with
  | nil => cases h
  | cons c cs =>
    simp only [read, startingWith] at h
    split at h
    · next letter => exact spells_of_word letter h
    split at h
    · exact spells_of_string h
    split at h
    · next digit => exact spells_of_number digit h
    split at h
    · cases h
      exact ⟨_, fun mem => by simpa using List.all_eq_true.mp List.all_takeWhile _ mem, rfl⟩
    split at h
    · next sign => exact spells_of_comparison sign h
    split at h
    · next symbol =>
      cases h
      exact Kind.spells_ofSymbol symbol
    · cases h

end Lexeme

namespace Kind

variable {k : Kind} {cs : List Char}

/-- The last token of a text has no text of its own. -/
theorem Spells.not_terminal (h : k.Spells cs) : k.isTerminal = false := by
  cases k <;> first | rfl | exact h.elim

/-- No token but the last one has an empty text. -/
theorem Spells.ne_nil (h : k.Spells cs) : cs ≠ [] := by
  rintro rfl
  cases k <;> simp [Spells, display] at h

/-- Only a string can run over a line break. -/
theorem Spells.newline_not_mem (h : k.Spells cs) (other : k ≠ .string) : '\n' ∉ cs := by
  intro mem
  cases k with
  | string => exact other rfl
  | ident => exact absurd (h.2.1 _ mem) (by decide)
  | number =>
    obtain ⟨whole, -, digits, rfl | ⟨fraction, digits', rfl⟩⟩ := h
    · exact absurd (digits _ mem) (by decide)
    · rcases List.mem_append.mp mem with mem | mem
      · exact absurd (digits _ mem) (by decide)
      · obtain eq | mem := List.mem_cons.mp mem
        · exact absurd eq (by decide)
        · exact absurd (digits' _ mem) (by decide)
  | comment =>
    obtain ⟨body, none, rfl⟩ := h
    obtain eq | mem := List.mem_cons.mp mem
    · exact absurd eq (by decide)
    · exact none mem
  | illegal | eof => exact h
  | _ =>
    rw [h] at mem
    exact absurd mem (by decide)

end Kind

/-! ### Where a token stands -/

/-- In the text `source` the token `t` stands behind `before` and covers `text`. -/
structure Token.Covers (source : List Char) (t : Token) (before text : List Char) : Prop where
  inside : before ++ text <+: source
  start : t.start = Pos.origin.pastAll before
  stop : t.stop = Pos.origin.pastAll (before ++ text)
  spells : t.kind.isTerminal = false → t.text = String.ofList text ∧ t.kind.Spells text

namespace Scanner

/-- The scanner stands in `source` behind the characters `before`. -/
def Behind (source before : List Char) (s : Scanner) : Prop :=
  source = before ++ s.rest ∧ s.here = Pos.origin.pastAll before

variable {source before : List Char} {s : Scanner}

/-- A scanner takes blanks and what the token covers, and stands behind both. -/
theorem Behind.scan (h : s.Behind source before) : ∃ text,
    s.scan.1.Covers source (before ++ s.rest.takeWhile Lexeme.isBlank) text ∧
      s.scan.2.Behind source (before ++ s.rest.takeWhile Lexeme.isBlank ++ text) := by
  obtain ⟨whole, here⟩ := h
  have blanks := List.takeWhile_append_dropWhile (p := Lexeme.isBlank) (l := s.rest)
  have covered := Lexeme.read_eq (s.rest.dropWhile Lexeme.isBlank)
  -- whatever the lexeme is, it takes `taken` and leaves `left`
  have split : ∀ {taken left : List Char}, taken ++ left = s.rest.dropWhile Lexeme.isBlank →
      source = before ++ s.rest.takeWhile Lexeme.isBlank ++ taken ++ left := by
    intro taken left eq
    rw [whole, List.append_assoc _ taken, eq, List.append_assoc, blanks]
  unfold Scanner.scan
  dsimp only
  split
  · next kind text rest e =>
    rw [e] at covered
    have eq := split covered
    refine ⟨text, ⟨⟨rest, eq.symm⟩, ?_, ?_, fun _ => ⟨rfl, Lexeme.spells_of_read e⟩⟩, eq, ?_⟩
    all_goals simp only [here, Pos.pastAll_append]
  · next fault text rest e =>
    rw [e] at covered
    have eq := split covered
    refine ⟨text, ⟨⟨rest, eq.symm⟩, ?_, ?_, nofun⟩, eq, ?_⟩
    all_goals simp only [here, Pos.pastAll_append]
  · next e =>
    rw [e] at covered
    have eq : source = before ++ s.rest.takeWhile Lexeme.isBlank ++ [] ++ [] := split covered
    refine ⟨[], ⟨⟨[], eq.symm⟩, ?_, ?_, nofun⟩, eq, ?_⟩
    all_goals simp only [here, Pos.pastAll_append, Pos.pastAll_nil]

theorem Behind.covers (h : s.Behind source before) : ∀ t ∈ s.tokens,
    ∃ before' text, t.Covers source before' text := by
  induction s using induct generalizing before with
  | finished s f =>
    rw [tokens_of_finished f]
    exact List.forall_mem_nil _
  | scan s f ih =>
    intro t mem
    rw [tokens_of_not_finished f] at mem
    obtain ⟨text, covers, behind⟩ := h.scan
    rcases List.mem_cons.mp mem with rfl | mem
    · exact ⟨_, text, covers⟩
    · exact ih behind t mem

end Scanner

/-- Every token of a text stands in it. -/
theorem covers_of_mem_lex {source : String} {t : Token} (h : t ∈ lex source) :
    ∃ before text, t.Covers source.toList before text :=
  have start : (Scanner.start source).Behind source.toList [] := ⟨rfl, rfl⟩
  start.covers t h

end QualityRules
