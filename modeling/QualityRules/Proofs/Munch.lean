import Mathlib.Data.List.TakeWhile
import QualityRules.Proofs.Blanks

/-!
# Proofs — Munch

A scanner drops blanks and takes the longest lexeme that stands at the head of what is left.  Here
the lexemes are said as sets of texts, with no scanner in sight.

* `Longest`: the longest text of a set with which a text starts.
* `Munch`: the lexeme with which a text starts; `Balks`: the texts that start with none, and why.
* `Scans`: the tokens of a text, lexeme by lexeme up to its end or to a fault.
* `Lexeme.read_of_munch`, `Lexeme.read_of_balks`, `munch_or_balks`: what stands at the head of a
  text is its lexeme, or that it has none, and there is no third.
* `scans_iff`: the tokens of a text are those that `Scans` says, and no others.
-/

namespace QualityRules

open Lexeme (isBlank isLetter isDigit)

/-! ### Lexemes as sets of texts -/

/-- `text` is the longest text of the set `L` with which `text ++ rest` starts. -/
structure Longest (L : List Char → Prop) (text rest : List Char) : Prop where
  mem : L text
  most : ∀ other, L other → other <+: text ++ rest → other.length ≤ text.length

/-- Words are made of letters. -/
def IsWord (cs : List Char) : Prop := cs ≠ [] ∧ ∀ c ∈ cs, isLetter c

/-- The texts that stand for one kind and are no words. -/
def operators : List (List Char × Kind) :=
  [(['>', '='], .greaterEqual), (['>'], .greater), (['<', '='], .lessEqual), (['<'], .less),
    (['('], .leftParen), ([')'], .rightParen), (['['], .leftBracket), ([']'], .rightBracket),
    ([','], .comma), (['+'], .plus), (['-'], .minus), (['*'], .times), (['/'], .divide),
    (['='], .equal)]

def IsOperator (cs : List Char) : Prop := ∃ k, (cs, k) ∈ operators

/-- The text `text ++ rest` starts with the lexeme `text`, which is of kind `k`. -/
inductive Munch : Kind → List Char → List Char → Prop
  /-- The longest run of letters is a keyword or a name. -/
  | word {text rest} (longest : Longest IsWord text rest) (other : text ≠ "now".toList) :
      Munch (Kind.ofWord (String.ofList text)) text rest
  /-- The word `now` goes on with a pair of parentheses. -/
  | now {rest} : Munch .kwNow "now()".toList rest
  /-- The longest number ends where neither a letter nor another point follows. -/
  | number {text rest} (longest : Longest Kind.number.Spells text rest)
      (ends : ∀ c ∈ rest.head?, ¬(c = '.' ∨ isLetter c)) : Munch .number text rest
  /-- A string ends with the next double quote. -/
  | string {text rest} (quoted : Kind.string.Spells text) : Munch .string text rest
  /-- A comment goes on up to the end of the line. -/
  | comment {text rest} (longest : Longest Kind.comment.Spells text rest) :
      Munch .comment text rest
  | operator {k text rest} (entry : (text, k) ∈ operators)
      (longest : Longest IsOperator text rest) : Munch k text rest

/-- The text starts neither with a blank nor with a lexeme; `message` says why. -/
inductive Balks : List Char → String → Prop
  | now {rest} (longest : Longest IsWord "now".toList rest) (bare : ¬"()".toList <+: rest) :
      Balks ("now".toList ++ rest) "expected '()' after NOW"
  | number {text c rest} (longest : Longest Kind.number.Spells text (c :: rest))
      (bad : c = '.' ∨ isLetter c) : Balks (text ++ c :: rest) "invalid number"
  | string {body} (opened : '"' ∉ body) : Balks ('"' :: body) "unterminated string"
  | unrecognized {c rest} (blank : isBlank c = false) (letter : isLetter c = false)
      (digit : isDigit c = false) (mark : c ≠ '"' ∧ c ≠ '#') (other : ¬IsOperator [c]) :
      Balks (c :: rest) ("unrecognized character: " ++ LexemeFault.describe c)

/-- The kind of a token, its text and the index where it starts. -/
def Token.outline (t : Token) : Kind × String × Nat := (t.kind, t.text, t.start.index)

/-- The outlines of the tokens of `cs`, which stands behind `i` other characters. -/
inductive Scans : Nat → List Char → List (Kind × String × Nat) → Prop
  | blank {i c cs ts} (blank : c = ' ' ∨ c = '\t' ∨ c = '\n') (others : Scans (i + 1) cs ts) :
      Scans i (c :: cs) ts
  | take {i k text rest ts} (head : Munch k text rest) (others : Scans (i + text.length) rest ts) :
      Scans i (text ++ rest) ((k, String.ofList text, i) :: ts)
  | balk {i cs message} (head : Balks cs message) : Scans i cs [(.illegal, message, i)]
  | finish {i} : Scans i [] [(.eof, "", i)]

/-! ### Longest texts -/

variable {L : List Char → Prop} {text rest cs : List Char} {c : Char} {k : Kind}

/-- A longest text ends before a character that it could go on with. -/
theorem Longest.ends {p : Char → Prop} (h : Longest L text rest)
    (more : ∀ c, p c → L (text ++ [c])) : ∀ c ∈ rest.head?, ¬p c := by
  intro c mem goes
  obtain ⟨after, rfl⟩ := List.head?_eq_some_iff.mp mem
  have := h.most _ (more c goes) ⟨after, by simp⟩
  rw [List.length_append, List.length_singleton] at this
  omega

/-- A text that starts with one of a set starts with a longest one of it. -/
theorem exists_longest {first : List Char} (mem : L first) (head : first <+: cs) :
    ∃ text rest, cs = text ++ rest ∧ Longest L text rest := by
  generalize size : cs.length - first.length = n
  -- on what a longer one could still take
  induction n using Nat.strongRecOn generalizing first with
  | ind n ih =>
    by_cases longer : ∃ other, L other ∧ other <+: cs ∧ first.length < other.length
    · obtain ⟨other, mem, head, lt⟩ := longer
      have := head.length_le
      exact ih _ (by omega) mem head rfl
    · obtain ⟨rest, rfl⟩ := head
      refine ⟨first, rest, rfl, mem, fun other mem head => ?_⟩
      exact Nat.le_of_not_lt fun lt => longer ⟨other, mem, head, lt⟩

/-! ### What stands at the head of a text -/

namespace Lexeme

/-- No digit is a letter. -/
theorem isLetter_of_isDigit (h : isDigit c) : isLetter c = false := by
  simp only [isDigit, isLetter, Char.le_def, UInt32.le_iff_toNat_le] at h ⊢
  simp at h ⊢
  omega

/-- A digit is told from what is none. -/
theorem ne_of_isDigit {d : Char} (h : isDigit c) (other : isDigit d = false) : c ≠ d := by
  rintro rfl
  cases h.symm.trans other

/-- No lexeme starts with a blank. -/
theorem read_of_blank (h : isBlank c) (cs : List Char) :
    read (c :: cs) = .fault (.unrecognized c) [c] cs := by
  simp only [isBlank, Bool.or_eq_true, decide_eq_true_eq, or_assoc] at h
  rcases h with rfl | rfl | rfl <;> rfl

/-- Among the words only `now` is followed by parentheses. -/
theorem ofWord_ne_kwNow (h : text ≠ "now".toList) : Kind.ofWord (String.ofList text) ≠ .kwNow := by
  intro isNow
  obtain name | keyword := Kind.ofWord_cases (String.ofList text)
  · cases isNow.symm.trans name
  · rw [isNow] at keyword
    obtain ⟨-, is⟩ | ⟨ne, -⟩ := Kind.display_of_mem_keywords keyword
    · exact h (by rw [← is, String.toList_ofList])
    · exact ne rfl

/-- What is not among characters is told from each of them. -/
theorem bne_of_not_mem (h : c ∉ cs) : ∀ d ∈ cs, (d != c) :=
  fun _ mem => by simpa using ne_of_mem_of_not_mem mem h

/-- The longest word is the run of letters at the head of a text. -/
theorem read_of_longest_word (h : Longest IsWord text rest) :
    read (text ++ rest) = word (text ++ rest) ∧
      (text ++ rest).takeWhile isLetter = text ∧ (text ++ rest).dropWhile isLetter = rest := by
  obtain ⟨some, letters⟩ := h.mem
  refine ⟨?_, takeWhile_run letters (h.ends fun c letter => ⟨by simp, ?_⟩)⟩
  · cases text with
    | nil => exact absurd rfl some
    | cons c text => simp [read, startingWith, letters c (by simp)]
  · exact List.forall_mem_append.mpr ⟨letters, by simpa using letter⟩

/-- What starts with a digit is read as a number. -/
theorem read_of_digits (h : text ≠ []) (digits : ∀ c ∈ text, isDigit c) (rest : List Char) :
    read (text ++ rest) = number (text ++ rest) := by
  cases text with
  | nil => exact absurd rfl h
  | cons c text =>
    have digit : isDigit c := digits c (by simp)
    simp [read, startingWith, digit, isLetter_of_isDigit digit,
      ne_of_isDigit (d := '"') digit (by decide)]

/-- The longest number is the one at the head of a text, unless it is spoilt by what follows. -/
theorem read_of_longest_number (h : Longest Kind.number.Spells text rest) :
    read (text ++ rest) = numberEnd text (fun c => c = '.' || isLetter c) rest := by
  obtain ⟨whole, some, digits, rfl | ⟨fraction, digits', rfl⟩⟩ := h.mem
  · have ends : ∀ c ∈ rest.head?, ¬(isDigit c ∨ c = '.') := by
      refine h.ends fun c goes => ?_
      rcases goes with digit | rfl
      · exact ⟨text ++ [c], by simp, List.forall_mem_append.mpr ⟨digits, by simpa using digit⟩,
          .inl rfl⟩
      · exact ⟨text, some, digits, .inr ⟨[], by simp, rfl⟩⟩
    obtain ⟨run, after⟩ := takeWhile_run digits fun c mem digit => ends c mem (.inl digit)
    rw [read_of_digits some digits, number, run, after]
    split
    · exact absurd (.inr rfl) (ends '.' rfl)
    · cases rest with
      | nil => rfl
      | cons c rest =>
        have point : c ≠ '.' := fun is => ends c rfl (.inr is)
        simp [numberEnd, point]
  · have ends : ∀ c ∈ rest.head?, ¬isDigit c := by
      refine h.ends fun c digit => ⟨whole, some, digits, .inr ⟨fraction ++ [c], ?_, by simp⟩⟩
      exact List.forall_mem_append.mpr ⟨digits', by simpa using digit⟩
    obtain ⟨run, after⟩ := takeWhile_eq (c := '.') digits (by decide) (fraction ++ rest)
    obtain ⟨run', after'⟩ := takeWhile_run digits' ends
    rw [List.append_assoc, List.cons_append, read_of_digits some digits, number, run, after]
    simp only [run', after']

/-- A comparison without an equals sign behind it is one character. -/
theorem comparison_of_ends (h : ∀ d ∈ rest.head?, ¬d = '=') (c : Char) :
    comparison c rest = .piece (if c = '>' then .greater else .less) [c] rest := by
  unfold comparison
  split
  · exact absurd rfl (h '=' rfl)
  · rfl

/-- An operator is read where it is the longest one that fits. -/
theorem read_of_operator (entry : (text, k) ∈ operators) (longest : Longest IsOperator text rest) :
    read (text ++ rest) = .piece k text rest := by
  -- a sign that an equals sign may follow is followed by another character
  have ends : ∀ c, text = [c] → IsOperator [c, '='] → ∀ d ∈ rest.head?, ¬d = '=' := by
    rintro c rfl longer
    exact longest.ends fun d is => is ▸ longer
  simp only [operators, List.mem_cons, Prod.mk.injEq, List.not_mem_nil, or_false] at entry
  rcases entry with ⟨rfl, rfl⟩ | ⟨rfl, rfl⟩ | ⟨rfl, rfl⟩ | ⟨rfl, rfl⟩ | ⟨rfl, rfl⟩ | ⟨rfl, rfl⟩ |
    ⟨rfl, rfl⟩ | ⟨rfl, rfl⟩ | ⟨rfl, rfl⟩ | ⟨rfl, rfl⟩ | ⟨rfl, rfl⟩ | ⟨rfl, rfl⟩ | ⟨rfl, rfl⟩ |
    ⟨rfl, rfl⟩
  case inr.inl => exact comparison_of_ends (ends '>' rfl ⟨_, by simp [operators]; rfl⟩) '>'
  case inr.inr.inr.inl => exact comparison_of_ends (ends '<' rfl ⟨_, by simp [operators]; rfl⟩) '<'
  all_goals rfl

/-- A text starts with the lexeme that stands at its head. -/
theorem read_of_munch (h : Munch k text rest) : read (text ++ rest) = .piece k text rest := by
  cases h with
  | word longest other =>
    obtain ⟨head, run, after⟩ := read_of_longest_word longest
    rw [head, word, run, after]
    split
    · next isNow => exact absurd isNow (ofWord_ne_kwNow other)
    · rfl
  | now => rfl
  | number longest ends =>
    rw [read_of_longest_number longest]
    cases rest with
    | nil => rfl
    | cons c rest => simpa [numberEnd] using ends c rfl
  | string quoted =>
    obtain ⟨body, none, rfl⟩ := quoted
    obtain ⟨run, after⟩ := takeWhile_eq (c := '"') (bne_of_not_mem none) (by decide) rest
    show string (body ++ ['"'] ++ rest) = _
    rw [List.append_assoc, List.singleton_append, string, run, after]
  | comment longest =>
    obtain ⟨body, none, rfl⟩ := longest.mem
    have ends : ∀ c ∈ rest.head?, ¬(c != '\n') := by
      refine longest.ends fun c goes => ⟨body ++ [c], ?_, rfl⟩
      simp only [bne_iff_ne] at goes
      simp [none, goes.symm]
    obtain ⟨run, after⟩ := takeWhile_run (bne_of_not_mem none) ends
    show comment (body ++ rest) = _
    rw [comment, run, after]
  | operator entry longest => exact read_of_operator entry longest

/-- Every symbol is an operator. -/
theorem operator_of_symbol (h : Kind.ofSymbol c = some k) : ([c], k) ∈ operators := by
  unfold Kind.ofSymbol at h
  split at h <;> cases h <;> simp [operators]

/-- A text that starts with no lexeme is at fault. -/
theorem read_of_balks {message : String} (h : Balks cs message) :
    ∃ fault text rest, read cs = .fault fault text rest ∧ fault.message = message := by
  cases h with
  | @now rest longest bare =>
    obtain ⟨head, run, after⟩ := read_of_longest_word longest
    rw [head, word, run, after]
    show ∃ fault text rest', now "now".toList rest = _ ∧ _
    unfold now
    split
    · exact absurd ⟨_, rfl⟩ bare
    all_goals exact ⟨_, _, _, rfl, rfl⟩
  | @number text c rest longest bad =>
    refine ⟨.invalidNumber, text ++ [c], rest, ?_, rfl⟩
    rw [read_of_longest_number longest]
    exact if_pos (by simpa using bad)
  | @string body opened =>
    have all := bne_of_not_mem opened
    refine ⟨.unterminatedString, '"' :: body, [], ?_, rfl⟩
    show string body = _
    rw [string, List.takeWhile_eq_self_iff.mpr all, List.dropWhile_eq_nil_iff.mpr all]
  | @unrecognized c rest blank letter digit mark other =>
    refine ⟨.unrecognized c, [c], rest, ?_, rfl⟩
    have signs : ¬(c = '>' ∨ c = '<') := by
      rintro (rfl | rfl) <;> exact other ⟨_, by simp [operators]; rfl⟩
    have symbol : Kind.ofSymbol c = none :=
      Option.eq_none_iff_forall_ne_some.mpr fun k is => other ⟨k, operator_of_symbol is⟩
    simp [read, startingWith, letter, digit, mark, signs, symbol]

end Lexeme

/-- What is not blank starts with a lexeme, or it is said why not. -/
theorem munch_or_balks (blank : isBlank c = false) (cs : List Char) :
    (∃ k text rest, c :: cs = text ++ rest ∧ Munch k text rest) ∨
      ∃ message, Balks (c :: cs) message := by
  have head : [c] <+: c :: cs := ⟨cs, rfl⟩
  -- by the first character: a letter, a digit, a quote, a number sign, an operator or none
  by_cases letter : isLetter c
  · obtain ⟨text, rest, eq, longest⟩ :=
      exists_longest (L := IsWord) ⟨by simp, by simpa using letter⟩ head
    by_cases isNow : text = "now".toList
    · subst isNow
      by_cases parens : "()".toList <+: rest
      · obtain ⟨rest, rfl⟩ := parens
        exact .inl ⟨_, "now()".toList, rest, eq, .now⟩
      · exact .inr ⟨_, eq ▸ Balks.now longest parens⟩
    · exact .inl ⟨_, text, rest, eq, .word longest isNow⟩
  by_cases digit : isDigit c
  · obtain ⟨text, rest, eq, longest⟩ :=
      exists_longest (L := Kind.number.Spells) ⟨[c], by simp, by simpa using digit, .inl rfl⟩ head
    by_cases bad : ∃ d ∈ rest.head?, d = '.' ∨ isLetter d
    · obtain ⟨d, mem, bad⟩ := bad
      obtain ⟨after, rfl⟩ := List.head?_eq_some_iff.mp mem
      exact .inr ⟨_, eq ▸ Balks.number longest bad⟩
    · exact .inl ⟨_, text, rest, eq, .number longest fun d mem is => bad ⟨d, mem, is⟩⟩
  by_cases quote : c = '"'
  · subst quote
    by_cases closed : '"' ∈ cs
    · obtain ⟨body, rest, rfl, none⟩ := List.eq_append_cons_of_mem closed
      exact .inl ⟨_, '"' :: body ++ ['"'], rest, by simp, .string ⟨body, none, rfl⟩⟩
    · exact .inr ⟨_, .string closed⟩
  by_cases sign : c = '#'
  · obtain ⟨text, rest, eq, longest⟩ :=
      exists_longest (L := Kind.comment.Spells) ⟨[], by simp, by rw [sign]⟩ head
    exact .inl ⟨_, text, rest, eq, .comment longest⟩
  by_cases operator : IsOperator [c]
  · obtain ⟨text, rest, eq, longest⟩ := exists_longest operator head
    obtain ⟨k, entry⟩ := longest.mem
    exact .inl ⟨k, text, rest, eq, .operator entry longest⟩
  · exact .inr ⟨_, .unrecognized blank (by simpa using letter) (by simpa using digit)
      ⟨quote, sign⟩ operator⟩

/-! ### The tokens of a text -/

/-- What is munched is a text of its kind. -/
theorem Munch.spells (h : Munch k text rest) : k.Spells text :=
  Lexeme.spells_of_read (Lexeme.read_of_munch h)

/-- What is munched does not start with a blank. -/
theorem Munch.not_blank (h : Munch k text rest) : ∀ c ∈ (text ++ rest).head?, ¬isBlank c := by
  intro c mem blank
  obtain ⟨after, eq⟩ := List.head?_eq_some_iff.mp mem
  have read := Lexeme.read_of_munch h
  rw [eq, Lexeme.read_of_blank blank] at read
  cases read

/-- What balks does not start with a blank. -/
theorem Balks.not_blank {message : String} (h : Balks cs message) :
    ∀ c ∈ cs.head?, ¬isBlank c := by
  cases h with
  | now | string => simp [isBlank]
  | number longest bad =>
    intro c mem blank
    obtain ⟨after, eq⟩ := List.head?_eq_some_iff.mp mem
    have read := Lexeme.read_of_longest_number longest
    rw [eq, Lexeme.read_of_blank blank, Lexeme.numberEnd, if_pos (by simpa using bad)] at read
    cases read
  | unrecognized blank => simpa using blank

namespace Scanner

variable {here : Pos}

/-- A scanner that stands before no blank takes the lexeme that is next. -/
theorem tokens_of_munch (h : Munch k text rest) :
    (Scanner.mk (text ++ rest) here false).tokens
      = ⟨k, String.ofList text, here, here.pastAll text⟩ ::
        (Scanner.mk rest (here.pastAll text) false).tokens := by
  obtain ⟨none, all⟩ := Lexeme.takeWhile_none h.not_blank
  have read := Lexeme.read_of_munch h
  rw [← all] at read
  rw [tokens_of_not_finished rfl, scan_of_piece read, none, h.spells.not_terminal]
  rfl

/-- A scanner that stands before what balks gives a fault there and nothing more. -/
theorem tokens_of_balks {message : String} (h : Balks cs message) : ∃ stop,
    (Scanner.mk cs here false).tokens = [⟨.illegal, message, here, stop⟩] := by
  obtain ⟨none, all⟩ := Lexeme.takeWhile_none h.not_blank
  obtain ⟨fault, text, rest, read, rfl⟩ := Lexeme.read_of_balks h
  rw [← all] at read
  have scan : (Scanner.mk cs here false).scan.1
      = ⟨.illegal, fault.message, here, here.pastAll text⟩ ∧
        (Scanner.mk cs here false).scan.2.finished := by
    simp [Scanner.scan, read, none]
  rw [tokens_of_not_finished rfl, tokens_of_finished scan.2, scan.1]
  exact ⟨_, rfl⟩

end Scanner

namespace Scans

variable {i : Nat} {ts : List (Kind × String × Nat)}

/-- Every text has tokens. -/
theorem exists_of (i : Nat) (cs : List Char) : ∃ ts, Scans i cs ts := by
  generalize size : cs.length = n
  -- on what is left of the text
  induction n using Nat.strongRecOn generalizing i cs with
  | ind n ih =>
    cases cs with
    | nil => exact ⟨_, .finish⟩
    | cons c cs =>
      cases blank : isBlank c with
      | true =>
        obtain ⟨ts, others⟩ := ih cs.length (by simp [← size]) (i + 1) cs rfl
        exact ⟨ts, .blank (by simpa [isBlank, or_assoc] using blank) others⟩
      | false =>
        rcases munch_or_balks blank cs with ⟨k, text, rest, eq, head⟩ | ⟨message, head⟩
        · have some := List.length_pos_iff.mpr head.spells.ne_nil
          have less : rest.length < n := by
            rw [← size, eq, List.length_append]
            omega
          obtain ⟨ts, others⟩ := ih _ less (i + text.length) rest rfl
          exact ⟨_, eq ▸ Scans.take head others⟩
        · exact ⟨_, .balk head⟩

/-- A scanner gives no tokens but these. -/
theorem eq_outlines (h : Scans i cs ts) {here : Pos} (index : here.index = i) :
    ts = (Scanner.mk cs here false).tokens.map Token.outline := by
  induction h generalizing here with
  | @blank i c cs ts blank others ih =>
    have all : ∀ d ∈ [c], isBlank d := by simpa [isBlank, or_assoc] using blank
    rw [show c :: cs = [c] ++ cs from rfl, Scanner.tokens_blanks all]
    exact ih (by simp [index])
  | @take i k text rest ts head others ih =>
    have behind : (here.pastAll text).index = i + text.length := by simp [index]
    rw [Scanner.tokens_of_munch head, List.map_cons, ← ih behind, Token.outline, index]
  | @balk i cs message head =>
    obtain ⟨stop, eq⟩ : ∃ stop, (Scanner.mk cs here false).tokens = _ := Scanner.tokens_of_balks head
    rw [eq, ← index]
    rfl
  | @finish i =>
    rw [← index]
    rfl

end Scans

/-- **The tokens of a text are its longest lexemes**, one after the other with only blanks between,
up to its end or to the first place where no lexeme stands. -/
theorem scans_iff (source : String) (ts : List (Kind × String × Nat)) :
    Scans 0 source.toList ts ↔ ts = (lex source).map Token.outline := by
  constructor
  · exact fun scans => scans.eq_outlines rfl
  · rintro rfl
    obtain ⟨ts, scans⟩ := Scans.exists_of 0 source.toList
    have same : ts = (lex source).map Token.outline := scans.eq_outlines rfl
    exact same ▸ scans

example : (lex "nowA >=1.#\n2x").map Token.outline =
    [(.ident, "nowA", 0), (.greaterEqual, ">=", 5), (.number, "1.", 7), (.comment, "#", 9),
      (.illegal, "invalid number", 11)] := by rfl

end QualityRules
