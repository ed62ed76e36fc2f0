import QualityRules.Proofs.FileLanguage
import QualityRules.Proofs.Spelling

/-!
# Proofs — Blanks

Comments and blanks alike stand between the other tokens.  Where each character of a comment gives
way to a blank, the other tokens stay: their kinds, their texts and their places.

* `Lexeme.read_alike`: a lexeme does not see more of what follows it than the next character, and a
  number sign there is as good as a blank.
* `Scanner.blankOut_rest`: what blanks in the place of comments do to the text before a scanner.
* `lex_blanked`: the tokens of a text without its comments are those that are no comments.
* `Source.result_blanked`: such a text is read as before, but for the comments.
-/

namespace QualityRules

/-! ### Lexemes -/

namespace Lexeme

/-- Two texts start with the same character, or with a number sign and a blank. -/
inductive Alike : List Char → List Char → Prop
  | nil : Alike [] []
  | same {c cs ds} : Alike (c :: cs) (c :: ds)
  | sign {cs ds} : Alike ('#' :: cs) (' ' :: ds)

theorem Alike.refl (cs : List Char) : Alike cs cs := by
  cases cs with
  | nil => exact .nil
  | cons c cs => exact .same

variable {text rest rest' : List Char} {k : Kind}

/-- No run starts where the first character is not of it. -/
theorem takeWhile_none {p : Char → Bool} (ends : ∀ c ∈ rest.head?, ¬p c) :
    rest.takeWhile p = [] ∧ rest.dropWhile p = rest := by
  cases rest with
  | nil => exact ⟨rfl, rfl⟩
  | cons c rest => simp [ends c rfl]

/-- A run of characters ends where the next one does not belong to it. -/
theorem takeWhile_run {p : Char → Bool} (all : ∀ c ∈ text, p c) (ends : ∀ c ∈ rest.head?, ¬p c) :
    (text ++ rest).takeWhile p = text ∧ (text ++ rest).dropWhile p = rest := by
  obtain ⟨none, left⟩ := takeWhile_none ends
  rw [List.takeWhile_append_of_pos all, List.dropWhile_append_of_pos all, none, left,
    List.append_nil]
  exact ⟨rfl, rfl⟩

/-- A run of characters that ends is found again. -/
theorem takeWhile_eq {p : Char → Bool} {run : List Char} {c : Char} (all : ∀ d ∈ run, p d)
    (stops : p c = false) (after : List Char) :
    (run ++ c :: after).takeWhile p = run ∧ (run ++ c :: after).dropWhile p = c :: after :=
  takeWhile_run all (by simpa using stops)

/-- A run that ends before a number sign ends before a blank as well. -/
theorem takeWhile_alike {p : Char → Bool} (h : (text ++ rest).takeWhile p = text)
    (alike : Alike rest rest') (blank : p ' ' = false) :
    (text ++ rest').takeWhile p = text ∧ (text ++ rest').dropWhile p = rest' := by
  have all : ∀ c ∈ text, p c := by
    rw [← h]
    exact List.all_eq_true.mp List.all_takeWhile
  rw [List.takeWhile_append_of_pos all, List.append_right_eq_self] at h
  refine takeWhile_run all fun c mem goes => ?_
  cases alike with
  | nil => cases mem
  | same =>
    cases mem
    simp [goes] at h
  | sign =>
    cases mem
    cases goes.symm.trans blank

/-- A word ends as well before what is alike. -/
theorem word_alike (h : word (text ++ rest) = .piece k text rest) (alike : Alike rest rest') :
    word (text ++ rest') = .piece k text rest' := by
  simp only [word] at h ⊢
  generalize split : (text ++ rest).takeWhile isLetter = run at h
  have letters : ∀ c ∈ run, isLetter c := split ▸ List.all_eq_true.mp List.all_takeWhile
  have whole := List.takeWhile_append_dropWhile (p := isLetter) (l := text ++ rest)
  rw [split] at whole
  split at h
  · next isNow =>
    -- the parentheses are part of the text, so the run of letters ends inside of it
    unfold now at h
    split at h
    · next after parens =>
      simp only [piece.injEq] at h
      obtain ⟨rfl, rfl, rfl⟩ := h
      obtain ⟨same, others⟩ := takeWhile_eq (p := isLetter) (c := '(') letters (by decide)
        (')' :: rest')
      have eq : run ++ ['(', ')'] ++ rest' = run ++ '(' :: ')' :: rest' := by simp
      rw [eq, same, others, isNow]
      rfl
    all_goals cases h
  · next other =>
    simp only [piece.injEq] at h
    obtain ⟨rfl, rfl, -⟩ := h
    obtain ⟨same, after⟩ := takeWhile_alike split alike (by decide)
    rw [same, after]
    split
    · next isNow => exact absurd isNow other
    · rfl

/-- A string ends as well before anything. -/
theorem string_alike {body : List Char} (h : string (body ++ rest) = .piece k ('"' :: body) rest) :
    string (body ++ rest') = .piece k ('"' :: body) rest' := by
  simp only [string] at h ⊢
  generalize split : (body ++ rest).takeWhile (· != '"') = run at h
  have others : ∀ c ∈ run, (c != '"') := split ▸ List.all_eq_true.mp List.all_takeWhile
  have ends := List.head?_dropWhile_not (· != '"') (body ++ rest)
  split at h
  · next mark after quote =>
    simp only [piece.injEq, List.cons_append, List.cons.injEq, true_and] at h
    obtain ⟨rfl, rfl, rfl⟩ := h
    rw [quote] at ends
    obtain rfl : mark = '"' := by simpa using ends
    obtain ⟨same, rest_eq⟩ := takeWhile_eq (p := (· != '"')) (c := '"') others (by decide) rest'
    rw [List.append_assoc, List.singleton_append, same, rest_eq]
    rfl
  · cases h

/-- The end of a number takes the digits and leaves the rest, unless something bad comes next. -/
theorem numberEnd_eq_piece {digits : List Char} {bad : Char → Bool} {after : List Char}
    (h : numberEnd digits bad after = .piece k text rest) :
    k = .number ∧ text = digits ∧ rest = after := by
  unfold numberEnd at h
  split at h
  · simp_all
  · split at h
    · cases h
    · simp_all

/-- The end of a number stays one before what is alike, for a blank is nothing bad. -/
theorem numberEnd_alike {digits : List Char} {bad : Char → Bool}
    (h : numberEnd digits bad rest = .piece k text rest) (alike : Alike rest rest')
    (blank : bad ' ' = false) : numberEnd digits bad rest' = .piece k text rest' := by
  cases alike with
  | nil => exact h
  | @same c cs ds =>
    simp only [numberEnd] at h ⊢
    split at h
    · cases h
    · next fine =>
      simp only [piece.injEq, and_true] at h
      simp [fine, h]
  | @sign cs ds =>
    simp only [numberEnd] at h ⊢
    split at h
    · cases h
    · simp only [piece.injEq, and_true] at h
      simp [blank, h]

/-- A number ends as well before what is alike. -/
theorem number_alike (h : number (text ++ rest) = .piece k text rest) (alike : Alike rest rest') :
    number (text ++ rest') = .piece k text rest' := by
  simp only [number] at h ⊢
  generalize split : (text ++ rest).takeWhile isDigit = whole at h
  have digits : ∀ c ∈ whole, isDigit c := split ▸ List.all_eq_true.mp List.all_takeWhile
  split at h
  · next after point =>
    obtain ⟨-, rfl, rfl⟩ := numberEnd_eq_piece h
    generalize fraction_eq : after.takeWhile isDigit = fraction at *
    have after_eq : fraction ++ after.dropWhile isDigit = after := by
      rw [← fraction_eq, List.takeWhile_append_dropWhile]
    obtain ⟨same, others⟩ := takeWhile_eq (p := isDigit) (c := '.') digits (by decide)
      (fraction ++ rest')
    obtain ⟨same', others'⟩ := takeWhile_alike (p := isDigit) (after_eq.symm ▸ fraction_eq) alike
      (by decide)
    rw [List.append_assoc, List.cons_append, same, others]
    simp only [same', others']
    exact numberEnd_alike h alike (by decide)
  · next other =>
    obtain ⟨-, rfl, rest_eq⟩ := numberEnd_eq_piece h
    obtain ⟨same, others⟩ := takeWhile_alike split alike (by decide)
    rw [same, others]
    rw [← rest_eq] at h other
    split
    · next after =>
      cases alike with
      | same => exact absurd rfl (other _)
    · exact numberEnd_alike h alike (by decide)

/-- A comparison ends as well before what is alike. -/
theorem comparison_alike {c : Char} {text : List Char}
    (h : comparison c (text ++ rest) = .piece k (c :: text) rest) (alike : Alike rest rest') :
    comparison c (text ++ rest') = .piece k (c :: text) rest' := by
  unfold comparison at h
  split at h
  · next after split =>
    simp only [piece.injEq, List.cons.injEq, true_and] at h
    obtain ⟨rfl, rfl, rfl⟩ := h
    rfl
  · next other =>
    simp only [piece.injEq, List.cons.injEq, true_and] at h
    obtain ⟨rfl, rfl, -⟩ := h
    cases alike with
    | nil => rfl
    | @same d cs ds =>
      unfold comparison
      split
      · next after split =>
        obtain ⟨rfl, -⟩ := List.cons.inj split
        exact absurd rfl (other cs)
      · rfl
    | sign => rfl

/-- A lexeme that is no comment does not see more than the next character behind it, and a number
sign there is as good as a blank. -/
theorem read_alike (h : read (text ++ rest) = .piece k text rest) (alike : Alike rest rest')
    (other : k ≠ .comment) : read (text ++ rest') = .piece k text rest' := by
  cases text with
  | nil => exact absurd rfl (spells_of_read h).ne_nil
  | cons c text =>
    simp only [List.cons_append, read, startingWith] at h ⊢
    by_cases letter : isLetter c
    · rw [if_pos letter] at h ⊢
      have h : word ((c :: text) ++ rest) = .piece k (c :: text) rest := h
      exact word_alike h alike
    rw [if_neg letter] at h ⊢
    by_cases quote : c = '"'
    · rw [if_pos quote] at h ⊢
      subst quote
      exact string_alike h
    rw [if_neg quote] at h ⊢
    by_cases digit : isDigit c
    · rw [if_pos digit] at h ⊢
      have h : number ((c :: text) ++ rest) = .piece k (c :: text) rest := h
      exact number_alike h alike
    rw [if_neg digit] at h ⊢
    by_cases sign : c = '#'
    · rw [if_pos sign, comment, piece.injEq] at h
      exact absurd h.1.symm other
    rw [if_neg sign] at h ⊢
    by_cases compares : c = '>' ∨ c = '<'
    · rw [if_pos compares] at h ⊢
      exact comparison_alike h alike
    rw [if_neg compares] at h ⊢
    cases symbol : Kind.ofSymbol c with
    | none =>
      rw [symbol] at h
      cases h
    | some kind =>
      simp only [symbol, piece.injEq, List.cons.injEq, true_and] at h
      obtain ⟨rfl, rfl, -⟩ := h
      rfl

end Lexeme

/-! ### Blanks in the place of comments -/

/-- The place of that index lies in a comment. -/
def inComment (ts : List Token) (i : Nat) : Bool :=
  ts.any fun t => t.kind = .comment && t.start.index ≤ i && i < t.stop.index

/-- The characters `cs`, which stand from index `i` on, with a blank for each that lies in a
comment. -/
def blankOut (ts : List Token) (i : Nat) (cs : List Char) : List Char :=
  cs.mapIdx fun j c => if inComment ts (i + j) then ' ' else c

/-- A text with a blank in the place of each character of a comment. -/
def blanked (source : String) : String := String.ofList (blankOut (lex source) 0 source.toList)

variable {ts : List Token} {i : Nat} {cs ds : List Char}

/-- Two texts one behind the other are blanked each at its place. -/
theorem blankOut_append :
    blankOut ts i (cs ++ ds) = blankOut ts i cs ++ blankOut ts (i + cs.length) ds := by
  simp only [blankOut, List.mapIdx_append, Nat.add_assoc, Nat.add_comm cs.length]

/-- Where no comment is, nothing is blanked. -/
theorem blankOut_eq_self (h : ∀ j, i ≤ j → j < i + cs.length → inComment ts j = false) :
    blankOut ts i cs = cs := by
  refine List.mapIdx_eq_iff.mpr fun j => ?_
  cases e : cs[j]? with
  | none => rfl
  | some c =>
    obtain ⟨lt, -⟩ := List.getElem?_eq_some_iff.mp e
    simp [h (i + j) (by omega) (by omega)]

/-- Where all is comment, all is blanked. -/
theorem blankOut_eq_replicate (h : ∀ j, i ≤ j → j < i + cs.length → inComment ts j) :
    blankOut ts i cs = List.replicate cs.length ' ' := by
  refine List.mapIdx_eq_iff.mpr fun j => ?_
  rw [List.getElem?_replicate]
  cases e : cs[j]? with
  | none => simp [List.getElem?_eq_none_iff.mp e]
  | some c =>
    obtain ⟨lt, -⟩ := List.getElem?_eq_some_iff.mp e
    simp [lt, h (i + j) (by omega) (by omega)]

/-- Blanks take the place of comments from the same index on alone. -/
theorem blankOut_congr {us : List Token} (h : ∀ j, i ≤ j → inComment ts j = inComment us j) :
    blankOut ts i cs = blankOut us i cs := by
  simp only [blankOut]
  refine List.mapIdx_eq_mapIdx_iff.mpr fun j _ => ?_
  rw [h (i + j) (by omega)]

namespace Scanner

open Lexeme (isBlank read)

variable {s : Scanner} {k : Kind} {text rest : List Char}

/-- Where a lexeme is next, a scan gives its token and stands behind it. -/
theorem scan_of_piece (h : read (s.rest.dropWhile isBlank) = .piece k text rest) :
    s.scan = (⟨k, String.ofList text, s.here.pastAll (s.rest.takeWhile isBlank),
        (s.here.pastAll (s.rest.takeWhile isBlank)).pastAll text⟩,
      ⟨rest, (s.here.pastAll (s.rest.takeWhile isBlank)).pastAll text, k.isTerminal⟩) := by
  simp only [scan, h]

/-- Blanks, the next lexeme, and what it leaves. -/
theorem rest_of_piece (h : read (s.rest.dropWhile isBlank) = .piece k text rest) :
    s.rest = s.rest.takeWhile isBlank ++ text ++ rest := by
  have covered := Lexeme.read_eq (s.rest.dropWhile isBlank)
  rw [h] at covered
  rw [List.append_assoc, show text ++ rest = _ from covered, List.takeWhile_append_dropWhile]

/-- A scan does not see blanks. -/
theorem tokens_blanks {blanks : List Char} (all : ∀ c ∈ blanks, isBlank c) (here : Pos) :
    (Scanner.mk (blanks ++ rest) here false).tokens
      = (Scanner.mk rest (here.pastAll blanks) false).tokens := by
  have same : (Scanner.mk (blanks ++ rest) here false).scan
      = (Scanner.mk rest (here.pastAll blanks) false).scan := by
    simp only [scan, List.takeWhile_append_of_pos all, List.dropWhile_append_of_pos all,
      Pos.pastAll_append]
  rw [tokens_of_not_finished (s := Scanner.mk (blanks ++ rest) here false) rfl,
    tokens_of_not_finished (s := Scanner.mk rest _ false) rfl, same]

/-- Behind a fault and at the end of the text no comment comes. -/
theorem inComment_of_terminal (running : s.finished = false) (last : s.scan.1.kind.isTerminal)
    (j : Nat) : inComment s.tokens j = false := by
  have other : s.scan.1.kind ≠ .comment := by
    intro e
    simp [e, Kind.isTerminal] at last
  rw [tokens_of_not_finished running, tokens_of_finished (s.finished_scan.trans last)]
  simp [inComment, other]

/-- What a scanner has before it when comments give way to blanks: the blanks before the next
lexeme, this lexeme, blanks if it is a comment, and what the next scanner has before it. -/
theorem blankOut_rest (running : s.finished = false)
    (h : read (s.rest.dropWhile isBlank) = .piece k text rest) :
    blankOut s.tokens s.here.index s.rest = s.rest.takeWhile isBlank
      ++ (if k = .comment then List.replicate text.length ' ' else text)
      ++ blankOut s.scan.2.tokens s.scan.2.here.index s.scan.2.rest := by
  have later := s.scan.2.le_index_start
  have whole := rest_of_piece h
  rw [tokens_of_not_finished running]
  rw [scan_of_piece h] at later ⊢
  generalize s.rest.takeWhile isBlank = blanks at *
  simp only [Pos.index_pastAll] at later ⊢
  -- the next token covers `text`, and all others come behind it
  have first : ∀ j, j < s.here.index + blanks.length + text.length →
      inComment (Token.mk k (String.ofList text) (s.here.pastAll blanks)
          ((s.here.pastAll blanks).pastAll text) ::
        (Scanner.mk rest ((s.here.pastAll blanks).pastAll text) k.isTerminal).tokens) j
      = (k = .comment && s.here.index + blanks.length ≤ j) := by
    intro j lt
    have others : inComment (Scanner.mk rest ((s.here.pastAll blanks).pastAll text)
        k.isTerminal).tokens j = false := by
      simp only [inComment, List.any_eq_false, Bool.and_eq_true, decide_eq_true_eq]
      intro t mem
      have := later t mem
      omega
    rw [inComment, List.any_cons, ← inComment, others]
    simp [lt]
  conv_lhs => rw [whole]
  rw [blankOut_append, blankOut_append, List.length_append]
  congr 1
  congr 1
  · refine blankOut_eq_self fun j _ lt => ?_
    rw [first j (by omega)]
    simp
    omega
  · split
    · next comment =>
      refine blankOut_eq_replicate fun j le lt => ?_
      rw [first j lt]
      simp [comment, le]
    · next other =>
      refine blankOut_eq_self fun j _ lt => ?_
      rw [first j lt]
      simp [other]
  · rw [← Nat.add_assoc]
    refine blankOut_congr fun j le => ?_
    rw [inComment, List.any_cons, ← inComment]
    simp
    omega

/-- Blanks in the place of comments change the next character at most from a number sign to a
blank. -/
theorem alike_blankOut (s : Scanner) :
    Lexeme.Alike s.rest (blankOut s.tokens s.here.index s.rest) := by
  -- where no comment comes next the text stays as it is
  have self : (∀ j, inComment s.tokens j = false) →
      Lexeme.Alike s.rest (blankOut s.tokens s.here.index s.rest) := by
    intro none
    rw [blankOut_eq_self fun j _ _ => none j]
    exact .refl _
  cases f : s.finished with
  | true => exact self (by simp [tokens_of_finished f, inComment])
  | false =>
    cases e : read (s.rest.dropWhile isBlank) with
    | piece k text rest =>
      rw [blankOut_rest f e]
      have whole := rest_of_piece e
      generalize s.rest.takeWhile isBlank = blanks at *
      rw [whole]
      cases blanks with
      | cons b bs => exact .same
      | nil =>
        have spells := Lexeme.spells_of_read e
        obtain ⟨c, cs, rfl⟩ := List.exists_cons_of_ne_nil spells.ne_nil
        split
        · next comment =>
          subst comment
          obtain ⟨body, -, eq⟩ := spells
          obtain ⟨rfl, -⟩ := List.cons.inj eq
          exact .sign
        · exact .same
    | fault fault text rest =>
      exact self (inComment_of_terminal f (by simp [scan, e, Kind.isTerminal]))
    | finish => exact self (inComment_of_terminal f (by simp [scan, e, Kind.isTerminal]))

/-- With blanks in the place of comments a scanner gives the same tokens, but for the comments. -/
theorem tokens_blankOut (running : s.finished = false) :
    (Scanner.mk (blankOut s.tokens s.here.index s.rest) s.here false).tokens = solid s.tokens := by
  generalize size : s.budget = n
  -- on what is left of the text; behind each lexeme the next scanner goes on alike
  induction n using Nat.strongRecOn generalizing s with
  | ind n ih =>
    have last : s.scan.1.kind.isTerminal →
        (Scanner.mk (blankOut s.tokens s.here.index s.rest) s.here false).tokens
          = solid s.tokens := by
      intro last
      have other : s.scan.1.kind ≠ .comment := by
        intro e
        simp [e, Kind.isTerminal] at last
      have same : Scanner.mk s.rest s.here false = s := by rw [← running]
      rw [blankOut_eq_self fun j _ _ => inComment_of_terminal running last j, same,
        tokens_of_not_finished running, tokens_of_finished (s.finished_scan.trans last),
        solid_cons other, solid_nil]
    cases e : read (s.rest.dropWhile isBlank) with
    | fault fault text rest => exact last (by simp [scan, e, Kind.isTerminal])
    | finish => exact last (by simp [scan, e, Kind.isTerminal])
    | piece k text rest =>
      have spells := Lexeme.spells_of_read e
      have running' : s.scan.2.finished = false := by
        rw [scan_of_piece e]
        exact spells.not_terminal
      have rest_ih := ih _ (size ▸ budget_scan_lt running) running' rfl
      have alike := s.scan.2.alike_blankOut
      have blanks : ∀ c ∈ s.rest.takeWhile isBlank, isBlank c :=
        List.all_eq_true.mp List.all_takeWhile
      rw [blankOut_rest running e, tokens_of_not_finished running]
      generalize blankOut s.scan.2.tokens s.scan.2.here.index s.scan.2.rest = after at *
      have scan := scan_of_piece e
      rw [scan] at rest_ih alike ⊢
      by_cases comment : k = .comment
      · -- a comment is on one line, so blanks lead as far as it does
        have one_line : s.here.pastAll (s.rest.takeWhile isBlank ++ List.replicate text.length ' ')
            = (s.here.pastAll (s.rest.takeWhile isBlank)).pastAll text := by
          have := spells.newline_not_mem (by simp [comment])
          rw [Pos.pastAll_append, Pos.pastAll_of_no_newline _ text this,
            Pos.pastAll_of_no_newline _ _ (by simp [List.mem_replicate]), List.length_replicate]
        have all : ∀ c ∈ s.rest.takeWhile isBlank ++ List.replicate text.length ' ', isBlank c := by
          intro c mem
          rcases List.mem_append.mp mem with mem | mem
          · exact blanks c mem
          · rw [List.eq_of_mem_replicate mem]
            rfl
        rw [if_pos comment, tokens_blanks all, one_line, solid_cons_comment comment]
        exact rest_ih
      · -- the lexeme is the same, as what comes behind it looks alike
        have covered := Lexeme.read_eq (s.rest.dropWhile isBlank)
        rw [e] at covered
        have covered : text ++ rest = s.rest.dropWhile isBlank := covered
        have starts := List.head?_dropWhile_not isBlank s.rest
        rw [← covered] at e starts
        have read' := Lexeme.read_alike e alike comment
        obtain ⟨c, cs, rfl⟩ := List.exists_cons_of_ne_nil spells.ne_nil
        obtain ⟨before, behind⟩ := Lexeme.takeWhile_eq blanks
          (show isBlank c = false by simpa using starts) (cs ++ after)
        rw [if_neg comment, List.append_assoc, List.cons_append,
          tokens_of_not_finished (s := Scanner.mk _ s.here false) rfl]
        rw [scan_of_piece (s := Scanner.mk _ s.here false) (by rw [behind]; exact read')]
        simp only [before]
        rw [solid_cons comment, spells.not_terminal, rest_ih, spells.not_terminal]

end Scanner

/-- The tokens of a text without its comments are those that are no comments. -/
theorem lex_blanked (source : String) : lex (blanked source) = solid (lex source) := by
  have same := Scanner.tokens_blankOut (s := Scanner.start source) rfl
  rw [lex, Scanner.start, blanked, String.toList_ofList]
  exact same

namespace Source

open Grammar

variable {options : Options} {filename source : String} {d : RuleDecl} {f : RuleFile}

/-- A rule is read from the blanked text without its comments. -/
theorem rule_blanked (h : (rule source options).result = .ok d) :
    (rule (blanked source) options).result = .ok d.bare := by
  have is := isText_solid_of_rule h
  rw [← lex_blanked] at is
  exact rule_of_isText is

/-- A file is read from the blanked text without its comments. -/
theorem file_blanked (h : (file filename source options).result = .ok f) :
    (file filename (blanked source) options).result = .ok f.bare := by
  have is := isFile_solid_of_file h
  rw [← lex_blanked] at is
  exact file_of_isFile is

/-- **Comments do not change what is read**: with a blank in the place of each of their characters a
text is read as before, but for the comments. -/
theorem result_blanked (filename source : String) (options : Options) :
    (∀ d, (rule source options).result = .ok d →
      (rule (blanked source) options).result = .ok d.bare) ∧
    ∀ f, (file filename source options).result = .ok f →
      (file filename (blanked source) options).result = .ok f.bare :=
  ⟨fun _ => rule_blanked, fun _ => file_blanked⟩

/-- A rule with comments before, inside and behind it. -/
def remarkedText : String := "# a\nA # b\n3 # c\n> 4 days # d\n"

/-- Rules with comments around them, and rulesets with some that go astray, are read so. -/
theorem result_blanked_remarkedText :
    (∃ d, (rule remarkedText Options.default).result = .ok d ∧
      (rule (blanked remarkedText) Options.default).result = .ok d.bare) ∧
    ∃ f, (file "f" datedText Options.default).result = .ok f ∧
      (file "f" (blanked datedText) Options.default).result = .ok f.bare := by
  obtain ⟨d, read, -⟩ : ∃ d, (rule remarkedText Options.default).result = .ok d ∧ True :=
    Outcome.exists_ok (by decide +kernel)
  obtain ⟨f, read', -⟩ : ∃ f, (file "f" datedText Options.default).result = .ok f ∧ True :=
    Outcome.exists_ok (by decide +kernel)
  exact ⟨⟨d, read, (result_blanked "f" remarkedText Options.default).1 d read⟩,
    f, read', (result_blanked "f" datedText Options.default).2 f read'⟩

end Source

end QualityRules
