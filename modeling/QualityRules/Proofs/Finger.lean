import QualityRules.Proofs.Spelling
import QualityRules.Token.Finger

/-!
# Proofs — Finger

What a finger reads, character by character, are the tokens of the text.

* `Finger.sweep_eq`: to sweep is to go as far as the characters allow and to move once more, so that
  whoever goes back then is behind them.
* `Turn.Reads`: what a turn comes to, as the lexeme that stands at the head of the text;
  `word_reads`, `string_reads`, `number_reads`, `comment_reads` and `first_reads` for each state.
* `Turn.Reads.scan`: a turn reads the next token of a scanner that stands at the same place.
* `Abreast.pull`: a finger pulls what such a scanner does, and stays abreast of it.
* `Finger.gives_iff`: a finger gives the tokens of the text and no others.
-/

namespace QualityRules

open Lexeme (isBlank isLetter isDigit)

namespace Finger

variable {source : String} {f g : Finger} {c : Char} {cs ds : List Char} {p : Char → Bool}
  {kind : Kind}

/-! ### What a finger reads -/

/-- The finger behind so many characters. -/
def moved (f : Finger) (cs : List Char) : Finger := { f with here := f.here.pastAll cs }

/-- Behind some characters a finger has the rest before it. -/
theorem rest_moved (h : f.rest = cs ++ ds) : (f.moved cs).rest = ds := by
  have drop : f.source.toList.drop (f.here.index + cs.length) = f.rest.drop cs.length := by
    rw [rest, List.drop_drop]
  rw [rest, moved, Pos.index_pastAll, drop, h, List.drop_left]

/-- The next character is taken where there is one. -/
theorem next_of_rest_cons (h : f.rest = c :: cs) :
    f.next = (some c, { f.moved [c] with before := f.here }) := by
  rw [next, h]
  rfl

/-- At the end of the text a finger stays. -/
theorem next_of_rest_nil (h : f.rest = []) : f.next = (none, { f with before := f.here }) := by
  rw [next, h]

/-- Where it stood before makes no difference to a move. -/
theorem next_before (f : Finger) (p : Pos) : Finger.next { f with before := p } = f.next := rfl

/-- Whoever goes back has moved nowhere. -/
theorem back_next (f : Finger) : f.next.2.back = { f with before := f.here } := by
  unfold next
  split <;> rfl

/-- To sweep is to go as far as the characters allow, and to move once more. -/
theorem sweep_eq (p : Char → Bool) (f : Finger) :
    f.sweep p = (f.moved (f.rest.takeWhile p)).next := by
  fun_induction Finger.sweep p f with
  | case1 f c g moves mem ih =>
    cases rest : f.rest with
    | nil => rw [next_of_rest_nil rest] at moves; cases moves
    | cons d cs =>
      rw [next_of_rest_cons rest] at moves
      cases moves
      have rest : Finger.rest { f.moved [c] with before := f.here } = cs := rest_moved rest
      rw [ih, rest, List.takeWhile_cons_of_pos mem]
      exact next_before (f.moved (c :: cs.takeWhile p)) _
  | case2 f c g moves stop =>
    cases rest : f.rest with
    | nil => rw [next_of_rest_nil rest] at moves; cases moves
    | cons d cs =>
      have moved := moves
      rw [next_of_rest_cons rest] at moved
      cases moved
      rw [List.takeWhile_cons_of_neg stop]
      exact moves.symm
  | case3 f g moves =>
    cases rest : f.rest with
    | cons d cs => rw [next_of_rest_cons rest] at moves; cases moves
    | nil => exact moves.symm

/-- From `f` on the finger read `text`, which starts a token, and stands at `g`. -/
structure HasRead (f : Finger) (text : List Char) (g : Finger) : Prop where
  source : g.source = f.source
  start : g.start = f.here
  here : g.here = f.here.pastAll text

variable {text : List Char} {fault : LexemeFault}

/-- Behind what it has read a finger has the rest before it. -/
theorem HasRead.rest (read : HasRead f text g) (h : f.rest = text ++ ds) : g.rest = ds := by
  have same : g.rest = (f.moved text).rest := by
    rw [Finger.rest, Finger.rest, moved, read.source, read.here]
  rw [same, rest_moved h]

/-- A finger that takes a character has read one more. -/
theorem HasRead.next_cons (read : HasRead f text g) (h : g.rest = c :: ds) :
    g.next = (some c, g.next.2) ∧ HasRead f (text ++ [c]) g.next.2 := by
  rw [next_of_rest_cons h]
  refine ⟨rfl, read.source, read.start, ?_⟩
  rw [Pos.pastAll_append, ← read.here]
  rfl

/-- A finger at the end of the text has read no more. -/
theorem HasRead.next_nil (read : HasRead f text g) (h : g.rest = []) :
    g.next = (none, g.next.2) ∧ HasRead f text g.next.2 := by
  rw [next_of_rest_nil h]
  exact ⟨rfl, read.source, read.start, read.here⟩

/-- A character that is given back was not read. -/
theorem HasRead.back_next (read : HasRead f text g) : HasRead f text g.next.2.back := by
  rw [Finger.back_next]
  exact ⟨read.source, read.start, read.here⟩

/-- A finger that moves on has read more. -/
theorem HasRead.moved (read : HasRead f text g) (cs : List Char) :
    HasRead f (text ++ cs) (g.moved cs) := by
  refine ⟨read.source, read.start, ?_⟩
  rw [Pos.pastAll_append, ← read.here]
  rfl

/-- What was read is what the text holds there. -/
theorem HasRead.slice (read : HasRead f text g) (h : f.rest = text ++ ds) :
    Token.slice g.source g.start.index g.here.index = String.ofList text := by
  have width : f.here.index + text.length - f.here.index = text.length := by omega
  rw [read.source, read.start, read.here, Pos.index_pastAll, Token.slice, width]
  rw [Finger.rest] at h
  rw [h, List.take_left]

/-- The turn `t` ends the reading of the lexeme `l` that stands where the finger stood at `f`. -/
def Turn.Reads (f : Finger) (t : Turn) : Lexeme → Prop
  | .piece kind text _ =>
    t.token = some ⟨kind, String.ofList text, f.here, f.here.pastAll text⟩ ∧
      t.state = some .outside ∧ t.finger.source = f.source ∧
      t.finger.here = f.here.pastAll text ∧ t.finger.start = t.finger.here
  | .fault fault text _ =>
    t.token = some ⟨.illegal, fault.message, f.here, f.here.pastAll text⟩ ∧ t.state = none
  | .finish => t.token = some ⟨.eof, "", f.here, f.here⟩ ∧ t.state = none

/-- What was read is given as a token. -/
theorem HasRead.emit (read : HasRead f text g) (h : f.rest = text ++ ds) (kind : Kind) :
    (g.emit kind).Reads f (.piece kind text ds) :=
  ⟨by rw [Finger.emit, token, read.slice h, read.start, read.here], rfl, read.source, read.here,
    rfl⟩

/-- What was read is given as a fault. -/
theorem HasRead.stop (read : HasRead f text g) (fault : LexemeFault) (ds : List Char) :
    (g.stop fault).Reads f (.fault fault text ds) :=
  ⟨by rw [Finger.stop, Finger.fault, read.start, read.here], rfl⟩

/-! ### One lemma for each state -/

/-- To sweep, and to go back once, is to read as far as the characters allow. -/
theorem HasRead.sweep_back (read : HasRead f text g) (p : Char → Bool) :
    HasRead f (text ++ g.rest.takeWhile p) (g.sweep p).2.back := by
  rw [sweep_eq]
  exact (read.moved _).back_next

/-- The parentheses of a `now` are read, or one of them is missing. -/
theorem parens_reads (read : HasRead f text g) (split : f.rest = text ++ ds) :
    g.parens.Reads f (Lexeme.now text ds) := by
  have left := read.rest split
  unfold Finger.parens
  dsimp only
  cases ds with
  | nil =>
    obtain ⟨first, read⟩ := read.next_nil left
    rw [first]
    exact read.stop .malformedNow []
  | cons c ds =>
    obtain ⟨first, read⟩ := read.next_cons left
    rw [first]
    by_cases opens : c = '('
    · subst opens
      have left : Finger.rest _ = ds := read.rest (by simpa using split)
      rw [if_neg (by simp)]
      cases ds with
      | nil =>
        obtain ⟨second, read⟩ := read.next_nil left
        rw [second]
        exact read.stop .malformedNow []
      | cons d ds =>
        obtain ⟨second, read⟩ := read.next_cons left
        rw [second]
        rw [List.append_assoc] at read
        by_cases closes : d = ')'
        · subst closes
          rw [if_neg (by simp)]
          exact read.emit (by simpa using split) .kwNow
        · rw [if_pos (by simpa using closes), Lexeme.now]
          · exact read.stop .malformedNow ds
          · rintro rfl; exact closes rfl
    · rw [if_pos (by simpa using opens), Lexeme.now]
      · exact read.stop .malformedNow ds
      · rintro _ rfl _; exact opens rfl
      · rintro _ _ rfl _; exact opens rfl

/-- A word is read up to its end. -/
theorem word_reads (fresh : HasRead f [] g) : g.word.Reads f (Lexeme.word f.rest) := by
  have read := fresh.sweep_back isLetter
  rw [List.nil_append, show g.rest = f.rest from fresh.rest rfl] at read
  have split := (List.takeWhile_append_dropWhile (p := isLetter) (l := f.rest)).symm
  unfold Finger.word Lexeme.word
  dsimp only
  rw [read.slice split]
  by_cases isNow : Kind.ofWord (String.ofList (f.rest.takeWhile isLetter)) = .kwNow
  · rw [if_pos isNow, isNow]
    exact parens_reads read split
  · rw [if_neg isNow]
    split
    · next same => exact absurd same isNow
    · exact read.emit split _

/-- A string is read up to the quote that closes it. -/
theorem string_reads (fresh : HasRead f [] f) (h : f.rest = '"' :: cs) :
    f.next.2.string.Reads f (Lexeme.string cs) := by
  obtain ⟨-, read⟩ := fresh.next_cons h
  have left := read.rest h
  have body := read.moved (cs.takeWhile (· != '"'))
  have split := (List.takeWhile_append_dropWhile (p := (· != '"')) (l := cs)).symm
  have behind := rest_moved (left.trans split)
  unfold Finger.string Lexeme.string
  dsimp only
  rw [sweep_eq, left]
  cases closes : cs.dropWhile (· != '"') with
  | nil =>
    obtain ⟨none, all⟩ := body.next_nil (behind.trans closes)
    rw [none]
    exact all.stop .unterminatedString []
  | cons mark rest =>
    obtain ⟨some, all⟩ := body.next_cons (behind.trans closes)
    rw [some]
    refine all.emit ?_ .string
    rw [closes] at split
    rw [h]
    simpa using split

/-- A comment is read up to the end of its line. -/
theorem comment_reads (fresh : HasRead f [] f) (h : f.rest = '#' :: cs) :
    f.next.2.comment.Reads f (Lexeme.comment cs) := by
  obtain ⟨-, read⟩ := fresh.next_cons h
  have left := read.rest h
  have all := read.sweep_back (· != '\n')
  rw [left] at all
  refine all.emit ?_ .comment
  rw [h, List.nil_append, List.singleton_append, List.cons_append, List.takeWhile_append_dropWhile]

/-- Digits make no difference to what ends a number. -/
theorem number_moved (point : Bool) {run : List Char} (digits : ∀ d ∈ run, isDigit d)
    (h : f.rest = run ++ ds) : f.number point = (f.moved run).number point := by
  have blind : ∀ (f : Finger) (p : Pos),
      Finger.number point { f with before := p } = f.number point := by
    intro f p
    rw [Finger.number, Finger.number, next_before]
  induction run generalizing f with
  | nil => rfl
  | cons d run ih =>
    obtain ⟨digit, digits⟩ := List.forall_mem_cons.mp digits
    have rest : Finger.rest { f.moved [d] with before := f.here } = run ++ ds := rest_moved h
    rw [Finger.number, next_of_rest_cons h]
    dsimp only
    rw [if_pos digit, ih digits rest]
    exact blind (f.moved (d :: run)) f.here

/-- A number ends before the first character that is no digit, unless that one must not follow. -/
theorem numberEnd_reads (read : HasRead f text g) (split : f.rest = text ++ ds) (point : Bool)
    (ends : ∀ c ∈ ds.head?, ¬ isDigit c ∧ (point = false → c ≠ '.')) :
    (g.number point).Reads f
      (Lexeme.numberEnd text (fun c => point && c = '.' || isLetter c) ds) := by
  have left := read.rest split
  rw [Finger.number]
  cases ds with
  | nil =>
    rw [next_of_rest_nil left]
    exact HasRead.emit ⟨read.source, read.start, read.here⟩ split .number
  | cons c ds =>
    obtain ⟨digit, dot⟩ := ends c rfl
    obtain ⟨next, all⟩ := read.next_cons left
    rw [next]
    dsimp only
    rw [if_neg digit, Lexeme.numberEnd]
    by_cases isDot : c = '.'
    · subst isDot
      obtain rfl : point = true := by
        by_contra none
        exact dot (Bool.not_eq_true _ ▸ none) rfl
      exact all.stop .invalidNumber ds
    · rw [if_neg isDot]
      by_cases letter : isLetter c
      · rw [if_pos letter, if_pos (by simp [letter])]
        exact all.stop .invalidNumber ds
      · rw [if_neg letter, if_neg (by simp [letter, isDot])]
        exact read.back_next.emit split .number

/-- A number is read up to its end. -/
theorem number_reads (fresh : HasRead f [] g) :
    (g.number false).Reads f (Lexeme.number f.rest) := by
  have digits : ∀ {ds : List Char}, ∀ d ∈ ds.takeWhile isDigit, isDigit d :=
    List.all_eq_true.mp List.all_takeWhile
  have ends : ∀ {ds : List Char}, ∀ c ∈ (ds.dropWhile isDigit).head?, ¬ isDigit c := by
    intro ds c mem
    have last := List.head?_dropWhile_not isDigit ds
    rw [show (ds.dropWhile isDigit).head? = some c from mem] at last
    simpa using last
  have whole := (List.takeWhile_append_dropWhile (p := isDigit) (l := f.rest)).symm
  have read := fresh.moved (f.rest.takeWhile isDigit)
  rw [List.nil_append] at read
  rw [number_moved false digits ((fresh.rest rfl).trans whole)]
  unfold Lexeme.number
  dsimp only
  split
  · next ds point =>
    rw [point] at whole
    obtain ⟨dot, read⟩ := read.next_cons (read.rest whole)
    have left : Finger.rest _ = ds := read.rest (by simpa using whole)
    have fraction := (List.takeWhile_append_dropWhile (p := isDigit) (l := ds)).symm
    rw [Finger.number, dot]
    dsimp only
    rw [if_neg (by decide), if_pos rfl, if_neg (by decide),
      number_moved true digits (left.trans fraction)]
    have all := read.moved (ds.takeWhile isDigit)
    rw [List.append_assoc] at all
    refine numberEnd_reads all (whole.trans ?_) true fun c mem => ⟨ends c mem, nofun⟩
    simp
  · next other =>
    have last := numberEnd_reads read whole false fun c mem => ⟨ends c mem, ?_⟩
    · simpa using last
    · rintro - rfl
      obtain ⟨ds, point⟩ := List.head?_eq_some_iff.mp mem
      exact other ds point

/-- A comparison is read with the equals sign behind it, if there is one. -/
theorem comparison_reads (fresh : HasRead f [] f) (h : f.rest = c :: cs) :
    Turn.Reads f (match f.next.2.accept '=' with
      | (true, g) => g.emit (if c = '>' then .greaterEqual else .lessEqual)
      | (false, g) => g.emit (if c = '>' then .greater else .less)) (Lexeme.comparison c cs) := by
  obtain ⟨-, read⟩ := fresh.next_cons h
  have left := read.rest h
  generalize f.next.2 = g at read left
  cases cs with
  | nil =>
    obtain ⟨none, -⟩ := read.next_nil left
    have accepts : g.accept '=' = (false, g.next.2.back) := by rw [accept, none]; rfl
    rw [accepts]
    exact read.back_next.emit h _
  | cons d ds =>
    obtain ⟨next, all⟩ := read.next_cons left
    by_cases equal : d = '='
    · subst equal
      have accepts : g.accept '=' = (true, g.next.2) := by rw [accept, next]; rfl
      rw [accepts]
      exact all.emit (by simpa using h) _
    · have accepts : g.accept '=' = (false, g.next.2.back) := by
        rw [accept, next]
        exact if_neg (by simpa using equal)
      rw [accepts, Lexeme.comparison]
      · exact read.back_next.emit h _
      · rintro _ eq
        exact equal (List.cons.inj eq).1

/-- The first character of a token says which lexeme it starts, which is read in this turn or in the
next one. -/
theorem first_reads (fresh : HasRead f [] f) (h : f.rest = c :: cs) :
    (f.next.2.first c).Reads f (Lexeme.startingWith c cs) ∨
      ∃ (state : State) (g : Finger), f.next.2.first c = g.enter state ∧
        (g.turn state).Reads f (Lexeme.startingWith c cs) := by
  unfold Finger.first Lexeme.startingWith
  rw [← h]
  split
  · exact .inr ⟨.word, _, rfl, word_reads fresh.back_next⟩
  split
  · next _ quote =>
    subst quote
    exact .inr ⟨.string, _, rfl, string_reads fresh h⟩
  split
  · exact .inr ⟨.number, _, rfl, number_reads fresh.back_next⟩
  split
  · next _ _ _ sign =>
    subst sign
    exact .inr ⟨.comment, _, rfl, comment_reads fresh h⟩
  split
  · exact .inl (comparison_reads fresh h)
  · obtain ⟨-, read⟩ := fresh.next_cons h
    left
    cases Kind.ofSymbol c with
    | some kind => exact read.emit h kind
    | none => exact read.stop (.unrecognized c) cs

/-! ### A finger gives the tokens of the text -/

/-- Blanks are dropped. -/
theorem outside_moved {run : List Char} (fresh : f.start = f.here) (blanks : ∀ b ∈ run, isBlank b)
    (h : f.rest = run ++ ds) : f.outside = (f.moved run).ignore.outside := by
  have blind : ∀ (f : Finger) (p : Pos), Finger.outside { f with before := p } = f.outside := by
    intro f p
    rw [Finger.outside, Finger.outside, next_before]
  induction run generalizing f with
  | nil =>
    have same : (f.moved []).ignore = f := by
      obtain ⟨source, here, before, start⟩ := f
      obtain rfl : start = here := fresh
      rfl
    rw [same]
  | cons b run ih =>
    obtain ⟨blank, blanks⟩ := List.forall_mem_cons.mp blanks
    have rest : Finger.rest (ignore { f.moved [b] with before := f.here }) = run ++ ds :=
      rest_moved h
    rw [Finger.outside, next_of_rest_cons h]
    dsimp only
    rw [if_pos blank, ih rfl blanks rest]
    exact blind (f.moved (b :: run)).ignore f.here

/-- A turn outside, or the turn behind it, ends the reading of the lexeme behind the blanks. -/
theorem outside_reads (fresh : f.start = f.here) :
    let g := (f.moved (f.rest.takeWhile isBlank)).ignore
    f.outside.Reads g (Lexeme.read (f.rest.dropWhile isBlank)) ∨
      ∃ (state : State) (k : Finger), f.outside = k.enter state ∧
        (k.turn state).Reads g (Lexeme.read (f.rest.dropWhile isBlank)) := by
  have split := (List.takeWhile_append_dropWhile (p := isBlank) (l := f.rest)).symm
  have left : (f.moved (f.rest.takeWhile isBlank)).ignore.rest = f.rest.dropWhile isBlank :=
    rest_moved split
  have ends := List.head?_dropWhile_not isBlank f.rest
  rw [outside_moved fresh (List.all_eq_true.mp List.all_takeWhile) split]
  have self : HasRead (f.moved (f.rest.takeWhile isBlank)).ignore [] _ := ⟨rfl, rfl, rfl⟩
  dsimp only
  generalize (f.moved (f.rest.takeWhile isBlank)).ignore = g at left self
  rw [Finger.outside]
  cases cs : f.rest.dropWhile isBlank with
  | nil =>
    rw [cs] at left
    rw [next_of_rest_nil left]
    -- nothing was read behind the blanks
    have ends : HasRead g [] { g with before := g.here } := ⟨self.source, self.start, self.here⟩
    exact .inl ⟨(ends.emit left .eof).1, rfl⟩
  | cons c ds =>
    rw [cs] at left ends
    obtain ⟨next, -⟩ := self.next_cons left
    rw [next]
    dsimp only
    rw [if_neg (by simpa using ends)]
    exact first_reads self left

/-- A finger goes on where a scanner does, or both gave their last token. -/
def Abreast (s : Scanner) (state : Option State) (f : Finger) : Prop :=
  s.finished = true ∧ state = none ∨
    s.finished = false ∧ state = some .outside ∧ f.start = f.here ∧ f.rest = s.rest ∧
      f.here = s.here

/-- At the start of a text a finger is where the scanner is. -/
theorem abreast_atStart (source : String) :
    Abreast (Scanner.start source) (some .outside) (atStart source) :=
  .inr ⟨rfl, rfl, rfl, List.drop_zero, rfl⟩

/-- What a turn reads is the next token of a scanner that stands at the same place, and the finger
goes on where the scanner does. -/
theorem Turn.Reads.scan {s : Scanner} {t : Turn} (reads : t.Reads g (Lexeme.read g.rest))
    (rest : g.rest = s.rest.dropWhile isBlank)
    (here : g.here = s.here.pastAll (s.rest.takeWhile isBlank)) :
    t.token = some s.scan.1 ∧ Abreast s.scan.2 t.state t.finger := by
  have whole := Lexeme.read_eq g.rest
  unfold Scanner.scan
  dsimp only
  rw [← here, ← rest]
  cases read : Lexeme.read g.rest with
  | piece kind text ds =>
    rw [read] at reads whole
    obtain ⟨token, state, source, stands, fresh⟩ := reads
    have goes : t.finger.rest = (g.moved text).rest := by
      rw [Finger.rest, Finger.rest, moved, source, stands]
    have goes := goes.trans (rest_moved (show g.rest = text ++ ds from whole.symm))
    exact ⟨token, .inr ⟨(Lexeme.spells_of_read read).not_terminal, state, fresh, goes, stands⟩⟩
  | fault fault text ds =>
    rw [read] at reads
    exact ⟨reads.1, .inl ⟨rfl, reads.2⟩⟩
  | finish =>
    rw [read] at reads
    exact ⟨reads.1, .inl ⟨rfl, reads.2⟩⟩

variable {state state' : Option State} {item : Option Token} {cancelled : Bool}

/-- A finger pulls what a scanner does that it is abreast of, and stays abreast of it. -/
theorem Abreast.pull {s : Scanner} (abreast : Abreast s state f) (cancelled : Bool) :
    ∃ state' g, Pull cancelled state f (s.pull cancelled).1 state' g ∧
      Abreast (s.pull cancelled).2 state' g := by
  obtain ⟨finished, rfl⟩ | ⟨going, rfl, fresh, rest, here⟩ := abreast
  · rw [Scanner.pull_of_finished finished]
    exact ⟨_, _, .ended f, .inl ⟨finished, rfl⟩⟩
  cases cancelled with
  | true =>
    have word : Scanner.canceled s.here = f.fault Reason.canceled.template.source := by
      rw [fault, fresh, here]
      rfl
    have out : s.pull true = (some (Scanner.canceled s.here), { s with finished := true }) := by
      simp [Scanner.pull, Scanner.cancel, going]
    rw [out, word]
    exact ⟨_, _, .stopped rfl .outside f, .inl ⟨rfl, rfl⟩⟩
  | false =>
    have out : s.pull false = (some s.scan.1, s.scan.2) := Scanner.next_of_not_finished going
    rw [out]
    have left : (f.moved (f.rest.takeWhile isBlank)).ignore.rest = f.rest.dropWhile isBlank :=
      rest_moved (List.takeWhile_append_dropWhile ..).symm
    -- the turn that ends the reading gives the token
    have ends : ∀ (state : State) (k : Finger),
        (k.turn state).Reads (f.moved (f.rest.takeWhile isBlank)).ignore
          (Lexeme.read (f.rest.dropWhile isBlank)) →
        Pull false (some state) k (some s.scan.1) (k.turn state).state (k.turn state).finger ∧
          Abreast s.scan.2 (k.turn state).state (k.turn state).finger := by
      intro state k reads
      rw [← left] at reads
      obtain ⟨token, abreast⟩ := reads.scan (s := s) (rest ▸ left) (by rw [← here, ← rest]; rfl)
      exact ⟨.given rfl token, abreast⟩
    rcases outside_reads fresh with reads | ⟨state, k, enters, reads⟩
    · exact ⟨_, _, ends .outside f reads⟩
    · have enters : f.turn .outside = k.enter state := enters
      obtain ⟨pull, abreast⟩ := ends state k reads
      exact ⟨_, _, .turn rfl (by rw [enters]; rfl) (by rw [enters]; exact pull), abreast⟩

/-- A finger that is not asked to stop gives the token that is pulled and then others. -/
theorem Pull.gives {t : Token} {ts : List Token} (pull : Pull false state f (some t) state' g)
    (others : Gives state' g ts) : Gives state f (t :: ts) := by
  generalize given : some t = item at pull
  induction pull with
  | ended | stopped => cases given <;> contradiction
  | given _ gives =>
    have turn := Gives.turn others
    rwa [gives, ← given] at turn
  | turn _ none _ ih =>
    have turn := Gives.turn (ih others given)
    rwa [none] at turn

/-- Before the next token a finger gives what a scanner gives that it is abreast of. -/
theorem Abreast.gives {s : Scanner} (abreast : Abreast s state f) : Gives state f s.tokens := by
  induction s using Scanner.induct generalizing state f with
  | finished s finished =>
    obtain ⟨-, rfl⟩ := abreast.resolve_right fun ⟨going, _⟩ => nomatch going.symm.trans finished
    rw [Scanner.tokens_of_finished finished]
    exact .last f
  | scan s going ih =>
    obtain ⟨state', g, pull, behind⟩ := abreast.pull false
    have out : s.pull false = (some s.scan.1, s.scan.2) := Scanner.next_of_not_finished going
    rw [out] at pull behind
    rw [Scanner.tokens_of_not_finished going]
    exact pull.gives (ih behind)

/-- A finger gives the same tokens each time. -/
theorem Gives.unique {state : Option State} {ts us : List Token} (h : Gives state f ts)
    (k : Gives state f us) : ts = us := by
  induction h generalizing us with
  | last => cases k; rfl
  | turn _ ih => cases k with | turn behind => rw [ih behind]

/-- **From the start of a text a finger gives the tokens of the text**, and no others. -/
theorem gives_iff (source : String) (ts : List Token) :
    Gives (some .outside) (atStart source) ts ↔ ts = lex source := by
  have gives : Gives (some .outside) (atStart source) (lex source) := (abreast_atStart source).gives
  exact ⟨fun h => h.unique gives, fun eq => eq ▸ gives⟩

end Finger

end QualityRules
