import QualityRules.Token.Basic
import QualityRules.Token.Lexeme

/-!
# Token — Scanner

A scanner stands in a text and gives its tokens one after the other.  The last token is the end of
the text, a fault, or, when the scanner is told to stop, the word that it was; after the last token
there is none.

* `Scanner.next` gives one token and the scanner behind it, `Scanner.tokens` all that are left.
* `Scanner.tokens_eq`: the tokens that are left are the next one and those left behind it.
* `lex` gives the tokens of a text.
-/

namespace QualityRules

/-- A place in a text, what stands behind it, and whether the last token was given. -/
structure Scanner where
  rest : List Char
  here : Pos
  finished : Bool
deriving DecidableEq

namespace Scanner

/-- The scanner before the first character of `source`. -/
def start (source : String) : Scanner := ⟨source.toList, Pos.origin, false⟩

/-- No character is left. -/
def atEnd (s : Scanner) : Bool := s.rest.isEmpty

/-- The next token, from the place behind the blanks that stand here. -/
def scan (s : Scanner) : Token × Scanner :=
  let start := s.here.pastAll (s.rest.takeWhile Lexeme.isBlank)
  match Lexeme.read (s.rest.dropWhile Lexeme.isBlank) with
  | .piece kind text rest =>
    let stop := start.pastAll text
    (⟨kind, String.ofList text, start, stop⟩, ⟨rest, stop, kind.isTerminal⟩)
  | .fault fault text rest =>
    let stop := start.pastAll text
    (⟨.illegal, fault.message, start, stop⟩, ⟨rest, stop, true⟩)
  | .finish => (⟨.eof, "", start, start⟩, ⟨[], start, true⟩)

/-- The next token, if the last one was not given yet. -/
def next (s : Scanner) : Option Token × Scanner :=
  if s.finished then (none, s) else (some s.scan.1, s.scan.2)

/-- The token of a scanner that was told to stop; it covers nothing. -/
def canceled (here : Pos) : Token := ⟨.illegal, Reason.canceled.template.source, here, here⟩

/-- Ends the tokens early, with a last one that says so. -/
def cancel (s : Scanner) : Option Token × Scanner :=
  if s.finished then (none, s) else (some (canceled s.here), { s with finished := true })

/-- One pull under a flag that asks to stop. -/
def pull (cancelled : Bool) (s : Scanner) : Option Token × Scanner :=
  if cancelled then s.cancel else s.next

/-- At most `n` further tokens. -/
def take : Nat → Scanner → List Token
  | 0, _ => []
  | n + 1, s =>
    match s.next with
    | (some t, s) => t :: take n s
    | (none, _) => []

/-- A bound on the number of tokens that are left: one for each character and the last one. -/
def budget (s : Scanner) : Nat := if s.finished then 0 else s.rest.length + 1

/-- The tokens that are left. -/
def tokens (s : Scanner) : List Token := take s.budget s

/-- The scanner when all its tokens are given. -/
def drain : Nat → Scanner → Scanner
  | 0, s => s
  | n + 1, s =>
    match s.next with
    | (some _, s) => drain n s
    | (none, s) => s

/-- The scanner behind its last token. -/
def last (s : Scanner) : Scanner := drain s.budget s

theorem next_of_finished {s : Scanner} (h : s.finished) : s.next = (none, s) := by
  simp [next, h]

theorem next_of_not_finished {s : Scanner} (h : s.finished = false) :
    s.next = (some s.scan.1, s.scan.2) := by
  simp [next, h]

/-- A scan comes closer to the end. -/
theorem budget_scan_lt {s : Scanner} (h : s.finished = false) : s.scan.2.budget < s.budget := by
  have drop : (s.rest.dropWhile Lexeme.isBlank).length ≤ s.rest.length :=
    (List.dropWhile_sublist _).length_le
  unfold scan
  simp only
  split
  · next kind text rest e =>
    have : rest.length < (s.rest.dropWhile Lexeme.isBlank).length := by
      cases d : s.rest.dropWhile Lexeme.isBlank with
      | nil => rw [d] at e; exact nomatch e
      | cons c cs =>
        have := Lexeme.left_read_lt c cs
        rw [← d, e, d] at this
        exact this
    simp only [budget, h]
    split
    · simp
    · simp
      omega
  · simp [budget, h]
  · simp [budget, h]

theorem take_of_finished {s : Scanner} (h : s.finished) (n : Nat) : take n s = [] := by
  cases n with
  | zero => rfl
  | succ n => simp [take, next_of_finished h]

/-- Asking for more tokens than the bound brings no more. -/
theorem take_eq_take (n m : Nat) (s : Scanner) (hn : s.budget ≤ n) (hm : s.budget ≤ m) :
    take n s = take m s := by
  induction n generalizing m s with
  | zero =>
    cases f : s.finished with
    | true => rw [take_of_finished f, take_of_finished f]
    | false => have := budget_scan_lt f; omega
  | succ n ih =>
    cases f : s.finished with
    | true => rw [take_of_finished f, take_of_finished f]
    | false =>
      have lt := budget_scan_lt f
      obtain ⟨m, rfl⟩ : ∃ k, m = k + 1 := ⟨m - 1, by omega⟩
      simp only [take, next_of_not_finished f]
      rw [ih m _ (by omega) (by omega)]

/-- The tokens that are left are the next one and those left behind it. -/
theorem tokens_eq (s : Scanner) : s.tokens =
    match s.next with
    | (some t, s') => t :: s'.tokens
    | (none, _) => [] := by
  cases f : s.finished with
  | true => simp [tokens, budget, take, next_of_finished f, f]
  | false =>
    have lt := budget_scan_lt f
    obtain ⟨m, hm⟩ : ∃ m, s.budget = m + 1 := ⟨s.budget - 1, by omega⟩
    simp only [next_of_not_finished f]
    rw [tokens, hm]
    simp only [take, next_of_not_finished f]
    rw [take_eq_take _ _ _ (by omega) (Nat.le_refl _)]
    rfl

/-- There are no more tokens than the bound says. -/
theorem length_tokens_le (s : Scanner) : s.tokens.length ≤ s.budget := by
  suffices h : ∀ n, (take n s).length ≤ n from h _
  intro n
  induction n generalizing s with
  | zero => exact Nat.le_refl _
  | succ n ih =>
    unfold take
    split
    · exact Nat.succ_le_succ (ih _)
    · exact Nat.zero_le _

end Scanner

/-- The tokens of a text. -/
def lex (source : String) : List Token := (Scanner.start source).tokens

end QualityRules
