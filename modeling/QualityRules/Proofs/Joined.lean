import QualityRules.Proofs.Coordinates
import QualityRules.Proofs.Munch
import QualityRules.Proofs.Shift

/-!
# Proofs — Joined

Two texts with a line break between them.  No lexeme of the first one sees beyond the break, so when
no fault ends its tokens, the tokens of both are those of the first, without the end of the text,
and then those of the second, further down.

* `Longest.append_newline`: a longest text without a line break stays the longest one before it.
* `Munch.append_newline`: a lexeme stays the lexeme at the head of a text.
* `Scanner.tokens_shift`: a scanner gives the same tokens further down.
* `lex_append_newline`: the tokens of both texts.
-/

namespace QualityRules

open Lexeme (isBlank isLetter)

variable {L : List Char → Prop} {text rest cs ds : List Char} {k : Kind} {o : Offset}

/-- What heads a text and holds no line break heads what stands before the break. -/
theorem isPrefix_of_newline (none : '\n' ∉ text) (h : text <+: cs ++ '\n' :: ds) : text <+: cs := by
  induction cs generalizing text with
  | nil =>
    cases text with
    | nil => exact List.nil_prefix
    | cons c text =>
      obtain ⟨rfl, -⟩ := List.cons_prefix_cons.mp h
      exact absurd List.mem_cons_self none
  | cons c cs ih =>
    cases text with
    | nil => exact List.nil_prefix
    | cons d text =>
      obtain ⟨rfl, behind⟩ := List.cons_prefix_cons.mp h
      exact List.cons_prefix_cons.mpr
        ⟨rfl, ih (fun mem => none (List.mem_cons_of_mem _ mem)) behind⟩

/-- A longest text stays the longest when a line break follows the text, for it holds none. -/
theorem Longest.append_newline (longest : Longest L text rest)
    (none : ∀ other, L other → '\n' ∉ other) (ds : List Char) :
    Longest L text (rest ++ '\n' :: ds) where
  mem := longest.mem
  most other mem head := by
    rw [← List.append_assoc] at head
    exact longest.most other mem (isPrefix_of_newline (none other mem) head)

/-- No word holds a line break. -/
theorem IsWord.newline_not_mem (h : IsWord text) : '\n' ∉ text :=
  fun mem => nomatch h.2 '\n' mem

/-- No operator holds a line break. -/
theorem IsOperator.newline_not_mem (h : IsOperator text) : '\n' ∉ text := by
  obtain ⟨k, entry⟩ := h
  intro mem
  have none : operators.all fun e => !e.1.contains '\n' := by decide
  have := List.all_eq_true.mp none _ entry
  simp [mem] at this

/-- A lexeme does not see beyond a line break. -/
theorem Munch.append_newline (h : Munch k text rest) (ds : List Char) :
    Munch k text (rest ++ '\n' :: ds) := by
  cases h with
  | word longest other =>
    exact .word (longest.append_newline (fun _ => IsWord.newline_not_mem) ds) other
  | now => exact .now
  | number longest ends =>
    refine .number (longest.append_newline (fun _ is => is.newline_not_mem (by decide)) ds) ?_
    cases rest with
    | nil => simp [isLetter]
    | cons c rest => exact ends
  | string quoted => exact .string quoted
  | comment longest =>
    exact .comment (longest.append_newline (fun _ is => is.newline_not_mem (by decide)) ds)
  | operator entry longest =>
    exact .operator entry (longest.append_newline (fun _ => IsOperator.newline_not_mem) ds)

namespace Scanner

variable {here : Pos}

/-- The tokens of a text that come to its end come before those that stand behind a line break. -/
theorem tokens_append_newline {us : List Token} {last : Token}
    (h : (Scanner.mk cs here false).tokens = us ++ [last]) (isEnd : last.kind = .eof) :
    (Scanner.mk (cs ++ '\n' :: ds) here false).tokens
      = us ++ (Scanner.mk ds (here.pastAll (cs ++ ['\n'])) false).tokens := by
  generalize size : cs.length = n
  -- on what is left of the first text: blanks and lexemes are taken off both
  induction n using Nat.strongRecOn generalizing cs here us with
  | ind n ih =>
    have newline : ∀ c ∈ ['\n'], isBlank c := List.forall_mem_singleton.mpr rfl
    cases cs with
    | nil =>
      have alone : [] ++ [_] = us ++ [last] := h
      obtain ⟨rfl, -⟩ := List.append_inj' alone rfl
      exact tokens_blanks newline here
    | cons c cs =>
      cases blank : isBlank c with
      | true =>
        have all : ∀ d ∈ [c], isBlank d := by simpa using blank
        rw [show c :: cs = [c] ++ cs from rfl, tokens_blanks all] at h
        rw [show c :: cs ++ '\n' :: ds = [c] ++ (cs ++ '\n' :: ds) from rfl, tokens_blanks all]
        exact ih cs.length (by simp [← size]) h rfl
      | false =>
        rcases munch_or_balks blank cs with ⟨k, text, rest, eq, head⟩ | ⟨message, head⟩
        · have some := List.length_pos_iff.mpr head.spells.ne_nil
          have less : rest.length < n := by
            rw [← size, eq, List.length_append]
            omega
          rw [eq, tokens_of_munch head] at h
          rcases List.cons_eq_append_iff.mp h with ⟨-, alone⟩ | ⟨vs, rfl, behind⟩
          · -- a lexeme is not the end of the text
            obtain ⟨rfl, -⟩ := List.cons.inj alone
            have other := head.spells.not_terminal
            rw [show k = .eof from isEnd] at other
            exact nomatch other
          · rw [eq, List.append_assoc, tokens_of_munch (head.append_newline ds),
              ih _ less behind rfl, List.append_assoc, Pos.pastAll_append _ text]
            rfl
        · obtain ⟨stop, balks⟩ := tokens_of_balks head
          rw [balks] at h
          have alone : [] ++ [_] = us ++ [last] := h
          obtain ⟨-, only⟩ := List.append_inj' alone rfl
          obtain ⟨rfl, -⟩ := List.cons.inj only
          exact nomatch isEnd

/-- A scanner gives the same tokens further down. -/
theorem tokens_shift (s : Scanner) :
    (Scanner.mk s.rest (shift o s.here) s.finished).tokens = shift o s.tokens := by
  induction s using induct with
  | finished s f =>
    have f' : (Scanner.mk s.rest (shift o s.here) s.finished).finished := f
    rw [tokens_of_finished f, tokens_of_finished f']
    rfl
  | scan s f ih =>
    have scanned : (Scanner.mk s.rest (shift o s.here) s.finished).scan
        = (shift o s.scan.1, ⟨s.scan.2.rest, shift o s.scan.2.here, s.scan.2.finished⟩) := by
      simp only [scan, ← Pos.shift_pastAll]
      cases Lexeme.read (s.rest.dropWhile isBlank) <;> rfl
    have f' : (Scanner.mk s.rest (shift o s.here) s.finished).finished = false := f
    rw [tokens_of_not_finished f, tokens_of_not_finished f', scanned, ih]
    rfl

end Scanner

/-- A token starts on one of the lines of its text. -/
theorem line_start_of_mem_lex {source : String} {t : Token} (mem : t ∈ lex source) :
    1 ≤ t.start.line ∧ t.start.line ≤ source.toList.count '\n' + 1 := by
  have line := (faithful_start_of_mem_lex mem).line
  have le := (List.take_sublist t.start.index source.toList).count_le '\n'
  omega

/-- How far a text moves when another one and a line break are put before it. -/
def Offset.behind (source : String) : Offset :=
  ⟨source.length + 1, source.toList.count '\n' + 1⟩

/-- Behind a text and a line break one stands where the other text is moved to. -/
theorem Pos.pastAll_newline (source : String) :
    Pos.origin.pastAll (source.toList ++ ['\n']) = shift (Offset.behind source) Pos.origin := by
  rw [pastAll_origin]
  change Pos.mk _ _ _ = Pos.mk _ _ _
  simp [Offset.behind, origin, Int.add_comm, ← String.length_toList]

/-- **The tokens of two texts with a line break between them** are those of the first one, if they
come to its end, and then those of the second one further down. -/
theorem lex_append_newline {a : String} {us : List Token} {last : Token}
    (h : lex a = us ++ [last]) (isEnd : last.kind = .eof) (b : String) :
    lex (a ++ "\n" ++ b) = us ++ shift (Offset.behind a) (lex b) := by
  have chars : (a ++ "\n" ++ b).toList = a.toList ++ '\n' :: b.toList := by simp
  rw [lex, Scanner.start, chars, Scanner.tokens_append_newline h isEnd, Pos.pastAll_newline]
  exact congrArg (us ++ ·) (Scanner.tokens_shift (Scanner.start b))

end QualityRules
