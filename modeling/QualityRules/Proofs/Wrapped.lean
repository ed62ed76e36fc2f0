import QualityRules.Proofs.Follows.Rule
import QualityRules.Proofs.Joined
import QualityRules.Proofs.Ledger.Decl
import QualityRules.Proofs.Lookahead.Rule
import QualityRules.Proofs.Runs.Ruleset

/-!
# Proofs — Wrapped

A rule means the same alone and between the brackets of a ruleset, when it stands on lines of its
own there.  The closing bracket comes for the end of the text, and the comments before the rule are
read by the ruleset, which puts them on the tray that the rule gets.

* `Read.rule_closed`: what a text comes to as a rule, its tokens come to before a closing bracket.
* `Read.rulesetLoop_of_rule`: between the brackets there is the rule and nothing else.
* `lex_wrapped`: the tokens of a rule in a ruleset are those of the rule, further down, between
  others (`Frame`).
* `Source.ruleset_of_rule` is the main result.
-/

namespace QualityRules

namespace Read

variable {fuel n : Nat} {inRuleset : Bool} {k l inner : Tray} {r s : Row} {t last : Token}
  {ts : List Token} {decl : RuleDecl} {d : RulesetDraft} {h : Header}

/-- A rule that stands alone is read up to the end of the text. -/
theorem rule_ends (others : ∀ t ∈ ts, t.kind.isTerminal = false) (terminal : last.kind.isTerminal)
    (g : (rule fuel false).Gives k (Row.behind ts (Row.ending last)) decl l s) :
    last.kind = .eof ∧ s = Row.cons last s := by
  have final := Row.final_behind others terminal
  obtain ⟨us, ms, row, account⟩ := rule_reads (K := none) g final rfl rfl
  obtain ⟨vs, stop, solid_us, ends, is⟩ := account.shape
  cases ends with
  | comma _ listed | bracket _ listed => exact nomatch listed
  | @text t _ isEnd =>
    obtain ⟨before, rfl, same, again⟩ := final.of_solid row solid_us isEnd
    have going : lastKind none before ≠ some .eof := by
      rw [← lastKind_solid, same]
      exact (is.endsWell none).2
    have whole := Row.eq_of_behind others terminal row isEnd (ne_eof_of_lastKind going)
    obtain rfl : last = t := List.head_eq_of_cons_eq (List.append_inj' whole rfl).2
    exact ⟨isEnd, again⟩

/-- What the tokens of a text come to as a rule, they come to in a ruleset before the bracket that
closes it. -/
theorem rule_closed (others : ∀ t ∈ ts, t.kind.isTerminal = false) (terminal : last.kind.isTerminal)
    (g : (rule fuel false).Gives k (Row.behind ts (Row.ending last)) decl l s)
    (bracket : t.kind = .rightBracket) (m : Row) :
    (rule fuel true).Gives k (Row.behind ts (Row.cons t m)) decl l (Row.cons t m) := by
  obtain ⟨isEnd, again⟩ := rule_ends others terminal g
  rw [again] at g
  obtain ⟨us, going, row, read⟩ := (peeks_rule (fun _ => rfl) (fun _ : True => rfl) k).turn
    (Row.final_behind others terminal) g (.stands ⟨trivial, isEnd, bracket⟩)
  have whole : Row.behind ts (Row.ending last) = Row.behind (us ++ [last]) s := by
    rw [row, Row.behind_append]
    rfl
  have same := Row.eq_of_behind others terminal whole isEnd
    fun u mem => going u (List.mem_of_getLast? mem)
  obtain ⟨rfl, -⟩ := List.append_inj' same rfl
  exact read m

/-- At its start a rule takes a comment, the name of its type or a parenthesis. -/
theorem leadLoop_empty_cases {place : Place} {out : Lead}
    (g : (leadLoop fuel place n Draft.empty).Gives k (Row.cons t r) out l s) :
    (t.kind = .comment ∧ ∃ m, n = m + 1 ∧
      (leadLoop fuel place m Draft.empty).Gives (k.add (Comment.ofToken t)) r out l s) ∨
      t.kind = .ident ∨ t.kind = .leftParen := by
  cases n with
  | zero => exact absurd g Reading.not_gives_fail
  | succ n =>
    generalize row : Row.cons t r = q at g
    rcases leadLoop_gives.mp g with ⟨d', k', m, step, rest⟩ | stop
    · cases step with
      | comment kind =>
        obtain ⟨rfl, rfl⟩ := Row.cons_inj.mp row
        exact .inl ⟨kind, n, rfl, rest⟩
      | ruleType kind => exact .inr (.inl ((Row.cons_inj.mp row).1 ▸ kind))
      | value _ typed | condition _ typed => exact nomatch typed
    · cases stop with
      | group kind => exact .inr (.inr ((Row.cons_inj.mp row).1 ▸ kind))
      | text _ typed | comma _ _ typed | bracket _ _ typed | paren _ _ typed =>
        exact nomatch typed

/-- A comment before a rule may be put on the tray before the rule is read. -/
theorem lead_of_comment {place : Place} {out : Lead} (regular : r.Regular)
    (comment : t.kind = .comment) (g : (lead fuel place).Gives k (Row.cons t r) out l s) :
    (lead fuel place).Gives (k.add (Comment.ofToken t)) r out l s := by
  obtain ⟨-, n, eq, rest⟩ | kind | kind := leadLoop_empty_cases (lead_gives.mp g)
  · -- nowhere further down, but with one step more
    have more := follows_leadLoop (o := 0) (le_refl fuel) (by omega : n ≤ fuel) place Draft.empty
    exact lead_gives.mpr (by simpa using more.gives regular rest)
  · exact nomatch comment.symm.trans kind
  · exact nomatch comment.symm.trans kind

theorem rule_of_comment (regular : r.Regular) (comment : t.kind = .comment)
    (g : (rule fuel inRuleset).Gives k (Row.cons t r) decl l s) :
    (rule fuel inRuleset).Gives (k.add (Comment.ofToken t)) r decl l s := by
  rcases rule_gives.mp g with ⟨x, first, rfl⟩ | ⟨d, paren, k', m, first, rest⟩
  · exact rule_gives.mpr (.inl ⟨x, lead_of_comment regular comment first, rfl⟩)
  · exact rule_gives.mpr (.inr ⟨d, paren, k', m, lead_of_comment regular comment first, rest⟩)

/-- A rule starts with a comment, the name of its type or a parenthesis. -/
theorem rule_first (g : (rule fuel inRuleset).Gives k (Row.cons t r) decl l s) :
    t.kind = .comment ∨ t.kind = .ident ∨ t.kind = .leftParen := by
  rcases rule_gives.mp g with ⟨x, first, -⟩ | ⟨d, paren, k', m, first, -⟩
  · exact (leadLoop_empty_cases (lead_gives.mp first)).imp_left And.left
  · exact (leadLoop_empty_cases (lead_gives.mp first)).imp_left And.left

/-- Between the brackets of a ruleset there is a rule, with comments before it, and nothing else. -/
theorem rulesetLoop_of_rule (inside : d.header = some h) (bracket : t.kind = .rightBracket)
    (regular : s.Regular) (quiet : Quiet s) (steps : ts.length + 1 < n) (some : 0 < fuel)
    (g : (rule fuel true).Gives d.inner (Row.behind ts (Row.cons t s)) decl inner (Row.cons t s)) :
    ∃ x, (rulesetLoop fuel n d).Gives k (Row.behind ts (Row.cons t s)) x k s ∧
      x.rules = d.rules ++ [decl] ∧ x.headerComments = CommentGroup.ofList? h.comments := by
  obtain ⟨n, rfl⟩ : ∃ m, n = m + 2 := ⟨n - 2, by omega⟩
  induction ts generalizing d n with
  | nil =>
    have first := rule_first (t := t) g
    simp [bracket] at first
  | cons u us ih =>
    by_cases comment : u.kind = .comment
    · obtain ⟨n, rfl⟩ : ∃ m, n = m + 1 := ⟨n - 1, by simp at steps; omega⟩
      obtain ⟨x, read, rules, header⟩ :=
        ih (d := { d with inner := d.inner.add (Comment.ofToken u) }) inside
          (rule_of_comment regular.cons.behind comment g) n (by simpa using steps)
      exact ⟨x, rulesetLoop_gives.mpr (.inl ⟨_, _, _, .comment comment inside, read⟩), rules,
        header⟩
    · have other : u.kind ≠ .eof ∧ u.kind ≠ .rightBracket ∧ u.kind ≠ .kwRules ∧
          u.kind ≠ .comment := by
        rcases rule_first (t := u) g with kind | kind | kind
        · exact absurd kind comment
        · simp [kind]
        · simp [kind]
      have stop := RulesetEnd.bracket (d := { d with rules := d.rules ++ [decl], inner }) bracket
        inside (quiet.trailing some)
      exact ⟨_, rulesetLoop_gives.mpr (.inl ⟨_, _, _, .rule other inside g,
        rulesetLoop_gives.mpr (.inr ⟨stop, rfl⟩)⟩), rfl, rfl⟩

/-- A ruleset of nothing but a rule, which starts on a line below the bracket. -/
theorem ruleset_of_rule_tokens {word equal left : Token} {m : Row} (isWord : word.kind = .kwRules)
    (isEqual : equal.kind = .equal) (opens : left.kind = .leftBracket)
    (bracket : t.kind = .rightBracket) (regular : s.Regular) (quiet : Quiet s)
    (steps : ts.length + 1 < n) (row : m = Row.behind ts (Row.cons t s))
    (below : Ends left.start [] m)
    (g : (rule ↑(n + 1) true).Gives Tray.empty m decl inner (Row.cons t s)) :
    ∃ x, (ruleset ↑(n + 1)).Gives Tray.empty (Row.cons word (Row.cons equal (Row.cons left m))) x
      Tray.empty s ∧ x.rules = [decl] ∧ x.headerComments = none := by
  have trail : (trailing (n + 1) left.start).Gives m [] m :=
    trailing_gives_iff.mpr ⟨[], rfl, trivial, rfl, below, Nat.succ_pos n⟩
  have header : (takeHeader (n + 1) word).Gives Tray.empty (Row.cons equal (Row.cons left m))
      ⟨word.start, left.start, .none, []⟩ Tray.empty m :=
    takeHeader_gives.mpr ⟨equal, _, left, [], rfl, isEqual,
      popTrailing_gives.mpr ⟨m, rfl, .inr ⟨by simp [opens], trail⟩⟩, opens, rfl, rfl⟩
  subst row
  obtain ⟨x, read, rules, comments⟩ := rulesetLoop_of_rule (k := Tray.empty)
    (d := { RulesetDraft.empty with header := some ⟨word.start, left.start, .none, []⟩ })
    rfl bracket regular quiet steps (Nat.succ_pos n) g
  exact ⟨x, ruleset_gives.mpr ⟨Tray.empty, rulesetLoop_gives.mpr
    (.inl ⟨_, _, _, .header isWord rfl header, read⟩), rfl⟩, rules, comments⟩

end Read

/-! ### Texts -/

variable {source : String} {ts : List Token} {last word equal left right stop : Token}

/-- How far a rule moves in a ruleset that opens on a line of its own. -/
def Offset.inRuleset : Offset := ⟨10, 1⟩

/-- A text between the line that opens a ruleset and the line that closes it. -/
def wrapped (source : String) : String := "Rules = [\n" ++ source ++ "\n]"

/-- The tokens of the line that opens a ruleset, and of the line that closes it. -/
structure Frame (word equal left right stop : Token) : Prop where
  isWord : word.kind = .kwRules
  isEqual : equal.kind = .equal
  opens : left.kind = .leftBracket
  line : left.start.line = 1
  closes : right.kind = .rightBracket
  isEnd : stop.kind = .eof

/-- The tokens of a wrapped text are those of the text, further down, between others. -/
theorem lex_wrapped (h : lex source = ts ++ [last]) (isEnd : last.kind = .eof) :
    ∃ word equal left right stop, Frame word equal left right stop ∧
      lex (wrapped source)
        = word :: equal :: left :: (shift Offset.inRuleset ts ++ [right, stop]) := by
  have opens : lex "Rules = [" = [⟨.kwRules, "Rules", ⟨0, 1, 1⟩, ⟨5, 1, 6⟩⟩,
      ⟨.equal, "=", ⟨6, 1, 7⟩, ⟨7, 1, 8⟩⟩, ⟨.leftBracket, "[", ⟨8, 1, 9⟩, ⟨9, 1, 10⟩⟩]
        ++ [⟨.eof, "", ⟨9, 1, 10⟩, ⟨9, 1, 10⟩⟩] := by decide +kernel
  have closes : lex "]" = [⟨.rightBracket, "]", ⟨0, 1, 1⟩, ⟨1, 1, 2⟩⟩,
      ⟨.eof, "", ⟨1, 1, 2⟩, ⟨1, 1, 2⟩⟩] := by decide +kernel
  have text : wrapped source = "Rules = [" ++ "\n" ++ (source ++ "\n" ++ "]") := by
    simp [wrapped, String.append_assoc]
  have offset : Offset.behind "Rules = [" = Offset.inRuleset := by decide
  rw [text, lex_append_newline opens rfl, lex_append_newline h isEnd, closes, offset, shift_append]
  exact ⟨_, _, _, _, _, ⟨rfl, rfl, rfl, rfl, rfl, rfl⟩, rfl⟩

theorem not_isTerminal_shift {o : Offset} (others : ∀ t ∈ ts, t.kind.isTerminal = false) :
    ∀ t ∈ shift o ts, t.kind.isTerminal = false := by
  intro t mem
  obtain ⟨u, inside, rfl⟩ := List.mem_map.mp mem
  exact others u inside

namespace Frame

/-- None of the tokens of a wrapped text is the end of it but the last. -/
theorem ofTokens_eq (h : Frame word equal left right stop)
    (others : ∀ t ∈ ts, t.kind.isTerminal = false) :
    Row.ofTokens (word :: equal :: left :: (ts ++ [right, stop]))
      = Row.cons word (Row.cons equal (Row.cons left
          (Row.behind ts (Row.cons right (Row.ending stop))))) := by
  have plain : ∀ t ∈ word :: equal :: left :: (ts ++ [right]), t.kind.isTerminal = false := by
    intro t mem
    simp only [List.mem_cons, List.mem_append, List.not_mem_nil, or_false] at mem
    obtain rfl | rfl | rfl | mem | rfl := mem
    · simp [h.isWord, Kind.isTerminal]
    · simp [h.isEqual, Kind.isTerminal]
    · simp [h.opens, Kind.isTerminal]
    · exact others t mem
    · simp [h.closes, Kind.isTerminal]
  have split : word :: equal :: left :: (ts ++ [right, stop])
      = word :: equal :: left :: (ts ++ [right]) ++ [stop] := by simp
  rw [split, Row.ofTokens_eq plain (by simp [h.isEnd, Kind.isTerminal])]
  simp [Row.behind_append]

/-- No comment trails the bracket that opens a ruleset, for the text in it starts further down. -/
theorem ends (h : Frame word equal left right stop) (below : ∀ t ∈ ts, 1 ≤ t.start.line) (m : Row) :
    Read.Ends left.start [] (Row.behind (shift Offset.inRuleset ts) (Row.cons right m)) := by
  cases ts with
  | nil => exact ⟨right, m, rfl, Read.not_extendsBlock_of_kind (by simp [h.closes])⟩
  | cons t ts =>
    have one := below t List.mem_cons_self
    have apart : t.start.line + Offset.inRuleset.line ≠ left.start.line := by
      rw [h.line]
      change t.start.line + ((1 : Nat) : Int) ≠ 1
      omega
    exact ⟨shift Offset.inRuleset t, _, rfl, by simp [Read.extendsBlock, apart]⟩

end Frame

namespace Source

variable {options options' : Options} {d : RuleDecl}

theorem ruleset_eq_ok_iff {x : Ruleset} : (ruleset source options).result = .ok x ↔
    ∃ k s, (Read.ruleset ↑((lex source).length + 1)).Gives Tray.empty
      (Row.ofTokens (lex source)) x k s := session_eq_ok_iff

/-- **A rule means the same alone and in a ruleset**: between the brackets it is the only rule, all
places of it are as far down as the text, and everything else is as it was. -/
theorem ruleset_of_rule (h : (rule source options).result = .ok d) :
    ∃ x, (ruleset (wrapped source) options').result = .ok x ∧ x.headerComments = none ∧
      x.rules = [shift Offset.inRuleset d] := by
  obtain ⟨ts, last, eq, others, terminal⟩ := lex_eq source
  obtain ⟨k, s, g⟩ := ruleOf_eq_ok_iff.mp (rule_eq_ok_iff.mp h)
  rw [eq, Row.ofTokens_eq others terminal] at g
  obtain ⟨isEnd, -⟩ := Read.rule_ends others terminal g
  obtain ⟨word, equal, left, right, stop, frame, tokens⟩ := lex_wrapped eq isEnd
  have others' := not_isTerminal_shift (o := Offset.inRuleset) others
  have below : ∀ t ∈ ts, 1 ≤ t.start.line := fun t mem =>
    (line_start_of_mem_lex (eq ▸ List.mem_append_left [last] mem)).1
  have quiet : Quiet (Row.ending stop) := by
    rw [Row.ending_eof frame.isEnd]
    exact quiet_cons (by simp [frame.isEnd]) _
  obtain ⟨n, fuel⟩ : ∃ n, (lex (wrapped source)).length + 1 = n + 1 := ⟨_, rfl⟩
  have enough : (ts ++ [last]).length + 1 ≤ n + 1 ∧ ts.length + 1 < n := by
    rw [tokens] at fuel
    simp at fuel ⊢
    omega
  have moved := (Read.follows_rule (o := Offset.inRuleset) enough.1 false).gives
    (Row.regular_ending last).behind g
  rw [Row.shift_behind, Row.shift_ending] at moved
  have terminal' : (shift Offset.inRuleset last).kind.isTerminal := terminal
  have closed := Read.rule_closed others' terminal' moved frame.closes (Row.ending stop)
  obtain ⟨x, read, rules, comments⟩ := Read.ruleset_of_rule_tokens frame.isWord frame.isEqual
    frame.opens frame.closes (Row.regular_ending stop) quiet (by simpa using enough.2) rfl
    (frame.ends below _) closed
  refine ⟨x, ruleset_eq_ok_iff.mpr ⟨Tray.empty, Row.ending stop, ?_⟩, comments, rules⟩
  rwa [fuel, tokens, frame.ofTokens_eq others']

/-- A combined rule with comments before, in and behind it. -/
def remarkedRule : String := "# a\n# b\n(A # c\n) and ( # d\n  B 3 days # e\n) # f\n# g"

theorem ruleset_of_rule_remarkedRule : ∃ d, (rule remarkedRule Options.default).result = .ok d ∧
    ∃ x, (ruleset (wrapped remarkedRule) Options.default).result = .ok x ∧
      x.headerComments = none ∧ x.rules = [shift Offset.inRuleset d] := by
  obtain ⟨d, read, -⟩ : ∃ d, (rule remarkedRule Options.default).result = .ok d ∧ True :=
    Outcome.exists_ok (by decide +kernel)
  exact ⟨d, read, ruleset_of_rule read⟩

end Source

end QualityRules
