import QualityRules.Proofs.Lines
import QualityRules.Proofs.Runs.Condition

/-!
# Proofs — Handed — Parts

Which comments a rule takes over from its values and its condition.  They are blocks of comments
that trail a token on the line of the rule's type.  Behind a comparison sign, and between `with` and
`threshold`, the line of the first of two tokens is asked for and the block trails the second.

* `Handed`: the comments that a rule takes over from some tokens; `Read.Hands`: from what a reader
  takes off a row.
* `popTrailing_hands` and `popTrailing_hands_late`: a block is asked for by the token that it trails,
  or by the one before.
* `parameter_hands`, `expression_hands` and the others: one statement for each reader.
-/

namespace QualityRules

variable {line : Int} {ts us : List Token} {cs : List Comment} {p q t : Token}

/-- Of the tokens `p` and `q` the line of the first is asked for where comments trail the second. -/
def Token.SpeaksFor (p q : Token) : Prop :=
  p.kind.isComparison ∨ p.kind = .kwWith ∧ q.kind = .kwThreshold

/-- A rule whose type stands on a line takes over the comments `cs` from the tokens `ts`: blocks that
trail a place on that line, or a token for which the one right before it, on that line, speaks. -/
inductive Handed (line : Int) : List Token → List Comment → Prop
  | none (ts : List Token) : Handed line ts []
  | block {anchor : Pos} {us : List Token} (on : anchor.line = line)
      (block : Read.Block anchor [] us) : Handed line us (us.map Comment.ofToken)
  | late {p q : Token} {us : List Token} (on : p.start.line = line) (speaks : p.SpeaksFor q)
      (block : Read.Block q.start [] us) : Handed line (p :: q :: us) (us.map Comment.ofToken)
  | append {ts us : List Token} {cs ds : List Comment} (first : Handed line ts cs)
      (second : Handed line us ds) : Handed line (ts ++ us) (cs ++ ds)

namespace Read

/-- Between the rows `r` and `s` there stand tokens from which the rule takes over the comments
`cs`. -/
def Hands (line : Int) (r s : Row) (cs : List Comment) : Prop :=
  ∃ us, r = Row.behind us s ∧ Handed line us cs

variable {fuel n : Nat} {anchor rulePos : Pos} {r s m : Row} {ds : List Comment} {a : Attached}
  {x : Parameter}

namespace Hands

/-- Nothing is taken over where nothing is read. -/
theorem refl (line : Int) (r : Row) : Hands line r r [] := ⟨[], rfl, .none []⟩

/-- What is taken over from two stretches is taken over from both. -/
theorem trans (h : Hands line r m cs) (h' : Hands line m s ds) : Hands line r s (cs ++ ds) := by
  obtain ⟨us, rfl, first⟩ := h
  obtain ⟨vs, rfl, second⟩ := h'
  exact ⟨us ++ vs, (Row.behind_append us vs s).symm, first.append second⟩

/-- A token that is taken hands nothing over. -/
theorem token (line : Int) (t : Token) (m : Row) : Hands line (Row.cons t m) m [] :=
  ⟨[t], rfl, .none [t]⟩

/-- Comments are taken over from behind a token, too. -/
theorem cons (h : Hands line m s cs) (t : Token) : Hands line (Row.cons t m) s cs :=
  (token line t m).trans h

/-- Comments that go elsewhere are passed over. -/
theorem of_if {c : Prop} [Decidable c] (us : List Token) (row : r = Row.behind us s)
    (h : c → Handed line us cs) : Hands line r s (if c then cs else []) := by
  refine ⟨us, row, ?_⟩
  split
  · next holds => exact h holds
  · exact .none us

end Hands

/-! ### Comments that are shared out -/

@[simp] theorem Attached.forRule_route (a : Attached) (cs : List Comment) (anchor rulePos : Pos) :
    (a.route cs anchor rulePos).forRule =
      a.forRule ++ if anchor.line = rulePos.line then cs else [] := by
  unfold route
  split <;> simp

@[simp] theorem Attached.forRule_none : none.forRule = [] := rfl

@[simp] theorem Attached.forRule_addForRule (a : Attached) (cs : List Comment) :
    (a.addForRule cs).forRule = a.forRule ++ cs := rfl

@[simp] theorem Attached.forRule_addOwn (a : Attached) (cs : List Comment) :
    (a.addOwn cs).forRule = a.forRule := rfl

/-- The rule takes over what trails a token on its line. -/
theorem trailing_hands (g : (trailing fuel anchor).Gives r cs s) (line : Int) :
    Hands line r s (if anchor.line = line then cs else []) := by
  obtain ⟨us, row, block, rfl, -⟩ := trailing_gives g
  exact .of_if us row fun on => .block on block

/-- The next token, and the block of comments that trails it. -/
theorem popTrailing_block (g : (popTrailing fuel).Gives r (t, cs) s) :
    ∃ us, r = Row.behind (t :: us) s ∧ Block t.start [] us ∧ cs = us.map Comment.ofToken := by
  obtain ⟨m, rfl, ⟨-, rfl, rfl⟩ | ⟨-, trail⟩⟩ := popTrailing_gives.mp g
  · exact ⟨[], rfl, trivial, rfl⟩
  · obtain ⟨us, rfl, block, rfl, -⟩ := trailing_gives trail
    exact ⟨us, rfl, block, rfl⟩

/-- What trails a token that is taken is taken over when that token stands on the line. -/
theorem popTrailing_hands (g : (popTrailing fuel).Gives r (t, cs) s) (line : Int) :
    Hands line r s (if t.start.line = line then cs else []) := by
  obtain ⟨us, row, block, rfl⟩ := popTrailing_block g
  exact .of_if (t :: us) row fun on => (Handed.none [t]).append (.block on block)

/-- The rule takes over what trails a token for which another speaks that is on its line. -/
theorem popTrailing_hands_late (g : (popTrailing fuel).Gives r (q, cs) s) (speaks : p.SpeaksFor q)
    (line : Int) : Hands line (Row.cons p r) s (if p.start.line = line then cs else []) := by
  obtain ⟨us, rfl, block, rfl⟩ := popTrailing_block g
  exact .of_if (p :: q :: us) rfl fun on => .late on speaks block

theorem expect_hands {kind : Kind} (g : (expect fuel kind).Gives r (t, cs) s) (line : Int) :
    Hands line r s (if t.start.line = line then cs else []) :=
  popTrailing_hands (expect_gives.mp g).2 line

/-- Comments that are skipped are not taken over. -/
theorem popSkipping_hands (g : (popSkipping fuel).Gives r (t, cs) s) (line : Int) :
    Hands line r s [] := by
  obtain ⟨us, rfl, -⟩ := popSkipping_gives g
  exact ⟨us ++ [t], by rw [Row.behind_append]; rfl, .none _⟩

/-! ### Values -/

/-- Of what trails a token the share of the rule is taken over. -/
theorem trailingOf_hands (g : (trailingOf fuel anchor rulePos).Gives r a s) :
    Hands rulePos.line r s a.forRule := by
  obtain ⟨cs, trail, rfl⟩ := trailingOf_gives.mp g
  simpa using trailing_hands trail rulePos.line

/-- A value hands over what it has for the rule. -/
theorem parameter_hands (g : (parameter fuel t rulePos).Gives r (x, cs) s) :
    Hands rulePos.line r s cs := by
  obtain ⟨-, g⟩ | ⟨a, trail, -, rfl⟩ := parameter_gives.mp g
  · obtain ⟨next, m, a, rfl, rfl, ⟨-, trail, -⟩ | ⟨unit, -, -, trail, -⟩⟩ := number_gives.mp g
    · exact trailingOf_hands trail
    · exact (trailingOf_hands trail).cons next
  · exact trailingOf_hands trail

theorem operand_hands (g : (operand fuel rulePos).Gives r (x, cs) s) :
    Hands rulePos.line r s cs := by
  obtain ⟨t, m, rfl, -, read⟩ := operand_gives.mp g
  exact (parameter_hands read).cons t

theorem duration_hands {d : DurationParameter} (g : (duration fuel rulePos).Gives r (d, cs) s) :
    Hands rulePos.line r s cs := by
  obtain ⟨t, m, rfl, read⟩ := duration_gives.mp g
  exact (parameter_hands read).cons t

theorem relativeDate_hands {d : DateParameter} (g : (relativeDate fuel t rulePos).Gives r (d, cs) s) :
    Hands rulePos.line r s cs := by
  obtain ⟨now, c₁, m₁, minus, c₂, m₂, dur, c₃, m₃, close, c₄, a, g₁, g₂, g₃, g₄, rfl, rfl, rfl⟩ :=
    relativeDate_gives.mp g
  have first := (expect_hands g₁ rulePos.line).trans (expect_hands g₂ rulePos.line)
  simpa using (first.trans (duration_hands g₃)).trans (expect_hands g₄ rulePos.line)

/-! ### Conditions -/

/-- The sign of a comparison speaks for the first token behind it. -/
theorem comparison_hands {operator : Comparator} {e : Comparison}
    (g : (comparison fuel t operator rulePos).Gives r (e, cs) s)
    (sign : Comparator.ofKind? t.kind = some operator) :
    Hands rulePos.line (Row.cons t r) s cs := by
  obtain ⟨value, c₁, m, x, c₂, a, g₁, right, rfl, rfl, rfl⟩ := comparison_gives.mp g
  have speaks : t.SpeaksFor value := .inl <| by
    cases k : t.kind <;> simp_all [Comparator.ofKind?, Kind.isComparison]
  have read : Hands rulePos.line m s c₂ := by
    rcases right with ⟨-, read⟩ | ⟨-, d, read, -⟩
    · exact parameter_hands read
    · exact relativeDate_hands read
  simpa using (popTrailing_hands_late g₁ speaks rulePos.line).trans read

theorem between_hands {e : Between} (g : (between fuel t rulePos).Gives r (e, cs) s) :
    Hands rulePos.line r s cs := by
  obtain ⟨lower, c₁, m₁, word, c₂, m₂, upper, c₃, a, g₁, g₂, g₃, rfl, rfl, rfl⟩ :=
    between_gives.mp g
  simpa using ((operand_hands g₁).trans (expect_hands g₂ rulePos.line)).trans (operand_hands g₃)

/-- The values of a list hand over what they have for the rule, as the list goes on. -/
theorem valuesLoop_hands {values vs : List Parameter} {a' : Attached} {close : Token}
    (g : (valuesLoop fuel rulePos n values a).Gives m (close, vs, a') s)
    (before : Hands rulePos.line r m a.forRule) : Hands rulePos.line r s a'.forRule := by
  induction n generalizing values a m with
  | zero => exact absurd g not_gives_fail
  | succ n ih =>
    obtain ⟨item, c₁, m₁, g₁, ⟨-, rfl, rfl, rfl, rfl, rfl⟩ |
      ⟨-, v, c₂, m₂, sep, c₃, m₃, b, read, g₃, rfl, rest⟩⟩ := valuesLoop_gives.mp g
    · simpa using before.trans (popSkipping_hands g₁ _)
    · have more := ((before.trans (popSkipping_hands g₁ _)).trans (parameter_hands read)).trans
        (popSkipping_hands g₃ _)
      simp only [List.append_nil] at more
      rcases rest with ⟨-, rfl, rfl, rfl, rfl⟩ | ⟨-, rest⟩
      · exact more
      · exact ih rest more

theorem membership_hands {e : Membership} (g : (membership fuel t rulePos).Gives r (e, cs) s) :
    Hands rulePos.line r s cs := by
  obtain ⟨bracket, c₁, m₁, close, vs, a, m₂, c₂, b, g₁, g₂, g₃, rfl, rfl, rfl⟩ :=
    membership_gives.mp g
  have list := valuesLoop_hands g₂ (by simpa using expect_hands g₁ rulePos.line)
  simpa using list.trans (trailing_hands g₃ rulePos.line)

theorem patternMatch_hands {e : PatternMatch}
    (g : (patternMatch fuel t rulePos).Gives r (e, cs) s) : Hands rulePos.line r s cs := by
  obtain ⟨pattern, c, a, -, trail, rfl, rfl, rfl⟩ := patternMatch_gives.mp g
  simpa using popTrailing_hands trail rulePos.line

variable {e : Expression}

/-- The word `with` speaks for the word behind it. -/
theorem thresholdSuffix_hands {inner : Token → Parse (Expression × List Comment)} {target : Target}
    (g : (thresholdSuffix fuel inner target rulePos ds).Gives m (e, cs) s)
    (before : Hands rulePos.line r m ds)
    (reads : ∀ {t r e cs}, (inner t).Gives r (e, cs) s → Hands rulePos.line (Row.cons t r) s cs) :
    Hands rulePos.line r s cs := by
  obtain ⟨word, m, rfl, ⟨-, -, rfl, rfl⟩ |
    ⟨is, th, c₁, m₁, start, m₂, bound, c₂, a, g₁, rfl, -, g₂, rfl, -, rfl⟩⟩ :=
    thresholdSuffix_gives.mp g
  · exact before
  · obtain ⟨threshold, g₁⟩ := expect_gives.mp g₁
    have late := popTrailing_hands_late g₁ (.inr ⟨is, threshold⟩) rulePos.line
    simpa using (before.trans late).trans (reads g₂)

/-- **A condition hands over what it has for the rule.** -/
theorem expressionLoop_hands (g : (expressionLoop fuel rulePos n t).Gives r (e, cs) s) :
    Hands rulePos.line (Row.cons t r) s cs := by
  induction n generalizing t r e cs with
  | zero => exact absurd g not_gives_fail
  | succ n ih =>
    obtain ⟨operator, sign, x, g, -⟩ | ⟨-, x, g, -⟩ | ⟨-, x, c, m, g, suffix⟩ |
      ⟨-, x, c, m, g, suffix⟩ := expressionLoop_gives.mp g
    · exact comparison_hands g sign
    · exact (between_hands g).cons t
    · exact thresholdSuffix_hands suffix ((membership_hands g).cons t) ih
    · exact thresholdSuffix_hands suffix ((patternMatch_hands g).cons t) ih

theorem expression_hands (g : (expression fuel t rulePos).Gives r (e, cs) s) :
    Hands rulePos.line (Row.cons t r) s cs := expressionLoop_hands (expression_gives.mp g)

end Read

end QualityRules
