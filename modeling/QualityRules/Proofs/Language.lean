import QualityRules.Proofs.Complete
import QualityRules.Proofs.Conservation

/-!
# Proofs — Language

The language of rules, for texts without comments: a text is read as a rule just if its tokens are
derived in the grammar, and what is read is what they are derived as.

* `Grammar.IsDecl.endsWell`: a declaration does not end with the end of the text.
* `Source.isText_of_ruleOf` and `Source.ruleOf_of_isText` are the two directions for tokens that end
  with a last one; `Source.rule_iff` is both for a text.
-/

namespace QualityRules

open Grammar

variable {source : String} {options : Options} {d : RuleDecl} {ts us : List Token} {k : Option Kind}

namespace Grammar

/-- A member ends with the parenthesis that closes it. -/
theorem IsMember.endsWell {b : Bool} {x : Read.Member} (h : IsMember b ts x) : EndsWell ts := by
  cases h with
  | closed _ _ closes =>
    exact .cons (.append (.single (by simp [closes]) (by simp [Inner, closes])) _) _
  | comma _ _ _ _ closes =>
    exact .cons (.append (.cons (.single (by simp [closes]) (by simp [Inner, closes])) _) _) _

/-- A chain of members ends with a parenthesis. -/
theorem IsChain.endsWell {b : Bool} {operator : Connective} {xs : List Read.Member}
    (h : IsChain b operator ts xs) : EndsWell ts := by
  induction h with
  | one only => exact only.endsWell
  | more _ _ _ ih => exact .append (.cons ih _) _

/-- A declaration does not end with the end of the text. -/
theorem IsDecl.endsWell {b : Bool} (h : IsDecl b ts d) : EndsWell ts := by
  intro k
  cases h with
  | plain is =>
    cases is with
    | @mk t vs ps us e kind values condition =>
      have plain := IsPlain.mk kind values condition
      rw [lastKind_cons, kindBehind_of_kind (by simp [kind])]
      exact inner_of_isPlain plain (by simp [Inner, kind])
  | lone is => exact is.endsWell k
  | combined is _ => exact is.endsWell k

end Grammar

namespace Source

section
variable {last : Token} (others : ∀ t ∈ ts, t.kind.isTerminal = false)
  (terminal : last.kind.isTerminal)
include others terminal

/-- Tokens that are read as a rule are derived in the grammar, apart from comments. -/
theorem isText_solid_of_ruleOf (h : ruleOf (ts ++ [last]) = .ok d) :
    IsText (solid (ts ++ [last])) d.bare := by
  obtain ⟨k, s, g⟩ := ruleOf_eq_ok_iff.mp h
  rw [Row.ofTokens_eq others terminal] at g
  have final := Row.final_behind others terminal
  obtain ⟨us, ms, row, account⟩ := Read.rule_reads g final (K := none) rfl rfl
  obtain ⟨vs, stop, solid_us, ends, is⟩ := account.shape
  cases ends with
  | comma _ listed | bracket _ listed => exact nomatch listed
  | @text u q isEnd =>
    obtain ⟨before, rfl, same, -⟩ := final.of_solid row solid_us isEnd
    -- a declaration goes no further than to the end of the text, so all tokens were read
    have going : lastKind none before ≠ some .eof := by
      rw [← lastKind_solid, same]
      exact (is.endsWell none).2
    have whole := Row.eq_of_behind others terminal row isEnd (ne_eof_of_lastKind going)
    rw [whole, solid_us]
    exact .mk is isEnd

/-- Tokens without comments that are read as a rule are derived in the grammar. -/
theorem isText_of_ruleOf (plain : ∀ t ∈ ts ++ [last], t.kind ≠ .comment)
    (h : ruleOf (ts ++ [last]) = .ok d) : IsText (ts ++ [last]) d := by
  obtain ⟨k, s, g⟩ := ruleOf_eq_ok_iff.mp h
  rw [Row.ofTokens_eq others terminal] at g
  obtain ⟨us, row, le⟩ := bag_le_of_rule g (Row.final_behind others terminal)
  have none : commentsOf us = [] := by
    have first := Row.commentsOf_prefix terminal row
    rwa [commentsOf_eq_nil fun t mem => plain t (List.mem_append_left _ mem),
      List.prefix_nil] at first
  have is := isText_solid_of_ruleOf others terminal h
  rw [none, Multiset.coe_nil] at le
  rwa [solid_eq_self plain, RuleDecl.bare_of_bag (Multiset.le_zero.mp le)] at is

/-- Tokens that are derived in the grammar are read, as what they are derived as. -/
theorem ruleOf_of_isText (h : IsText (ts ++ [last]) d) : ruleOf (ts ++ [last]) = .ok d := by
  generalize tokens : ts ++ [last] = us at h
  cases h with
  | @mk ts' d last' is ends =>
    obtain ⟨rfl, same⟩ := List.append_inj' tokens rfl
    obtain rfl : last = last' := List.head_eq_of_cons_eq same
    have enough : ts.length + 1 ≤ (ts ++ [last]).length + 1 := by simp
    have read := is.gives (Read.DeclEnd.text (q := Row.ending last) ends) enough
    rw [Row.behind_cons, Row.behind_nil, ← Row.ending_eof ends,
      ← Row.ofTokens_eq others terminal] at read
    exact ruleOf_eq_ok_iff.mpr ⟨Tray.empty, _, read⟩

end

/-- What is read as a rule is derived in the grammar, apart from comments. -/
theorem isText_solid_of_rule (h : (rule source options).result = .ok d) :
    IsText (solid (lex source)) d.bare := by
  obtain ⟨ts, last, eq, others, terminal⟩ := lex_eq source
  rw [rule_eq_ok_iff, eq] at h
  rw [eq]
  exact isText_solid_of_ruleOf others terminal h

/-- What is read as a rule is derived in the grammar. -/
theorem isText_of_rule (plain : ∀ t ∈ lex source, t.kind ≠ .comment)
    (h : (rule source options).result = .ok d) : IsText (lex source) d := by
  obtain ⟨ts, last, eq, others, terminal⟩ := lex_eq source
  rw [rule_eq_ok_iff, eq] at h
  rw [eq] at plain ⊢
  exact isText_of_ruleOf others terminal plain h

/-- What is derived in the grammar is read, as what it is derived as. -/
theorem rule_of_isText (h : IsText (lex source) d) : (rule source options).result = .ok d := by
  obtain ⟨ts, last, eq, others, terminal⟩ := lex_eq source
  rw [eq] at h
  rw [rule_eq_ok_iff, eq]
  exact ruleOf_of_isText others terminal h

/-- **A text without comments is read as a rule just if its tokens are derived in the grammar**, and
what is read is what they are derived as. -/
theorem rule_iff (plain : ∀ t ∈ lex source, t.kind ≠ .comment) :
    (rule source options).result = .ok d ↔ IsText (lex source) d :=
  ⟨isText_of_rule plain, rule_of_isText⟩

/-- Two rules in parentheses, one with a threshold. -/
def joinedText : String := "(A \"b\" 3 days in [1, 2] with threshold > 0.5) and (C = now())"

/-- A rule of two members is read and belongs to the language. -/
theorem rule_iff_joinedText : ∃ d, (rule joinedText Options.default).result = .ok d ∧
    IsText (lex joinedText) d := by
  have plain : ∀ t ∈ lex joinedText, t.kind ≠ .comment := by decide +kernel
  obtain ⟨d, read, -⟩ : ∃ d, (rule joinedText Options.default).result = .ok d ∧ True :=
    Outcome.exists_ok (by decide +kernel)
  exact ⟨d, read, (rule_iff plain).mp read⟩

end Source

end QualityRules
