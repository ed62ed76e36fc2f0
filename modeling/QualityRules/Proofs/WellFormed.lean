import QualityRules.Proofs.Coordinates
import QualityRules.Proofs.Derives
import QualityRules.Proofs.Numerals

/-!
# Proofs — WellFormed

What holds of all parts of all trees that are read, beyond what their types say.  Values, names and
comments are spelled as tokens are; dates stand only where the grammar has them.

* `Node.InForm`: what is said of a part by itself; `Node.WellFormed`: and of the dates among its own
  parts.
* `Derives.inForm` and `Derives.compares`: a part that tokens of a text derive is well formed.
* `Source.Yields.wellFormed`: all parts of a tree that is read are well formed.
-/

namespace QualityRules

open Grammar
open Lexeme (isLetter isDigit)

variable {ts : List Token} {t : Token} {m n : Node} {p : Parameter} {d : DateParameter}
  {source : String} {options : Options}

/-- The value is a date. -/
def Parameter.isDate : Parameter → Bool
  | .date _ => true
  | _ => false

/-- What is said of a value.  A string holds no quote; a number is digits, perhaps with a point
behind the first of them, and has a value unless it is an integer of too many digits; a duration is
a number of digits and a unit; a date has both parentheses, the minus sign and the duration, or none
of them. -/
def Parameter.InForm : Parameter → Prop
  | .string p => '"' ∉ p.value.toList
  | .number p => Kind.number.Spells p.value.toList ∧
      (p.decoded = none ↔ p.isInteger ∧ Number.maxDigits < p.value.length)
  | .bool _ => True
  | .duration p => p.number ≠ "" ∧ (∀ c ∈ p.number.toList, isDigit c) ∧
      (p.unit.text = "days" ∨ p.unit.text = "hours")
  | .date p => p.leftParen.isSome = p.duration.isSome ∧ p.minus.isSome = p.duration.isSome ∧
      p.rightParen.isSome = p.duration.isSome

/-- What is said of a condition.  There are no dates in a list or with `between`; a pattern holds no
quote; what is bounded by a threshold is a target, and the threshold is a bound. -/
def Expression.InForm : Expression → Prop
  | .bound (.comparison _) => True
  | .bound (.between e) => e.left.isDate = false ∧ e.right.isDate = false
  | .target (.membership e) => ∀ p ∈ e.values, p.isDate = false
  | .target (.pattern e) => '"' ∉ e.value.toList
  | .withThreshold e => (Node.expression (.target e.target)).isTarget ∧
      (Node.expression (.bound e.threshold)).isBound

namespace Node

/-- What is said of a part by itself.  A combined rule joins two rules or more, none of them a
combined rule; the name of a rule type is a run of letters and no keyword; a comment is a number
sign and what follows it on its line. -/
def InForm : Node → Prop
  | file _ | ruleset _ | rule (.single _) | group _ => True
  | rule (.combined r) => 2 ≤ r.rules.length ∧
      (r.operator.text = "and" ∨ r.operator.text = "or") ∧
      ∀ c ∈ (rule (.combined r)).children, c.isRemark ∨ ∃ x, c = single x
  | ident i => i.name ≠ "" ∧ (∀ c ∈ i.name.toList, isLetter c) ∧
      i.name ∉ Kind.keywords.map Prod.fst
  | parameter p => p.InForm
  | expression e => e.InForm
  | comment c => ∃ body, '\n' ∉ body ∧ c.text.toList = '#' :: body

/-- The date that a node is. -/
def date? : Node → Option DateParameter
  | parameter (.date d) => some d
  | _ => none

/-- A part is in form, and a date before now that it has for its own part is what it compares
with. -/
structure WellFormed (m : Node) : Prop where
  inForm : m.InForm
  compares : ∀ d, parameter (.date d) ∈ m.children → d.isRelative →
    ∃ e, m = expression (.bound (.comparison e)) ∧ e.right = .date d

end Node

/-! ### Tokens -/

/-- No keyword is a name. -/
theorem Kind.not_mem_keywords {word : String} (h : Kind.ofWord word = .ident) :
    word ∉ keywords.map Prod.fst := by
  intro mem
  have none : ∀ w ∈ keywords.map Prod.fst, Kind.ofWord w ≠ .ident := by decide
  exact none word mem h

theorem quote_not_mem_unquote (h : Kind.string.Spells t.text.toList) :
    '"' ∉ (Read.unquote t.text).toList := by
  obtain ⟨body, clean, eq⟩ := h
  simpa [Read.unquote, eq] using clean

theorem Connective.text_cases (c : Connective) : c.text = "and" ∨ c.text = "or" := by
  cases c <;> simp [text]

theorem TimeUnit.text_cases (u : TimeUnit) : u.text = "days" ∨ u.text = "hours" := by
  cases u <;> simp [text]

/-- The parts of a combined rule are rules and comments. -/
theorem Node.child_of_combined {r : CombinedRule} (child : m ∈ (rule (.combined r)).children) :
    m.isRemark ∨ ∃ x, m = single x := by
  simp only [children, ofRule, List.append_assoc, List.mem_append, List.mem_map] at child
  rcases child with remark | ⟨x, -, rfl⟩ | remark
  · exact .inl (isRemark_of_mem_present remark)
  · exact .inr ⟨x, rfl⟩
  · exact .inl (isRemark_of_mem_present remark)

/-- A number that has no point is a run of digits. -/
theorem digits_of_spells (h : Kind.number.Spells t.text.toList)
    (whole : Read.hasPoint t.text = false) :
    t.text ≠ "" ∧ ∀ c ∈ t.text.toList, isDigit c := by
  obtain ⟨ds, some, digits, eq | ⟨fs, -, eq⟩⟩ := h
  · refine ⟨fun none => some ?_, eq ▸ digits⟩
    rw [← eq, none]
    rfl
  · simp [Read.hasPoint, eq] at whole

theorem isInteger_iff (p : NumberParameter) : p.isInteger ↔ '.' ∉ p.value.toList := by
  simp [NumberParameter.isInteger]

/-! ### Derived parts -/

namespace Grammar

/-- A date among values is not before now. -/
theorem IsValue.not_relative (h : IsValue ts (.date d)) : d.isRelative = false := by
  cases h
  rfl

/-- No value of a row is a date before now. -/
theorem IsValues.not_relative {ps : List Parameter} (h : IsValues ts ps) :
    ∀ d, .date d ∈ ps → d.isRelative = false := by
  induction h with
  | nil => exact fun _ mem => nomatch mem
  | cons first _ ih =>
    intro d mem
    rcases List.mem_cons.mp mem with rfl | mem
    · exact first.not_relative
    · exact ih d mem

theorem IsOperand.not_date (h : IsOperand ts p) : p.isDate = false := by
  obtain ⟨is, others⟩ := h
  cases is with
  | now kind => exact absurd kind (others _ List.mem_cons_self)
  | _ => rfl

theorem IsList.not_date {ps : List Parameter} (h : IsList ts ps) :
    ∀ p ∈ ps, p.isDate = false := by
  induction h with
  | one only => simpa using only.not_date
  | more first _ _ ih => exact List.forall_mem_cons.mpr ⟨first.not_date, ih⟩

theorem IsValue.inForm (h : IsValue ts p) (inside : ts ⊆ lex source) : p.InForm := by
  have spells : ∀ {t k}, t ∈ ts → t.kind = k → k.isTerminal = false → k.Spells t.text.toList := by
    rintro t k mem rfl other
    exact spells_of_mem_lex (inside mem) other
  cases h with
  | string kind => exact quote_not_mem_unquote (spells (by simp) kind rfl)
  | number kind =>
    have number := spells (by simp) kind rfl
    refine ⟨number, ?_⟩
    rw [isInteger_iff]
    exact Number.ofText_eq_none_iff number
  | @duration t u unit kind whole unit_kind =>
    obtain ⟨some, digits⟩ := digits_of_spells (spells (by simp) kind rfl) whole
    exact ⟨some, digits, unit.text_cases⟩
  | yes | no => trivial
  | now => exact ⟨rfl, rfl, rfl⟩

theorem IsMoment.inForm (h : IsMoment ts d) : (Parameter.date d).InForm := by
  cases h
  exact ⟨rfl, rfl, rfl⟩

theorem IsCondition.inForm {e : Expression} (h : IsCondition ts e) (inside : ts ⊆ lex source) :
    e.InForm := by
  cases h with
  | bound is =>
    cases is with
    | comparison | moment => trivial
    | between _ left _ right => exact ⟨left.not_date, right.not_date⟩
  | target is =>
    cases is with
    | empty => exact List.forall_mem_nil _
    | membership _ _ values _ => exact values.not_date
    | @pattern word t _ kind =>
      have spells := spells_of_mem_lex (inside (by simp : t ∈ [word, t]))
        (by rw [kind]; rfl)
      rw [kind] at spells
      exact quote_not_mem_unquote spells
  | withThreshold => exact ⟨rfl, rfl⟩

end Grammar

/-- A part that tokens of a text derive is in form. -/
theorem Derives.inForm (h : Derives ts m) (inside : ts ⊆ lex source) : m.InForm := by
  cases h with
  | @ident t kind =>
    have spells := spells_of_mem_lex (inside List.mem_cons_self) (by rw [kind]; rfl)
    rw [kind] at spells
    obtain ⟨some, letters, word⟩ := spells
    rw [String.ofList_toList] at word
    refine ⟨fun none => some ?_, letters, Kind.not_mem_keywords word⟩
    rw [show t.text = "" from none]
    rfl
  | value is => exact is.inForm inside
  | moment is => exact is.inForm
  | condition is => exact is.inForm inside
  | @combined _ operator _ x xs _ several =>
    have more := List.length_pos_of_ne_nil several
    refine ⟨?_, operator.text_cases, fun _ => Node.child_of_combined⟩
    rw [List.length_map, List.length_cons]
    exact Nat.succ_lt_succ more
  | plain | ruleset | file => trivial

/-- A date before now is what some part compares with. -/
theorem Derives.compares (h : Derives ts m) (child : .parameter (.date d) ∈ m.children)
    (relative : d.isRelative) : ∃ e, m = .expression (.bound (.comparison e)) := by
  cases h with
  | ident => cases child
  | value is => cases is <;> cases child
  | moment is =>
    cases is
    obtain eq := List.mem_singleton.mp child
    cases eq
  | condition is =>
    -- neither a list nor `between` takes a date
    have undated : ∀ {ps : List Parameter}, (∀ p ∈ ps, p.isDate = false) → .date d ∉ ps :=
      fun none mem => nomatch none _ mem
    cases is with
    | bound is =>
      cases is with
      | comparison | moment => exact ⟨_, rfl⟩
      | @between _ _ lower _ _ upper _ left _ right =>
        have : .date d ∉ [lower, upper] := undated (by simp [left.not_date, right.not_date])
        exact absurd (by simpa [Node.children, Node.ofExpression, Node.present] using child) this
    | target is =>
      cases is with
      | empty | pattern => cases child
      | membership _ _ values _ =>
        refine absurd ?_ (undated values.not_date)
        simpa [Node.children, Node.ofExpression, Node.present] using child
    | withThreshold =>
      simp [Node.children, Node.ofExpression, Node.present] at child
  | plain is =>
    cases is with
    | @mk t vs ps us e kind values condition =>
      have listed : .date d ∈ ps := by
        simpa [Node.single, Node.children, Node.ofRule, Node.present] using child
      rw [values.not_relative d listed] at relative
      cases relative
  | combined => simp [Node.children, Node.ofRule, Node.present, Node.single] at child
  | ruleset is =>
    cases is
    simp [Node.children, Node.present, Node.inOrder] at child
  | file => simp [Node.children, Node.inOrder] at child

/-! ### Comments make no difference -/

@[simp] theorem Parameter.isDate_bare (p : Parameter) : p.bare.isDate = p.isDate := by
  cases p <;> rfl

theorem Parameter.inForm_bare (p : Parameter) : p.bare.InForm ↔ p.InForm := by
  cases p with
  | date p => simp [Parameter.bare, DateParameter.bare, Parameter.InForm]
  | _ => rfl

theorem Expression.inForm_bare (e : Expression) : e.bare.InForm ↔ e.InForm := by
  cases e with
  | bound e => cases e <;> simp [Expression.bare, Bound.bare, Expression.InForm]
  | target e => cases e <;> simp [Expression.bare, Target.bare, Expression.InForm]
  | withThreshold e => exact iff_of_true ⟨rfl, rfl⟩ ⟨rfl, rfl⟩

theorem Node.inForm_bare (m : Node) : m.bare.InForm ↔ m.InForm := by
  cases m with
  | rule d =>
    cases d with
    | single r => rfl
    | combined r =>
      simp only [bare, RuleDecl.bare, InForm, List.length_map]
      exact and_congr_right' (and_congr_right'
        (iff_of_true (fun _ => child_of_combined) fun _ => child_of_combined))
  | parameter p => exact p.inForm_bare
  | expression e => exact e.inForm_bare
  | _ => rfl

/-- Only a comparison is bare as one. -/
theorem Node.comparison_of_bare {e : Comparison}
    (h : m.bare = expression (.bound (.comparison e))) :
    ∃ e, m = expression (.bound (.comparison e)) := by
  cases m with
  | expression e =>
    cases e with
    | bound e =>
      cases e with
      | comparison e => exact ⟨e, rfl⟩
      | between e => cases h
    | target | withThreshold => cases h
  | _ => cases h

theorem Node.right_of_child {e : Comparison}
    (child : parameter p ∈ (expression (.bound (.comparison e))).children) : e.right = p := by
  rcases List.mem_cons.mp child with eq | remark
  · exact (Node.parameter.inj eq).symm
  · exact nomatch isRemark_of_mem_present remark

/-! ### Trees -/

namespace Source

/-- A comment of a text is a number sign with what follows it on its line. -/
theorem inForm_of_mem_commentsOf {c : Comment} (h : c ∈ commentsOf (lex source)) :
    (Node.comment c).InForm := by
  obtain ⟨t, mem, kind, rfl⟩ := mem_commentsOf.mp h
  have spells := spells_of_mem_lex mem (by rw [kind]; rfl)
  rwa [kind] at spells

/-- **All parts of a tree that is read are well formed**, whichever entry reads it. -/
theorem Yields.wellFormed (h : Yields source options n) (mem : m ∈ n.walk) : m.WellFormed := by
  rcases h.derives mem with remark | ⟨ts, row, derived⟩
  · refine ⟨?_, fun d child => nomatch Node.isRemark_of_mem_children remark child⟩
    cases m with
    | comment c => exact inForm_of_mem_commentsOf (h.mem_commentsOf_lex mem)
    | group g => trivial
    | _ => exact nomatch remark
  · have inside : ts ⊆ lex source := fun t mem => List.mem_of_mem_filter (row.subset mem)
    refine ⟨m.inForm_bare.mp (derived.inForm inside), fun d child relative => ?_⟩
    rcases Node.bare_mem_children child with remark | child'
    · exact nomatch remark
    have relative' : d.bare.isRelative := by
      rwa [show d.bare.isRelative = d.isRelative from Option.isSome_map]
    obtain ⟨e', eq⟩ := derived.compares child' relative'
    obtain ⟨e, rfl⟩ := Node.comparison_of_bare eq
    exact ⟨e, rfl, Node.right_of_child child⟩

/-- A combined rule that compares with a date before now, and has a list with a threshold and a
comment. -/
def formedText : String :=
  "Rules = [(A > (now() - 3 days)) and (B 1.5 in [\"x\"] with threshold > 0.5) # c\n]"

theorem Yields.wellFormed_formedText : ∃ n, Yields formedText Options.default n ∧
    ∃ m ∈ n.walk, (∃ d ∈ m.children.filterMap Node.date?, d.isRelative) ∧ m.WellFormed := by
  obtain ⟨x, read, m, mem, compares⟩ : ∃ x,
      (Source.ruleset formedText Options.default).result = .ok x ∧
        ∃ m ∈ (Node.ruleset x).walk, ∃ d ∈ m.children.filterMap Node.date?, d.isRelative :=
    Outcome.exists_ok (by decide +kernel)
  exact ⟨_, .ruleset read, m, mem, compares, Yields.wellFormed (.ruleset read) mem⟩

end Source

end QualityRules
