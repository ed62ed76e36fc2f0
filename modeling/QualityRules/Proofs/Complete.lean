import QualityRules.Proofs.Ledger.Group

/-!
# Proofs — Complete

What the grammar derives, the readers read, and as the part of the tree that it stands for.  No
reader takes a token that is not its own, as long as what comes behind it does not go on with it.

* `Clear`: the next token goes on with no value and no condition.
* `IsValue.gives` … `IsCondition.gives`: values and conditions.
* `IsPlain.gives`, `IsMember.gives` and `IsChain.gives`: rules, members and what joins them.
* `IsDecl.gives`: a declaration with what ends it behind it.
-/

namespace QualityRules

open Read
open ParseRules (Gives)

/-- The next token is no comment. -/
def Quiet (r : Row) : Prop := ∃ t m, r = Row.cons t m ∧ t.kind ≠ .comment

/-- The next token is no comment, no unit and no `with`. -/
def Clear (r : Row) : Prop :=
  ∃ t m, r = Row.cons t m ∧ t.kind ≠ .comment ∧ TimeUnit.ofKind? t.kind = none ∧ t.kind ≠ .kwWith

variable {fuel n : Nat} {anchor rulePos : Pos} {t : Token} {ts us : List Token} {r s : Row}
  {p : Parameter}

/-- Behind something clear no comment comes next. -/
theorem Clear.quiet (h : Clear r) : Quiet r :=
  let ⟨t, m, row, comment, _⟩ := h
  ⟨t, m, row, comment⟩

theorem quiet_cons (h : t.kind ≠ .comment) (r : Row) : Quiet (Row.cons t r) := ⟨t, r, rfl, h⟩

/-- A token that is no comment, no unit and no `with` is clear. -/
theorem clear_of_kind {kind : Kind} (is : t.kind = kind)
    (other : kind ≠ .comment ∧ TimeUnit.ofKind? kind = none ∧ kind ≠ .kwWith) (r : Row) :
    Clear (Row.cons t r) := by
  subst is
  exact ⟨t, r, rfl, other⟩

/-! ### What trails nothing -/

/-- No comment trails where none comes next. -/
theorem Quiet.trailing (h : Quiet r) (hf : 0 < fuel) : (trailing fuel anchor).Gives r [] r := by
  obtain ⟨t, m, rfl, comment⟩ := h
  exact trailing_gives_nil hf comment m

/-- Where no comment is next, nothing is shared out. -/
theorem Quiet.trailingOf (h : Quiet r) (hf : 0 < fuel) :
    (trailingOf fuel anchor rulePos).Gives r .none r := by
  refine trailingOf_gives.mpr ⟨[], h.trailing hf, ?_⟩
  unfold Attached.route
  split <;> rfl

/-- A token that is taken with what trails it comes alone where no comment follows. -/
theorem Quiet.popTrailing (h : Quiet r) (hf : 0 < fuel) (other : t.kind ≠ .eof) :
    (popTrailing fuel).Gives (Row.cons t r) (t, []) r :=
  popTrailing_gives.mpr ⟨r, rfl, .inr ⟨other, h.trailing hf⟩⟩

/-- A token that is expected comes alone where no comment follows. -/
theorem Quiet.expect (h : Quiet r) (hf : 0 < fuel) {kind : Kind} (is : t.kind = kind)
    (other : kind ≠ .eof) : (expect fuel kind).Gives (Row.cons t r) (t, []) r :=
  expect_gives.mpr ⟨is, h.popTrailing hf (is ▸ other)⟩

/-- Nothing is shared out where there are no comments. -/
@[simp] theorem Attached.route_nil (a : Attached) (anchor rulePos : Pos) :
    a.route [] anchor rulePos = a := by
  obtain ⟨own, forRule⟩ := a
  unfold Attached.route
  split
  · simp
  · simp

namespace Grammar

/-! ### Values -/

/-- A value starts with a token that can start one. -/
theorem IsValue.first (h : IsValue ts p) : ∃ t us, ts = t :: us ∧ t.kind.startsParameter := by
  cases h with
  | @string t kind | @number t kind | @yes t kind | @no t kind | @now t kind =>
    exact ⟨t, [], rfl, by rw [kind]; rfl⟩
  | @duration t u unit kind => exact ⟨t, [u], rfl, by rw [kind]; rfl⟩

/-- A value is read from its first token on. -/
theorem IsValue.gives (h : IsValue ts p) (hf : 0 < fuel) (clear : Clear s) :
    ∃ t us, ts = t :: us ∧ t.kind.startsParameter ∧ Quiet (Row.behind us s) ∧
      ∀ rulePos, (parameter fuel t rulePos).Gives (Row.behind us s) (p, []) s := by
  have quiet := clear.quiet
  cases h with
  | @string t kind | @yes t kind | @no t kind | @now t kind =>
    refine ⟨t, [], rfl, by rw [kind]; rfl, quiet, fun rulePos => ?_⟩
    exact parameter_gives.mpr (.inr ⟨.none, quiet.trailingOf hf, by rw [literal, kind]; rfl, rfl⟩)
  | @number t kind =>
    obtain ⟨next, m, rfl, -, no_unit, -⟩ := clear
    refine ⟨t, [], rfl, by rw [kind]; rfl, quiet, fun rulePos => ?_⟩
    exact parameter_gives.mpr (.inl ⟨kind, number_gives.mpr
      ⟨next, m, .none, rfl, rfl, .inl ⟨no_unit, quiet.trailingOf hf, rfl⟩⟩⟩)
  | @duration t u unit kind whole unit_kind =>
    have not_comment : u.kind ≠ .comment := by
      intro e
      simp [e, TimeUnit.ofKind?] at unit_kind
    refine ⟨t, [u], rfl, by rw [kind]; rfl, quiet_cons not_comment s, fun rulePos => ?_⟩
    exact parameter_gives.mpr (.inl ⟨kind, number_gives.mpr
      ⟨u, s, .none, rfl, rfl, .inr ⟨unit, unit_kind, whole, quiet.trailingOf hf, rfl⟩⟩⟩)

/-- An operand starts with a token that can, and is read where something clear follows. -/
theorem IsOperand.gives (h : IsOperand ts p) (hf : 0 < fuel) (clear : Clear s) :
    ∃ t us, ts = t :: us ∧ isOperand t ∧
      ∀ rulePos, (parameter fuel t rulePos).Gives (Row.behind us s) (p, []) s := by
  obtain ⟨t, us, rfl, starts, -, read⟩ := h.1.gives hf clear
  have not_now := h.2 t List.mem_cons_self
  exact ⟨t, us, rfl, by simp [isOperand, starts, not_now], read⟩

/-- An operand is read from its first token on. -/
theorem IsOperand.operand (h : IsOperand ts p) (hf : 0 < fuel) (clear : Clear s) (rulePos : Pos) :
    (operand fuel rulePos).Gives (Row.behind ts s) (p, []) s := by
  obtain ⟨t, us, rfl, starts, read⟩ := h.gives hf clear
  exact operand_gives.mpr ⟨t, _, rfl, starts, read rulePos⟩

/-- What starts a value is clear. -/
theorem clear_of_startsParameter (h : t.kind.startsParameter) (r : Row) : Clear (Row.cons t r) := by
  refine ⟨t, r, rfl, ?_⟩
  cases e : t.kind <;> simp_all [Kind.startsParameter, TimeUnit.ofKind?]

/-- What starts a condition is clear. -/
theorem clear_of_startsExpression (h : t.kind.startsExpression) (r : Row) :
    Clear (Row.cons t r) := by
  refine ⟨t, r, rfl, ?_⟩
  cases e : t.kind <;> simp_all [Kind.startsExpression, TimeUnit.ofKind?]

/-- A date before now starts with a parenthesis and is read behind it. -/
theorem IsMoment.gives {d : DateParameter} (h : IsMoment ts d) (hf : 0 < fuel) (quiet : Quiet s) :
    ∃ paren us, ts = paren :: us ∧ paren.kind = .leftParen ∧ Quiet (Row.behind us s) ∧
      ∀ rulePos, (relativeDate fuel paren rulePos).Gives (Row.behind us s) (d, []) s := by
  cases h with
  | @mk paren now minus ws d' close opens now_kind minus_kind less closes =>
    have clear : Clear (Row.cons close s) := clear_of_kind closes (by decide) s
    obtain ⟨t, us, rfl, starts, -, read⟩ := less.gives hf clear
    have quiet_t : Quiet (Row.cons t (Row.behind us (Row.cons close s))) :=
      (clear_of_startsParameter starts _).quiet
    refine ⟨paren, now :: minus :: (t :: us) ++ [close], rfl, opens,
      quiet_cons (by simp [now_kind]) _, fun rulePos => ?_⟩
    rw [Row.behind_append]
    refine relativeDate_gives.mpr ⟨now, [], _, minus, [], _, d', [], _, close, [], .none,
      (quiet_cons (by simp [minus_kind]) _).expect hf now_kind nofun,
      quiet_t.expect hf minus_kind nofun,
      duration_gives.mpr ⟨t, _, rfl, read rulePos⟩, quiet.expect hf closes nofun, ?_, rfl, rfl⟩
    simp [Attached.addForRule, Attached.none]

/-! ### Conditions -/

/-- A bound is read from its first token on. -/
theorem IsBound.gives {b : Bound} (h : IsBound ts b) (hf : 0 < fuel) (clear : Clear s) :
    ∃ t us, ts = t :: us ∧ t.kind.startsExpression ∧ ∀ rulePos n,
      (expressionLoop fuel rulePos (n + 1) t).Gives (Row.behind us s) (.bound b, []) s := by
  have starts : ∀ {t : Token} {operator : Comparator}, Comparator.ofKind? t.kind = some operator →
      t.kind.startsExpression := by
    intro t operator kind
    cases e : t.kind <;> simp_all [Comparator.ofKind?, Kind.startsExpression]
  have other : ∀ {t : Token}, t.kind.startsParameter → t.kind ≠ .eof := by
    intro t starts e
    simp [e, Kind.startsParameter] at starts
  cases h with
  | @comparison sign operator us p kind right =>
    obtain ⟨t, vs, rfl, value, quiet, read⟩ := right.gives hf clear
    refine ⟨sign, t :: vs, rfl, starts kind, fun rulePos n => expressionLoop_gives.mpr (.inl
      ⟨operator, kind, _, comparison_gives.mpr ⟨t, [], _, p, [], .none,
        quiet.popTrailing hf (other value), .inl ⟨value, read _⟩, ?_, rfl, rfl⟩, rfl⟩)⟩
    simp [Attached.addForRule, Attached.none]
  | @moment sign operator us d kind right =>
    obtain ⟨paren, vs, rfl, opens, quiet, read⟩ := right.gives hf clear.quiet
    refine ⟨sign, paren :: vs, rfl, starts kind, fun rulePos n => expressionLoop_gives.mpr (.inl
      ⟨operator, kind, _, comparison_gives.mpr ⟨paren, [], _, .date d, [], .none,
        quiet.popTrailing hf (by simp [opens]), .inr ⟨opens, d, read _, rfl⟩, ?_, rfl, rfl⟩, rfl⟩)⟩
    simp [Attached.addForRule, Attached.none]
  | @between word us lower conj ws upper kind left joins right =>
    have clear_conj : Clear (Row.cons conj (Row.behind ws s)) := clear_of_kind joins (by decide) _
    obtain ⟨t, vs, rfl, value, -⟩ := right.gives hf clear
    have quiet_t := (clear_of_startsParameter (startsParameter_of_isOperand value)
      (Row.behind vs s)).quiet
    refine ⟨word, us ++ conj :: t :: vs, rfl, by rw [kind]; rfl, fun rulePos n =>
      expressionLoop_gives.mpr (.inr (.inl ⟨kind, _, between_gives.mpr ⟨lower, [], _, conj, [], _,
        upper, [], .none, ?_, quiet_t.expect hf joins (by simp), right.operand hf clear _, ?_, rfl,
        rfl⟩, rfl⟩))⟩
    · rw [Row.behind_append]
      exact left.operand hf clear_conj rulePos
    · simp [Attached.addForRule, Attached.none]

/-- A list starts with a token that can start a value. -/
theorem IsList.first {ps : List Parameter} (h : IsList ts ps) :
    ∃ t us, ts = t :: us ∧ t.kind.startsParameter := by
  cases h with
  | one only => exact only.1.first
  | @more us p comma vs ps first kind others =>
    obtain ⟨t, us, rfl, starts⟩ := first.1.first
    exact ⟨t, us ++ comma :: vs, rfl, starts⟩

/-- The values of a list are read one after the other up to the bracket that closes it. -/
theorem IsList.gives {ps values : List Parameter} {close : Token} (h : IsList ts ps)
    (hf : 0 < fuel) (closes : close.kind = .rightBracket) (hn : ts.length ≤ n) :
    (valuesLoop fuel rulePos n values .none).Gives (Row.behind ts (Row.cons close s))
      (close, values ++ ps, .none) s := by
  have solid : ∀ {t : Token}, isOperand t → t.kind ≠ .comment := by
    intro t operand e
    simp [isOperand, e, Kind.startsParameter] at operand
  have nothing : .none = ((Attached.none.addOwn []).addForRule []).addOwn [] := rfl
  induction h generalizing n values with
  | @one us p only =>
    have clear : Clear (Row.cons close s) := clear_of_kind closes (by decide) s
    obtain ⟨t, us, rfl, operand, read⟩ := only.gives hf clear
    cases n with
    | zero => exact absurd hn (Nat.not_succ_le_zero _)
    | succ n =>
      exact valuesLoop_gives.mpr ⟨t, [], _, popSkipping_gives_nil hf (solid operand) _,
        .inr ⟨operand, p, [], _, close, [], s, .none, read rulePos,
          popSkipping_gives_nil hf (by simp [closes]) s, nothing,
          .inl ⟨closes, rfl, rfl, rfl, rfl⟩⟩⟩
  | @more us p comma vs qs first kind _ ih =>
    have clear : Clear (Row.cons comma (Row.behind vs (Row.cons close s))) :=
      clear_of_kind kind (by decide) _
    obtain ⟨t, us, rfl, operand, read⟩ := first.gives hf clear
    cases n with
    | zero => exact absurd hn (Nat.not_succ_le_zero _)
    | succ n =>
      have fits : vs.length ≤ n := by
        simp only [List.cons_append, List.length_cons, List.length_append] at hn
        omega
      have rest : (valuesLoop fuel rulePos n (values ++ [p]) .none).Gives _ _ _ := ih fits
      rw [List.append_assoc, List.singleton_append] at rest
      rw [Row.behind_append]
      exact valuesLoop_gives.mpr ⟨t, [], _, popSkipping_gives_nil hf (solid operand) _,
        .inr ⟨operand, p, [], _, comma, [], _, .none, read rulePos,
          popSkipping_gives_nil hf (by simp [kind]) _, nothing, .inr ⟨kind, rest⟩⟩⟩

/-- A target is read from its first token on, and then what may follow it. -/
theorem IsTarget.gives {e : Target} (h : IsTarget ts e) (hf : ts.length ≤ fuel) (quiet : Quiet r) :
    ∃ t us, ts = t :: us ∧ t.kind.startsExpression ∧ ∀ {rulePos n x cs s},
      (thresholdSuffix fuel (expressionLoop fuel rulePos n) e rulePos []).Gives r (x, cs) s →
      (expressionLoop fuel rulePos (n + 1) t).Gives (Row.behind us r) (x, cs) s := by
  cases h with
  | @empty word left right kind opens closes =>
    have positive : 0 < fuel := Nat.lt_of_lt_of_le (Nat.succ_pos _) hf
    obtain ⟨m, rfl⟩ : ∃ m, fuel = m + 1 := ⟨fuel - 1, by omega⟩
    refine ⟨word, [left, right], rfl, by rw [kind]; rfl, fun {rulePos n x cs s} rest =>
      expressionLoop_gives.mpr (.inr (.inr (.inl ⟨kind, _, [], r, membership_gives.mpr
        ⟨left, [], _, right, [], .none, r, [], .none,
          (quiet_cons (by simp [closes]) r).expect positive opens nofun, ?_,
          quiet.trailing positive, by simp, rfl, rfl⟩, rest⟩)))⟩
    refine valuesLoop_gives.mpr ⟨right, [], r,
      popSkipping_gives_nil positive (by simp [closes]) r, .inl ⟨closes, rfl, rfl, rfl, ?_, rfl⟩⟩
    simp [Attached.addOwn, Attached.none]
  | @membership word left ts ps right kind opens values closes =>
    have positive : 0 < fuel := Nat.lt_of_lt_of_le (Nat.succ_pos _) hf
    have fits : ts.length ≤ fuel := by
      simp only [List.cons_append, List.length_cons, List.length_append] at hf
      omega
    have quiet_ts : Quiet (Row.behind ts (Row.cons right r)) := by
      obtain ⟨t, us, rfl, starts⟩ := values.first
      exact (clear_of_startsParameter starts _).quiet
    refine ⟨word, left :: ts ++ [right], rfl, by rw [kind]; rfl, fun {rulePos n x cs s} rest =>
      expressionLoop_gives.mpr (.inr (.inr (.inl ⟨kind, _, [], r, membership_gives.mpr
        ⟨left, [], Row.behind ts (Row.cons right r), right, ps, .none, r, [], .none, ?_, ?_,
          quiet.trailing positive, by simp, rfl, rfl⟩, rest⟩)))⟩
    · rw [Row.behind_append]
      exact quiet_ts.expect positive opens nofun
    · rw [Attached.route_nil]
      exact values.gives positive closes fits
  | @pattern word t kind text =>
    have positive : 0 < fuel := Nat.lt_of_lt_of_le (Nat.succ_pos _) hf
    exact ⟨word, [t], rfl, by rw [kind]; rfl, fun {rulePos n x cs s} rest =>
      expressionLoop_gives.mpr (.inr (.inr (.inr ⟨kind, _, [], r, patternMatch_gives.mpr
        ⟨t, [], .none, text, quiet.popTrailing positive (by simp [text]), by simp, rfl, rfl⟩,
          rest⟩)))⟩

/-- A condition is read from its first token on. -/
theorem IsCondition.gives {e : Expression} (h : IsCondition ts e) (hf : ts.length ≤ fuel)
    (clear : Clear s) :
    ∃ t us, ts = t :: us ∧ t.kind.startsExpression ∧
      ∀ rulePos, (expression fuel t rulePos).Gives (Row.behind us s) (e, []) s := by
  cases h with
  | @bound ts b is =>
    have positive : 0 < fuel := by
      obtain ⟨t, us, rfl, -⟩ := is.gives Nat.one_pos clear
      exact Nat.lt_of_lt_of_le (Nat.succ_pos _) hf
    obtain ⟨t, us, rfl, starts, read⟩ := is.gives positive clear
    obtain ⟨n, rfl⟩ : ∃ n, fuel = n + 1 := ⟨fuel - 1, by omega⟩
    exact ⟨t, us, rfl, starts, fun rulePos => expression_gives.mpr (read rulePos n)⟩
  | @target ts e is =>
    obtain ⟨t, us, rfl, starts, read⟩ := is.gives hf clear.quiet
    obtain ⟨n, rfl⟩ : ∃ n, fuel = n + 1 := ⟨fuel - 1, by simp at hf; omega⟩
    obtain ⟨u, m, rfl, -, -, other⟩ := clear
    exact ⟨t, us, rfl, starts, fun rulePos => expression_gives.mpr (read (thresholdSuffix_gives.mpr
      ⟨u, m, rfl, .inl ⟨other, rfl, rfl, rfl⟩⟩))⟩
  | @withThreshold ts target word word' us b is kind kind' threshold =>
    have size : ts.length + (us.length + 2) ≤ fuel := by simpa using hf
    obtain ⟨n, rfl⟩ : ∃ n, fuel = n + 1 + 1 := ⟨fuel - 2, by omega⟩
    obtain ⟨u, vs, rfl, starts', read'⟩ := threshold.gives (Nat.succ_pos (n + 1)) clear
    have quiet_u := (clear_of_startsExpression starts' (Row.behind vs s)).quiet
    have quiet_word : Quiet (Row.cons word (Row.cons word' (Row.behind (u :: vs) s))) :=
      quiet_cons (by simp [kind]) _
    obtain ⟨t, ws, rfl, starts, read⟩ := is.gives (Nat.le_of_add_right_le size) quiet_word
    refine ⟨t, ws ++ word :: word' :: u :: vs, rfl, starts, fun rulePos => expression_gives.mpr ?_⟩
    rw [Row.behind_append]
    refine read (thresholdSuffix_gives.mpr ⟨word, _, rfl, .inr ⟨kind, word', [], _, u, _, b, [],
      .none, quiet_u.expect (Nat.succ_pos _) kind' nofun, rfl, starts', read' rulePos n, ?_, rfl,
      rfl⟩⟩)
    rw [Attached.route_nil]
    rfl

/-! ### Rules -/

variable {place : Place} {d : Draft} {k l : Tray} {out : Lead} {ps : List Parameter} {j : Nat}

/-- Behind values comes what comes behind them, or the first value. -/
theorem IsValues.clear (h : IsValues ts ps) (clear : Clear s) : Clear (Row.behind ts s) := by
  cases h with
  | nil => exact clear
  | @cons us p vs ps first _ =>
    obtain ⟨t, us, rfl, starts⟩ := first.first
    exact clear_of_startsParameter starts _

/-- A rule with its type takes all values that come. -/
theorem IsValues.gives (h : IsValues ts ps) (hf : 0 < fuel) (clear : Clear s) {ty : Ident}
    (typed : d.ruleType = some ty) (before : d.expression = none) (hn : ts.length + j ≤ n)
    (rest : ∀ n, j ≤ n → (leadLoop fuel place n
      { d with parameters := d.parameters ++ ps }).Gives k s out l r) :
    (leadLoop fuel place n d).Gives k (Row.behind ts s) out l r := by
  induction h generalizing d n with
  | nil =>
    have same : { d with parameters := d.parameters ++ [] } = d := by simp
    rw [same] at rest
    exact rest n (by simpa using hn)
  | @cons us p vs ps first others ih =>
    obtain ⟨t, us, rfl, starts, -, read⟩ := first.gives hf (others.clear clear)
    cases n with
    | zero => simp at hn
    | succ n =>
      rw [Row.behind_append]
      refine leadLoop_gives.mpr (.inl ⟨_, k, _, .value starts typed before (read ty.pos), ?_⟩)
      refine ih (by exact typed) (by exact before) ?_ fun n fits => ?_
      · simp only [List.cons_append, List.length_cons, List.length_append] at hn
        omega
      · have := rest n fits
        simpa using this

/-- A rule by itself is read up to what ends it, on an empty tray. -/
theorem IsPlain.gives {x : Rule} (h : IsPlain ts x) (clear : Clear s) (hf : ts.length ≤ fuel)
    (hn : ts.length + 1 ≤ n) (stop : ∀ d ty, d.ruleType = some ty → d.toRule ty = x →
      LeadEnd place d Tray.empty s (.rule (d.toRule ty)) Tray.empty r) :
    (leadLoop fuel place n Draft.empty).Gives Tray.empty (Row.behind ts s) (.rule x)
      Tray.empty r := by
  cases h with
  | @mk t vs ps us e kind values condition =>
    have positive : 0 < fuel := Nat.lt_of_lt_of_le (Nat.succ_pos _) hf
    have clear_us : Clear (Row.behind us s) := by
      cases condition with
      | none => exact clear
      | some is =>
        obtain ⟨u, ws, rfl, starts, -⟩ := is.gives (Nat.le_refl _) clear
        exact clear_of_startsExpression starts _
    have quiet := (values.clear clear_us).quiet
    have size : vs.length + (us.length + 1) ≤ n - 1 ∧ n - 1 + 1 = n := by
      simp only [List.length_cons, List.length_append] at hn
      omega
    have fits : us.length ≤ fuel := by
      simp only [List.length_cons, List.length_append] at hf
      omega
    rw [← size.2, Row.behind_cons, Row.behind_append]
    refine leadLoop_gives.mpr
      (.inl ⟨_, Tray.empty, _, .ruleType kind rfl (quiet.trailing positive), ?_⟩)
    refine values.gives positive clear_us rfl rfl size.1 fun n one_le => ?_
    cases condition with
    | none =>
      obtain ⟨n, rfl⟩ : ∃ m, n = m + 1 := ⟨n - 1, by omega⟩
      exact leadLoop_gives.mpr (.inr (stop _ _ rfl rfl))
    | some is =>
      obtain ⟨u, ws, rfl, starts, read⟩ := is.gives fits clear
      obtain ⟨n, rfl⟩ : ∃ m, n = m + 1 + 1 := ⟨n - 2, by simp at one_le; omega⟩
      refine leadLoop_gives.mpr (.inl ⟨_, Tray.empty, s, .condition starts rfl rfl (read _), ?_⟩)
      exact leadLoop_gives.mpr (.inr (stop _ _ rfl rfl))

end Grammar

/-! ### What ends a declaration -/

namespace Read.DeclEnd

variable {inRuleset nested : Bool} {stop : List Token} {d : Draft} {ty : Ident} {g : GroupDraft}

/-- What ends a declaration goes on with no value and no condition. -/
theorem clear (h : DeclEnd inRuleset stop s) : Clear (Row.behind stop s) := by
  cases h with
  | text kind => exact clear_of_kind kind (by decide) _
  | comma kind _ => exact clear_of_kind kind (by decide) _
  | bracket kind _ => exact clear_of_kind kind (by decide) _

/-- What ends a declaration ends a rule with a type. -/
theorem leadEnd (h : DeclEnd inRuleset stop s) (typed : d.ruleType = some ty) :
    LeadEnd ⟨inRuleset, nested⟩ d Tray.empty (Row.behind stop s) (.rule (d.toRule ty)) Tray.empty
      s := by
  cases h with
  | text kind => exact .text kind typed
  | comma kind listed => exact .comma kind listed typed
  | bracket kind listed => exact .bracket kind listed typed

/-- What ends a declaration ends a combined rule in which no member has to follow. -/
theorem groupEnd (h : DeclEnd inRuleset stop s) (complete : g.expectsMember = false) :
    GroupEnd inRuleset g (Row.behind stop s) s := by
  cases h with
  | text kind => exact .text kind complete
  | comma kind listed => exact .comma kind listed complete
  | bracket kind listed => exact .bracket kind listed complete

end Read.DeclEnd

namespace Grammar

/-! ### Rules in parentheses -/

variable {inRuleset : Bool} {x : Member} {xs : List Member} {operator : Connective}
  {g : GroupDraft} {stop : List Token}

/-- A rule in parentheses is read from the opening one on, on an empty tray. -/
theorem IsMember.gives (h : IsMember inRuleset ts x) (hf : ts.length ≤ fuel) :
    ∃ paren us, ts = paren :: us ∧ paren.kind = .leftParen ∧
      (member fuel inRuleset paren).Gives Tray.empty (Row.behind us s) x Tray.empty s := by
  cases h with
  | @closed paren us y close opens plain closes =>
    refine ⟨paren, us ++ [close], rfl, opens,
      member_gives.mpr ⟨y, Tray.empty, close, ?_, closes, rfl, rfl⟩⟩
    have size : us.length + 1 ≤ fuel := by
      simp only [List.length_cons, List.length_append] at hf
      omega
    rw [Row.behind_append]
    have clear : Clear (Row.cons close s) := clear_of_kind closes (by decide) s
    exact lead_gives.mpr (plain.gives clear (Nat.le_of_succ_le size) size
      fun d ty typed _ => .paren closes rfl typed)
  | @comma paren us y comma close listed opens plain separates closes =>
    refine ⟨paren, us ++ [comma, close], rfl, opens,
      member_gives.mpr ⟨y, Tray.empty, close, ?_, closes, rfl, rfl⟩⟩
    have size : us.length + 1 ≤ fuel := by
      simp only [List.length_cons, List.length_append] at hf
      omega
    rw [Row.behind_append]
    have clear : Clear (Row.cons comma (Row.cons close s)) := clear_of_kind separates (by decide) _
    exact lead_gives.mpr (plain.gives clear (Nat.le_of_succ_le size) size
      fun d ty typed _ => .comma separates listed typed)

/-- Members and what joins them are read up to the end of the declaration. -/
theorem IsChain.gives (h : IsChain inRuleset operator ts xs) (hf : ts.length ≤ fuel)
    (ends : DeclEnd inRuleset stop s) (hn : ts.length + 1 ≤ n) (expects : g.expectsMember)
    (same : ∀ o ∈ g.operator, o = operator) :
    (groupLoop fuel inRuleset n g).Gives Tray.empty (Row.behind ts (Row.behind stop s))
      ⟨g.members ++ xs, if xs.length = 1 then g.operator else some operator, false, g.trailing⟩
      Tray.empty s := by
  -- on the chain: each member leaves an empty tray and a draft that expects a connective
  induction h generalizing g n with
  | @one ts x only =>
    obtain ⟨paren, us, rfl, opens, read⟩ := only.gives (s := Row.behind stop s) hf
    obtain ⟨n, rfl⟩ : ∃ m, n = m + 1 + 1 := ⟨n - 2, by simp at hn; omega⟩
    refine groupLoop_gives.mpr (.inl ⟨_, Tray.empty, _, .member opens expects read, ?_⟩)
    exact groupLoop_gives.mpr (.inr ⟨ends.groupEnd rfl, rfl, rfl⟩)
  | @more ts x conj us xs first joins others ih =>
    have size : ts.length + (us.length + 1) ≤ fuel ∧ ts.length + (us.length + 1) + 1 ≤ n := by
      simp only [List.length_cons, List.length_append] at hf hn
      omega
    obtain ⟨paren, vs, rfl, opens, read⟩ :=
      first.gives (s := Row.cons conj (Row.behind us (Row.behind stop s)))
        (Nat.le_of_add_right_le size.1)
    obtain ⟨n, rfl⟩ : ∃ m, n = m + 1 + 1 := ⟨n - 2, by omega⟩
    rw [Row.behind_append]
    refine groupLoop_gives.mpr (.inl ⟨_, Tray.empty, _, .member opens expects read, ?_⟩)
    refine groupLoop_gives.mpr (.inl ⟨_, Tray.empty, _, .connective joins rfl same, ?_⟩)
    have rest := ih (n := n) (g := ⟨g.members ++ [x], some operator, true, g.trailing⟩) (by omega)
      (by simp at size; omega) rfl (by simp)
    have several : (x :: xs).length ≠ 1 := by
      cases others <;> simp
    rw [if_neg several]
    simpa using rest

/-- A member starts with a parenthesis. -/
theorem IsMember.first (h : IsMember inRuleset ts x) :
    ∃ paren us, ts = paren :: us ∧ paren.kind = .leftParen := by
  cases h with
  | closed opens _ _ | comma _ opens _ _ _ => exact ⟨_, _, rfl, opens⟩

/-- A chain of members starts with a parenthesis. -/
theorem IsChain.first (h : IsChain inRuleset operator ts xs) :
    ∃ paren us, ts = paren :: us ∧ paren.kind = .leftParen := by
  cases h with
  | one only => exact only.first
  | more first _ _ =>
    obtain ⟨paren, us, rfl, opens⟩ := first.first
    exact ⟨paren, _, rfl, opens⟩

/-- A parenthesis before the type goes back to the row and opens a group. -/
theorem IsChain.rule {decl : RuleDecl} (h : IsChain inRuleset operator ts xs)
    (ends : DeclEnd inRuleset stop s) (hf : ts.length + 1 ≤ fuel)
    (done : (GroupDraft.toRule ⟨xs, if xs.length = 1 then none else some operator, false, []⟩
      none).Gives Tray.empty s decl Tray.empty s) :
    (rule fuel inRuleset).Gives Tray.empty (Row.behind ts (Row.behind stop s)) decl
      Tray.empty s := by
  obtain ⟨paren, us, rfl, opens⟩ := h.first
  obtain ⟨n, rfl⟩ : ∃ n, fuel = n + 1 := ⟨fuel - 1, by omega⟩
  have lead : (lead ↑(n + 1) ⟨inRuleset, false⟩).Gives Tray.empty
      (Row.behind (paren :: us) (Row.behind stop s)) (.group Draft.empty paren) Tray.empty
      (Row.behind us (Row.behind stop s)) :=
    lead_gives.mpr (leadLoop_gives.mpr (.inr (.group opens)))
  have loop := h.gives (s := s) (g := GroupDraft.empty) (Nat.le_of_succ_le hf) ends hf rfl nofun
  exact rule_gives.mpr (.inr ⟨Draft.empty, paren, Tray.empty, _, lead, rfl,
    group_gives.mpr ⟨_, loop, done⟩⟩)

/-! ### Declarations -/

/-- A declaration starts with a name or a parenthesis. -/
theorem IsDecl.first {decl : RuleDecl} (h : IsDecl inRuleset ts decl) :
    ∃ t us, ts = t :: us ∧ (t.kind = .ident ∨ t.kind = .leftParen) := by
  cases h with
  | plain is =>
    cases is with
    | mk kind _ _ => exact ⟨_, _, rfl, .inl kind⟩
  | lone is =>
    obtain ⟨t, us, rfl, opens⟩ := is.first
    exact ⟨t, us, rfl, .inr opens⟩
  | combined is _ =>
    obtain ⟨t, us, rfl, opens⟩ := is.first
    exact ⟨t, us, rfl, .inr opens⟩

/-- A declaration with its end behind it is read, on an empty tray. -/
theorem IsDecl.gives {decl : RuleDecl} (h : IsDecl inRuleset ts decl)
    (ends : DeclEnd inRuleset stop s) (hf : ts.length + 1 ≤ fuel) :
    (Read.rule fuel inRuleset).Gives Tray.empty (Row.behind ts (Row.behind stop s)) decl
      Tray.empty s := by
  cases h with
  | plain is =>
    exact rule_gives.mpr (.inl ⟨_, lead_gives.mpr (is.gives ends.clear (Nat.le_of_succ_le hf) hf
      fun d ty typed _ => ends.leadEnd typed), rfl⟩)
  | @lone ts x is =>
    have bare : x.rule.description = none ∧ x.rule.comments = none := by
      cases is with
      | closed _ plain _ | comma _ _ plain _ _ =>
        cases plain
        exact ⟨rfl, rfl⟩
    -- no connective occurs in a chain of one, so either will do
    have chain : IsChain inRuleset .and ts [x] := .one is
    refine chain.rule ends hf (toRule_gives.mpr ⟨.inl ⟨x, rfl, rfl, ?_⟩, rfl, rfl⟩)
    obtain ⟨_, ⟨_, _, _, _, _⟩, _⟩ := x
    obtain ⟨rfl, rfl⟩ := bare
    rfl
  | @combined operator ts x xs is several =>
    have more : (x :: xs).length ≠ 1 := by simpa using several
    exact is.rule ends hf (toRule_gives.mpr
      ⟨.inr ⟨operator, x, xs, if_neg more, rfl, rfl⟩, rfl, rfl⟩)

end Grammar

end QualityRules
