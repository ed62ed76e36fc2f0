import QualityRules.Proofs.Follows.Calculus

/-!
# Proofs — Follows — Value

Values and conditions: their readers do the same further down, and with more fuel.  What they ask of
places is only on which line and in which column a comment stands beside another one or beside what
it trails, and that stays.

* `extendsBlock_shift` and `Attached.route_shift`: the two questions that are asked of lines.
* `follows_parameter` reads a value, `follows_expression` a condition.
-/

namespace QualityRules

variable {o : Offset}

/-- A line right below another one stays right below it. -/
theorem Pos.line_succ_shift (p q : Pos) :
    (shift o p).line + 1 = (shift o q).line ↔ p.line + 1 = q.line := by
  simp only [line_shift]
  omega

@[simp] theorem Comment.shift_ofToken (t : Token) : ofToken (shift o t) = shift o (ofToken t) := rfl

namespace Read
open Reading (Follows)

@[simp] theorem extendsBlock_shift (anchor : Pos) (taken : List Comment) (t : Token) :
    extendsBlock (shift o anchor) (shift o taken) (shift o t) = extendsBlock anchor taken t := by
  unfold extendsBlock
  rw [getLast?_shift]
  cases taken.getLast? with
  | none => simp
  | some last =>
    simp only [Option.map_some, Comment.pos_shift, Token.start_shift, Pos.line_succ_shift]
    simp

instance : Shift Attached := ⟨fun o a => ⟨shift o a.own, shift o a.forRule⟩, fun a => by simp⟩

namespace Attached

variable (a : Attached) (comments : List Comment)

@[simp] theorem shift_mk (own forRule : List Comment) :
    shift o (⟨own, forRule⟩ : Attached) = ⟨shift o own, shift o forRule⟩ := rfl

@[simp] theorem route_shift (anchor rulePos : Pos) :
    (shift o a).route (shift o comments) (shift o anchor) (shift o rulePos)
      = shift o (a.route comments anchor rulePos) := by
  obtain ⟨own, forRule⟩ := a
  simp only [route, Pos.line_shift, add_left_inj]
  split <;> simp

@[simp] theorem none_route_shift (anchor rulePos : Pos) :
    none.route (shift o comments) (shift o anchor) (shift o rulePos)
      = shift o (none.route comments anchor rulePos) :=
  route_shift none comments anchor rulePos

@[simp] theorem addForRule_shift :
    (shift o a).addForRule (shift o comments) = shift o (a.addForRule comments) := by
  obtain ⟨own, forRule⟩ := a
  simp [addForRule]

@[simp] theorem addOwn_shift :
    (shift o a).addOwn (shift o comments) = shift o (a.addOwn comments) := by
  obtain ⟨own, forRule⟩ := a
  simp [addOwn]

@[simp] theorem group_shift : (shift o a).group = shift o a.group :=
  CommentGroup.ofList?_shift a.own

end Attached

variable {fuel fuel' : Nat} (le : fuel ≤ fuel') (t : Token) (anchor rulePos : Pos)
include le

/-- The comments that trail a token are read further down. -/
theorem follows_trailing :
    Parse.Follows o (trailing fuel anchor) (trailing fuel' (shift o anchor)) := by
  suffices loop : ∀ m m' taken, m ≤ m' → Parse.Follows o (trailingLoop anchor m taken)
      (trailingLoop (shift o anchor) m' (shift o taken)) from loop fuel fuel' [] le
  intro m
  -- on the fuel: the reader behind has a step to take for each
  induction m with
  | zero => exact fun _ _ _ => .overrun rfl _
  | succ m ih =>
    intro m' taken le
    obtain ⟨m', rfl⟩ : ∃ l, m' = l + 1 := ⟨m' - 1, by omega⟩
    refine follows_pop.bind fun t => ?_
    rw [extendsBlock_shift]
    split
    · have := ih m' (taken ++ [Comment.ofToken t]) (by omega)
      rwa [shift_append] at this
    · exact (follows_push t).bind fun _ => .done taken

theorem follows_popTrailing : Parse.Follows o (popTrailing fuel) (popTrailing fuel') := by
  refine follows_pop.bind fun t => ?_
  rw [Token.kind_shift]
  split
  · exact .done (t, [])
  · exact (follows_trailing le t.start).bind fun comments => .done (t, comments)

/-- Comments are shared out further down as they were. -/
theorem follows_trailingOf : Parse.Follows o (trailingOf fuel anchor rulePos)
    (trailingOf fuel' (shift o anchor) (shift o rulePos)) :=
  (follows_trailing le anchor).bind fun comments =>
    .of_eq (Attached.none_route_shift comments anchor rulePos)

theorem follows_expect (kind : Kind) : Parse.Follows o (expect fuel kind) (expect fuel' kind) := by
  refine (follows_popTrailing le).bind fun (t, comments) => ?_
  simp only [shift_pair, Token.kind_shift, Token.found_shift, Token.start_shift]
  split
  · exact .done (t, comments)
  · exact follows_refuse rfl

theorem follows_number : Parse.Follows o (number fuel t rulePos)
    (number fuel' (shift o t) (shift o rulePos)) := by
  refine follows_pop.bind fun next => ?_
  rw [Token.kind_shift]
  cases TimeUnit.ofKind? next.kind with
  | none =>
    refine (follows_push next).bind fun _ => (follows_trailingOf le t.start rulePos).bind
      fun a => .of_eq ?_
    rw [Attached.group_shift]
    rfl
  | some unit =>
    dsimp only
    rw [Token.text_shift]
    split
    · exact follows_refuse rfl
    · refine (follows_trailingOf le t.start rulePos).bind fun a => .of_eq ?_
      rw [Attached.group_shift]
      rfl

/-- A value moves with its first token. -/
theorem follows_parameter : Parse.Follows o (parameter fuel t rulePos)
    (parameter fuel' (shift o t) (shift o rulePos)) := by
  unfold parameter
  rw [Token.kind_shift]
  cases t.kind with
  | number => exact follows_number le t rulePos
  | string =>
    refine (follows_trailingOf le t.start rulePos).bind fun a => .of_eq ?_
    rw [Attached.group_shift, Token.start_shift, Token.text_shift, ← Pos.shift_addColumns]
    rfl
  | kwTrue | kwFalse | kwNow =>
    refine (follows_trailingOf le t.start rulePos).bind fun a => .of_eq ?_
    rw [Attached.group_shift]
    rfl
  | _ => exact follows_refuse rfl

theorem follows_duration : Parse.Follows o (duration fuel rulePos)
    (duration fuel' (shift o rulePos)) := by
  refine follows_pop.bind fun t => (follows_parameter le t rulePos).bind fun (value, comments) => ?_
  cases value with
  | duration d => exact .done (d, comments)
  | _ => exact follows_refuse rfl

/-- A date before now moves with the parenthesis that opens it. -/
theorem follows_relativeDate (paren : Token) : Parse.Follows o (relativeDate fuel paren rulePos)
    (relativeDate fuel' (shift o paren) (shift o rulePos)) := by
  refine (follows_expect le .kwNow).bind fun (now, comments) =>
    (follows_expect le .minus).bind fun (minus, comments') =>
      (follows_duration le rulePos).bind fun (d, comments'') =>
        (follows_expect le .rightParen).bind fun (close, comments''') => .of_eq ?_
  simp only [shift_pair, Token.start_shift, Attached.none_route_shift, Attached.route_shift,
    Attached.addForRule_shift, Attached.group_shift]
  rfl

theorem follows_operand : Parse.Follows o (operand fuel rulePos)
    (operand fuel' (shift o rulePos)) := by
  refine follows_pop.bind fun t => ?_
  rw [show isOperand (shift o t) = isOperand t from rfl]
  split
  · exact follows_parameter le t rulePos
  · exact follows_refuse rfl

/-! ### Conditions -/

theorem follows_comparison (operator : Comparator) : Parse.Follows o
    (comparison fuel t operator rulePos)
    (comparison fuel' (shift o t) operator (shift o rulePos)) := by
  refine (follows_popTrailing le).bind fun (value, comments) => ?_
  simp only [shift_pair, Token.kind_shift, Token.start_shift, Attached.none_route_shift]
  split
  · refine (follows_parameter le value rulePos).bind fun (right, comments') => .of_eq ?_
    simp only [shift_pair, Attached.addForRule_shift, Attached.group_shift]
    rfl
  · split
    · refine (follows_relativeDate le rulePos value).bind fun (right, comments') => .of_eq ?_
      simp only [shift_pair, Attached.addForRule_shift, Attached.group_shift]
      rfl
    · exact follows_refuse rfl

theorem follows_between : Parse.Follows o (between fuel t rulePos)
    (between fuel' (shift o t) (shift o rulePos)) := by
  refine (follows_operand le rulePos).bind fun (lower, comments) =>
    (follows_expect le .kwAnd).bind fun (conjunction, comments') =>
      (follows_operand le rulePos).bind fun (upper, comments'') => .of_eq ?_
  have first : Attached.none.addForRule (shift o comments)
      = shift o (Attached.none.addForRule comments) :=
    Attached.addForRule_shift Attached.none comments
  simp only [shift_pair, Token.start_shift, first, Attached.route_shift,
    Attached.addForRule_shift, Attached.group_shift]
  rfl

theorem follows_popSkipping : Parse.Follows o (popSkipping fuel) (popSkipping fuel') := by
  suffices loop : ∀ m m' skipped, m ≤ m' → Parse.Follows o (skipCommentsLoop m skipped)
      (skipCommentsLoop m' (shift o skipped)) from loop fuel fuel' [] le
  intro m
  induction m with
  | zero => exact fun _ _ _ => .overrun rfl _
  | succ m ih =>
    intro m' skipped le
    obtain ⟨m', rfl⟩ : ∃ l, m' = l + 1 := ⟨m' - 1, by omega⟩
    refine follows_pop.bind fun t => ?_
    rw [Token.kind_shift]
    split
    · have := ih m' (skipped ++ [Comment.ofToken t]) (by omega)
      rwa [shift_append] at this
    · exact .done (t, skipped)

/-- The values of a list are read further down, with as many steps or more. -/
theorem follows_valuesLoop {m m' : Nat} (steps : m ≤ m') (values : List Parameter)
    (a : Attached) : Parse.Follows o (valuesLoop fuel rulePos m values a)
    (valuesLoop fuel' (shift o rulePos) m' (shift o values) (shift o a)) := by
  induction m generalizing m' values a with
  | zero => exact .overrun rfl _
  | succ m ih =>
    obtain ⟨m', rfl⟩ : ∃ l, m' = l + 1 := ⟨m' - 1, by omega⟩
    refine (follows_popSkipping le).bind fun (item, skipped) => ?_
    simp only [shift_pair, Token.kind_shift, isEmpty_shift, Attached.addOwn_shift,
      show isOperand (shift o item) = isOperand item from rfl]
    split
    · exact .done (item, values, _)
    · split
      · exact follows_refuse rfl
      · refine (follows_parameter le item rulePos).bind fun (value, comments) =>
          (follows_popSkipping le).bind fun (separator, skipped') => ?_
        simp only [shift_pair, Token.kind_shift, Token.found_shift, Attached.addForRule_shift,
          Attached.addOwn_shift]
        rw [show shift o values ++ [shift o value] = shift o (values ++ [value]) by simp]
        split
        · exact .done (separator, values ++ [value], _)
        · split
          · exact follows_refuse rfl
          · exact ih (by omega) _ _

theorem follows_membership : Parse.Follows o (membership fuel t rulePos)
    (membership fuel' (shift o t) (shift o rulePos)) := by
  refine (follows_expect le .leftBracket).bind fun (bracket, comments) => ?_
  simp only [shift_pair, Token.start_shift, Attached.none_route_shift]
  refine (follows_valuesLoop le rulePos le [] _).bind fun (close, values, a) =>
    (follows_trailing le close.start).bind fun comments' => .of_eq ?_
  simp only [shift_pair, Token.start_shift, Attached.route_shift, Attached.group_shift]
  rfl

theorem follows_patternMatch : Parse.Follows o (patternMatch fuel t rulePos)
    (patternMatch fuel' (shift o t) (shift o rulePos)) := by
  refine (follows_popTrailing le).bind fun (pattern, comments) => ?_
  simp only [shift_pair, Token.kind_shift, Token.start_shift, Token.text_shift,
    Token.found_shift, Attached.none_route_shift, Attached.group_shift]
  split
  · exact follows_refuse rfl
  · exact .done (_, _)

/-- A threshold moves when the condition behind it does. -/
theorem follows_thresholdSuffix {inner inner' : Token → Parse (Expression × List Comment)}
    (rest : ∀ t, Parse.Follows o (inner t) (inner' (shift o t))) (target : Target)
    (forRule : List Comment) : Parse.Follows o (thresholdSuffix fuel inner target rulePos forRule)
    (thresholdSuffix fuel' inner' (shift o target) (shift o rulePos) (shift o forRule)) := by
  refine follows_pop.bind fun word => ?_
  rw [Token.kind_shift]
  split
  · exact (follows_push word).bind fun _ => .done (Expression.target target, forRule)
  · refine (follows_expect le .kwThreshold).bind fun (threshold, comments) =>
      follows_pop.bind fun start => ?_
    have a := Attached.route_shift (o := o) ⟨[], forRule⟩ comments word.start rulePos
    simp only [Attached.shift_mk, shift_nil] at a
    simp only [Token.kind_shift, Token.start_shift, a]
    split
    · exact follows_refuse rfl
    · refine (rest start).bind fun (e, comments') => ?_
      cases e with
      | bound bound =>
        refine .of_eq ?_
        simp only [Attached.addForRule_shift, Attached.group_shift]
        rfl
      | _ => exact follows_refuse rfl

/-- **A condition is read further down, with as many steps or more.** -/
theorem follows_expressionLoop {m m' : Nat} (steps : m ≤ m') : Parse.Follows o
    (expressionLoop fuel rulePos m t)
    (expressionLoop fuel' (shift o rulePos) m' (shift o t)) := by
  induction m generalizing m' t with
  | zero => exact .overrun rfl _
  | succ m ih =>
    obtain ⟨m', rfl⟩ : ∃ l, m' = l + 1 := ⟨m' - 1, by omega⟩
    unfold expressionLoop
    rw [Token.kind_shift]
    cases Comparator.ofKind? t.kind with
    | some operator =>
      exact (follows_comparison le t rulePos operator).bind fun (e, comments) => .done (_, comments)
    | none =>
      cases t.kind with
      | kwBetween =>
        exact (follows_between le t rulePos).bind fun (e, comments) => .done (_, comments)
      | kwIn =>
        exact (follows_membership le t rulePos).bind fun (e, comments) =>
          follows_thresholdSuffix le rulePos (fun t => ih t (by omega)) (.membership e) comments
      | kwMatches =>
        exact (follows_patternMatch le t rulePos).bind fun (e, comments) =>
          follows_thresholdSuffix le rulePos (fun t => ih t (by omega)) (.pattern e) comments
      | _ => exact follows_refuse rfl

theorem follows_expression : Parse.Follows o (expression fuel t rulePos)
    (expression fuel' (shift o t) (shift o rulePos)) :=
  follows_expressionLoop le t rulePos le

end Read

end QualityRules
