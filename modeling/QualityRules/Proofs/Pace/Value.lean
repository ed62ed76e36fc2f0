import QualityRules.Proofs.Pace.Calculus

/-!
# Proofs — Pace — Value

Values and conditions: their readers leave no more tokens than there were, they refuse the text only
at one of its tokens, and they are not stopped before they took as many tokens as they have steps.

* A reader that hands a token on has taken it from what remains: `spends_popTrailing`,
  `spends_expect`, `spends_popSkipping`.
* `spends_trailingLoop`, `spends_skipCommentsLoop`, `spends_valuesLoop` and `spends_expressionLoop`
  are the loops: what goes on took a token.
* `spends_parameter` reads a value, `spends_expression` a condition.
-/

namespace QualityRules.Read
open Reading (Spends)

variable {ts : List Token} {t : Token} {fuel b m n : Nat} {r s : Row} {anchor rulePos : Pos}

/-- The comments that trail are read within as many steps as tokens remain. -/
theorem spends_trailingLoop (taken : List Comment) (h : r.Remains ts n) (le : b ≤ m) :
    Parse.Spends ts b n (trailingLoop anchor m taken) r fun _ s => s.Remains ts n := by
  -- on the steps: each further comment takes one, and a token
  induction m generalizing b n r taken with
  | zero => exact .spent h rfl (Nat.le_zero.mp le)
  | succ m ih =>
    refine (spends_pop h).bind fun t s h => ?_
    split
    · next more =>
      have going : t.kind ≠ .eof := by
        simp only [extendsBlock, Bool.and_eq_true, decide_eq_true_eq] at more
        simp [more.1]
      obtain ⟨n, rfl, rest⟩ := h.step going
      exact (ih _ rest (by omega)).succ.imp (fun _ => id) fun _ _ h => h.mono (Nat.le_succ n)
    · exact (spends_push h).bind fun _ _ h => .done h

theorem spends_trailing (h : r.Remains ts n) (le : b ≤ fuel) :
    Parse.Spends ts b n (trailing fuel anchor) r fun _ s => s.Remains ts n :=
  spends_trailingLoop [] h le

theorem spends_popTrailing (h : r.Remains ts n) (le : b ≤ fuel) :
    Parse.Spends ts b n (popTrailing fuel) r fun x s => (Row.cons x.1 s).Remains ts n := by
  refine (spends_pop h).bind fun t s h => ?_
  split
  · exact .done h
  · next going =>
    obtain ⟨n, rfl, rest⟩ := h.step going
    exact ((spends_trailing rest le).more (Nat.le_succ n)).bind fun _ _ rest =>
      .done (h.replace going rest (Nat.lt_succ_self n))

theorem spends_trailingOf (h : r.Remains ts n) (le : b ≤ fuel) :
    Parse.Spends ts b n (trailingOf fuel anchor rulePos) r fun _ s => s.Remains ts n :=
  (spends_trailing h le).bind fun _ _ h => .done h

theorem spends_expect (kind : Kind) (h : r.Remains ts n) (le : b ≤ fuel) :
    Parse.Spends ts b n (expect fuel kind) r fun x s => (Row.cons x.1 s).Remains ts n := by
  refine (spends_popTrailing h le).bind fun (t, comments) s h => ?_
  dsimp only
  split
  · exact .done h
  · exact spends_refuse h.mem _

theorem spends_number (mem : t ∈ ts) (h : r.Remains ts n) (le : b ≤ fuel) :
    Parse.Spends ts b n (number fuel t rulePos) r fun _ s => s.Remains ts n := by
  refine (spends_pop h).bind fun next s h => ?_
  cases TimeUnit.ofKind? next.kind with
  | none =>
    exact (spends_push h).bind fun _ _ h => (spends_trailingOf h le).bind fun _ _ h => .done h
  | some unit =>
    dsimp only
    split
    · exact spends_refuse mem _
    · exact (spends_trailingOf h.tail le).bind fun _ _ h => .done h

theorem spends_parameter (mem : t ∈ ts) (h : r.Remains ts n) (le : b ≤ fuel) :
    Parse.Spends ts b n (parameter fuel t rulePos) r fun _ s => s.Remains ts n := by
  unfold parameter
  cases t.kind with
  | number => exact spends_number mem h le
  | string | kwTrue | kwFalse | kwNow =>
    exact (spends_trailingOf h le).bind fun _ _ h => .done h
  | _ => exact spends_refuse mem _

theorem spends_duration (h : r.Remains ts n) (le : b ≤ fuel) :
    Parse.Spends ts b n (duration fuel rulePos) r fun _ s => s.Remains ts n := by
  refine (spends_pop h).bind fun t s h =>
    (spends_parameter h.mem h.tail le).bind fun (value, comments) _ rest => ?_
  cases value with
  | duration d => exact .done rest
  | _ => exact spends_refuse h.mem _

theorem spends_relativeDate (paren : Token) (h : r.Remains ts n) (le : b ≤ fuel) :
    Parse.Spends ts b n (relativeDate fuel paren rulePos) r fun _ s => s.Remains ts n :=
  (spends_expect .kwNow h le).bind fun _ _ h =>
    (spends_expect .minus h.tail le).bind fun _ _ h =>
      (spends_duration h.tail le).bind fun _ _ h =>
        (spends_expect .rightParen h le).bind fun _ _ h => .done h.tail

theorem spends_operand (h : r.Remains ts n) (le : b ≤ fuel) :
    Parse.Spends ts b n (operand fuel rulePos) r fun _ s => s.Remains ts n := by
  refine (spends_pop h).bind fun t s h => ?_
  split
  · exact spends_parameter h.mem h.tail le
  · exact spends_refuse h.mem _

/-! ### Conditions -/

theorem spends_comparison (operator : Comparator) (h : r.Remains ts n) (le : b ≤ fuel) :
    Parse.Spends ts b n (comparison fuel t operator rulePos) r fun _ s => s.Remains ts n := by
  refine (spends_popTrailing h le).bind fun (value, comments) s h => ?_
  dsimp only
  split
  · exact (spends_parameter h.mem h.tail le).bind fun _ _ h => .done h
  · split
    · exact (spends_relativeDate value h.tail le).bind fun _ _ h => .done h
    · exact spends_refuse h.mem _

theorem spends_between (h : r.Remains ts n) (le : b ≤ fuel) :
    Parse.Spends ts b n (between fuel t rulePos) r fun _ s => s.Remains ts n :=
  (spends_operand h le).bind fun _ _ h => (spends_expect .kwAnd h le).bind fun _ _ h =>
    (spends_operand h.tail le).bind fun _ _ h => .done h

/-- Comments are skipped within as many steps as tokens remain. -/
theorem spends_skipCommentsLoop (skipped : List Comment) (h : r.Remains ts n) (le : b ≤ m) :
    Parse.Spends ts b n (skipCommentsLoop m skipped) r
      fun x s => (Row.cons x.1 s).Remains ts n := by
  induction m generalizing b n r skipped with
  | zero => exact .spent h rfl (Nat.le_zero.mp le)
  | succ m ih =>
    refine (spends_pop h).bind fun t s h => ?_
    split
    · next more =>
      obtain ⟨n, rfl, rest⟩ := h.step (by simp [more])
      exact (ih _ rest (by omega)).succ.imp (fun _ => id) fun _ _ h => h.mono (Nat.le_succ n)
    · exact .done h

theorem spends_popSkipping (h : r.Remains ts n) (le : b ≤ fuel) :
    Parse.Spends ts b n (popSkipping fuel) r fun x s => (Row.cons x.1 s).Remains ts n :=
  spends_skipCommentsLoop [] h le

/-- The values of a list are read within as many steps as tokens remain. -/
theorem spends_valuesLoop (values : List Parameter) (a : Attached) (h : r.Remains ts n)
    (le : b ≤ min fuel m) :
    Parse.Spends ts b n (valuesLoop fuel rulePos m values a) r fun _ s => s.Remains ts n := by
  induction m generalizing b values a n r with
  | zero => exact .spent h rfl (by omega)
  | succ m ih =>
    refine (spends_popSkipping h (by omega)).bind fun (item, skipped) s h => ?_
    dsimp only
    split
    · exact .done h.tail
    · split
      · exact spends_refuse h.mem _
      · next isItem =>
        -- the end of the text is no item, so fewer tokens remain for the next one
        have going : item.kind ≠ .eof := by
          intro isEnd
          simp [isOperand, isEnd, Kind.startsParameter] at isItem
        obtain ⟨n, rfl, rest⟩ := h.step going
        refine Spends.succ ((spends_parameter h.mem rest (by omega)).bind
          fun (value, comments) _ rest =>
            (spends_popSkipping rest (by omega)).bind fun (separator, skipped) _ rest => ?_)
        dsimp only
        split
        · exact .done (rest.tail.mono (Nat.le_succ n))
        · split
          · exact spends_refuse rest.mem _
          · exact (ih _ _ rest.tail (by omega)).imp (fun _ => id)
              fun _ _ h => h.mono (Nat.le_succ n)

theorem spends_membership (h : r.Remains ts n) (le : b ≤ fuel) :
    Parse.Spends ts b n (membership fuel t rulePos) r fun _ s => s.Remains ts n :=
  (spends_expect .leftBracket h le).bind fun _ _ h =>
    (spends_valuesLoop _ _ h.tail (by omega)).bind fun _ _ h =>
      (spends_trailing h le).bind fun _ _ h => .done h

theorem spends_patternMatch (h : r.Remains ts n) (le : b ≤ fuel) :
    Parse.Spends ts b n (patternMatch fuel t rulePos) r fun _ s => s.Remains ts n := by
  refine (spends_popTrailing h le).bind fun (pattern, comments) s h => ?_
  dsimp only
  split
  · exact spends_refuse h.mem _
  · exact .done h.tail

/-- What may follow a target leaves no more tokens than there were, if the condition behind `with
threshold` does, for which fewer remain. -/
theorem spends_thresholdSuffix {inner : Token → Parse (Expression × List Comment)}
    (h : r.Remains ts n) (le : b ≤ fuel)
    (rest : ∀ {m s}, s.Remains ts m → ∀ t ∈ ts,
      Parse.Spends ts (b - 1) m (inner t) s fun _ s => s.Remains ts m)
    (target : Target) (forRule : List Comment) :
    Parse.Spends ts b n (thresholdSuffix fuel inner target rulePos forRule) r
      fun _ s => s.Remains ts n := by
  refine (spends_pop h).bind fun word s h => ?_
  split
  · exact (spends_push h).bind fun _ _ h => .done h
  · next isWith =>
    have going : word.kind ≠ .eof := by
      intro isEnd
      simp [isEnd] at isWith
    obtain ⟨n, rfl, behind⟩ := h.step going
    refine Spends.succ ((spends_expect .kwThreshold behind (by omega)).bind fun _ _ h =>
      (spends_pop h.tail).bind fun start s h => ?_)
    dsimp only
    split
    · exact spends_refuse h.mem _
    · refine (rest h.tail start h.mem).bind fun (e, comments) _ rest => ?_
      cases e with
      | bound _ => exact .done (rest.mono (Nat.le_succ n))
      | _ => exact spends_refuse h.mem _

/-- A condition is read within as many steps as tokens remain. -/
theorem spends_expressionLoop (mem : t ∈ ts) (h : r.Remains ts n) (le : b ≤ min fuel m) :
    Parse.Spends ts b n (expressionLoop fuel rulePos m t) r fun _ s => s.Remains ts n := by
  -- on the steps: a condition behind `with threshold` takes one, and tokens
  induction m generalizing b t n r with
  | zero => exact .spent h rfl (by omega)
  | succ m ih =>
    have enough : b ≤ fuel := by omega
    have inner : ∀ {l s}, s.Remains ts l → ∀ t ∈ ts, Parse.Spends ts (b - 1) l
        (expressionLoop fuel rulePos m t) s fun _ s => s.Remains ts l :=
      fun h t mem => ih mem h (by omega)
    unfold expressionLoop
    cases Comparator.ofKind? t.kind with
    | some operator => exact (spends_comparison operator h enough).bind fun _ _ h => .done h
    | none =>
      cases t.kind with
      | kwBetween => exact (spends_between h enough).bind fun _ _ h => .done h
      | kwIn =>
        exact (spends_membership h enough).bind fun _ _ h =>
          spends_thresholdSuffix h enough inner _ _
      | kwMatches =>
        exact (spends_patternMatch h enough).bind fun _ _ h =>
          spends_thresholdSuffix h enough inner _ _
      | _ => exact spends_refuse mem _

theorem spends_expression (mem : t ∈ ts) (h : r.Remains ts n) (le : b ≤ fuel) :
    Parse.Spends ts b n (expression fuel t rulePos) r fun _ s => s.Remains ts n :=
  spends_expressionLoop mem h (le_min le le)

end QualityRules.Read
