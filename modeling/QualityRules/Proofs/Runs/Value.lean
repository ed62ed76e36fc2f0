import QualityRules.Proofs.Gives

/-!
# Proofs — Runs — Value

When the readers of values succeed, and with what: one equivalence for each, in the words of the
readers that it is made of.

* `trailing_gives_iff`: the comments that trail a token are taken off the row one by one, and what is
  next does not go on with them.
* `number_gives` and `parameter_gives`: a number looks at the token behind it, any other value is
  told by its token alone (`literal`).
-/

namespace QualityRules

namespace Reading

variable {ε α : Type}

theorem gives_ite {c : Prop} [Decidable c] {p q : Reading ε α} {r s : Row} {a : α} :
    (if c then p else q).Gives r a s ↔ c ∧ p.Gives r a s ∨ ¬ c ∧ q.Gives r a s := by
  split <;> simp_all

end Reading

namespace Read
open Reading (gives_bind gives_ite gives_pure)

variable {fuel n : Nat} {anchor rulePos : Pos} {t : Token} {taken cs : List Comment} {r s : Row}

/-! ### The comments that trail a token -/

/-- The tokens `us` go on, one after the other, with the block `taken` behind a token at
`anchor`. -/
def Block (anchor : Pos) : List Comment → List Token → Prop
  | _, [] => True
  | taken, t :: ts => extendsBlock anchor taken t ∧ Block anchor (taken ++ [Comment.ofToken t]) ts

/-- The next token does not go on with the block `taken`. -/
def Ends (anchor : Pos) (taken : List Comment) (r : Row) : Prop :=
  ∃ t m, r = Row.cons t m ∧ extendsBlock anchor taken t = false

/-- Only comments go on with a block. -/
theorem kind_of_extendsBlock (h : extendsBlock anchor taken t) : t.kind = .comment := by
  simp only [extendsBlock, Bool.and_eq_true, decide_eq_true_eq] at h
  exact h.1

theorem not_extendsBlock_of_kind (h : t.kind ≠ .comment) : extendsBlock anchor taken t = false := by
  simp [extendsBlock, h]

/-- Where a block could not even start, no block goes on. -/
theorem not_extendsBlock_nil (h : extendsBlock anchor taken t = false) :
    extendsBlock anchor [] t = false := by
  simp only [extendsBlock, Bool.and_eq_false_iff, Bool.or_eq_false_iff] at h ⊢
  rcases h with h | h
  · exact .inl h
  · exact .inr ⟨h.1, rfl⟩

theorem Block.kind_eq {ts : List Token} (h : Block anchor taken ts) :
    ∀ t ∈ ts, t.kind = .comment := by
  induction ts generalizing taken with
  | nil => exact fun _ m => nomatch m
  | cons u us ih =>
    intro t m
    rcases List.mem_cons.mp m with rfl | m
    · exact kind_of_extendsBlock h.1
    · exact ih h.2 t m

theorem trailingLoop_gives : (trailingLoop anchor n taken).Gives r cs s ↔
    ∃ us, r = Row.behind us s ∧ Block anchor taken us ∧ cs = taken ++ us.map Comment.ofToken ∧
      Ends anchor cs s ∧ us.length < n := by
  constructor
  · intro h
    induction n generalizing taken r with
    | zero => exact absurd h not_gives_fail
    | succ n ih =>
      simp only [trailingLoop, gives_bind, gives_pop, gives_ite, gives_pure, gives_push] at h
      obtain ⟨t, m, rfl, ⟨goes, h⟩ | ⟨stops, -, -, rfl, rfl, rfl⟩⟩ := h
      · obtain ⟨us, rfl, block, rfl, ends, steps⟩ := ih h
        exact ⟨t :: us, rfl, ⟨goes, block⟩, by simp, ends, by simpa using steps⟩
      · exact ⟨[], rfl, trivial, by simp, ⟨t, m, rfl, by simpa using stops⟩, Nat.succ_pos n⟩
  · rintro ⟨us, rfl, block, rfl, ends, steps⟩
    obtain ⟨n, rfl⟩ : ∃ m, n = m + 1 := ⟨n - 1, by omega⟩
    induction us generalizing taken n with
    | nil =>
      obtain ⟨t, m, rfl, stops⟩ := ends
      simp only [trailingLoop, gives_bind, gives_pop, gives_ite, gives_pure, gives_push]
      exact ⟨t, m, rfl, .inr ⟨by simpa using stops, (), _, rfl, by simp, rfl⟩⟩
    | cons u us ih =>
      obtain ⟨n, rfl⟩ : ∃ m, n = m + 1 := ⟨n - 1, by simp at steps; omega⟩
      obtain ⟨goes, block⟩ := block
      rw [List.map_cons, List.append_cons] at ends ⊢
      rw [trailingLoop]
      simp only [gives_bind, gives_pop, gives_ite]
      exact ⟨u, _, rfl, .inl ⟨goes, ih block ends n (by simpa using steps)⟩⟩

/-- The comments that trail a token are taken off the row, and what is next does not go on with
them. -/
theorem trailing_gives_iff : (trailing fuel anchor).Gives r cs s ↔
    ∃ us, r = Row.behind us s ∧ Block anchor [] us ∧ cs = us.map Comment.ofToken ∧
      Ends anchor cs s ∧ us.length < fuel := trailingLoop_gives

theorem trailing_gives (h : (trailing fuel anchor).Gives r cs s) :
    ∃ us, r = Row.behind us s ∧ Block anchor [] us ∧ cs = us.map Comment.ofToken ∧
      Ends anchor cs s := by
  obtain ⟨us, e, block, eq, ends, -⟩ := trailing_gives_iff.mp h
  exact ⟨us, e, block, eq, ends⟩

/-- Where no comment is next, none is taken. -/
theorem trailing_gives_nil (hf : 0 < fuel) (h : t.kind ≠ .comment) (m : Row) :
    (trailing fuel anchor).Gives (Row.cons t m) [] (Row.cons t m) :=
  trailing_gives_iff.mpr ⟨[], rfl, trivial, rfl, ⟨t, m, rfl, not_extendsBlock_of_kind h⟩, hf⟩

theorem popTrailing_gives : (popTrailing fuel).Gives r (t, cs) s ↔ ∃ m, r = Row.cons t m ∧
    (t.kind = .eof ∧ cs = [] ∧ s = m ∨ t.kind ≠ .eof ∧ (trailing fuel t.start).Gives m cs s) := by
  simp only [popTrailing, gives_bind, gives_pop, gives_ite, gives_pure, Prod.mk.injEq]
  constructor
  · rintro ⟨u, m, rfl, ⟨k, ⟨rfl, rfl⟩, rfl⟩ | ⟨k, x, q, h, ⟨rfl, rfl⟩, rfl⟩⟩
    · exact ⟨s, rfl, .inl ⟨k, rfl, rfl⟩⟩
    · exact ⟨m, rfl, .inr ⟨k, h⟩⟩
  · rintro ⟨m, rfl, ⟨k, rfl, rfl⟩ | ⟨k, h⟩⟩
    · exact ⟨t, s, rfl, .inl ⟨k, ⟨rfl, rfl⟩, rfl⟩⟩
    · exact ⟨t, m, rfl, .inr ⟨k, cs, s, h, ⟨rfl, rfl⟩, rfl⟩⟩

theorem trailingOf_gives {a : Attached} : (trailingOf fuel anchor rulePos).Gives r a s ↔
    ∃ cs, (trailing fuel anchor).Gives r cs s ∧ a = Attached.none.route cs anchor rulePos := by
  simp only [trailingOf, gives_bind, gives_pure]
  constructor
  · rintro ⟨cs, m, h, rfl, rfl⟩
    exact ⟨cs, h, rfl⟩
  · rintro ⟨cs, h, rfl⟩
    exact ⟨cs, s, h, rfl, rfl⟩

theorem expect_gives {kind : Kind} : (expect fuel kind).Gives r (t, cs) s ↔
    t.kind = kind ∧ (popTrailing fuel).Gives r (t, cs) s := by
  simp only [expect, gives_bind, gives_ite, gives_pure, Prod.exists, not_gives_refuse,
    and_false, or_false, Prod.mk.injEq]
  constructor
  · rintro ⟨u, x, m, h, k, ⟨rfl, rfl⟩, rfl⟩
    exact ⟨k, h⟩
  · rintro ⟨k, h⟩
    exact ⟨t, cs, s, h, k, ⟨rfl, rfl⟩, rfl⟩

/-! ### Values -/

/-- The value that a token makes by itself, with the group of comments that trail it; numbers look
further. -/
def literal (t : Token) (g : Option CommentGroup) : Option Parameter :=
  match t.kind with
  | .string => some (.string ⟨t.start, t.start.addColumns (t.text.length - 1), unquote t.text, g⟩)
  | .kwTrue => some (.bool ⟨t.start, true, g⟩)
  | .kwFalse => some (.bool ⟨t.start, false, g⟩)
  | .kwNow => some (.date ⟨t.start, none, none, none, none, g⟩)
  | _ => none

variable {p : Parameter}

/-- A number is a duration if a unit follows, and the unit is taken then. -/
theorem number_gives : (number fuel t rulePos).Gives r (p, cs) s ↔
    ∃ next m a, r = Row.cons next m ∧ cs = a.forRule ∧
      (TimeUnit.ofKind? next.kind = none ∧ (trailingOf fuel t.start rulePos).Gives r a s ∧
          p = .number ⟨t.start, t.text, a.group⟩ ∨
        ∃ unit, TimeUnit.ofKind? next.kind = some unit ∧ hasPoint t.text = false ∧
          (trailingOf fuel t.start rulePos).Gives m a s ∧
          p = .duration ⟨t.start, next.start, t.text, unit, a.group⟩) := by
  simp only [number, gives_bind, gives_pop]
  refine exists_congr fun next => exists_congr fun m => ?_
  cases e : TimeUnit.ofKind? next.kind with
  | none =>
    simp only [gives_bind, gives_push, gives_pure, Prod.mk.injEq]
    constructor
    · rintro ⟨rfl, -, -, rfl, a, q, h, ⟨rfl, rfl⟩, rfl⟩
      exact ⟨a, rfl, rfl, .inl ⟨trivial, h, rfl⟩⟩
    · rintro ⟨a, rfl, rfl, ⟨-, h, rfl⟩ | ⟨u, eq, -⟩⟩
      · exact ⟨rfl, (), _, rfl, a, s, h, ⟨rfl, rfl⟩, rfl⟩
      · cases eq
  | some unit =>
    simp only [gives_bind, gives_ite, not_gives_refuse, and_false, false_or, gives_pure,
      Prod.mk.injEq, Bool.not_eq_true]
    constructor
    · rintro ⟨rfl, k, a, q, h, ⟨rfl, rfl⟩, rfl⟩
      exact ⟨a, rfl, rfl, .inr ⟨unit, rfl, k, h, rfl⟩⟩
    · rintro ⟨a, rfl, rfl, ⟨eq, -⟩ | ⟨u, eq, k, h, rfl⟩⟩
      · cases eq
      · cases eq
        exact ⟨rfl, k, a, s, h, ⟨rfl, rfl⟩, rfl⟩

/-- A value is a number or told by its token. -/
theorem parameter_gives : (parameter fuel t rulePos).Gives r (p, cs) s ↔
    t.kind = .number ∧ (number fuel t rulePos).Gives r (p, cs) s ∨
      ∃ a, (trailingOf fuel t.start rulePos).Gives r a s ∧ literal t a.group = some p ∧
        cs = a.forRule := by
  have simple : ∀ {build : Attached → Parameter},
      ((trailingOf fuel t.start rulePos) >>= fun a => pure (build a, a.forRule)).Gives r (p, cs) s ↔
        ∃ a, (trailingOf fuel t.start rulePos).Gives r a s ∧ build a = p ∧ cs = a.forRule := by
    intro build
    simp only [gives_bind, gives_pure, Prod.mk.injEq]
    constructor
    · rintro ⟨a, m, h, ⟨rfl, rfl⟩, rfl⟩
      exact ⟨a, h, rfl, rfl⟩
    · rintro ⟨a, h, rfl, rfl⟩
      exact ⟨a, s, h, ⟨rfl, rfl⟩, rfl⟩
  cases e : t.kind <;>
    simp only [parameter, literal, e, simple, not_gives_refuse, Option.some.injEq, reduceCtorEq,
      false_and, and_false, exists_false, or_false, false_or, true_and]

theorem duration_gives {d : DurationParameter} : (duration fuel rulePos).Gives r (d, cs) s ↔
    ∃ t m, r = Row.cons t m ∧ (parameter fuel t rulePos).Gives m (.duration d, cs) s := by
  simp only [duration, gives_bind, gives_pop, Prod.exists]
  refine exists_congr fun t => exists_congr fun m => and_congr_right fun _ => ?_
  constructor
  · rintro ⟨p, x, q, h, k⟩
    cases p with
    | duration d' =>
      simp only [gives_pure, Prod.mk.injEq] at k
      obtain ⟨⟨rfl, rfl⟩, rfl⟩ := k
      exact h
    | _ => exact absurd k not_gives_refuse
  · intro h
    exact ⟨_, _, s, h, gives_pure.mpr ⟨rfl, rfl⟩⟩

theorem operand_gives : (operand fuel rulePos).Gives r (p, cs) s ↔
    ∃ t m, r = Row.cons t m ∧ isOperand t ∧ (parameter fuel t rulePos).Gives m (p, cs) s := by
  simp only [operand, gives_bind, gives_pop, gives_ite, not_gives_refuse, and_false, or_false]

theorem relativeDate_gives {paren : Token} {d : DateParameter} :
    (relativeDate fuel paren rulePos).Gives r (d, cs) s ↔
      ∃ now c₁ m₁ minus c₂ m₂ dur c₃ m₃ close c₄ a,
        (expect fuel .kwNow).Gives r (now, c₁) m₁ ∧ (expect fuel .minus).Gives m₁ (minus, c₂) m₂ ∧
        (duration fuel rulePos).Gives m₂ (dur, c₃) m₃ ∧
        (expect fuel .rightParen).Gives m₃ (close, c₄) s ∧
        a = (((Attached.none.route c₁ now.start rulePos).route c₂ minus.start rulePos).addForRule
          c₃).route c₄ close.start rulePos ∧
        d = ⟨now.start, some paren.start, some minus.start, some dur, some close.start, a.group⟩ ∧
        cs = a.forRule := by
  simp only [relativeDate, gives_bind, gives_pure, Prod.exists, Prod.mk.injEq]
  constructor
  · rintro ⟨now, c₁, m₁, h₁, minus, c₂, m₂, h₂, dur, c₃, m₃, h₃, close, c₄, m₄, h₄, ⟨rfl, rfl⟩, rfl⟩
    exact ⟨now, c₁, m₁, minus, c₂, m₂, dur, c₃, m₃, close, c₄, _, h₁, h₂, h₃, h₄, rfl, rfl, rfl⟩
  · rintro ⟨now, c₁, m₁, minus, c₂, m₂, dur, c₃, m₃, close, c₄, -, h₁, h₂, h₃, h₄, rfl, rfl, rfl⟩
    exact ⟨now, c₁, m₁, h₁, minus, c₂, m₂, h₂, dur, c₃, m₃, h₃, close, c₄, s, h₄, ⟨rfl, rfl⟩, rfl⟩

end Read

end QualityRules
