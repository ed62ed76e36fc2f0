import QualityRules.Proofs.Coordinates
import QualityRules.Proofs.Derives

/-!
# Proofs — Places

Where the parts of a tree stand.  Each place that a part holds is where one of its tokens starts,
but for the closing quote of a string, which is counted in columns from the opening one; and a part
ends so many columns behind the start of its last token as that one has characters.  Columns count
on one line only, so all this is right unless a string runs over a line break.

* `Node.places`: the places that a part holds; `Node.runsOn`: it ends with a string that holds a
  line break.
* `Derives.startsAt`, `Derives.endsAt` and `Derives.places`: places and tokens.
* `Source.Yields.faithful`: which places of a tree are right.
-/

namespace QualityRules

open Grammar

variable {ts us : List Token} {t : Token} {m n : Node} {source : String} {options : Options}

/-! ### The places of a part -/

/-- The string at the end of a value, if it is one. -/
def Parameter.lastString : Parameter → Option String
  | .string p => some p.value
  | _ => none

/-- The string at the end of a bound. -/
def Bound.lastString : Bound → Option String
  | .comparison e => e.right.lastString
  | .between e => e.right.lastString

/-- The string at the end of a target; a pattern is one. -/
def Target.lastString : Target → Option String
  | .membership _ => none
  | .pattern e => some e.value

/-- The string at the end of a condition. -/
def Expression.lastString : Expression → Option String
  | .bound e => e.lastString
  | .target e => e.lastString
  | .withThreshold e => e.threshold.lastString

/-- The string at the end of a rule. -/
def Rule.lastString (r : Rule) : Option String :=
  match r.expression, r.parameters.getLast? with
  | some e, _ => e.lastString
  | none, some p => p.lastString
  | none, none => none

namespace Node

/-- The places that a value holds. -/
def placesOfParameter : Parameter → List Pos
  | .string p => [p.leftQuote, p.rightQuote]
  | .number p => [p.pos]
  | .bool p => [p.pos]
  | .duration p => [p.numberPos, p.unitPos]
  | .date p => p.nowPos :: (p.leftParen.toList ++ p.minus.toList ++ p.rightParen.toList)

/-- The places that a condition holds. -/
def placesOfExpression : Expression → List Pos
  | .bound (.comparison e) => [e.pos]
  | .bound (.between e) => [e.pos]
  | .target (.membership e) => [e.pos, e.leftBracket, e.rightBracket]
  | .target (.pattern e) => [e.pos, e.patternPos]
  | .withThreshold e => [e.withPos]

/-- The places that a part holds, without those of its own parts. -/
def places : Node → List Pos
  | file _ | rule (.single _) | group _ => []
  | ruleset n => [n.declPos, n.leftBracket, n.rightBracket]
  | rule (.combined n) => [n.firstParen, n.lastParen]
  | ident n => [n.pos]
  | parameter n => placesOfParameter n
  | expression n => placesOfExpression n
  | comment n => [n.pos]

/-- The place of the closing quote of a string. -/
def rightQuote? : Node → Option Pos
  | parameter (.string p) => some p.rightQuote
  | _ => none

/-- The string at the end of a part; a pattern is one. -/
def lastString : Node → Option String
  | rule (.single r) => r.lastString
  | parameter n => n.lastString
  | expression n => n.lastString
  | _ => none

/-- The part ends with a string that holds a line break. -/
def runsOn (n : Node) : Bool := n.lastString.any fun s => s.toList.contains '\n'

end Node

/-! ### Places and tokens -/

/-- The tokens `ts` start at `pos`. -/
def StartsAt (ts : List Token) (pos : Pos) : Prop := ∃ t us, ts = t :: us ∧ pos = t.start

/-- The last of the tokens `ts`, if it is spelled as its kind, has as many characters as there are
columns from its start to `stop`, and `text` is what it holds as a string. -/
def EndsAt (ts : List Token) (stop : Pos) (text : Option String) : Prop :=
  ∃ us t, ts = us ++ [t] ∧ t.kind.isTerminal = false ∧
    (t.kind.Spells t.text.toList → stop = t.start.addColumns t.text.length) ∧
    text = if t.kind = .string then some (Read.unquote t.text) else none

variable {stop pos : Pos} {text : Option String}

/-- Tokens start where the first of them does. -/
theorem StartsAt.append (h : StartsAt ts pos) (us : List Token) : StartsAt (ts ++ us) pos := by
  obtain ⟨t, vs, rfl, eq⟩ := h
  exact ⟨t, vs ++ us, rfl, eq⟩

namespace EndsAt

/-- Tokens end where the last of them does. -/
theorem append (h : EndsAt us stop text) (ts : List Token) : EndsAt (ts ++ us) stop text := by
  obtain ⟨vs, t, rfl, other, stop_eq, text_eq⟩ := h
  exact ⟨ts ++ vs, t, by simp, other, stop_eq, text_eq⟩

/-- Tokens end where those behind the first do. -/
theorem cons (h : EndsAt ts stop text) (t : Token) : EndsAt (t :: ts) stop text := h.append [t]

/-- A token with a text of its own, which is no string, ends behind all its characters. -/
theorem single (kind : t.kind.isTerminal = false ∧ t.kind ≠ .string) :
    EndsAt [t] (t.start.addColumns t.text.length) none :=
  ⟨[], t, rfl, kind.1, fun _ => rfl, by rw [if_neg kind.2]⟩

/-- A token whose kind has one spelling ends behind that many characters. -/
theorem fixed {k : Kind} (kind : t.kind = k) (other : k.isTerminal = false ∧ k ≠ .string)
    (spelling : ∀ cs, k.Spells cs → cs = k.display.toList) :
    EndsAt [t] (t.start.addColumns k.display.length) none := by
  subst kind
  refine ⟨[], t, rfl, other.1, fun spells => ?_, by rw [if_neg other.2]⟩
  rw [← String.length_toList, ← spelling _ spells, String.length_toList]

end EndsAt

/-- A string as it is written. -/
def quoted (value : String) : String := "\"" ++ value ++ "\""

/-- A string is what it holds, between quotes. -/
theorem Kind.Spells.eq_quoted {s : String} (h : Kind.string.Spells s.toList) :
    s = quoted (Read.unquote s) := by
  obtain ⟨body, -, eq⟩ := h
  apply String.toList_injective
  rw [quoted, Read.unquote, eq]
  simp

/-- A string has two characters more than it holds, and the same line breaks. -/
theorem Kind.Spells.unquote {s : String} (h : Kind.string.Spells s.toList) :
    s.length = (Read.unquote s).length + 2 ∧
      (Read.unquote s).toList.contains '\n' = s.toList.contains '\n' := by
  have written := h.eq_quoted
  have mark : "\"".length = 1 := rfl
  generalize Read.unquote s = value at written
  subst written
  refine ⟨?_, by simp [quoted]⟩
  rw [quoted, String.length_append, String.length_append, mark]
  omega

/-- The closing quote of a string is no line break. -/
theorem Kind.Spells.newline_mem_take {s : String} (h : Kind.string.Spells s.toList) :
    '\n' ∈ s.toList.take (s.length - 1) ↔ '\n' ∈ s.toList := by
  obtain ⟨body, -, eq⟩ := h
  have length : s.length - 1 = ('"' :: body).length := by
    rw [← String.length_toList, eq]
    simp
  rw [length, eq, List.take_left]
  simp

/-- Columns are counted on. -/
theorem Pos.addColumns_addColumns (p : Pos) (a b : Nat) :
    (p.addColumns a).addColumns b = p.addColumns (a + b) := by
  simp [Pos.addColumns, add_assoc]

namespace Grammar

/-! ### Values and conditions -/

/-- A value starts where its tokens do. -/
theorem IsValue.startsAt {p : Parameter} (h : IsValue ts p) : StartsAt ts p.pos := by
  cases h <;> exact ⟨_, _, rfl, rfl⟩

/-- A value ends where its tokens do, as far as it holds no line break. -/
theorem IsValue.endsAt {p : Parameter} (h : IsValue ts p) : EndsAt ts p.stop p.lastString := by
  cases h with
  | @string t kind =>
    refine ⟨[], t, rfl, by simp [kind, Kind.isTerminal], fun spells => ?_, by rw [if_pos kind]; rfl⟩
    rw [kind] at spells
    have := spells.unquote.1
    change (t.start.addColumns (t.text.length - 1)).addColumns 1 = _
    rw [Pos.addColumns_addColumns, Nat.sub_add_cancel (by omega)]
  | @number t kind => exact .single (by simp [kind, Kind.isTerminal])
  | @duration t u unit kind whole unit_kind =>
    cases e : u.kind with
    | kwDays =>
      obtain rfl : TimeUnit.days = unit := by simpa [e, TimeUnit.ofKind?] using unit_kind
      exact (EndsAt.fixed e (by decide) fun _ => id).cons t
    | kwHours =>
      obtain rfl : TimeUnit.hours = unit := by simpa [e, TimeUnit.ofKind?] using unit_kind
      exact (EndsAt.fixed e (by decide) fun _ => id).cons t
    | _ => simp [e, TimeUnit.ofKind?] at unit_kind
  | yes kind => exact .fixed kind (by decide) fun _ => id
  | no kind => exact .fixed kind (by decide) fun _ => id
  | now kind => exact .fixed kind (by decide) fun _ => id

/-- A date before now starts at its parenthesis. -/
theorem IsMoment.startsAt {d : DateParameter} (h : IsMoment ts d) : StartsAt ts d.pos := by
  cases h
  exact ⟨_, _, rfl, rfl⟩

/-- A date before now ends at its parenthesis. -/
theorem IsMoment.endsAt {d : DateParameter} (h : IsMoment ts d) : EndsAt ts d.stop none := by
  cases h with
  | mk _ _ _ _ closes => exact (EndsAt.fixed closes (by decide) fun _ => id).append _

/-- A bound starts where its tokens do. -/
theorem IsBound.startsAt {e : Bound} (h : IsBound ts e) : StartsAt ts e.pos := by
  cases h <;> exact ⟨_, _, rfl, rfl⟩

/-- A bound ends where its tokens do, as far as it holds no line break at its end. -/
theorem IsBound.endsAt {e : Bound} (h : IsBound ts e) : EndsAt ts e.stop e.lastString := by
  cases h with
  | comparison _ right => exact right.endsAt.cons _
  | moment _ right => exact right.endsAt.cons _
  | between _ _ _ right => exact (right.1.endsAt.cons _).append _

/-- A target starts where its tokens do. -/
theorem IsTarget.startsAt {e : Target} (h : IsTarget ts e) : StartsAt ts e.pos := by
  cases h <;> exact ⟨_, _, rfl, rfl⟩

/-- A target ends where its tokens do, as far as it holds no line break at its end. -/
theorem IsTarget.endsAt {e : Target} (h : IsTarget ts e) : EndsAt ts e.stop e.lastString := by
  cases h with
  | @empty word left right _ _ closes =>
    exact (EndsAt.fixed closes (by decide) fun _ => id).append [word, left]
  | membership _ _ _ closes => exact (EndsAt.fixed closes (by decide) fun _ => id).append _
  | @pattern word t _ text =>
    refine EndsAt.cons ⟨[], t, rfl, by simp [text, Kind.isTerminal], fun spells => ?_,
      by rw [if_pos text]; rfl⟩ word
    rw [text] at spells
    rw [spells.unquote.1]
    rfl

/-- A condition starts where its tokens do. -/
theorem IsCondition.startsAt {e : Expression} (h : IsCondition ts e) : StartsAt ts e.pos := by
  cases h with
  | bound is => exact is.startsAt
  | target is => exact is.startsAt
  | withThreshold is _ _ _ => exact is.startsAt.append _

/-- A condition ends where its tokens do, as far as it holds no line break at its end. -/
theorem IsCondition.endsAt {e : Expression} (h : IsCondition ts e) :
    EndsAt ts e.stop e.lastString := by
  cases h with
  | bound is => exact is.endsAt
  | target is => exact is.endsAt
  | withThreshold _ _ _ threshold => exact ((threshold.endsAt.cons _).cons _).append _

/-! ### Rules -/

/-- Values end where the last of them does. -/
theorem IsValues.endsAt {ps : List Parameter} {p : Parameter} (h : IsValues ts ps)
    (last : ps.getLast? = some p) : EndsAt ts p.stop p.lastString := by
  induction h with
  | nil => exact nomatch last
  | @cons ts q us qs first others ih =>
    cases qs with
    | nil =>
      obtain rfl := Option.some.inj last
      cases others
      rw [List.append_nil]
      exact first.endsAt
    | cons r rs => exact (ih (by rwa [List.getLast?_cons_cons] at last)).append _

/-- A rule starts where its tokens do. -/
theorem IsPlain.startsAt {r : Rule} (h : IsPlain ts r) : StartsAt ts r.pos := by
  cases h
  exact ⟨_, _, rfl, rfl⟩

/-- A rule ends where its tokens do, as far as it holds no line break at its end. -/
theorem IsPlain.endsAt {r : Rule} (h : IsPlain ts r) : EndsAt ts r.stop r.lastString := by
  cases h with
  | @mk t vs ps us e kind values condition =>
    cases condition with
    | some is => exact (is.endsAt.append _).cons _
    | none =>
      rw [List.append_nil]
      cases last : ps.getLast? with
      | some p =>
        have ends := (values.endsAt last).cons t
        simpa [Rule.stop, Rule.lastString, last] using ends
      | none =>
        obtain rfl := List.getLast?_eq_none_iff.mp last
        cases values
        exact .single (by simp [kind, Kind.isTerminal])

variable {inRuleset : Bool} {operator : Connective} {x : Read.Member} {xs : List Read.Member}

/-- A member starts at the parenthesis that opens it. -/
theorem IsMember.startsAt (h : IsMember inRuleset ts x) : StartsAt ts x.leftParen := by
  cases h <;> exact ⟨_, _, rfl, rfl⟩

/-- A member ends at the parenthesis that closes it. -/
theorem IsMember.endsAt (h : IsMember inRuleset ts x) :
    EndsAt ts (x.rightParen.addColumns 1) none ∧ ∃ t ∈ ts, x.rightParen = t.start := by
  cases h with
  | closed _ _ closes =>
    exact ⟨((EndsAt.fixed closes (by decide) fun _ => id).append _).cons _, _, by simp, rfl⟩
  | comma _ _ _ _ closes =>
    exact ⟨(((EndsAt.fixed closes (by decide) fun _ => id).cons _).append _).cons _, _, by simp,
      rfl⟩

/-- A chain starts at the first parenthesis of its first member. -/
theorem IsChain.startsAt (h : IsChain inRuleset operator ts (x :: xs)) :
    StartsAt ts x.leftParen := by
  cases h with
  | one only => exact only.startsAt
  | more first _ _ => exact first.startsAt.append _

/-- A chain ends at the last parenthesis of its last member. -/
theorem IsChain.endsAt (h : IsChain inRuleset operator ts xs) (first : Read.Member) :
    EndsAt ts ((xs.getLastD first).rightParen.addColumns 1) none ∧
      ∃ t ∈ ts, (xs.getLastD first).rightParen = t.start := by
  induction h generalizing first with
  | one only => exact only.endsAt
  | @more ts x conj us xs _ _ others ih =>
    obtain ⟨ends, t, mem, eq⟩ := ih x
    rw [List.getLastD_cons]
    exact ⟨(ends.cons conj).append ts, t,
      List.mem_append_right _ (List.mem_cons_of_mem _ mem), eq⟩

/-! ### Rulesets -/

variable {decl : List Token → RuleDecl → Prop}

/-- A ruleset starts where its tokens do. -/
theorem IsRuleset.startsAt {x : Ruleset} (h : IsRuleset decl ts x) : StartsAt ts x.pos := by
  cases h
  exact ⟨_, _, rfl, rfl⟩

/-- A ruleset ends at the bracket that closes it. -/
theorem IsRuleset.endsAt {x : Ruleset} (h : IsRuleset decl ts x) : EndsAt ts x.stop none := by
  cases h with
  | mk _ _ _ _ closes =>
    exact (((EndsAt.fixed closes (by decide) fun _ => id).append _).cons _).cons _ |>.cons _

end Grammar

/-! ### Derived parts -/

/-- A part starts at the first of its tokens. -/
theorem Derives.startsAt (h : Derives ts m) (other : ∀ f, m ≠ .file f) : StartsAt ts m.pos := by
  cases h with
  | ident => exact ⟨_, _, rfl, rfl⟩
  | value is => exact is.startsAt
  | moment is => exact is.startsAt
  | condition is => exact is.startsAt
  | plain is => exact is.startsAt
  | combined is => exact is.startsAt
  | ruleset is => exact is.startsAt
  | file => exact absurd rfl (other _)

/-- A part ends with the last of its tokens. -/
theorem Derives.endsAt (h : Derives ts m) (other : ∀ f, m ≠ .file f) :
    EndsAt ts m.stop m.lastString := by
  cases h with
  | ident kind => exact .single (by simp [kind, Kind.isTerminal])
  | value is => exact is.endsAt
  | moment is => exact is.endsAt
  | condition is => exact is.endsAt
  | plain is => exact is.endsAt
  | combined is => exact (is.endsAt _).1
  | ruleset is => exact is.endsAt
  | file => exact absurd rfl (other _)

/-- A part is a string, or its places are where some of its tokens start. -/
theorem Derives.places (h : Derives ts m) :
    (∃ t, ts = [t] ∧ t.kind = .string ∧ m = .parameter (.string
      ⟨t.start, t.start.addColumns (t.text.length - 1), Read.unquote t.text, none⟩)) ∨
    m.rightQuote? = none ∧ ∀ p ∈ m.places, ∃ t ∈ ts, p = t.start := by
  cases h with
  | ident => exact .inr ⟨rfl, by simp [Node.places]⟩
  | value is =>
    cases is with
    | string kind => exact .inl ⟨_, rfl, kind, rfl⟩
    | _ => exact .inr ⟨rfl, by simp [Node.places, Node.placesOfParameter]⟩
  | moment is =>
    cases is
    exact .inr ⟨rfl, by simp [Node.places, Node.placesOfParameter]⟩
  | condition is =>
    refine .inr ⟨rfl, ?_⟩
    cases is with
    | bound is => cases is <;> simp [Node.places, Node.placesOfExpression]
    | target is => cases is <;> simp [Node.places, Node.placesOfExpression]
    | withThreshold =>
      simp only [Node.places, Node.placesOfExpression, List.mem_singleton, forall_eq]
      exact ⟨_, by simp, rfl⟩
  | plain => exact .inr ⟨rfl, nofun⟩
  | combined is =>
    refine .inr ⟨rfl, ?_⟩
    obtain ⟨t, us, eq, first⟩ := is.startsAt
    obtain ⟨-, u, mem, last⟩ := is.endsAt _
    simp only [Node.places, List.mem_cons, List.not_mem_nil, or_false, forall_eq_or_imp, forall_eq]
    exact ⟨⟨t, by simp [eq], first⟩, u, mem, last⟩
  | ruleset is =>
    cases is
    exact .inr ⟨rfl, by simp [Node.places]⟩
  | file => exact .inr ⟨rfl, nofun⟩

/-! ### Bare parts -/

namespace Parameter

variable (p : Parameter)

@[simp] theorem pos_bare : p.bare.pos = p.pos := by cases p <;> rfl

@[simp] theorem stop_bare : p.bare.stop = p.stop := by cases p <;> rfl

@[simp] theorem lastString_bare : p.bare.lastString = p.lastString := by cases p <;> rfl

end Parameter

namespace Bound

variable (e : Bound)

@[simp] theorem pos_bare : e.bare.pos = e.pos := by cases e <;> rfl

@[simp] theorem stop_bare : e.bare.stop = e.stop := by
  cases e <;> exact Parameter.stop_bare _

@[simp] theorem lastString_bare : e.bare.lastString = e.lastString := by
  cases e <;> exact Parameter.lastString_bare _

end Bound

namespace Target

variable (e : Target)

@[simp] theorem pos_bare : e.bare.pos = e.pos := by cases e <;> rfl

@[simp] theorem stop_bare : e.bare.stop = e.stop := by cases e <;> rfl

@[simp] theorem lastString_bare : e.bare.lastString = e.lastString := by cases e <;> rfl

end Target

namespace Expression

variable (e : Expression)

@[simp] theorem pos_bare : e.bare.pos = e.pos := by
  cases e with
  | bound e => exact e.pos_bare
  | target e => exact e.pos_bare
  | withThreshold e => exact e.target.pos_bare

@[simp] theorem stop_bare : e.bare.stop = e.stop := by
  cases e with
  | bound e => exact e.stop_bare
  | target e => exact e.stop_bare
  | withThreshold e => exact e.threshold.stop_bare

@[simp] theorem lastString_bare : e.bare.lastString = e.lastString := by
  cases e with
  | bound e => exact e.lastString_bare
  | target e => exact e.lastString_bare
  | withThreshold e => exact e.threshold.lastString_bare

end Expression

namespace Rule

variable (r : Rule)

@[simp] theorem stop_bare : r.bare.stop = r.stop := by
  obtain ⟨type, ps, e, description, comments⟩ := r
  cases e with
  | some e => exact e.stop_bare
  | none =>
    simp only [Rule.bare, Rule.stop, Option.map_none, List.getLast?_map]
    cases ps.getLast? with
    | some p => exact p.stop_bare
    | none => rfl

@[simp] theorem lastString_bare : r.bare.lastString = r.lastString := by
  obtain ⟨type, ps, e, description, comments⟩ := r
  cases e with
  | some e => exact e.lastString_bare
  | none =>
    simp only [Rule.bare, Rule.lastString, Option.map_none, List.getLast?_map]
    cases ps.getLast? with
    | some p => exact p.lastString_bare
    | none => rfl

end Rule

namespace Node

/-- Without its comments a node is a file only if it was one. -/
theorem bare_ne_file (m : Node) (other : ∀ f, m ≠ .file f) : ∀ f, m.bare ≠ .file f := by
  intro f eq
  cases m with
  | file f => exact other f rfl
  | _ => cases eq

/-- Where a node starts does not depend on its comments, but for a file. -/
theorem pos_bare (m : Node) (other : ∀ f, m ≠ .file f) : m.bare.pos = m.pos := by
  cases m with
  | file f => exact absurd rfl (other f)
  | rule d => cases d <;> rfl
  | parameter p => exact p.pos_bare
  | expression e => exact e.pos_bare
  | _ => rfl

/-- Where a node stops does not depend on its comments, but for a file or a ruleset. -/
theorem stop_bare (m : Node) (other : ∀ f, m ≠ .file f) (other' : ∀ x, m ≠ .ruleset x) :
    m.bare.stop = m.stop := by
  cases m with
  | file f => exact absurd rfl (other f)
  | ruleset x => exact absurd rfl (other' x)
  | rule d =>
    cases d with
    | single r => exact r.stop_bare
    | combined r => rfl
  | parameter p => exact p.stop_bare
  | expression e => exact e.stop_bare
  | _ => rfl

/-- The string at the end of a node does not depend on its comments. -/
theorem lastString_bare (m : Node) : m.bare.lastString = m.lastString := by
  cases m with
  | rule d =>
    cases d with
    | single r => exact r.lastString_bare
    | combined r => rfl
  | parameter p => exact p.lastString_bare
  | expression e => exact e.lastString_bare
  | _ => rfl

/-- The closing quote of a string does not depend on its comments. -/
theorem rightQuote?_bare (m : Node) : m.bare.rightQuote? = m.rightQuote? := by
  cases m with
  | parameter p => cases p <;> rfl
  | _ => rfl

/-- The places that a node holds do not depend on its comments. -/
theorem places_bare (m : Node) : m.bare.places = m.places := by
  cases m with
  | rule d => cases d <;> rfl
  | parameter p => cases p <;> rfl
  | expression e =>
    cases e with
    | bound e => cases e <;> rfl
    | target e => cases e <;> rfl
    | withThreshold e => rfl
  | _ => rfl

end Node

/-! ### Which places are right -/

/-- All places of a part are right, but for its end and for the closing quote, which are only if no
line break is in the string at its end. -/
structure Node.Placed (source : String) (m : Node) : Prop where
  pos : m.pos.Faithful source
  stop : m.stop.Faithful source ↔ m.runsOn = false
  places : ∀ p ∈ m.places, p.Faithful source ↔ ¬ (m.runsOn ∧ m.rightQuote? = some p)

/-- What starts where some tokens of a text do starts at a place of the text. -/
theorem StartsAt.faithful (h : StartsAt ts pos) (inside : ts ⊆ lex source) :
    pos.Faithful source := by
  obtain ⟨t, us, rfl, rfl⟩ := h
  exact faithful_start_of_mem_lex (inside List.mem_cons_self)

/-- What ends where some tokens of a text do stops at a place of the text, unless a line break is in
the string at the end. -/
theorem EndsAt.faithful_iff (h : EndsAt ts stop text) (inside : ts ⊆ lex source) :
    stop.Faithful source ↔ (text.any fun s => s.toList.contains '\n') = false := by
  obtain ⟨us, t, rfl, other, stop_eq, rfl⟩ := h
  have mem : t ∈ lex source := inside (by simp)
  have spells := spells_of_mem_lex mem other
  have whole : t.text.toList.take t.text.length = t.text.toList := by
    rw [← String.length_toList, List.take_length]
  rw [stop_eq spells, faithful_addColumns_of_mem_lex mem other (Nat.le_refl _), whole]
  split
  · next string =>
    rw [string] at spells
    rw [Option.any_some, spells.unquote.2]
    simp
  · next string => simpa using spells.newline_not_mem string

/-- A derived part is placed right, but for line breaks. -/
theorem Derives.isPlaced (h : Derives ts m) (inside : ts ⊆ lex source) (other : ∀ f, m ≠ .file f) :
    m.Placed source where
  pos := (h.startsAt other).faithful inside
  stop := (h.endsAt other).faithful_iff inside
  places := by
    intro p mem
    rcases h.places with ⟨t, rfl, kind, rfl⟩ | ⟨none, starts⟩
    · have mem_t : t ∈ lex source := inside List.mem_cons_self
      have other_t : t.kind.isTerminal = false := by simp [kind, Kind.isTerminal]
      have spells := spells_of_mem_lex mem_t other_t
      rw [kind] at spells
      have runsOn : Node.runsOn (.parameter (.string ⟨t.start,
          t.start.addColumns (t.text.length - 1), Read.unquote t.text, none⟩))
          = t.text.toList.contains '\n' := spells.unquote.2
      have apart : t.start.addColumns (t.text.length - 1) ≠ t.start := by
        intro eq
        have index := congrArg Pos.index eq
        have length := spells.unquote.1
        simp only [Pos.addColumns] at index
        omega
      rw [runsOn]
      obtain rfl | rfl : p = _ ∨ p = _ := by
        simpa [Node.places, Node.placesOfParameter] using mem
      · simp [Node.rightQuote?, apart, faithful_start_of_mem_lex mem_t]
      · rw [faithful_addColumns_of_mem_lex mem_t other_t (Nat.sub_le _ _),
          spells.newline_mem_take]
        simp [Node.rightQuote?]
    · obtain ⟨t, first, rfl⟩ := starts p mem
      simp [none, faithful_start_of_mem_lex (inside first)]

/-! ### Comments, rulesets and files -/

/-- A comment of a text is on one line. -/
theorem placed_comment {c : Comment} (h : c ∈ commentsOf (lex source)) :
    (Node.comment c).Placed source := by
  obtain ⟨t, mem, kind, rfl⟩ := mem_commentsOf.mp h
  have other : t.kind.isTerminal = false := by simp [kind, Kind.isTerminal]
  have one_line := (spells_of_mem_lex mem other).newline_not_mem (by simp [kind])
  have start := faithful_start_of_mem_lex mem
  have whole : t.text.toList.take t.text.length = t.text.toList := by
    rw [← String.length_toList, List.take_length]
  have stop := faithful_addColumns_of_mem_lex mem other (Nat.le_refl _)
  rw [whole] at stop
  refine ⟨start, ⟨fun _ => rfl, fun _ => stop.mpr one_line⟩, fun p place => ?_⟩
  obtain rfl := List.mem_singleton.mp place
  refine ⟨fun _ runs => ?_, fun _ => start⟩
  cases runs.1

/-- A file has rulesets. -/
theorem Derives.rulesets_ne_nil {f : RuleFile} (h : Derives ts (Node.file f).bare) :
    f.rulesets ≠ [] := by
  intro none
  generalize eq : (Node.file f).bare = b at h
  cases h with
  | file name all some =>
    have := congrArg RuleFile.rulesets (Node.file.inj eq)
    simp [RuleFile.bare, none] at this
    exact some this
  | _ => cases eq

namespace RuleFile

variable {f : RuleFile}

/-- A file starts where one of its groups or rulesets does. -/
theorem pos_eq (some : f.rulesets ≠ []) : ∃ c ∈ (Node.file f).children, f.pos = c.pos := by
  obtain ⟨x, xs, eq⟩ := List.exists_cons_of_ne_nil some
  have first : f.rulesets.head? = Option.some x := by rw [eq]; rfl
  have ruleset : Node.ruleset x ∈ (Node.file f).children := by
    simp [Node.children, Node.inOrder, eq]
  unfold pos
  rw [first]
  cases groups : f.commentGroups.head? with
  | none => exact ⟨_, ruleset, rfl⟩
  | some g =>
    have group : Node.group g ∈ (Node.file f).children := by
      simp [Node.children, Node.inOrder, List.mem_of_head? groups]
    dsimp only
    unfold earlier
    split
    · exact ⟨_, ruleset, rfl⟩
    · exact ⟨_, group, rfl⟩

/-- A file ends where one of its groups or rulesets does. -/
theorem stop_eq (some : f.rulesets ≠ []) : ∃ c ∈ (Node.file f).children, f.stop = c.stop := by
  have last := List.getLast?_eq_some_getLast some
  have ruleset : Node.ruleset (f.rulesets.getLast some) ∈ (Node.file f).children := by
    simp [Node.children, Node.inOrder]
  unfold stop
  rw [last]
  cases groups : f.commentGroups.getLast? with
  | none => exact ⟨_, ruleset, rfl⟩
  | some g =>
    have group : Node.group g ∈ (Node.file f).children := by
      simp [Node.children, Node.inOrder, List.mem_of_getLast? groups]
    dsimp only
    unfold later
    split
    · exact ⟨_, ruleset, rfl⟩
    · exact ⟨_, group, rfl⟩

end RuleFile

namespace Source

/-- The comments of a tree are placed right, and so are its groups of them. -/
theorem Yields.placed_of_isRemark (h : Yields source options n) (mem : m ∈ n.walk)
    (remark : m.isRemark) : m.Placed source := by
  have comment : ∀ c, Node.comment c ∈ n.walk → (Node.comment c).Placed source :=
    fun c mem => placed_comment (h.mem_commentsOf_lex mem)
  cases m with
  | comment c => exact comment c mem
  | group g =>
    have each : ∀ c ∈ g.comments, (Node.comment c).Placed source := fun c inside =>
      comment c (Node.children_subset_walk mem (List.mem_map_of_mem inside))
    have first := each _ (List.head_mem g.ne_nil)
    have last := each _ (List.getLast_mem g.ne_nil)
    exact ⟨first.pos, last.stop, nofun⟩
  | _ => exact nomatch remark

/-- All parts of a tree but a file are placed right, but for line breaks. -/
theorem Yields.placed_of_ne_file (h : Yields source options n) (mem : m ∈ n.walk)
    (other : ∀ f, m ≠ .file f) : m.Placed source := by
  rcases h.derives mem with remark | ⟨ts, inside, derived⟩
  · exact h.placed_of_isRemark mem remark
  · have subset : ts ⊆ lex source := fun t mem => List.mem_of_mem_filter (inside.subset mem)
    have bare := derived.isPlaced subset (m.bare_ne_file other)
    have runsOn : m.bare.runsOn = m.runsOn := by rw [Node.runsOn, m.lastString_bare, Node.runsOn]
    have pos := bare.pos
    rw [m.pos_bare other] at pos
    refine ⟨pos, ?_, ?_⟩
    · by_cases isRuleset : ∃ x, m = .ruleset x
      · obtain ⟨x, rfl⟩ := isRuleset
        -- a ruleset ends behind its bracket, or behind the comments that trail it
        cases trailing : x.comments with
        | none =>
          have eq : (Node.ruleset x).stop = (Node.ruleset x).bare.stop := by
            simp only [Node.stop, Ruleset.stop, trailing]
            rfl
          rw [eq]
          exact bare.stop
        | some g =>
          have child : Node.group g ∈ (Node.ruleset x).children := by
            simp [Node.children, trailing, Node.present]
          have group := h.placed_of_isRemark (Node.children_subset_walk mem child) rfl
          have eq : (Node.ruleset x).stop = (Node.group g).stop := by
            simp only [Node.stop, Ruleset.stop, trailing]
          rw [eq]
          exact group.stop
      · rw [← runsOn, ← m.stop_bare other fun x eq => isRuleset ⟨x, eq⟩]
        exact bare.stop
    · rw [← m.places_bare, ← runsOn, ← m.rightQuote?_bare]
      exact bare.places

/-- Every part of a tree starts where its place says. -/
theorem Yields.faithful_pos (h : Yields source options n) (mem : m ∈ n.walk) :
    m.pos.Faithful source := by
  cases m with
  | file f =>
    obtain remark | ⟨ts, -, derived⟩ := h.derives mem
    · cases remark
    obtain ⟨first, child, pos⟩ := RuleFile.pos_eq derived.rulesets_ne_nil
    have other : ∀ f, first ≠ .file f := by
      rintro f rfl
      simp [Node.children, Node.inOrder] at child
    have starts := (h.placed_of_ne_file (Node.children_subset_walk mem child) other).pos
    rw [← pos] at starts
    exact starts
  | _ => exact (h.placed_of_ne_file mem (by rintro _ ⟨⟩)).pos

/-- **Every place of a tree is right, unless a string runs over a line break**: then neither its
closing quote nor the end of any part that ends with it is. -/
theorem Yields.placed (h : Yields source options n) (mem : m ∈ n.walk) : m.Placed source := by
  cases m with
  | file f =>
    rcases h.derives mem with remark | ⟨ts, -, derived⟩
    · cases remark
    have some := derived.rulesets_ne_nil
    have part : ∀ c ∈ (Node.file f).children, c.Placed source ∧ c.runsOn = false := by
      intro c child
      have other : (∃ g, c = .group g) ∨ ∃ x, c = .ruleset x := by
        simp only [Node.children, Node.inOrder, List.mem_mergeSort, List.mem_append,
          List.mem_map] at child
        rcases child with ⟨g, -, rfl⟩ | ⟨x, -, rfl⟩
        · exact .inl ⟨g, rfl⟩
        · exact .inr ⟨x, rfl⟩
      have placed := h.placed_of_ne_file (Node.children_subset_walk mem child)
        (by rintro f rfl; simp at other)
      rcases other with ⟨g, rfl⟩ | ⟨x, rfl⟩ <;> exact ⟨placed, rfl⟩
    obtain ⟨first, child, pos⟩ := RuleFile.pos_eq some
    obtain ⟨last, child', stop⟩ := RuleFile.stop_eq some
    have ends := (part last child').1.stop.mpr (part last child').2
    rw [← stop] at ends
    refine ⟨?_, ⟨fun _ => rfl, fun _ => ends⟩, List.forall_mem_nil _⟩
    have starts := (part first child).1.pos
    rw [← pos] at starts
    exact starts
  | _ => exact h.placed_of_ne_file mem (by rintro _ ⟨⟩)

/-- A rule with a string that runs over a line break. -/
def brokenText : String := "A \"x\ny\""

/-- In such a tree a node ends with that string, and its places are right but for those behind it.
-/
theorem Yields.placed_brokenText : ∃ n, Yields brokenText Options.default n ∧
    ∃ m ∈ n.walk, m.runsOn ∧ m.Placed brokenText := by
  obtain ⟨d, read, m, mem, runs⟩ : ∃ d, (Source.rule brokenText Options.default).result = .ok d ∧
      ∃ m ∈ (Node.rule d).walk, m.runsOn := Outcome.exists_ok (by decide +kernel)
  exact ⟨_, .rule read, m, mem, runs, Yields.placed (.rule read) mem⟩

/-- **The closing quote of such a string is not where its place says, and neither is the end of the
rule.** -/
theorem Yields.not_faithful_brokenText : ∃ d,
    (Source.rule brokenText Options.default).result = .ok d ∧
      ¬ (Node.rule d).stop.Faithful brokenText ∧
      ∃ m ∈ (Node.rule d).walk, ∃ p ∈ m.places, ¬ p.Faithful brokenText :=
  Outcome.exists_ok (by decide +kernel)

end Source

end QualityRules
