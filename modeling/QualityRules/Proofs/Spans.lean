import QualityRules.Proofs.Order.Rulesets
import QualityRules.Proofs.Places
import QualityRules.Proofs.Tiling

/-!
# Proofs — Spans

From where to where a part of a tree reaches in the text.  A part is built from some tokens of the
text; its start has the index where the first of them starts, and its end the index where the last
one stops.  Lines and columns do not matter here, so strings may run over line breaks.

* `BuiltFrom`: the tokens of a part, without its description and without the comments attached to
  it, but with those that trail a ruleset; `Node.Spans` adds where they stand and how far the part
  reaches.
* `Node.Reads`: what a name, a value, a comment or a pattern says is what the text holds there.
* `Source.Yields.spans`: both hold of all parts of a tree but a file.
-/

namespace QualityRules

open Grammar
open Token (slice)

variable {source : String} {options : Options} {ts us vs : List Token} {t u : Token} {m n : Node}
  {pos stop : Pos} {text : Option String}

/-! ### The tokens of a part -/

/-- The tokens that a part of a tree is built from.  A group has its comments, a ruleset those that
trail it; no other part has a comment. -/
inductive BuiltFrom : List Token → Node → Prop
  | comment {t : Token} (kind : t.kind = .comment) :
      BuiltFrom [t] (.comment (Comment.ofToken t))
  | group {ts : List Token} {g : CommentGroup} (kind : ∀ t ∈ ts, t.kind = .comment)
      (comments : g.comments = ts.map Comment.ofToken) : BuiltFrom ts (.group g)
  | ruleset {us vs : List Token} {x : Ruleset} (is : IsRuleset (IsDecl true) us x.bare)
      (trailed : x.TrailedBy vs) : BuiltFrom (us ++ vs) (.ruleset x)
  | part {ts : List Token} {m : Node} (other : ∀ x, m ≠ .ruleset x) (is : Derives ts m.bare) :
      BuiltFrom ts m

/-- The part is built from the tokens `ts` and reaches from the first to the last of them. -/
structure Node.Spans (source : String) (ts : List Token) (m : Node) : Prop where
  built : BuiltFrom ts m
  /-- The tokens come in the order of the text. -/
  inOrder : ts.Sublist (lex source)
  /-- Between those that are no comments there are only comments. -/
  together : solid ts <:+: solid (lex source)
  starts : ∃ t ∈ ts.head?, m.pos.index = t.start.index
  stops : ∃ t ∈ ts.getLast?, m.stop.index = t.stop.index

/-- What the text holds from the start of a part to its end. -/
def Node.covered (source : String) (m : Node) : String :=
  slice source m.pos.index m.stop.index

/-- What a part says is what the text holds there; a duration starts with its number and ends with
its unit. -/
def Node.Reads (source : String) (m : Node) : Prop :=
  match m with
  | ident i => m.covered source = i.name
  | comment c => m.covered source = c.text
  | parameter (.string p) => m.covered source = quoted p.value
  | parameter (.number p) => m.covered source = p.value
  | parameter (.bool p) => m.covered source = if p.value then "true" else "false"
  | parameter (.duration p) =>
    ∃ between, m.covered source = p.number ++ between ++ p.unit.text
  | parameter (.date p) => p.isRelative = false → m.covered source = "now()"
  | expression (.target (.pattern e)) =>
    slice source e.patternPos.index e.stop.index = quoted e.value
  | _ => True

/-! ### Where tokens start and stop -/

theorem StartsAt.index (h : StartsAt ts pos) : ∃ t ∈ ts.head?, pos.index = t.start.index := by
  obtain ⟨t, us, rfl, rfl⟩ := h
  exact ⟨t, rfl, rfl⟩

/-- In columns or not, the index is right. -/
theorem EndsAt.index (h : EndsAt ts stop text) (inside : ts ⊆ lex source) :
    ∃ t ∈ ts.getLast?, t.kind.isTerminal = false ∧ stop.index = t.stop.index := by
  obtain ⟨us, t, rfl, other, stop_eq, -⟩ := h
  have mem : t ∈ lex source := inside (by simp)
  refine ⟨t, by simp, other, ?_⟩
  rw [stop_eq (spells_of_mem_lex mem other), index_stop_of_mem_lex mem other]
  rfl

/-- A part that is derived from one token covers its text. -/
theorem Derives.covered_eq (h : Derives [t] m) (other : ∀ f, m ≠ .file f) (mem : t ∈ lex source) :
    m.covered source = t.text := by
  obtain ⟨_, ⟨⟩, first⟩ := (h.startsAt other).index
  obtain ⟨v, same, kind, last⟩ := (h.endsAt other).index (by simpa using mem)
  obtain rfl : t = v := Option.some.inj same
  rw [Node.covered, first, last, slice_of_mem_lex mem kind]

/-- Of two tokens the first stops before the second starts. -/
theorem stop_le_start_of_sublist (h : [t, u].Sublist (lex source)) :
    t.stop.index ≤ u.start.index := by
  have apart := (pairwise_stop_lex source).sublist h
  simpa using apart

/-! ### What a part says -/

/-- A token whose kind has one spelling is spelled so. -/
theorem text_eq_display {k : Kind} (mem : t ∈ lex source) (kind : t.kind = k)
    (other : k.isTerminal = false) (spelling : ∀ cs, k.Spells cs → cs = k.display.toList) :
    t.text = k.display := by
  subst kind
  exact String.toList_injective (spelling _ (spells_of_mem_lex mem other))

theorem TimeUnit.text_eq {unit : TimeUnit} (h : ofKind? t.kind = some unit)
    (mem : t ∈ lex source) : t.text = unit.text := by
  cases kind : t.kind with
  | kwDays =>
    obtain rfl : days = unit := by simpa [kind, ofKind?] using h
    exact text_eq_display mem kind rfl fun _ => id
  | kwHours =>
    obtain rfl : hours = unit := by simpa [kind, ofKind?] using h
    exact text_eq_display mem kind rfl fun _ => id
  | _ => simp [kind, ofKind?] at h

theorem reads_value {p : Parameter} (is : IsValue ts p) (inside : ts.Sublist (lex source)) :
    Node.Reads source (.parameter p) := by
  have other : ∀ f, Node.parameter p ≠ .file f := nofun
  have derived := Derives.value is
  cases is with
  | @string t kind =>
    have mem : t ∈ lex source := inside.subset (by simp)
    have spells := spells_of_mem_lex mem (by simp [kind, Kind.isTerminal])
    rw [kind] at spells
    exact (derived.covered_eq other mem).trans spells.eq_quoted
  | number => exact derived.covered_eq other (inside.subset (by simp))
  | yes kind =>
    have mem := inside.subset List.mem_cons_self
    exact (derived.covered_eq other mem).trans (text_eq_display mem kind rfl fun _ => id)
  | no kind =>
    have mem := inside.subset List.mem_cons_self
    exact (derived.covered_eq other mem).trans (text_eq_display mem kind rfl fun _ => id)
  | now kind =>
    have mem := inside.subset List.mem_cons_self
    exact fun _ => (derived.covered_eq other mem).trans (text_eq_display mem kind rfl fun _ => id)
  | @duration t u unit kind _ unit_kind =>
    have mem : t ∈ lex source := inside.subset (by simp)
    have mem' : u ∈ lex source := inside.subset (by simp)
    have number := slice_of_mem_lex mem (by simp [kind, Kind.isTerminal])
    obtain ⟨v, same, kind', last⟩ := (derived.endsAt other).index inside.subset
    obtain rfl : u = v := Option.some.inj same
    have word := slice_of_mem_lex mem' kind'
    have before := index_stop_of_mem_lex mem (by simp [kind, Kind.isTerminal])
    have behind := index_stop_of_mem_lex mem' kind'
    have apart := stop_le_start_of_sublist inside
    refine ⟨slice source t.stop.index u.start.index, ?_⟩
    rw [← TimeUnit.text_eq unit_kind mem', ← word, ← number, Token.slice_append (by omega) apart,
      Token.slice_append (by omega) (by omega), ← last]
    rfl

/-- A derived part says what the text holds there. -/
theorem Derives.reads (h : Derives ts m) (inside : ts.Sublist (lex source)) : m.Reads source := by
  have derived := h
  cases h with
  | ident => exact derived.covered_eq nofun (inside.subset (by simp))
  | value is => exact reads_value is inside
  | moment is =>
    cases is
    exact fun bare => nomatch bare
  | condition is =>
    cases is with
    | target is =>
      cases is with
      | @pattern word t _ kind =>
        have mem : t ∈ lex source := inside.subset (by simp)
        obtain ⟨v, same, other, last⟩ := (derived.endsAt nofun).index inside.subset
        obtain rfl : t = v := Option.some.inj same
        have spells := spells_of_mem_lex mem other
        rw [kind] at spells
        have covered := slice_of_mem_lex mem other
        rw [← last] at covered
        exact covered.trans spells.eq_quoted
      | _ => trivial
    | _ => trivial
  | plain | combined | ruleset | file => trivial

/-- Comments make no difference to what a part says. -/
theorem Node.reads_bare (m : Node) : m.bare.Reads source ↔ m.Reads source := by
  cases m with
  | parameter p =>
    cases p with
    | date p =>
      have same : p.bare.isRelative = p.isRelative := Option.isSome_map
      simp only [Node.bare, Parameter.bare, Reads, same]
      rfl
    | _ => rfl
  | expression e =>
    cases e with
    | target e => cases e <;> rfl
    | _ => rfl
  | _ => rfl

/-! ### Comments -/

/-- A comment ends where its token stops. -/
theorem index_stop_ofToken (mem : t ∈ lex source) (kind : t.kind = .comment) :
    (Comment.ofToken t).stop.index = t.stop.index :=
  (index_stop_of_mem_lex mem (by simp [kind, Kind.isTerminal])).symm

namespace CommentGroup

variable {g : CommentGroup}

theorem index_pos (comments : g.comments = ts.map Comment.ofToken) :
    ∃ t ∈ ts.head?, g.pos.index = t.start.index := by
  obtain ⟨cs, some⟩ := g
  subst comments
  have some' : ts ≠ [] := fun none => some (by simp [none])
  refine ⟨ts.head some', List.head_mem_head? some', ?_⟩
  rw [pos, List.head_map]
  rfl

theorem index_stop (comments : g.comments = ts.map Comment.ofToken)
    (kind : ∀ t ∈ ts, t.kind = .comment) (inside : ts ⊆ lex source) :
    ∃ t ∈ ts.getLast?, g.stop.index = t.stop.index := by
  obtain ⟨cs, some⟩ := g
  subst comments
  have some' : ts ≠ [] := fun none => some (by simp [none])
  have last := List.getLast_mem some'
  refine ⟨ts.getLast some', List.getLast_mem_getLast? some', ?_⟩
  rw [stop, List.getLast_map, index_stop_ofToken (inside last) (kind _ last)]

end CommentGroup

/-- A ruleset that ends with the token `t`, but for the comments that trail it, ends where the last
of these does. -/
theorem Ruleset.TrailedBy.index_stop {x : Ruleset} (h : x.TrailedBy vs) (inside : vs ⊆ lex source)
    (bare : x.bare.stop.index = t.stop.index) :
    ∃ u ∈ (t :: vs).getLast?, (Node.ruleset x).stop.index = u.stop.index := by
  cases vs with
  | nil =>
    refine ⟨t, rfl, bare ▸ ?_⟩
    rw [Node.stop, Ruleset.stop, h.comments]
    rfl
  | cons v vs =>
    let g : CommentGroup := ⟨(v :: vs).map Comment.ofToken, List.cons_ne_nil _ _⟩
    obtain ⟨u, last, stop⟩ := g.index_stop rfl h.kind inside
    refine ⟨u, by rwa [List.getLast?_cons_cons], ?_⟩
    rw [← stop, Node.stop, Ruleset.stop, h.comments]
    rfl

namespace Source

/-- The comments of a tree are tokens of the text, and those of a group come in its order. -/
theorem Yields.spans_of_isRemark (h : Yields source options n) (mem : m ∈ n.walk)
    (remark : m.isRemark) : (∃ ts, m.Spans source ts) ∧ m.Reads source := by
  cases m with
  | comment c =>
    obtain ⟨t, inside, kind, rfl⟩ := mem_commentsOf.mp (h.mem_commentsOf_lex mem)
    have none : solid [t] = [] := solid_eq_nil (List.forall_mem_singleton.mpr kind)
    have stops := index_stop_ofToken inside kind
    refine ⟨⟨[t], .comment kind, List.singleton_sublist.mpr inside, ?_, ⟨t, rfl, rfl⟩,
      t, rfl, stops⟩, ?_⟩
    · rw [none]
      exact List.nil_infix
    · have covered := slice_of_mem_lex inside (by simp [kind, Kind.isTerminal])
      rw [← stops] at covered
      exact covered
  | group g =>
    obtain ⟨ts, some, eq⟩ := List.sublist_map_iff.mp (h.within g mem)
    have kind : ∀ t ∈ ts, t.kind = .comment := fun t mem => by
      simpa using (List.mem_filter.mp (some.subset mem)).2
    have inside : ts.Sublist (lex source) := some.trans List.filter_sublist
    refine ⟨⟨ts, .group kind eq, inside, ?_, CommentGroup.index_pos eq,
      CommentGroup.index_stop eq kind inside.subset⟩, trivial⟩
    rw [solid_eq_nil kind]
    exact List.nil_infix
  | _ => cases remark

/-- A ruleset reaches to its closing bracket, or to the end of the comments that trail it. -/
theorem Yields.spans_ruleset {x : Ruleset} (h : Yields source options n)
    (mem : .ruleset x ∈ n.walk) : ∃ ts, (Node.ruleset x).Spans source ts := by
  obtain ⟨us, vs, inside, is, trailed⟩ := h.ruleset_derives mem
  have inOrder : (solid us ++ vs).Sublist (lex source) :=
    (List.filter_sublist.append (.refl vs)).trans inside.sublist
  refine ⟨solid us ++ vs, .ruleset is trailed, inOrder, ?_, (is.startsAt.append vs).index, ?_⟩
  · rw [trailed.solid_append, solid_eq_self fun _ => kind_ne_of_mem_solid, ← trailed.solid_append]
    exact inside.filter _
  · obtain ⟨t, last, -, stop⟩ := is.endsAt.index
      fun t mem => inOrder.subset (List.mem_append_left _ mem)
    obtain ⟨u, last', stop'⟩ := trailed.index_stop
      (fun t mem => inOrder.subset (List.mem_append_right _ mem)) stop
    obtain ⟨ws, eq⟩ := List.getLast?_eq_some_iff.mp last
    rw [eq, List.append_assoc]
    exact ⟨u, List.mem_getLast?_append_of_mem_getLast? last', stop'⟩

/-- **Every part of a tree but a file reaches from the first to the last token that it is built
from**, and names, values, comments and patterns say what the text holds there. -/
theorem Yields.spans (h : Yields source options n) (mem : m ∈ n.walk)
    (other : ∀ f, m ≠ .file f) : (∃ ts, m.Spans source ts) ∧ m.Reads source := by
  rcases h.derives mem with remark | ⟨ts, inside, derived⟩
  · exact h.spans_of_isRemark mem remark
  have inOrder : ts.Sublist (lex source) := inside.sublist.trans List.filter_sublist
  refine ⟨?_, (m.reads_bare).mp (derived.reads inOrder)⟩
  by_cases isRuleset : ∃ x, m = .ruleset x
  · obtain ⟨x, rfl⟩ := isRuleset
    exact h.spans_ruleset mem
  have other' : ∀ x, m ≠ .ruleset x := fun x eq => isRuleset ⟨x, eq⟩
  have other_bare := m.bare_ne_file other
  have starts := (derived.startsAt other_bare).index
  obtain ⟨t, last, -, stop⟩ := (derived.endsAt other_bare).index inOrder.subset
  rw [m.pos_bare other] at starts
  rw [m.stop_bare other other'] at stop
  refine ⟨ts, .part other' derived, inOrder, ?_, starts, t, last, stop⟩
  rwa [solid_eq_self fun _ mem => kind_ne_of_mem_solid (inside.subset mem)]

/-- A file with a string that runs over a line break, a duration and comments. -/
def spannedText : String := "# a\nRules = [A \"x\ny\" > 3 days # b\n] # c"

theorem Yields.spans_spannedText : ∃ n, Yields spannedText Options.default n ∧
    ∃ m ∈ n.walk, (∀ f, m ≠ .file f) ∧ m.runsOn ∧
      (∃ ts, m.Spans spannedText ts) ∧ m.Reads spannedText := by
  obtain ⟨f, read, m, mem, runs⟩ : ∃ f,
      (Source.file "f" spannedText Options.default).result = .ok f ∧
        ∃ m ∈ (Node.file f).walk, m.runsOn := Outcome.exists_ok (by decide +kernel)
  have other : ∀ f, m ≠ .file f := by
    rintro f rfl
    cases runs
  exact ⟨_, .file read, m, mem, other, runs, Yields.spans (.file read) mem other⟩

end Source

end QualityRules
