import QualityRules.Proofs.Grammar
import QualityRules.Proofs.Stray

/-!
# Proofs — Enclosed

The rules in parentheses, as the tokens of a text show them: a parenthesis that does not stand
behind a comparison opens one, and the parenthesis that matches it closes it.  Two kinds of comments
inside find no place in the tree: what still waits at the closing parenthesis, and the description
of a lone rule.

* `enclosed` lists the rules in parentheses; `Enclosed.lost` the comments that one loses.
* `Tidy`: tokens whose parentheses hold dates only, and match; `enclosed_append` and
  `untilClose_append` pass over them.
* `tidy_of_isPlain`: a rule by itself is tidy.
-/

namespace QualityRules

/-- A comment leaves the kind of the last other token as it is. -/
def kindBehind (k : Option Kind) (t : Token) : Option Kind :=
  if t.kind = .comment then k else some t.kind

/-- The kind of the last token that is no comment, `k` if there is none. -/
def lastKind (k : Option Kind) (ts : List Token) : Option Kind := ts.foldl kindBehind k

/-- The kind of the first token that is no comment. -/
def nextKind (ts : List Token) : Option Kind := (solid ts).head?.map Token.kind

/-- A connective stands there. -/
def joins (k : Option Kind) : Bool := k.any fun k => (Connective.ofKind? k).isSome

/-- A comparison stands there. -/
def compares (k : Option Kind) : Bool := k.any Kind.isComparison

/-- How many parentheses are open behind the token `t` when `depth` were; none if it closes one too
many. -/
def depthBehind (depth : Nat) (t : Token) : Option Nat :=
  match t.kind, depth with
  | .leftParen, d => some (d + 1)
  | .rightParen, 0 => none
  | .rightParen, d + 1 => some d
  | _, d => some d

/-- The tokens up to the parenthesis that closes one too many, and those behind it. -/
def untilClose : Nat → List Token → List Token × List Token
  | _, [] => ([], [])
  | depth, t :: ts =>
    match depthBehind depth t with
    | none => ([], ts)
    | some depth => (t :: (untilClose depth ts).1, (untilClose depth ts).2)

/-- A rule in parentheses. -/
structure Enclosed where
  /-- The tokens between the parentheses. -/
  inside : List Token
  /-- No connective stands before or behind the parentheses. -/
  lone : Bool

/-- The rules in parentheses among tokens, where `k` is the kind of the last token before that is no
comment. -/
def enclosed : Option Kind → List Token → List Enclosed
  | _, [] => []
  | k, t :: ts =>
    if t.kind = .leftParen ∧ compares k = false then
      ⟨(untilClose 0 ts).1, !joins k && !joins (nextKind (untilClose 0 ts).2)⟩ ::
        enclosed (kindBehind k t) ts
    else enclosed (kindBehind k t) ts

/-- The comments before the rule type, of the tokens between parentheses. -/
def beforeType (inside : List Token) : List Token := inside.takeWhile fun t => t.kind = .comment

/-- The tokens from the rule type on. -/
def fromType (inside : List Token) : List Token := inside.dropWhile fun t => t.kind = .comment

/-- The last comments in a row that stand on lines that follow each other. -/
def lastRun (cs : List Comment) : List Comment := (cs.foldl Tray.add Tray.empty).run

/-- The comments that describe the rule between parentheses. -/
def describing (inside : List Token) : List Comment :=
  match fromType inside with
  | [] => []
  | t :: _ =>
    let tray := ((beforeType inside).map Comment.ofToken).foldl Tray.add Tray.empty
    CommentGroup.listOf (tray.takeDescription t.start).1

/-- The comments that still wait at the closing parenthesis; a comma before it lets them float. -/
def waiting (inside : List Token) : List Comment :=
  match fromType inside with
  | [] => []
  | t :: ts =>
    if lastKind none ts = some .comma then [] else lastRun (strays (Stand.behind t.start) ts)

/-- The comments that find no place in the tree: the description of a lone rule, and what waits at
the closing parenthesis. -/
def Enclosed.lost (m : Enclosed) : List Comment :=
  (if m.lone then describing m.inside else []) ++ waiting m.inside

/-! ### Kinds around tokens -/

variable {k : Option Kind} {t : Token} {ts us vs : List Token}

@[simp] theorem lastKind_nil (k : Option Kind) : lastKind k [] = k := rfl

@[simp] theorem lastKind_cons (k : Option Kind) (t : Token) (ts : List Token) :
    lastKind k (t :: ts) = lastKind (kindBehind k t) ts := rfl

/-- The last kind behind two stretches is that of the second, if it has one. -/
theorem lastKind_append (k : Option Kind) (ts us : List Token) :
    lastKind k (ts ++ us) = lastKind (lastKind k ts) us := List.foldl_append

/-- A token that is no comment is the last one itself. -/
theorem kindBehind_of_kind (h : t.kind ≠ .comment) : kindBehind k t = some t.kind := if_neg h

/-- Comments do not count for the last kind. -/
theorem lastKind_solid (k : Option Kind) (ts : List Token) :
    lastKind k (solid ts) = lastKind k ts := by
  induction ts generalizing k with
  | nil => rfl
  | cons t ts ih =>
    by_cases h : t.kind = .comment
    · rw [solid_cons_comment h, ih, lastKind_cons, kindBehind, if_pos h]
    · rw [solid_cons h, lastKind_cons, lastKind_cons, ih]

/-- Behind comments alone the last kind is what it was. -/
theorem lastKind_comments (k : Option Kind) (h : ∀ t ∈ ts, t.kind = .comment) :
    lastKind k ts = k := by
  rw [← lastKind_solid, solid_eq_nil h, lastKind_nil]

/-- The last token is not the end of the text if the last that is no comment is not. -/
theorem ne_eof_of_lastKind (h : lastKind k us ≠ some .eof) : ∀ u ∈ us.getLast?, u.kind ≠ .eof := by
  intro u last isEnd
  obtain ⟨vs, rfl⟩ := List.getLast?_eq_some_iff.mp last
  rw [lastKind_append, lastKind_cons, kindBehind_of_kind (by simp [isEnd]), isEnd] at h
  exact h rfl

/-- Where the rule type stands. -/
theorem fromType_append (h : ∀ u ∈ us, u.kind = .comment) (other : t.kind ≠ .comment) :
    fromType (us ++ t :: ts) = t :: ts ∧ beforeType (us ++ t :: ts) = us := by
  induction us with
  | nil => simp [fromType, beforeType, other]
  | cons u us ih =>
    obtain ⟨hu, hus⟩ := List.forall_mem_cons.mp h
    simpa [fromType, beforeType, hu] using ih hus

/-! ### What is lost stood between the parentheses -/

/-- What goes astray is among the comments. -/
theorem strays_subset (σ : Stand) (ts : List Token) : strays σ ts ⊆ commentsOf ts := by
  induction ts generalizing σ with
  | nil => exact List.nil_subset _
  | cons t ts ih =>
    by_cases h : t.kind = .comment
    · rw [commentsOf_cons_comment h, strays]
      split
      · exact List.cons_subset_cons _ (ih _)
      · exact List.subset_cons_of_subset _ (ih _)
    · rw [commentsOf_cons h, strays_cons_of_kind h]
      exact ih _

/-- What comments leave on an empty tray are those comments. -/
theorem comments_foldl_add (cs : List Comment) :
    ((cs.foldl Tray.add Tray.empty).comments : Multiset Comment) = cs := by
  have all := Tray.bag_foldl_add Tray.empty cs
  have none : Tray.empty.comments = [] := rfl
  rwa [Tray.bag, Tray.bag, none, Multiset.coe_nil, zero_add] at all

/-- The last run is made of the comments. -/
theorem lastRun_subset (cs : List Comment) : lastRun cs ⊆ cs := by
  intro c mem
  rw [← Multiset.mem_coe, ← comments_foldl_add, Multiset.mem_coe]
  exact List.mem_append_right _ mem

/-- The comments before the type and the tokens from there on are all tokens. -/
theorem beforeType_append_fromType (inside : List Token) :
    beforeType inside ++ fromType inside = inside := List.takeWhile_append_dropWhile

/-- Before the type there are comments only. -/
theorem kind_of_mem_beforeType {inside : List Token} (mem : t ∈ beforeType inside) :
    t.kind = .comment := by
  have all := List.all_takeWhile (p := fun t : Token => decide (t.kind = .comment)) (l := inside)
  exact of_decide_eq_true (List.all_eq_true.mp all t mem)

/-- The comments that describe are among those in the parentheses. -/
theorem describing_subset (inside : List Token) : describing inside ⊆ commentsOf inside := by
  intro c mem
  rw [← beforeType_append_fromType inside, commentsOf_append]
  refine List.mem_append_left _ ?_
  rw [commentsOf_eq_map fun _ => kind_of_mem_beforeType, ← Multiset.mem_coe, ← comments_foldl_add,
    Multiset.mem_coe]
  rw [describing] at mem
  split at mem
  · exact nomatch mem
  · next t _ _ =>
    rw [← Tray.comments_takeDescription _ t.start]
    exact List.mem_append_right _ mem

/-- The comments that wait are among those in the parentheses. -/
theorem waiting_subset (inside : List Token) : waiting inside ⊆ commentsOf inside := by
  rw [waiting]
  split
  · exact List.nil_subset _
  · next t ts from_t =>
    split
    · exact List.nil_subset _
    · intro c mem
      rw [← beforeType_append_fromType inside, commentsOf_append, from_t]
      refine List.mem_append_right _ ?_
      have stray := strays_subset _ _ (lastRun_subset _ mem)
      by_cases h : t.kind = .comment
      · rw [commentsOf_cons_comment h]
        exact List.mem_cons_of_mem _ stray
      · rwa [commentsOf_cons h]

/-- What is lost is among the comments in the parentheses. -/
theorem Enclosed.lost_subset (m : Enclosed) : m.lost ⊆ commentsOf m.inside := by
  refine List.append_subset.mpr ⟨?_, waiting_subset _⟩
  split
  · exact describing_subset _
  · exact List.nil_subset _

/-! ### Parentheses that hold dates only -/

/-- Every parenthesis that opens stands behind a comparison; `k` is the kind of the last token
before that is no comment. -/
def Dated : Option Kind → List Token → Prop
  | _, [] => True
  | k, t :: ts => (t.kind = .leftParen → compares k) ∧ Dated (kindBehind k t) ts

instance decidableDated : (k : Option Kind) → (ts : List Token) → Decidable (Dated k ts)
  | _, [] => .isTrue trivial
  | k, t :: ts =>
    have := decidableDated (kindBehind k t) ts
    inferInstanceAs (Decidable ((t.kind = .leftParen → compares k) ∧ Dated (kindBehind k t) ts))

/-- How many parentheses are open behind tokens. -/
def depthAfter : Nat → List Token → Option Nat
  | depth, [] => some depth
  | depth, t :: ts => (depthBehind depth t).bind fun depth => depthAfter depth ts

/-- Two stretches are dated when each one is. -/
theorem dated_append : Dated k (ts ++ us) ↔ Dated k ts ∧ Dated (lastKind k ts) us := by
  induction ts generalizing k with
  | nil => simp [Dated]
  | cons t ts ih => simp only [List.cons_append, Dated, ih, lastKind_cons, and_assoc]

/-- Comments do not count for dates. -/
theorem dated_solid : Dated k (solid ts) ↔ Dated k ts := by
  induction ts generalizing k with
  | nil => exact Iff.rfl
  | cons t ts ih =>
    by_cases h : t.kind = .comment
    · rw [solid_cons_comment h, ih, Dated, kindBehind, if_pos h]
      simp [h]
    · rw [solid_cons h, Dated, Dated, ih]

/-- Tokens without a parenthesis that opens are dated. -/
theorem dated_of_forall (h : ∀ t ∈ ts, t.kind ≠ .leftParen) : Dated k ts := by
  induction ts generalizing k with
  | nil => trivial
  | cons t ts ih =>
    obtain ⟨ht, hts⟩ := List.forall_mem_cons.mp h
    exact ⟨fun e => absurd e ht, ih hts⟩

/-- The depth behind two stretches is counted on. -/
theorem depthAfter_append (d : Nat) (ts us : List Token) :
    depthAfter d (ts ++ us) = (depthAfter d ts).bind fun d => depthAfter d us := by
  induction ts generalizing d with
  | nil => rfl
  | cons t ts ih =>
    simp only [List.cons_append, depthAfter]
    cases depthBehind d t with
    | none => rfl
    | some d => exact ih d

/-- Comments do not count for the depth. -/
theorem depthAfter_solid (d : Nat) (ts : List Token) :
    depthAfter d (solid ts) = depthAfter d ts := by
  induction ts generalizing d with
  | nil => rfl
  | cons t ts ih =>
    by_cases h : t.kind = .comment
    · rw [solid_cons_comment h, ih, depthAfter]
      simp [depthBehind, h]
    · rw [solid_cons h, depthAfter, depthAfter]
      simp only [ih]

/-- The rules in parentheses are those behind tokens whose parentheses hold dates only. -/
theorem enclosed_append (h : Dated k us) (vs : List Token) :
    enclosed k (us ++ vs) = enclosed (lastKind k us) vs := by
  induction us generalizing k with
  | nil => rfl
  | cons t us ih =>
    rw [List.cons_append, enclosed, if_neg, ih h.2, lastKind_cons]
    rintro ⟨opens, other⟩
    rw [h.1 opens] at other
    exact nomatch other

/-- Among dated tokens no rule is in parentheses. -/
theorem enclosed_eq_nil (h : Dated k us) : enclosed k us = [] := by
  have := enclosed_append h []
  rwa [List.append_nil] at this

/-- Tokens that leave some parentheses open stand before the one that closes too many. -/
theorem untilClose_append {d d' : Nat} (h : depthAfter d us = some d') (vs : List Token) :
    untilClose d (us ++ vs) = (us ++ (untilClose d' vs).1, (untilClose d' vs).2) := by
  induction us generalizing d with
  | nil =>
    cases h
    rfl
  | cons t us ih =>
    obtain ⟨e, step, rest⟩ := Option.bind_eq_some_iff.mp h
    simp only [List.cons_append, untilClose, step, ih rest]

/-- Every parenthesis in the tokens opens a date, and they match. -/
structure Tidy (ts : List Token) : Prop where
  dated : ∀ k, Dated k ts
  balanced : ∀ d, depthAfter d ts = some d

namespace Tidy

/-- No tokens are tidy. -/
theorem nil : Tidy [] := ⟨fun _ => trivial, fun _ => rfl⟩

/-- Two tidy stretches make a tidy one. -/
theorem append (h : Tidy ts) (k : Tidy us) : Tidy (ts ++ us) where
  dated := fun _ => dated_append.mpr ⟨h.dated _, k.dated _⟩
  balanced := fun d => by rw [depthAfter_append, h.balanced, Option.bind_some, k.balanced]

/-- A token that is no parenthesis. -/
theorem cons (l : t.kind ≠ .leftParen) (r : t.kind ≠ .rightParen) (h : Tidy ts) :
    Tidy (t :: ts) where
  dated := fun _ => ⟨fun e => absurd e l, h.dated _⟩
  balanced := fun d => by
    have : depthBehind d t = some d := by
      cases e : t.kind <;> simp_all [depthBehind]
    rw [depthAfter, this, Option.bind_some, h.balanced]

/-- Tokens are tidy when they are but for comments. -/
theorem of_solid (h : Tidy (solid ts)) : Tidy ts where
  dated := fun k => dated_solid.mp (h.dated k)
  balanced := fun d => by rw [← depthAfter_solid, h.balanced]

end Tidy

/-! ### A rule by itself is tidy -/

open Grammar

/-- A value is tidy. -/
theorem tidy_of_isValue {p : Parameter} (h : IsValue ts p) : Tidy ts := by
  have single : ∀ {t : Token}, t.kind ≠ .leftParen → t.kind ≠ .rightParen → Tidy [t] :=
    fun l r => .cons l r .nil
  cases h with
  | string k | number k | yes k | no k | now k => exact single (by simp [k]) (by simp [k])
  | duration k _ unit_kind =>
    refine .cons (by simp [k]) (by simp [k]) (single ?_ ?_) <;>
      · intro e
        simp [e, TimeUnit.ofKind?] at unit_kind

/-- An operator that compares is spelled as a comparison. -/
theorem Comparator.ofKind?_isComparison {k : Kind} {operator : Comparator}
    (h : Comparator.ofKind? k = some operator) : k.isComparison := by
  rw [← Comparator.isSome_ofKind?, h]
  rfl

/-- A bound is tidy. -/
theorem tidy_of_isBound {e : Bound} (h : IsBound ts e) : Tidy ts := by
  cases h with
  | @comparison sign operator us p kind right =>
    have ne := Comparator.ofKind?_isComparison kind
    refine .cons ?_ ?_ (tidy_of_isValue right) <;>
      · intro e
        simp [e, Kind.isComparison] at ne
  | @between word us lower conj ws upper kind left joins right =>
    exact .append (.cons (by simp [kind]) (by simp [kind]) (tidy_of_isValue left.1))
      (.cons (by simp [joins]) (by simp [joins]) (tidy_of_isValue right.1))
  | @moment sign operator us d kind right =>
    have compare := Comparator.ofKind?_isComparison kind
    have ne : sign.kind ≠ .comment ∧ sign.kind ≠ .leftParen ∧ sign.kind ≠ .rightParen := by
      cases e : sign.kind <;> simp_all [Kind.isComparison]
    cases right with
    | @mk paren now minus ws d' close opens now_kind minus_kind less closes =>
      have inner : Tidy (now :: minus :: ws) :=
        .cons (by simp [now_kind]) (by simp [now_kind])
          (.cons (by simp [minus_kind]) (by simp [minus_kind]) (tidy_of_isValue less))
      -- the one parenthesis that opens stands behind the comparison
      refine ⟨fun k => ?_, fun d => ?_⟩
      · refine ⟨fun e => absurd e ne.2.1, fun _ => ?_, ?_⟩
        · simpa [kindBehind, ne.1, compares] using compare
        · exact dated_append.mpr ⟨inner.dated _, by simp [closes], trivial⟩
      · have sign_depth : depthBehind d sign = some d := by
          cases e : sign.kind <;> simp_all [depthBehind]
        have opens_depth : depthBehind d paren = some (d + 1) := by simp [depthBehind, opens]
        have closes_depth : depthBehind (d + 1) close = some d := by simp [depthBehind, closes]
        change depthAfter d (sign :: paren :: ((now :: minus :: ws) ++ [close])) = some d
        rw [depthAfter, sign_depth, Option.bind_some, depthAfter, opens_depth, Option.bind_some,
          depthAfter_append, inner.balanced, Option.bind_some, depthAfter, closes_depth]
        rfl

/-- A list is tidy. -/
theorem tidy_of_isList {ps : List Parameter} (h : IsList ts ps) : Tidy ts := by
  induction h with
  | one only => exact tidy_of_isValue only.1
  | more first kind _ ih =>
    exact .append (tidy_of_isValue first.1) (.cons (by simp [kind]) (by simp [kind]) ih)

/-- A target is tidy. -/
theorem tidy_of_isTarget {e : Target} (h : IsTarget ts e) : Tidy ts := by
  have single : ∀ {t : Token}, t.kind ≠ .leftParen → t.kind ≠ .rightParen → Tidy [t] :=
    fun l r => .cons l r .nil
  cases h with
  | empty kind opens closes =>
    exact .cons (by simp [kind]) (by simp [kind]) (.cons (by simp [opens]) (by simp [opens])
      (single (by simp [closes]) (by simp [closes])))
  | membership kind opens values closes =>
    exact .cons (by simp [kind]) (by simp [kind]) (.cons (by simp [opens]) (by simp [opens])
      ((tidy_of_isList values).append (single (by simp [closes]) (by simp [closes]))))
  | pattern kind text =>
    exact .cons (by simp [kind]) (by simp [kind]) (single (by simp [text]) (by simp [text]))

/-- A condition is tidy. -/
theorem tidy_of_isCondition {e : Expression} (h : IsCondition ts e) : Tidy ts := by
  cases h with
  | bound is => exact tidy_of_isBound is
  | target is => exact tidy_of_isTarget is
  | withThreshold is kind kind' threshold =>
    exact .append (tidy_of_isTarget is) (.cons (by simp [kind]) (by simp [kind])
      (.cons (by simp [kind']) (by simp [kind']) (tidy_of_isBound threshold)))

/-- A rule by itself holds no rule in parentheses. -/
theorem tidy_of_isPlain {r : Rule} (h : IsPlain ts r) : Tidy ts := by
  cases h with
  | mk kind values condition =>
    refine .cons (by simp [kind]) (by simp [kind]) (.append ?_ ?_)
    · induction values with
      | nil => exact .nil
      | cons first _ ih => exact (tidy_of_isValue first).append ih
    · cases condition with
      | none => exact .nil
      | some is => exact tidy_of_isCondition is

/-! ### What a rule by itself ends in -/

/-- Neither a comma nor the end of the text. -/
def Inner (k : Option Kind) : Prop := k ≠ some .comma ∧ k ≠ some .eof

/-- The last token that is no comment is neither a comma nor the end of the text. -/
def EndsWell (ts : List Token) : Prop := ∀ k, Inner (lastKind k ts)

/-- Tokens end well when the last ones do. -/
theorem EndsWell.append (h : EndsWell us) (ts : List Token) : EndsWell (ts ++ us) := by
  intro k
  rw [lastKind_append]
  exact h _

/-- Tokens end well when they do behind the first one. -/
theorem EndsWell.cons (h : EndsWell ts) (t : Token) : EndsWell (t :: ts) := h.append [t]

/-- A token by itself ends well if it may stand inside. -/
theorem EndsWell.single (h : t.kind ≠ .comment) (k : Inner (some t.kind)) : EndsWell [t] := by
  intro _
  rwa [lastKind_cons, kindBehind_of_kind h, lastKind_nil]

/-- A value ends well. -/
theorem endsWell_of_isValue {p : Parameter} (h : IsValue ts p) : EndsWell ts := by
  cases h with
  | string k | number k | yes k | no k | now k => exact .single (by simp [k]) (by simp [Inner, k])
  | @duration t u unit k _ unit_kind =>
    have solid_u : u.kind ≠ .comment ∧ Inner (some u.kind) := by
      cases e : u.kind <;> simp_all [TimeUnit.ofKind?, Inner]
    exact .cons (.single solid_u.1 solid_u.2) _

/-- A bound ends well. -/
theorem endsWell_of_isBound {e : Bound} (h : IsBound ts e) : EndsWell ts := by
  cases h with
  | comparison kind right => exact .cons (endsWell_of_isValue right) _
  | moment kind right =>
    cases right with
    | mk opens now_kind minus_kind less closes =>
      exact .cons (.append (.single (by simp [closes]) (by simp [Inner, closes])) _) _
  | between kind left joins right => exact .append (.cons (endsWell_of_isValue right.1) _) _

/-- A target ends well. -/
theorem endsWell_of_isTarget {e : Target} (h : IsTarget ts e) : EndsWell ts := by
  cases h with
  | empty kind opens closes =>
    exact .append (.single (by simp [closes]) (by simp [Inner, closes])) [_, _]
  | membership kind opens values closes =>
    exact .append (.single (by simp [closes]) (by simp [Inner, closes])) _
  | pattern kind text => exact .cons (.single (by simp [text]) (by simp [Inner, text])) _

/-- A condition ends well. -/
theorem endsWell_of_isCondition {e : Expression} (h : IsCondition ts e) : EndsWell ts := by
  cases h with
  | bound is => exact endsWell_of_isBound is
  | target is => exact endsWell_of_isTarget is
  | withThreshold is kind kind' threshold =>
    exact .append (.cons (.cons (endsWell_of_isBound threshold) _) _) _

/-- Behind its type a rule by itself has nothing or ends well. -/
theorem inner_of_isPlain {r : Rule} (h : IsPlain (t :: ts) r) (start : Inner k) :
    Inner (lastKind k ts) := by
  cases h with
  | @mk t vs ps us e kind values condition =>
    rw [lastKind_append]
    have values_end : Inner (lastKind k vs) := by
      induction values generalizing k with
      | nil => exact start
      | cons first _ ih =>
        rw [lastKind_append]
        exact ih (endsWell_of_isValue first k)
    cases condition with
    | none => exact values_end
    | some is => exact endsWell_of_isCondition is _

end QualityRules
