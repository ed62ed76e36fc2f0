import Mathlib.Data.List.Chain
import QualityRules.Proofs.FileLanguage

/-!
# Proofs — Alone

A declaration in a ruleset is what it is by itself.  The commas and the bracket that end it in a
ruleset take the place of the end of the text, and where no comma stands before a closing
parenthesis there is no other difference.

* `Alone`: the tokens are a rule by themselves, with the end of the text behind them.
* `Tight`: no comma stands right before a closing parenthesis.
* `alone_iff`, `Grammar.IsDecl.of_tight`: which tokens are a rule by themselves, and that the
  declarations of a tight ruleset are.
* `Source.file_iff`: a text is read as a file just if it consists of rulesets whose declarations are
  rules by themselves, and these are what is read.
-/

namespace QualityRules

open Grammar

variable {ts us : List Token} {d : RuleDecl} {filename source : String} {options : Options}
  {f : RuleFile}

/-- The tokens `ts` are read as the rule `d` when the end of the text stands behind them. -/
def Alone (ts : List Token) (d : RuleDecl) : Prop :=
  ∀ last : Token, last.kind = .eof → Source.ruleOf (ts ++ [last]) = .ok d

/-- No comma stands right before a closing parenthesis. -/
def Tight (ts : List Token) : Prop :=
  ts.IsChain fun t u => t.kind = .comma → u.kind ≠ .rightParen

instance : Decidable (Tight ts) :=
  inferInstanceAs (Decidable (ts.IsChain fun t u => t.kind = .comma → u.kind ≠ .rightParen))

/-- No stretch of the tokens has such a comma when they have none. -/
theorem Tight.of_infix (h : Tight ts) (inside : us <:+: ts) : Tight us := h.infix inside

namespace Grammar

/-! ### Declarations -/

variable {x : Read.Member} {xs : List Read.Member} {operator : Connective} {inRuleset : Bool}

/-- A member of a list is a member anywhere when no comma stands before its parenthesis. -/
theorem IsMember.of_tight (h : IsMember true ts x) (tight : Tight ts) : IsMember false ts x := by
  cases h with
  | closed opens plain closes => exact .closed opens plain closes
  | @comma paren ts r comma close _ _ _ separates closes =>
    have last : Tight [comma, close] :=
      tight.of_infix (List.infix_cons (List.infix_append_of_infix_right List.infix_rfl))
    exact absurd closes (List.isChain_pair.mp last separates)

/-- A member is one in a list as well. -/
theorem IsMember.listed (h : IsMember false ts x) : IsMember inRuleset ts x := by
  cases h with
  | closed opens plain closes => exact .closed opens plain closes
  | comma listed => cases listed

/-- A chain of members in a list is one anywhere when no comma stands before a parenthesis. -/
theorem IsChain.of_tight (h : IsChain true operator ts xs) (tight : Tight ts) :
    IsChain false operator ts xs := by
  induction h with
  | one only => exact .one (only.of_tight tight)
  | more first joins _ ih =>
    have before := tight.of_infix (List.prefix_append _ _).isInfix
    have behind := tight.of_infix
      (List.infix_append_of_infix_right (List.infix_cons List.infix_rfl))
    exact .more (first.of_tight before) joins (ih behind)

/-- A chain of members is one in a list as well. -/
theorem IsChain.listed (h : IsChain false operator ts xs) : IsChain inRuleset operator ts xs := by
  induction h with
  | one only => exact .one only.listed
  | more first joins _ ih => exact .more first.listed joins ih

/-- Where no comma stands before a closing parenthesis, a declaration of a ruleset may stand by
itself. -/
theorem IsDecl.of_tight (h : IsDecl true ts d) (tight : Tight ts) : IsDecl false ts d := by
  cases h with
  | plain is => exact .plain is
  | lone is => exact .lone (is.of_tight tight)
  | combined is several => exact .combined (is.of_tight tight) several

/-- A declaration by itself may stand in a ruleset. -/
theorem IsDecl.listed (h : IsDecl false ts d) : IsDecl inRuleset ts d := by
  cases h with
  | plain is => exact .plain is
  | lone is => exact .lone is.listed
  | combined is several => exact .combined is.listed several

/-! ### Files over other declarations -/

variable {decl decl' : List Token → RuleDecl → Prop}

/-- The body of a ruleset reads its rules as another language does that has them too. -/
theorem IsBody.imp {ds : List RuleDecl} (h : IsBody decl ts ds)
    (imp : ∀ us d, us <:+: ts → decl us d → decl' us d) : IsBody decl' ts ds := by
  induction h with
  | nil => exact .nil
  | last only => exact .last (imp _ _ List.infix_rfl only)
  | more first kind _ ih =>
    refine .more (imp _ _ (List.prefix_append _ _).isInfix first) kind (ih fun us d inside => ?_)
    exact imp us d (List.infix_append_of_infix_right (List.infix_cons inside))

/-- A ruleset reads its rules as another language does that has them too. -/
theorem IsRuleset.imp {x : Ruleset} (h : IsRuleset decl ts x)
    (imp : ∀ us d, us <:+: ts → decl us d → decl' us d) : IsRuleset decl' ts x := by
  cases h with
  | mk kind equal opens body closes =>
    refine .mk kind equal opens (body.imp fun us d inside => imp us d ?_) closes
    exact List.infix_cons (List.infix_cons (List.infix_cons
      (List.infix_append_of_infix_left inside)))

/-- Rulesets read their rules as another language does that has them too. -/
theorem IsRulesets.imp {xs : List Ruleset} (h : IsRulesets decl ts xs)
    (imp : ∀ us d, us <:+: ts → decl us d → decl' us d) : IsRulesets decl' ts xs := by
  induction h with
  | nil => exact .nil
  | cons first _ ih =>
    refine .cons (first.imp fun us d inside => ?_) (ih fun us d inside => ?_)
    · exact imp us d (List.infix_append_of_infix_left inside)
    · exact imp us d (List.infix_append_of_infix_right inside)

/-- A file is one over other declarations, if the tokens before its end that are declarations of the
one kind are declarations of the other. -/
theorem IsFile.imp {last : Token} (h : IsFile decl filename (ts ++ [last]) f)
    (imp : ∀ us d, us <:+: ts → decl us d → decl' us d) :
    IsFile decl' filename (ts ++ [last]) f := by
  generalize tokens : ts ++ [last] = vs at h
  cases h with
  | mk all some ends =>
    obtain ⟨rfl, -⟩ := List.append_inj' tokens rfl
    exact .mk (all.imp imp) some ends

end Grammar

/-! ### What is read alone -/

/-- A declaration is what is read as a rule by itself. -/
theorem alone_iff (others : ∀ t ∈ ts, t.kind.isTerminal = false)
    (plain : ∀ t ∈ ts, t.kind ≠ .comment) : Alone ts d ↔ IsDecl false ts d := by
  constructor
  · intro alone
    have read := alone ⟨.eof, "", Pos.origin, Pos.origin⟩ rfl
    have is := Source.isText_of_ruleOf others rfl
      (List.forall_mem_append.mpr ⟨plain, by simp⟩) read
    generalize tokens : ts ++ [_] = us at is
    cases is with
    | mk is _ =>
      obtain ⟨rfl, -⟩ := List.append_inj' tokens rfl
      exact is
  · intro is last ends
    exact Source.ruleOf_of_isText others (by rw [ends]; rfl) (.mk is ends)

namespace Source

/-- **A text is read as a file just if it consists of rulesets of declarations that are rules by
themselves**, where it has no comments and no comma before a closing parenthesis; what is read are
these rules, in their order. -/
theorem file_iff (plain : ∀ t ∈ lex source, t.kind ≠ .comment) (tight : Tight (lex source)) :
    (file filename source options).result = .ok f ↔ IsFile Alone filename (lex source) f := by
  obtain ⟨ts, last, eq, others, -⟩ := lex_eq source
  -- within the text, the declarations of a ruleset are what is read alone
  have same : ∀ us d, us <:+: ts → (IsDecl true us d ↔ Alone us d) := by
    intro us d inside
    have whole : us <:+: lex source := eq ▸ List.infix_append_of_infix_left inside
    rw [alone_iff (fun t mem => others t (inside.subset mem))
      fun t mem => plain t (whole.subset mem)]
    exact ⟨fun is => is.of_tight (tight.of_infix whole), IsDecl.listed⟩
  constructor
  · intro h
    have none : Node.bag (.file f) ≤ commentsOf (lex source) := Yields.bag_le (.file h)
    rw [commentsOf_eq_nil plain] at none
    have is := isFile_solid_of_file h
    rw [solid_eq_self plain, RuleFile.bare_of_bag (Multiset.le_zero.mp none), eq] at is
    rw [eq]
    exact is.imp fun us d inside => (same us d inside).mp
  · intro h
    refine file_of_isFile ?_
    rw [eq] at h ⊢
    exact h.imp fun us d inside => (same us d inside).mpr

/-- Two rulesets, the first one with a comma behind its last rule, the second one empty. -/
def listedText : String := "Rules = [A \"b\", (B = 1) or (C),]\nRules = []"

/-- Both rulesets are read, and the rules of the first one are rules by themselves. -/
theorem file_iff_listedText : ∃ f, (file "f" listedText Options.default).result = .ok f ∧
    IsFile Alone "f" (lex listedText) f := by
  have plain : ∀ t ∈ lex listedText, t.kind ≠ .comment := by decide +kernel
  have tight : Tight (lex listedText) := by decide +kernel
  obtain ⟨f, read, -⟩ : ∃ f, (file "f" listedText Options.default).result = .ok f ∧ True :=
    Outcome.exists_ok (by decide +kernel)
  exact ⟨f, read, (file_iff plain tight).mp read⟩

end Source

end QualityRules
