import QualityRules.Proofs.Derives
import QualityRules.Proofs.Order.Rulesets

/-!
# Proofs — Order — Layout

Where the comments of a ruleset stand among its tokens: some right behind the bracket that opens it,
some before the one that closes it, and some behind that.

* `Ruleset.LaidOut`: the tokens of a ruleset with its comments.
* `rulesetLoop_between` follows a ruleset from its opening bracket on, `ruleset_laidOut` from its
  start; `Source.Yields.laidOut` is about the rulesets of a tree.
-/

namespace QualityRules

variable {C : List Comment} {source : String} {options : Options} {node : Node} {x : Ruleset}

/-- The tokens from the opening bracket of a ruleset on.  Right behind it are the header comments,
somewhere between the brackets those of its rules and those that float in the ruleset, and right
behind the closing one those that trail it. -/
inductive Ruleset.LaidOut (x : Ruleset) : List Token → Prop
  | mk {header between trail : List Token} {left right : Token}
      (opens : left.start = x.leftBracket)
      (heading : ∀ t ∈ header, t.kind = .comment)
      (headed : x.headerComments = CommentGroup.ofList? (header.map Comment.ofToken))
      (rules : ∀ d ∈ x.rules, (Node.rule d).Within (commentsOf between))
      (inner : ∀ g ∈ x.innerComments, g.comments.Sublist (commentsOf between))
      (kind : right.kind = .rightBracket) (closes : right.start = x.rightBracket)
      (trailed : x.TrailedBy trail) :
      LaidOut x (left :: (header ++ (between ++ right :: trail)))

/-- The tokens of a ruleset do not end with the end of the text. -/
theorem Ruleset.LaidOut.ends {ts : List Token} (h : x.LaidOut ts) (us : List Token) :
    ∀ t ∈ (us ++ ts).getLast?, t.kind ≠ .eof := by
  cases h with
  | @mk header between trail left right _ _ _ _ _ kind _ trailed =>
    refine ne_eof_of_lastKind (k := none) ?_
    rw [← List.cons_append, ← List.append_assoc, ← List.append_assoc, lastKind_append,
      lastKind_cons, lastKind_comments _ trailed.kind, kindBehind_of_kind (by simp [kind]), kind]
    simp

namespace Read

variable {fuel n : Nat} {r s : Row} {k l : Tray} {d : RulesetDraft} {h : Header}

/-- Inside its brackets a ruleset has and lets float only those comments that are read there. -/
theorem rulesetLoop_between (g : (rulesetLoop fuel n d).Gives k r x l s)
    (inside : d.header = some h) (rules : ∀ e ∈ d.rules, (Node.rule e).Within C)
    (tray : d.inner.Within C) : ∃ us right vs,
      r = Row.behind (us ++ right :: vs) s ∧ x.leftBracket = h.leftBracket ∧
      x.headerComments = CommentGroup.ofList? h.comments ∧
      (∀ e ∈ x.rules, (Node.rule e).Within (C ++ commentsOf us)) ∧
      (∀ g ∈ x.innerComments, g.comments.Sublist (C ++ commentsOf us)) ∧
      right.kind = .rightBracket ∧ right.start = x.rightBracket ∧ x.TrailedBy vs := by
  -- on the turns of the loop; what was met before, `C`, grows by the comments of each turn
  induction n generalizing d k r C with
  | zero => exact absurd (ParseRules.gives_lift.mp g).2 not_gives_fail
  | succ n ih =>
    obtain ⟨d', k', m, step, rest⟩ | ⟨stop, -⟩ := rulesetLoop_gives.mp g
    · cases step with
      | before _ outside | header _ outside _ => exact nomatch inside.symm.trans outside
      | @comment t m h' kind _ =>
        have rules := fun e mem =>
          (rules e mem).mono (List.sublist_append_left C [Comment.ofToken t])
        obtain ⟨us, right, vs, rfl, opens, headed, declared, inner, closes⟩ :=
          ih rest inside rules (tray.add _)
        have split : C ++ commentsOf (t :: us) = C ++ [Comment.ofToken t] ++ commentsOf us := by
          simp [commentsOf_cons_comment kind]
        exact ⟨t :: us, right, vs, rfl, opens, headed, split ▸ declared, split ▸ inner, closes⟩
      | @rule t m₁ h' decl tray' m _ _ read =>
        obtain ⟨D, ⟨ws, row, rfl⟩, within, kept⟩ := rule_within read tray
        have rules := List.forall_mem_append.mpr
          ⟨fun e mem => (rules e mem).mono (List.sublist_append_left C (commentsOf ws)),
            List.forall_mem_singleton.mpr within⟩
        obtain ⟨us, right, vs, rfl, opens, headed, declared, inner, closes⟩ :=
          ih rest inside rules kept
        have split : C ++ commentsOf (ws ++ us) = C ++ commentsOf ws ++ commentsOf us := by simp
        refine ⟨ws ++ us, right, vs, ?_, opens, headed, split ▸ declared, split ▸ inner, closes⟩
        rw [row, ← Row.behind_append, List.append_assoc]
    · cases stop with
      | @bracket t m h' cs s kind inside' trail =>
        obtain rfl : h = h' := Option.some.inj (inside.symm.trans inside')
        obtain ⟨vs, rfl, block, rfl, -⟩ := trailing_gives trail
        refine ⟨[], t, vs, rfl, rfl, rfl, ?_, ?_, kind, rfl, block.kind_eq, rfl⟩
        · simpa using rules
        · simpa using tray.spill.floating

/-- What is read as a ruleset is laid out behind the comments and the words before its bracket. -/
theorem rulesetLoop_laidOut (g : (rulesetLoop fuel n d).Gives k r x l s)
    (outside : d.header = none) (none : d.rules = []) (tray : d.inner = Tray.empty) :
    ∃ us ts, r = Row.behind (us ++ ts) s ∧ x.LaidOut ts := by
  induction n generalizing k r with
  | zero => exact absurd (ParseRules.gives_lift.mp g).2 not_gives_fail
  | succ n ih =>
    obtain ⟨d', k', m, step, rest⟩ | ⟨stop, -⟩ := rulesetLoop_gives.mp g
    · cases step with
      | @before t m _ _ =>
        obtain ⟨us, ts, rfl, laid⟩ := ih rest
        exact ⟨t :: us, ts, rfl, laid⟩
      | @header t m₁ h l m word _ read =>
        obtain ⟨sign, m₂, left, cs, rfl, -, trail, opens, rfl, rfl⟩ := takeHeader_gives.mp read
        obtain ⟨m₃, rfl, ⟨isEnd, -⟩ | ⟨-, trail⟩⟩ := popTrailing_gives.mp trail
        · exact nomatch opens.symm.trans isEnd
        obtain ⟨header, rfl, block, rfl, -⟩ := trailing_gives trail
        obtain ⟨between, right, behind, rfl, opens, headed, rules, inner, kind, closes, trailed⟩ :=
          rulesetLoop_between rest rfl (none ▸ List.forall_mem_nil _) (tray ▸ Tray.Within.empty [])
        refine ⟨[t, sign], left :: (header ++ (between ++ right :: behind)), ?_,
          .mk opens.symm block.kind_eq headed rules inner kind closes trailed⟩
        rw [← Row.behind_append]
        rfl
      | comment _ inside | rule _ inside _ => exact nomatch outside.symm.trans inside
    · cases stop with
      | bracket _ inside _ => exact nomatch outside.symm.trans inside

end Read

namespace Source

/-- **The comments of a ruleset stand where its brackets say**: in every tree the header comments
are right behind the opening one, those of its rules and those that float between them, and those
that trail behind the closing one. -/
theorem Yields.laidOut (h : Yields source options node) (mem : .ruleset x ∈ node.walk) :
    ∃ ts, ts <:+: lex source ∧ x.LaidOut ts := by
  obtain ⟨fuel, k, ws, r, l, s, row, g⟩ := h.exists_ruleset mem
  obtain ⟨l', loop, -⟩ := Read.ruleset_gives.mp g
  obtain ⟨us, ts, rfl, laid⟩ := Read.rulesetLoop_laidOut loop rfl rfl rfl
  obtain ⟨all, last, eq, others, terminal⟩ := lex_eq source
  rw [eq, Row.ofTokens_eq others terminal, ← Row.behind_append, ← List.append_assoc] at row
  obtain ⟨rest, rfl, -⟩ := Row.prefix_of_behind terminal row (laid.ends (ws ++ us))
  exact ⟨ts, ⟨ws ++ us, rest ++ [last], by rw [eq]; simp⟩, laid⟩

end Source

end QualityRules
