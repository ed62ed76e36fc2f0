import Mathlib.Data.List.Pairwise
import QualityRules.Proofs.Ledger.Ruleset
import QualityRules.Proofs.Tokens

/-!
# Proofs — Conservation

What becomes of the comments of a text.  In a file each is in the tree, once, unless a rule in
parentheses loses it; whatever entry is used, no tree has a comment twice or one that the text does
not have.

* `Source.file_account`: in a file, what is lost and the comments of the tree are the comments of
  the text.
* `Source.comments_perm`: where all parentheses hold dates nothing is lost.
* `Source.mem_comments_iff`: a comment between the parentheses of a rule is in the tree unless that
  rule loses it, and some are lost.
* `Source.Yields.nodup_comments`: no comment is there twice, none is made up.
-/

namespace QualityRules

open Read (Account)
open Node (bag bagOfRulesets)

variable {filename source : String} {options : Options} {f : RuleFile} {n : Node}
  {t : Token} {us : List Token} {m : Enclosed}

namespace Source

/-- What a file is read from are all tokens of the text. -/
theorem file_account (h : (file filename source options).result = .ok f) :
    ∃ s, Account none 0 (bag (.file f)) (lex source) s (enclosed none (lex source)) := by
  rw [result_file] at h
  obtain ⟨k, s, g⟩ := session_eq_ok_iff.mp h
  obtain ⟨all, loop, rfl⟩ := Read.file_gives.mp g
  obtain ⟨us, t, ms, row, isEnd, going, run, account⟩ :=
    Read.rulesetsLoop_reads (K := none) loop (Row.Remains.of_lex source) nofun
  obtain ⟨ts, last, eq, others, terminal⟩ := lex_eq source
  rw [eq, Row.ofTokens_eq others terminal] at row
  have whole := Row.eq_of_behind others terminal row isEnd (ne_eof_of_lastKind going)
  have parens := account.enclosed [] s rfl
  rw [List.append_nil, enclosed, List.append_nil] at parens
  refine ⟨s, ?_⟩
  rw [eq, whole, parens]
  refine (account.congr_left ?_).congr ?_
  · rfl
  · rw [Node.bag_file, Tray.bag_eq, run]
    change _ = _ + (_ + ((([] : List Comment)) : Multiset Comment))
    rw [Multiset.coe_nil, add_zero, add_comm]

/-- **Where all parentheses hold dates no comment is lost**: a visit of the tree meets the comments
of the text, each as often as it is there. -/
theorem comments_perm (h : (file filename source options).result = .ok f)
    (dated : Dated none (lex source)) : (Node.file f).comments.Perm (commentsOf (lex source)) := by
  obtain ⟨s, account⟩ := file_account h
  have kept := account.kept
  rw [enclosed_eq_nil dated, List.flatMap_nil, Multiset.coe_nil, add_zero, zero_add] at kept
  exact Multiset.coe_eq_coe.mp kept

/-- Two rules with comments before, beside and below them, the first one with a date before now. -/
def datedText : String :=
  "# a\nRules = [ # b\n  A > (now() - 3 days), # c\n  # d\n  B # e\n\n  # f\n]"

/-- A text whose only parenthesis opens a date keeps all of its comments. -/
theorem comments_perm_datedText : ∃ f, (file "f" datedText Options.default).result = .ok f ∧
    Dated none (lex datedText) ∧ (Node.file f).comments.Perm (commentsOf (lex datedText)) := by
  obtain ⟨f, read, -⟩ : ∃ f, (file "f" datedText Options.default).result = .ok f ∧ True :=
    Outcome.exists_ok (by decide +kernel)
  have dated : Dated none (lex datedText) := by decide +kernel
  exact ⟨f, read, dated, comments_perm read dated⟩

/-! ### Rules in parentheses -/

/-- The comments between parentheses are comments of the text, and no two rules in parentheses have
one in common. -/
theorem inside_sublist (h : (file filename source options).result = .ok f) :
    ((enclosed none (lex source)).flatMap fun m => commentsOf m.inside).Sublist
      (commentsOf (lex source)) := by
  obtain ⟨s, account⟩ := file_account h
  rw [← commentsOf_flatMap]
  exact (account.apart.filter _).map _

/-- A comment is in one pair of parentheses at most, of those that count. -/
theorem eq_of_mem_inside (h : (file filename source options).result = .ok f) {m' : Enclosed}
    {c : Comment} (mem : m ∈ enclosed none (lex source)) (mem' : m' ∈ enclosed none (lex source))
    (inside : c ∈ commentsOf m.inside) (inside' : c ∈ commentsOf m'.inside) : m = m' := by
  have nodup := (inside_sublist h).nodup (nodup_commentsOf_lex source)
  have : Std.Symm (Function.onFun List.Disjoint fun m : Enclosed => commentsOf m.inside) :=
    ⟨fun _ _ apart => apart.symm⟩
  by_contra ne
  exact (List.nodup_flatMap.mp nodup).2.forall mem mem' ne inside inside'

/-- **A comment between the parentheses of a rule is in the tree unless that rule loses it.** -/
theorem mem_comments_iff (h : (file filename source options).result = .ok f)
    (mem : m ∈ enclosed none (lex source)) (between : t ∈ m.inside) (kind : t.kind = .comment) :
    Comment.ofToken t ∈ (Node.file f).comments ↔ Comment.ofToken t ∉ m.lost := by
  have inside : Comment.ofToken t ∈ commentsOf m.inside :=
    mem_commentsOf.mpr ⟨t, between, kind, rfl⟩
  have of_source : Comment.ofToken t ∈ commentsOf (lex source) :=
    (inside_sublist h).subset (List.mem_flatMap.mpr ⟨m, mem, inside⟩)
  obtain ⟨s, account⟩ := file_account h
  have kept := account.kept
  rw [zero_add, Node.bag, Multiset.coe_add] at kept
  -- the comments of the tree and those that are lost have none in common
  have perm := Multiset.coe_eq_coe.mp kept
  have apart := (List.nodup_append.mp (perm.nodup_iff.mpr (nodup_commentsOf_lex source))).2.2
  constructor
  · intro found lost
    exact apart _ found _ (List.mem_flatMap.mpr ⟨m, mem, lost⟩) rfl
  · intro not_lost
    rcases List.mem_append.mp (perm.mem_iff.mpr of_source) with found | lost
    · exact found
    · obtain ⟨m', mem', lost⟩ := List.mem_flatMap.mp lost
      obtain rfl := eq_of_mem_inside h mem mem' inside (m'.lost_subset lost)
      exact absurd lost not_lost

/-- A rule in parentheses with one comment beside it and one below. -/
def nestedText : String := "Rules = [(A # a\n\n# b\n)]"

/-- In such parentheses there is a comment, and it is in the tree if it is not a lost one. -/
theorem mem_comments_nestedText : ∃ f, (file "f" nestedText Options.default).result = .ok f ∧
    ∃ m ∈ enclosed none (lex nestedText), ∃ t ∈ m.inside, t.kind = .comment ∧
      (Comment.ofToken t ∈ (Node.file f).comments ↔ Comment.ofToken t ∉ m.lost) := by
  obtain ⟨f, read, -⟩ : ∃ f, (file "f" nestedText Options.default).result = .ok f ∧ True :=
    Outcome.exists_ok (by decide +kernel)
  obtain ⟨m, mem, t, between, kind⟩ : ∃ m ∈ enclosed none (lex nestedText), ∃ t ∈ m.inside,
      t.kind = .comment := by decide +kernel
  exact ⟨f, read, m, mem, t, between, kind, mem_comments_iff read mem between kind⟩

/-- **A comment that waits at the closing parenthesis is not in the tree.** -/
theorem not_mem_comments_nestedText : ∃ f, (file "f" nestedText Options.default).result = .ok f ∧
    ∃ m ∈ enclosed none (lex nestedText), ∃ t ∈ m.inside, t.kind = .comment ∧
      Comment.ofToken t ∉ (Node.file f).comments :=
  Outcome.exists_ok (by decide +kernel)

/-! ### Every entry -/

/-- The node `n` is the tree that one of the entries reads from the text. -/
inductive Yields (source : String) (options : Options) : Node → Prop
  | rule {d : RuleDecl} (h : (Source.rule source options).result = .ok d) :
      Yields source options (.rule d)
  | ruleset {x : Ruleset} (h : (Source.ruleset source options).result = .ok x) :
      Yields source options (.ruleset x)
  | file {name : String} {f : RuleFile} (h : (Source.file name source options).result = .ok f) :
      Yields source options (.file f)

/-- What is read from the head of a text has no comments but those of the text. -/
theorem commentsOf_le {s : Row} (row : Row.ofTokens (lex source) = Row.behind us s) :
    (commentsOf us : Multiset Comment) ≤ commentsOf (lex source) :=
  Multiset.coe_le.mpr (Row.commentsOf_sublist_lex row).subperm

/-- What is read as a rule has no comments but those of the tokens that it takes. -/
theorem bag_le_of_rule {fuel : Nat} {r s : Row} {d : RuleDecl} {k : Tray}
    (g : (Read.rule fuel false).Gives Tray.empty r d k s) (final : r.Final) :
    ∃ us, r = Row.behind us s ∧ bag (.rule d) ≤ commentsOf us := by
  obtain ⟨us, ms, row, account⟩ := Read.rule_reads g final (K := none) rfl rfl
  have kept := account.kept
  rw [show Tray.empty.bag = 0 from rfl, zero_add] at kept
  refine ⟨us, row, ?_⟩
  rw [← kept, add_assoc]
  exact Multiset.le_add_right _ _

/-- No tree has a comment more often than the text. -/
theorem Yields.bag_le (h : Yields source options n) : n.bag ≤ commentsOf (lex source) := by
  cases h with
  | rule h =>
    obtain ⟨k, s, g⟩ := session_eq_ok_iff.mp h
    obtain ⟨us, row, le⟩ := bag_le_of_rule g (Row.final_ofTokens source)
    exact le.trans (commentsOf_le row)
  | ruleset h =>
    obtain ⟨k, s, g⟩ := session_eq_ok_iff.mp h
    obtain ⟨us, ms, row, -, -, account⟩ := Read.ruleset_reads g (Row.final_ofTokens source) none
    have kept := account.kept
    rw [show Tray.empty.bag = 0 from rfl, zero_add] at kept
    refine le_trans ?_ (commentsOf_le row)
    rw [← kept, add_assoc]
    exact Multiset.le_add_right _ _
  | file h =>
    obtain ⟨s, account⟩ := file_account h
    have kept := account.kept
    rw [zero_add] at kept
    rw [← kept]
    exact Multiset.le_add_right _ _

/-- A comment that a visit meets is one of the text. -/
theorem Yields.mem_commentsOf_lex {c : Comment} (h : Yields source options n)
    (mem : .comment c ∈ n.walk) : c ∈ commentsOf (lex source) := by
  have found : c ∈ n.comments := List.mem_filterMap.mpr ⟨_, mem, rfl⟩
  exact Multiset.mem_coe.mp (Multiset.mem_of_le h.bag_le (Multiset.mem_coe.mpr found))

/-- **No comment is there twice and none is made up**, whichever entry reads the text. -/
theorem Yields.nodup_comments (h : Yields source options n) :
    n.comments.Nodup ∧ n.comments ⊆ commentsOf (lex source) := by
  have le := h.bag_le
  have nodup := Multiset.coe_nodup.mpr (nodup_commentsOf_lex source)
  exact ⟨Multiset.coe_nodup.mp (Multiset.nodup_of_le le nodup),
    fun c mem => Multiset.mem_coe.mp (Multiset.mem_of_le le mem)⟩

/-- The comments of such a tree are some of those in the text, each once. -/
theorem Yields.nodup_comments_nestedText : ∃ n, Yields nestedText Options.default n ∧
    n.comments.Nodup ∧ n.comments ⊆ commentsOf (lex nestedText) := by
  obtain ⟨f, read, -⟩ : ∃ f, (Source.file "f" nestedText Options.default).result = .ok f ∧ True :=
    Outcome.exists_ok (by decide +kernel)
  exact ⟨_, .file read, Yields.nodup_comments (.file read)⟩

end Source

end QualityRules
