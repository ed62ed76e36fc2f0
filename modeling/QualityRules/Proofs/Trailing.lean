import QualityRules.Proofs.Runs.Value
import QualityRules.Proofs.Upcoming

/-!
# Proofs — Trailing

Which comments trail a token, told by what comes next and not by how it is read.  The first stands
on the line of that token, and each further one on that line too, or below the one before it and in
the same column; the longest such row is taken, however the cursor came to where it stands.

* `Trails`: some tokens are such a row of comments; `Read.block_iff_trails` finds it in the words of
  the loop.
* `LongestTrail`: the longest one of what is next, and what follows it.
* `Cursor.Handled`: tokens of a text were taken, and some that were taken were put back.
* `Cursor.Handled.trailing_run` is the main result.
-/

namespace QualityRules

open CommentGroup (ofList?)

variable {source : String} {anchor : Pos} {t u last : Token} {ts us vs : List Token}
  {taken : List Comment} {r s : Row} {c : Cursor} {e : Refusal} {fuel n : Nat}

/-! ### Rows of comments that trail a token -/

/-- Behind a token at `anchor` a comment goes on with another one: it stands on the line of that
token, or right below the other and in the same column. -/
def Token.GoesOn (anchor : Pos) (t u : Token) : Prop :=
  u.start.line = anchor.line ∨
    t.start.line + 1 = u.start.line ∧ t.start.column = u.start.column

/-- The tokens are comments that trail a token at `anchor`. -/
structure Trails (anchor : Pos) (us : List Token) : Prop where
  comments : ∀ u ∈ us, u.kind = .comment
  first : ∀ u ∈ us.head?, u.start.line = anchor.line
  further : us.IsChain (Token.GoesOn anchor)

/-- Of all that trails a token at `anchor` in the row `r`, the tokens `us` are the most, and `s` is
behind them. -/
structure LongestTrail (anchor : Pos) (r : Row) (us : List Token) (s : Row) : Prop where
  row : r = Row.behind us s
  trails : Trails anchor us
  longest : ∀ vs s', r = Row.behind vs s' → Trails anchor vs → vs <+: us

/-- Where all tokens but the last were taken, only the last one can be at fault. -/
theorem Row.eq_fault_of_head (fault : (behind us (ending last)).head = .error e)
    (terminal : last.kind.isTerminal) :
    last.kind = .illegal ∧ e = .at (.scan last.text) last.start := by
  cases us with
  | cons u us => cases fault
  | nil =>
    cases kind : last.kind with
    | illegal =>
      have head : (ending last).head = .error (.at (.scan last.text) last.start) := by
        simp [ending, kind]
      exact ⟨rfl, (Except.error.inj (head.symm.trans fault)).symm⟩
    | eof =>
      rw [behind_nil, ending_eof kind] at fault
      cases fault
    | _ => simp [kind, Kind.isTerminal] at terminal

namespace Read
open Reading

theorem extendsBlock_nil : extendsBlock anchor [] t ↔
    t.kind = .comment ∧ t.start.line = anchor.line := by
  simp [extendsBlock]

theorem extendsBlock_concat : extendsBlock anchor (taken ++ [Comment.ofToken t]) u ↔
    u.kind = .comment ∧ t.GoesOn anchor u := by
  simp [extendsBlock, Comment.ofToken, Token.GoesOn]

/-- Behind a comment, a block is comments that go on with it. -/
theorem block_concat_iff : Block anchor (taken ++ [Comment.ofToken t]) us ↔
    (∀ u ∈ us, u.kind = .comment) ∧ (t :: us).IsChain (Token.GoesOn anchor) := by
  induction us generalizing taken t with
  | nil => simp [Block]
  | cons u us ih =>
    rw [Block, extendsBlock_concat, ih, List.forall_mem_cons, List.isChain_cons_cons]
    tauto

theorem block_iff_trails : Block anchor [] us ↔ Trails anchor us := by
  cases us with
  | nil => exact ⟨fun _ => ⟨by simp, by simp, .nil⟩, fun _ => trivial⟩
  | cons u us =>
    rw [Block, extendsBlock_nil, block_concat_iff]
    constructor
    · rintro ⟨⟨kind, on⟩, others, chain⟩
      exact ⟨List.forall_mem_cons.mpr ⟨kind, others⟩, by simpa using on, chain⟩
    · rintro ⟨comments, first, further⟩
      obtain ⟨kind, others⟩ := List.forall_mem_cons.mp comments
      exact ⟨⟨kind, first u rfl⟩, others, further⟩

theorem block_append : Block anchor taken (us ++ vs) ↔
    Block anchor taken us ∧ Block anchor (taken ++ us.map Comment.ofToken) vs := by
  induction us generalizing taken with
  | nil => simp [Block]
  | cons u us ih => simp [Block, ih, and_assoc]

/-- In a row that comes to the end of a text, or to a fault, a block can be followed to where nothing
goes on with it. -/
theorem exists_block (anchor : Pos) (taken : List Comment) (ts : List Token)
    (terminal : last.kind.isTerminal) :
    ∃ us vs, ts = us ++ vs ∧ Block anchor taken us ∧
      ∀ t m, Row.behind vs (Row.ending last) = Row.cons t m →
        extendsBlock anchor (taken ++ us.map Comment.ofToken) t = false := by
  induction ts generalizing taken with
  | nil =>
    refine ⟨[], [], rfl, trivial, fun t m row => not_extendsBlock_of_kind ?_⟩
    obtain ⟨isEnd, rfl, -⟩ := Row.ending_eq_cons terminal row
    simp [isEnd]
  | cons t ts ih =>
    cases goes : extendsBlock anchor taken t with
    | false =>
      refine ⟨[], t :: ts, rfl, trivial, fun u m row => ?_⟩
      obtain ⟨rfl, -⟩ := Row.cons_inj.mp row
      simpa using goes
    | true =>
      obtain ⟨us, vs, rfl, block, stops⟩ := ih (taken ++ [Comment.ofToken t])
      exact ⟨t :: us, vs, rfl, ⟨goes, block⟩, by simpa using stops⟩

/-- A block that nothing goes on with is the longest one. -/
theorem Block.longestTrail (block : Block anchor [] us)
    (stops : ∀ t m, s = Row.cons t m → extendsBlock anchor (us.map Comment.ofToken) t = false) :
    LongestTrail anchor (Row.behind us s) us s := by
  refine ⟨rfl, block_iff_trails.mp block, fun vs s' row trails => ?_⟩
  rcases Row.behind_total row with short | ⟨t, ws, rfl, next⟩
  · exact short
  · -- a longer one would go on with this one
    obtain ⟨-, goes, -⟩ := block_append.mp (block_iff_trails.mpr trails)
    simp [stops t _ next] at goes

theorem fails_pop (fault : r.head = .error e) : pop.Fails r e r.tail := by
  simp only [Fails, pop, along, fault]

/-- Where a fault comes behind a block, no comments are given; the fault is handed on. -/
theorem trailingLoop_fails (block : Block anchor taken us) (steps : us.length < n)
    (fault : s.head = .error e) :
    (trailingLoop anchor n taken).Fails (Row.behind us s) e s.tail := by
  obtain ⟨n, rfl⟩ : ∃ m, n = m + 1 := ⟨n - 1, by omega⟩
  rw [trailingLoop, fails_bind]
  induction us generalizing taken n with
  | nil => exact .inl (fails_pop fault)
  | cons u us ih =>
    obtain ⟨n, rfl⟩ : ∃ m, n = m + 1 := ⟨n - 1, by simp at steps; omega⟩
    obtain ⟨goes, block⟩ := block
    refine .inr ⟨u, _, gives_pop.mpr rfl, ?_⟩
    rw [if_pos goes, trailingLoop, fails_bind]
    exact ih block n (by simpa using steps)

end Read

namespace Cursor

/-! ### Cursors on their way through a text -/

/-- The tokens `us` of a text were taken one after the other, and in between some of those that had
been taken were put back. -/
inductive Handled (source : String) : List Token → Cursor → Prop where
  | start : Handled source [] (ofTokens (lex source))
  | pop {us : List Token} {c : Cursor} {t : Token} (h : Handled source us c)
      (took : c.pop.1 = .ok t) : Handled source (us ++ [t]) c.pop.2
  | push {us : List Token} {c : Cursor} {t : Token} (h : Handled source us c) (mem : t ∈ us) :
      Handled source us (c.push t)

namespace Handled

theorem standsIn (h : c.Handled source us) : c.StandsIn source := by
  induction h with
  | start => exact .start source
  | pop _ _ ih => exact ih.pop
  | push _ _ ih => exact ih.push _

/-- As long as no fault was taken, a token or a fault can be taken. -/
theorem ready (h : c.Handled source us) : c.Ready := by
  induction h with
  | start => exact ready_ofTokens source
  | pop _ took ih => exact ih.pop took
  | push _ _ ih => exact ih.push _

/-- **The comments that trail a token are the longest block of what is next.**  They are taken, and
what is behind them is left; when that is a fault, the text is refused for it. -/
theorem trailing_run (h : c.Handled source us) (anchor : Pos) (enough : c.budget ≤ fuel) :
    ∃ block rest, LongestTrail anchor c.row block rest ∧
      ((∃ t c', rest.head = .ok t ∧ c'.row = rest ∧
        (ofList? <$> Read.trailing fuel anchor).run c
          = (.ok (ofList? (block.map Comment.ofToken)), c')) ∨
      ∃ t, (lex source).getLast? = some t ∧ t.kind = .illegal ∧
        rest.head = .error (.at (.scan t.text) t.start) ∧
        ((ofList? <$> Read.trailing fuel anchor).run c).1
          = .error (.at (.scan t.text) t.start)) := by
  obtain ⟨ts, last, row, terminal, isLast, short⟩ := h.standsIn.row_eq h.ready
  obtain ⟨block, vs, rfl, isBlock, stops⟩ := Read.exists_block anchor [] ts terminal
  have longest := isBlock.longestTrail stops
  rw [← Row.behind_append, ← row] at longest
  have steps : block.length < fuel := by
    rw [List.length_append] at short
    omega
  refine ⟨block, _, longest, ?_⟩
  have same := (ofList? <$> Read.trailing fuel anchor).run_row c
  rw [map_eq_pure_bind] at same ⊢
  cases next : (Row.behind vs (Row.ending last)).head with
  | ok t =>
    have split := (Stream'.eta (Row.behind vs (Row.ending last))).symm
    rw [next] at split
    have gives := Read.trailing_gives_iff.mpr
      ⟨block, longest.row, isBlock, rfl, ⟨t, _, split, stops t _ split⟩, steps⟩
    have whole := (Reading.gives_bind (f := fun cs => pure (ofList? cs))).mpr
      ⟨_, _, gives, Reading.gives_pure.mpr ⟨rfl, rfl⟩⟩
    obtain ⟨given, left⟩ := Prod.mk.inj (same.symm.trans whole)
    exact .inl ⟨t, _, rfl, left, Prod.ext given rfl⟩
  | error e =>
    obtain ⟨fault, rfl⟩ := Row.eq_fault_of_head next terminal
    have fails := Read.trailingLoop_fails isBlock steps next
    rw [← longest.row] at fails
    have whole := (Reading.fails_bind (f := fun cs => pure (ofList? cs))).mpr (.inl fails)
    exact .inr ⟨last, isLast, fault, rfl, (Prod.mk.inj (same.symm.trans whole)).1⟩

/-- A block of two comments behind a name, and one more below that does not go on with it. -/
def putBackText : String := "A # a\n  # b\n# c\nB"

/-- The cursor where the name and the first comment were taken, and the comment was put back. -/
def putBack : Cursor :=
  (ofTokens (lex putBackText)).pop.2.pop.2.push ⟨.comment, "# a", ⟨2, 1, 3⟩, ⟨5, 1, 6⟩⟩

theorem trailing_run_putBack : (∃ us, putBack.Handled putBackText us) ∧ putBack.budget ≤ 6 ∧
    ∃ block rest, LongestTrail ⟨0, 1, 1⟩ putBack.row block rest ∧
      block.map Token.text = ["# a", "# b"] ∧ ∃ t, rest.head = .ok t ∧ t.text = "# c" := by
  have fresh : Handled putBackText [] (ofTokens (lex putBackText)) := .start
  have named := fresh.pop (t := ⟨.ident, "A", ⟨0, 1, 1⟩, ⟨1, 1, 2⟩⟩) (by decide +kernel)
  have handled : putBack.Handled putBackText _ :=
    (named.pop (t := ⟨.comment, "# a", ⟨2, 1, 3⟩, ⟨5, 1, 6⟩⟩) (by decide +kernel)).push (by simp)
  have enough : putBack.budget ≤ 6 := by decide +kernel
  have texts : ((ofList? <$> Read.trailing 6 ⟨0, 1, 1⟩).run putBack).1.toOption.map
      (fun g => (CommentGroup.listOf g).map Comment.text) = some ["# a", "# b"] := by
    decide +kernel
  have next : (((ofList? <$> Read.trailing 6 ⟨0, 1, 1⟩).run putBack).2.pop.1.toOption.map
      Token.text) = some "# c" := by decide +kernel
  refine ⟨⟨_, handled⟩, enough, ?_⟩
  obtain ⟨block, rest, longest, ⟨t, c', head, rfl, run⟩ | ⟨t, -, -, -, run⟩⟩ :=
    handled.trailing_run ⟨0, 1, 1⟩ enough
  · rw [run] at texts next
    have popped : c'.pop.1 = .ok t := by
      rw [c'.row_pop] at head
      exact head
    refine ⟨block, _, longest, ?_, t, head, ?_⟩
    · simpa [Except.toOption, Comment.ofToken, Function.comp_def] using texts
    · simpa [popped, Except.toOption] using next
  · rw [run] at texts
    cases texts

end Handled

end Cursor

end QualityRules
