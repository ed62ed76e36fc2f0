import QualityRules.Proofs.Comments
import QualityRules.Proofs.Runs.Condition

/-!
# Proofs — Stray

Which comments of a rule are found no place in it.  A comment stands in the block of comments that
trails the token before it, or in the brackets of a list; else it is a stray, and the block is over
until the next other token.

* `strays`: the comments among tokens that go astray; `strays_append` follows them along.
* `Moves`: over some tokens a reader goes from one row to another, no comment goes astray, and those
  that it meets are counted.
* `trailing_moves` and `popTrailing_moves`: the readers of blocks take just the comments that
  `Stand.holds` says.
-/

namespace QualityRules

/-- Where the next comment would stand: the token of a block with the comments in it so far, and
whether a list is open. -/
structure Stand where
  block : Option (Pos × List Comment)
  listed : Bool

namespace Stand

/-- Behind a token at `anchor`, outside of lists. -/
def behind (anchor : Pos) : Stand := ⟨some (anchor, []), false⟩

/-- The comment `t` has a place here. -/
def holds (σ : Stand) (t : Token) : Bool :=
  σ.listed || match σ.block with
    | some (anchor, taken) => Read.extendsBlock anchor taken t
    | none => false

/-- Behind the token `t`.  The unit of a duration does not start a block of its own, the number
does. -/
def past (σ : Stand) (t : Token) : Stand :=
  match t.kind with
  | .comment =>
    if σ.holds t then
      { σ with block := σ.block.map fun (anchor, taken) => (anchor, taken ++ [Comment.ofToken t]) }
    else { σ with block := none }
  | .kwDays | .kwHours => { σ with block := σ.block.map fun (anchor, _) => (anchor, []) }
  | .leftBracket => ⟨some (t.start, []), true⟩
  | .rightBracket => ⟨some (t.start, []), false⟩
  | _ => { σ with block := some (t.start, []) }

/-- Behind the tokens `ts`. -/
def pastAll (σ : Stand) (ts : List Token) : Stand := ts.foldl past σ

@[simp] theorem pastAll_nil (σ : Stand) : σ.pastAll [] = σ := rfl

@[simp] theorem pastAll_cons (σ : Stand) (t : Token) (ts : List Token) :
    σ.pastAll (t :: ts) = (σ.past t).pastAll ts := rfl

theorem pastAll_append (σ : Stand) (ts us : List Token) :
    σ.pastAll (ts ++ us) = (σ.pastAll ts).pastAll us := List.foldl_append

end Stand

/-- The comments that go astray. -/
def strays : Stand → List Token → List Comment
  | _, [] => []
  | σ, t :: ts =>
    if t.kind = .comment ∧ σ.holds t = false then Comment.ofToken t :: strays (σ.past t) ts
    else strays (σ.past t) ts

theorem strays_append (σ : Stand) (ts us : List Token) :
    strays σ (ts ++ us) = strays σ ts ++ strays (σ.pastAll ts) us := by
  induction ts generalizing σ with
  | nil => rfl
  | cons t ts ih =>
    rw [List.cons_append, strays, strays, ih]
    split <;> rfl

variable {σ : Stand} {t : Token} {ts us vs : List Token}

theorem strays_cons_held (h : σ.holds t) : strays σ (t :: ts) = strays (σ.past t) ts := by
  rw [strays, if_neg]
  simp [h]

theorem strays_cons_of_kind (h : t.kind ≠ .comment) :
    strays σ (t :: ts) = strays (σ.past t) ts := by
  rw [strays, if_neg]
  simp [h]

theorem strays_cons_stray (k : t.kind = .comment) (h : σ.holds t = false) :
    strays σ (t :: ts) = Comment.ofToken t :: strays (σ.past t) ts := by
  rw [strays, if_pos ⟨k, h⟩]

/-- In a list no comment goes astray. -/
theorem strays_of_listed (l : σ.listed) (h : ∀ t ∈ ts, t.kind = .comment) :
    strays σ ts = [] ∧ (σ.pastAll ts).listed := by
  induction ts generalizing σ with
  | nil => exact ⟨rfl, l⟩
  | cons t ts ih =>
    have held : σ.holds t := by simp [Stand.holds, l]
    have listed : (σ.past t).listed := by simp [Stand.past, h t, held, l]
    rw [strays_cons_held held, Stand.pastAll_cons]
    exact ih listed fun u m => h u (List.mem_cons_of_mem _ m)

/-- Tokens of these kinds start a block of their own. -/
def Kind.anchors : Kind → Bool
  | .comment | .kwDays | .kwHours => Bool.false
  | _ => Bool.true

/-- The brackets of a list. -/
def Kind.brackets : Kind → Bool
  | .leftBracket | .rightBracket => Bool.true
  | _ => Bool.false

namespace Stand

/-- On the row `r` no block but that of the token at `anchor` can start or go on. -/
def At (σ : Stand) (anchor : Pos) (r : Row) : Prop :=
  ∃ taken, σ.block = some (anchor, taken) ∧ (taken = [] ∨ Read.Ends anchor taken r)

/-- The block of the token at `anchor` is over. -/
def Over (σ : Stand) (anchor : Pos) (r : Row) : Prop :=
  ∃ taken, σ.block = some (anchor, taken) ∧ Read.Ends anchor taken r

/-- The next token has no place here. -/
def Settled (σ : Stand) (r : Row) : Prop :=
  σ.listed = false → ∃ t m, r = Row.cons t m ∧ σ.holds t = false

variable {anchor : Pos} {r : Row}

theorem Over.at (h : σ.Over anchor r) : σ.At anchor r :=
  let ⟨taken, block, ends⟩ := h
  ⟨taken, block, .inr ends⟩

theorem Over.settled (h : σ.Over anchor r) : σ.Settled r := by
  intro open_
  obtain ⟨taken, block, t, m, row, ends⟩ := h
  exact ⟨t, m, row, by simp [holds, open_, block, ends]⟩

theorem block_past (k : t.kind.anchors) : (σ.past t).block = some (t.start, []) := by
  cases e : t.kind <;> simp_all [past, Kind.anchors]

theorem listed_past (k : t.kind.brackets = false) : (σ.past t).listed = σ.listed := by
  cases e : t.kind <;> simp_all [past, Kind.brackets]
  split <;> rfl

/-- Any block can start behind a token. -/
theorem at_past (k : t.kind.anchors) (r : Row) : (σ.past t).At t.start r :=
  ⟨[], block_past k, .inl rfl⟩

/-- A unit lets the block of the number before it start again. -/
theorem At.unit (h : σ.At anchor r) {u : Token} {unit : TimeUnit}
    (k : TimeUnit.ofKind? u.kind = some unit) (m : Row) : (σ.past u).At anchor m := by
  obtain ⟨taken, block, -⟩ := h
  refine ⟨[], ?_, .inl rfl⟩
  cases e : u.kind <;> simp_all [past, TimeUnit.ofKind?]

end Stand

namespace Read
open Stand (At Over)

/-- Over the tokens `us` a reader goes from the row `r` to `s`, no comment goes astray, and `b`
counts those among them. -/
structure Moves (σ : Stand) (r : Row) (us : List Token) (s : Row)
    (b : Multiset Comment) : Prop where
  row : r = Row.behind us s
  quiet : strays σ us = []
  kept : b = commentsOf us

variable {r m s : Row} {b b' : Multiset Comment}

theorem Moves.refl (σ : Stand) (r : Row) : Moves σ r [] r 0 := ⟨rfl, rfl, rfl⟩

theorem Moves.trans (h : Moves σ r us m b) (k : Moves (σ.pastAll us) m vs s b') :
    Moves σ r (us ++ vs) s (b + b') where
  row := by rw [Row.behind_append, ← k.row, h.row]
  quiet := by rw [strays_append, h.quiet, k.quiet, List.append_nil]
  kept := by rw [commentsOf_append, ← Multiset.coe_add, h.kept, k.kept]

theorem Moves.token (h : t.kind ≠ .comment) (σ : Stand) (m : Row) :
    Moves σ (Row.cons t m) [t] m 0 where
  row := rfl
  quiet := strays_cons_of_kind h
  kept := by rw [commentsOf_cons h]; rfl

/-- A token that is no comment, and then what follows it. -/
theorem Moves.cons (h : t.kind ≠ .comment) (k : Moves (σ.past t) m us s b) :
    Moves σ (Row.cons t m) (t :: us) s b := by
  have := (Moves.token h σ m).trans k
  rwa [zero_add] at this

/-- The same comments, counted another way. -/
theorem Moves.congr (h : Moves σ r us s b) (eq : b' = b) : Moves σ r us s b' := eq ▸ h

/-- Over the tokens `us` a reader goes from `r` to `s` and stops where the next token has no place;
a list is open behind them when one was before. -/
structure Reads (σ : Stand) (r : Row) (us : List Token) (s : Row) (b : Multiset Comment) : Prop
    extends Moves σ r us s b where
  settled : (σ.pastAll us).Settled s
  listed : (σ.pastAll us).listed = σ.listed

theorem Reads.after (h : Moves σ r us m b) (l : (σ.pastAll us).listed = σ.listed)
    (k : Reads (σ.pastAll us) m vs s b') : Reads σ r (us ++ vs) s (b + b') where
  toMoves := h.trans k.toMoves
  settled := by rw [Stand.pastAll_append]; exact k.settled
  listed := by rw [Stand.pastAll_append, k.listed, l]

theorem Reads.trans (h : Reads σ r us m b) (k : Reads (σ.pastAll us) m vs s b') :
    Reads σ r (us ++ vs) s (b + b') := .after h.toMoves h.listed k

theorem Reads.cons (h : t.kind ≠ .comment) (l : t.kind.brackets = false)
    (k : Reads (σ.past t) m us s b) : Reads σ (Row.cons t m) (t :: us) s b where
  toMoves := .cons h k.toMoves
  settled := k.settled
  listed := k.listed.trans (Stand.listed_past l)

/-- The same comments, counted another way. -/
theorem Reads.congr (h : Reads σ r us s b) (eq : b' = b) : Reads σ r us s b' := eq ▸ h

theorem kind_of_anchors (h : t.kind.anchors) : t.kind ≠ .comment :=
  fun e => by simp [e, Kind.anchors] at h

variable {fuel : Nat} {anchor rulePos : Pos} {cs : List Comment}

/-- The tokens of a block are held where it is going on. -/
theorem Block.strays {taken : List Comment} (h : Block anchor taken us)
    (block : σ.block = some (anchor, taken)) :
    QualityRules.strays σ us = [] ∧
      σ.pastAll us = { σ with block := some (anchor, taken ++ us.map Comment.ofToken) } := by
  -- on the block: each comment goes on with those before it
  induction us generalizing σ taken with
  | nil =>
    obtain ⟨b, listed⟩ := σ
    exact ⟨rfl, by simp [← block]⟩
  | cons u us ih =>
    have held : σ.holds u := by simp [Stand.holds, block, h.1]
    have next : σ.past u = { σ with block := some (anchor, taken ++ [Comment.ofToken u]) } := by
      simp [Stand.past, kind_of_extendsBlock h.1, held, block]
    obtain ⟨quiet, stand⟩ := ih h.2 (show (σ.past u).block = some (anchor, _) by rw [next])
    rw [strays_cons_held held]
    refine ⟨quiet, ?_⟩
    rw [Stand.pastAll_cons, stand, next]
    simp

/-- The comments that trail a token are those that have a place behind it. -/
theorem trailing_moves (h : σ.At anchor r) (g : (trailing fuel anchor).Gives r cs s) :
    ∃ us, Moves σ r us s cs ∧ solid us = [] ∧ (σ.pastAll us).Over anchor s ∧
      (σ.pastAll us).listed = σ.listed := by
  obtain ⟨us, row, block, rfl, ends⟩ := trailing_gives g
  obtain ⟨taken, stands, free⟩ := h
  have kinds := block.kind_eq
  have kept : (us.map Comment.ofToken : Multiset Comment) = commentsOf us := by
    rw [commentsOf_eq_map kinds]
  cases us with
  | nil =>
    obtain rfl : r = s := row
    refine ⟨[], .refl σ r, rfl, ⟨taken, stands, ?_⟩, rfl⟩
    rcases free with rfl | free
    · exact ends
    · exact free
  | cons u us =>
    -- a block that was over could not start again
    have fresh : taken = [] := by
      rcases free with fresh | ⟨t, m, row', stops⟩
      · exact fresh
      · rw [row, Row.behind_cons, Row.cons_inj] at row'
        have := not_extendsBlock_nil (row'.1 ▸ stops)
        rw [block.1] at this
        exact nomatch this
    subst fresh
    obtain ⟨quiet, stand⟩ := block.strays stands
    refine ⟨u :: us, ⟨row, quiet, kept⟩, solid_eq_nil kinds, ?_, by rw [stand]⟩
    rw [stand]
    exact ⟨_, rfl, by simpa using ends⟩

/-- A token and the comments that trail it. -/
theorem popTrailing_moves (anchors : t.kind.anchors) (ne : t.kind ≠ .eof) (σ : Stand)
    (g : (popTrailing fuel).Gives r (t, cs) s) :
    ∃ us, Moves σ r (t :: us) s cs ∧ solid us = [] ∧ (σ.pastAll (t :: us)).Over t.start s ∧
      (σ.pastAll (t :: us)).listed = (σ.past t).listed := by
  obtain ⟨m, rfl, ⟨isEnd, -⟩ | ⟨-, g⟩⟩ := popTrailing_gives.mp g
  · exact absurd isEnd ne
  · obtain ⟨us, moves, all, ended, listed⟩ := trailing_moves (Stand.at_past anchors m) g
    exact ⟨us, .cons (kind_of_anchors anchors) moves, all, ended, listed⟩

/-- A token of some kind and the comments that trail it. -/
theorem expect_reads {kind : Kind} (σ : Stand) (g : (expect fuel kind).Gives r (t, cs) s)
    (anchors : kind.anchors) (ne : kind ≠ .eof) (other : kind.brackets = false) :
    t.kind = kind ∧ ∃ us, Reads σ r us s cs ∧ solid us = [t] := by
  obtain ⟨rfl, read⟩ := expect_gives.mp g
  obtain ⟨us, moves, comments, ended, listed⟩ := popTrailing_moves anchors ne σ read
  exact ⟨rfl, t :: us, ⟨moves, ended.settled, listed.trans (Stand.listed_past other)⟩,
    by rw [solid_cons (kind_of_anchors anchors), comments]⟩

/-- In a list, the comments before the next other token have a place. -/
theorem popSkipping_moves (listed : σ.listed) (g : (popSkipping fuel).Gives r (t, cs) s) :
    ∃ us, Moves σ r us (Row.cons t s) cs ∧ solid us = [] ∧ (σ.pastAll us).listed ∧
      t.kind ≠ .comment := by
  obtain ⟨us, row, all, rfl, ne⟩ := popSkipping_gives g
  obtain ⟨quiet, listed⟩ := strays_of_listed listed all
  exact ⟨us, ⟨row, quiet, by rw [commentsOf_eq_map all]⟩, solid_eq_nil all, listed, ne⟩

end Read

end QualityRules
