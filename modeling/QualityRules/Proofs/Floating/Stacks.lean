import QualityRules.Proofs.Described.Run
import QualityRules.Proofs.Lines

/-!
# Proofs — Floating — Stacks

Comments that float, or wait to float, are tokens that follow each other with nothing between.

* `StackOf`: comments that are tokens in a row, one line below the other.
* `Floats`: groups that are such stacks among some tokens, one behind the other.
* `Token.Spares`, `Headed`: a description is such a stack too, and what stands before it spares its
  first line, but for a comma or a parenthesis.
* `Tray.Heaped`: the tray holds the comments at the end of the tokens, with nothing behind them;
  `Heaped.comments` puts on, `Heaped.takeDescription_split` and `Heaped.takeDescription` take off.
* `Tray.Scattered`: other tokens may stand behind the run that waits; `Scattered.stray`: a stray
  that goes on with the run stands right behind it all the same.
-/

namespace QualityRules

variable {ws us vs : List Token} {cs : List Comment} {gs hs F : List CommentGroup} {g : CommentGroup}
  {t u : Token} {r : Row} {k : Tray} {σ : Stand}

/-! ### Stacks -/

/-- The comments `cs` are the tokens `us`, each on the line below the one before. -/
structure StackOf (us : List Token) (cs : List Comment) : Prop where
  kind : ∀ u ∈ us, u.kind = .comment
  made : cs = us.map Comment.ofToken
  stacked : Stacked cs

namespace StackOf

/-- No comments are the stack of no tokens. -/
theorem nil : StackOf [] [] := ⟨List.forall_mem_nil _, rfl, .nil⟩

/-- A comment is a stack by itself. -/
theorem one (kind : t.kind = .comment) : StackOf [t] [Comment.ofToken t] :=
  ⟨List.forall_mem_singleton.mpr kind, rfl, .singleton _⟩

/-- A comment right below goes on with a stack. -/
theorem snoc (h : StackOf us cs) (kind : t.kind = .comment)
    (above : Tray.endsAbove cs t.start.line) : StackOf (us ++ [t]) (cs ++ [Comment.ofToken t]) where
  kind := List.forall_mem_append.mpr ⟨h.kind, List.forall_mem_singleton.mpr kind⟩
  made := by simp [h.made]
  stacked := by
    obtain ⟨c, last, line⟩ := endsAbove_iff.mp above
    have some : cs ≠ [] := List.ne_nil_of_mem (List.mem_of_mem_getLast? last)
    exact (stacked_append_singleton some).mpr ⟨h.stacked, c, last, line⟩

/-- A stack is empty when it has no tokens. -/
theorem eq_nil_iff (h : StackOf us cs) : cs = [] ↔ us = [] := by
  rw [h.made, List.map_eq_nil_iff]

/-- The last comment of a stack is its last token. -/
theorem getLast? (h : StackOf us cs) {c : Comment} (last : c ∈ cs.getLast?) :
    ∃ u ∈ us.getLast?, Comment.ofToken u = c := by
  rw [h.made, List.getLast?_map] at last
  simpa using last

end StackOf

/-- Among the tokens the groups are stacks, one behind the other. -/
inductive Floats : List Token → List CommentGroup → Prop
  | nil (ws : List Token) : Floats ws []
  | snoc {ws us : List Token} {gs : List CommentGroup} {g : CommentGroup} (before : Floats ws gs)
      (stack : StackOf us g.comments) (vs : List Token) : Floats (ws ++ us ++ vs) (gs ++ [g])

namespace Floats

/-- Groups still float when more tokens follow. -/
theorem tokens (h : Floats ws gs) (us : List Token) : Floats (ws ++ us) gs := by
  cases h with
  | nil ws => exact .nil _
  | @snoc ws vs gs g before stack xs =>
    rw [List.append_assoc _ xs]
    exact before.snoc stack (xs ++ us)

/-- Each group that floats is a stack somewhere among the tokens. -/
theorem exists_stack (h : Floats ws gs) (mem : g ∈ gs) :
    ∃ before us after, ws = before ++ us ++ after ∧ StackOf us g.comments := by
  induction h with
  | nil ws => cases mem
  | @snoc ws us gs g' _ stack vs ih =>
    rcases List.mem_append.mp mem with old | new
    · obtain ⟨before, us', after, rfl, stack'⟩ := ih old
      exact ⟨before, us', after ++ us ++ vs, by simp, stack'⟩
    · obtain rfl := List.mem_singleton.mp new
      exact ⟨ws, us, vs, rfl, stack⟩

/-- The comments of a group that floats are among the tokens. -/
theorem subset_commentsOf (h : Floats ws gs) (mem : g ∈ gs) : g.comments ⊆ commentsOf ws := by
  obtain ⟨before, us, after, rfl, stack⟩ := h.exists_stack mem
  rw [stack.made, ← commentsOf_eq_map stack.kind, commentsOf_append, commentsOf_append]
  exact List.subset_append_of_subset_left _ (List.subset_append_right _ _)

/-- What is said of tokens one behind the other holds of the comments of groups that float. -/
theorem pairwise {R : Comment → Comment → Prop} (h : Floats ws gs)
    (order : (commentsOf ws).Pairwise R) :
    gs.Pairwise fun a b => ∀ c ∈ a.comments, ∀ d ∈ b.comments, R c d := by
  induction h with
  | nil ws => exact .nil
  | @snoc ws us gs g first stack vs ih =>
    rw [List.append_assoc, commentsOf_append] at order
    obtain ⟨order, -, apart⟩ := List.pairwise_append.mp order
    refine List.pairwise_append.mpr ⟨ih order, List.pairwise_singleton _ _, ?_⟩
    intro a mem b new c inside d inside'
    obtain rfl := List.mem_singleton.mp new
    refine apart c (first.subset_commentsOf mem inside) d ?_
    rw [commentsOf_append, commentsOf_eq_map stack.kind, ← stack.made]
    exact List.mem_append_left _ inside'

end Floats

/-! ### Descriptions -/

/-- The comment `u` right behind the token `p` is the first on its line, as far as that depends on
`p`; nothing is said behind a comma or an opening parenthesis. -/
def Token.Spares (p u : Token) : Prop :=
  p.kind = .comment ∨ p.kind = .comma ∨ p.kind = .leftParen ∨ p.kind = .eof ∨
    p.kind ≠ .string ∧ p.start.line ≠ u.start.line

/-- A comment that comes next on the row `r` is spared by the last of the tokens `ws`. -/
def Row.Spared (ws : List Token) (r : Row) : Prop :=
  ∀ p ∈ ws.getLast?, ∀ u m, r = cons u m → u.kind = .comment → p.Spares u

/-- Where no token stands before it every comment is spared. -/
theorem Row.Spared.nil (r : Row) : Spared [] r := nofun

/-- Behind a comment, a comma, an opening parenthesis or the end of the text all is spared. -/
theorem Row.Spared.of_kind (r : Row)
    (kind : ∀ p ∈ ws.getLast?, p.kind = .comment ∨ p.kind = .comma ∨ p.kind = .leftParen ∨
      p.kind = .eof) : Spared ws r := by
  intro p last u m _ _
  rcases kind p last with kind | kind | kind | kind
  · exact .inl kind
  · exact .inr (.inl kind)
  · exact .inr (.inr (.inl kind))
  · exact .inr (.inr (.inr (.inl kind)))

/-- Among the tokens `ws` the description is a stack, and its first comment is spared by what stands
before it. -/
def Headed (ws : List Token) (description : Option CommentGroup) : Prop :=
  ∀ g ∈ description, ∃ before us after, ws = before ++ us ++ after ∧ StackOf us g.comments ∧
    ∀ p ∈ before.getLast?, ∀ u ∈ us.head?, p.Spares u

/-- A description is still headed when more tokens follow. -/
theorem Headed.tokens {description : Option CommentGroup} (h : Headed ws description)
    (us : List Token) : Headed (ws ++ us) description := by
  intro g mem
  obtain ⟨before, stack, after, rfl, rest⟩ := h g mem
  exact ⟨before, stack, after ++ us, by simp, rest⟩

namespace Tray

/-- Apart from the groups `F` there float only stacks among the tokens `ws`. -/
def Keeps (F : List CommentGroup) (ws : List Token) (k : Tray) : Prop :=
  ∃ gs, k.floating = F ++ gs ∧ Floats ws gs

namespace Keeps

/-- Nothing else floats at the start. -/
theorem start (F : List CommentGroup) (ws : List Token) (run : List Comment) :
    (Tray.mk F run).Keeps F ws := ⟨[], (List.append_nil F).symm, .nil ws⟩

/-- What floats still does when more tokens follow. -/
theorem tokens (h : k.Keeps F ws) (us : List Token) : k.Keeps F (ws ++ us) :=
  let ⟨gs, floating, floats⟩ := h
  ⟨gs, floating, floats.tokens us⟩

/-- It matters only what floats on a tray. -/
theorem of_floating {k' : Tray} (h : k.Keeps F ws) (same : k'.floating = k.floating) :
    k'.Keeps F ws := by
  rwa [Keeps, same]

/-- The run floats from now on. -/
theorem spill (h : k.Keeps F ws) (stack : StackOf us k.run) (vs : List Token) :
    k.spill.Keeps F (ws ++ us ++ vs) := by
  obtain ⟨gs, floating, floats⟩ := h
  cases some : CommentGroup.ofList? k.run with
  | none =>
    refine ⟨gs, by simp [Tray.spill, some, floating], ?_⟩
    exact (floats.tokens us).tokens vs
  | some g =>
    refine ⟨gs ++ [g], by simp [Tray.spill, some, floating], floats.snoc ?_ vs⟩
    rwa [CommentGroup.comments_of_ofList? some]

end Keeps

/-! ### A tray at the end of tokens -/

/-- The run that waits is the stack at the end of the tokens `ws`, and what stands before it spares
its first comment.  While nothing waits this is asked of the comment that may come next. -/
def Heaped (F : List CommentGroup) (ws : List Token) (k : Tray) (r : Row) : Prop :=
  ∃ before us, ws = before ++ us ∧ k.Keeps F before ∧ StackOf us k.run ∧
    Row.Spared before (Row.behind us r)

namespace Heaped

/-- A tray on which nothing waits is heaped when the next comment is spared. -/
theorem of_empty (keeps : k.Keeps F ws) (none : k.run = []) (spared : Row.Spared ws r) :
    k.Heaped F ws r :=
  ⟨ws, [], by simp, keeps, none ▸ .nil, spared⟩

/-- Behind a comma or the end of the text nothing waits, and the next comment is spared. -/
theorem of_token (keeps : k.Keeps F ws) (none : k.run = [])
    (kind : t.kind = .comma ∨ t.kind = .eof) (r : Row) : k.Heaped F (ws ++ [t]) r := by
  refine .of_empty (keeps.tokens [t]) none (.of_kind r fun p last => ?_)
  obtain rfl : t = p := by simpa using last
  exact .inr (kind.imp_right .inr)

/-- Before a token that is no comment nothing has to be spared. -/
theorem of_cons (keeps : k.Keeps F ws) (none : k.run = []) (other : t.kind ≠ .comment)
    (m : Row) : k.Heaped F ws (Row.cons t m) := by
  refine .of_empty keeps none fun p _ u q row kind => ?_
  obtain ⟨rfl, -⟩ := Row.cons_inj.mp row
  exact absurd kind other

/-- When the tray is spilled the stack that waited floats. -/
theorem spill (h : k.Heaped F ws r) : k.spill.Keeps F ws := by
  obtain ⟨before, us, rfl, keeps, stack, -⟩ := h
  simpa using keeps.spill stack []

/-- A comment that comes next goes on with the stack or starts one. -/
theorem comment (h : k.Heaped F ws (Row.cons t r)) (kind : t.kind = .comment) :
    (k.add (Comment.ofToken t)).Heaped F (ws ++ [t]) r := by
  obtain ⟨before, us, rfl, keeps, stack, spared⟩ := h
  unfold add
  split
  · next goes_on =>
    rcases Bool.or_eq_true_iff.mp goes_on with none | above
    · obtain none := List.isEmpty_iff.mp none
      obtain rfl := stack.eq_nil_iff.mp none
      refine ⟨before, [t], by simp, keeps.of_floating rfl, ?_, spared⟩
      simpa [none] using StackOf.one kind
    · refine ⟨before, us ++ [t], by simp, keeps.of_floating rfl, stack.snoc kind above, ?_⟩
      rwa [Row.behind_append]
  · next apart =>
    have some : us ≠ [] := fun none => by simp [stack.eq_nil_iff.mpr none] at apart
    have floats := keeps.spill stack []
    rw [List.append_nil] at floats
    refine ⟨before ++ us, [t], rfl, floats.of_floating rfl, .one kind, ?_⟩
    refine .of_kind _ fun p last => .inl (stack.kind p ?_)
    rw [List.getLast?_append_of_ne_nil _ some] at last
    exact List.mem_of_mem_getLast? last

/-- Comments that come next go on with the stack or start some. -/
theorem comments (h : k.Heaped F ws (Row.behind us r)) (all : ∀ u ∈ us, u.kind = .comment) :
    ((us.map Comment.ofToken).foldl add k).Heaped F (ws ++ us) r := by
  induction us generalizing k ws with
  | nil => simpa using h
  | cons u us ih =>
    obtain ⟨kind, all⟩ := List.forall_mem_cons.mp all
    simpa using ih (h.comment kind) all

/-- The run becomes a description or it floats, so a description is the stack at the end of the
tokens and what floats stands before it. -/
theorem takeDescription_split (h : k.Heaped F ws r) (pos : Pos) : ∃ before us, ws = before ++ us ∧
    (k.takeDescription pos).2.Keeps F before ∧
    StackOf us (CommentGroup.listOf (k.takeDescription pos).1) ∧
    ∀ p ∈ before.getLast?, ∀ u ∈ us.head?, p.Spares u := by
  have floats := h.spill
  obtain ⟨before, us, rfl, keeps, stack, spared⟩ := h
  unfold Tray.takeDescription
  split
  · refine ⟨before, us, rfl, keeps.of_floating rfl, ?_, fun p last u first => ?_⟩
    · rwa [CommentGroup.listOf_ofList?]
    · obtain ⟨us, rfl⟩ := List.head?_eq_some_iff.mp first
      exact spared p last u (Row.behind us r) rfl (stack.kind u List.mem_cons_self)
  · exact ⟨before ++ us, [], by simp, floats, .nil, by simp⟩

/-- The description that is given is headed, or the stack that waited floats. -/
theorem takeDescription (h : k.Heaped F ws r) (pos : Pos) :
    Headed ws (k.takeDescription pos).1 ∧ (k.takeDescription pos).2.Keeps F ws := by
  obtain ⟨before, us, rfl, keeps, stack, spared⟩ := h.takeDescription_split pos
  refine ⟨fun g mem => ⟨before, us, [], by simp, ?_, spared⟩, keeps.tokens us⟩
  rwa [Option.mem_def.mp mem] at stack

end Heaped

/-! ### A tray while a rule is read -/

/-- The run that waits is a stack among the tokens `ws`.  Where others stand behind it, the block
that is going on is that of one of them. -/
def Scattered (σ : Stand) (F : List CommentGroup) (ws : List Token) (k : Tray) : Prop :=
  ∃ before us after, ws = before ++ us ++ after ∧ k.Keeps F before ∧ StackOf us k.run ∧
    (after = [] ∨ ∃ q ∈ after, ∃ taken, σ.block = some (q.start, taken))

namespace Scattered

/-- A tray on which nothing waits is scattered. -/
theorem of_empty (keeps : k.Keeps F ws) (none : k.run = []) (σ : Stand) : k.Scattered σ F ws :=
  ⟨ws, [], [], by simp, keeps, none ▸ .nil, .inl rfl⟩

/-- Apart from what waits only stacks float. -/
theorem keeps (h : k.Scattered σ F ws) : k.Keeps F ws := by
  obtain ⟨before, us, after, rfl, keeps, -, -⟩ := h
  exact (keeps.tokens us).tokens after

/-- When the tray is spilled what waited is one more stack. -/
theorem spill (h : k.Scattered σ F ws) : k.spill.Keeps F ws := by
  obtain ⟨before, us, after, rfl, keeps, stack, -⟩ := h
  exact keeps.spill stack after

/-- A stray goes on with the run just if nothing stands between: a token there would be on a line
below the run, so the stray, right below the run, would be on its line and in its block. -/
theorem stray (h : k.Scattered σ F ws) (kind : t.kind = .comment) (astray : σ.holds t = false)
    (lined : Lined (ws ++ [t])) (τ : Stand) :
    (k.add (Comment.ofToken t)).Scattered τ F (ws ++ [t]) := by
  have floats := h.spill
  obtain ⟨before, us, after, rfl, keeps, stack, behind⟩ := h
  unfold add
  split
  · next goes_on =>
    rcases Bool.or_eq_true_iff.mp goes_on with none | above
    · obtain none := List.isEmpty_iff.mp none
      have keeps := (keeps.tokens us).tokens after
      refine ⟨before ++ us ++ after, [t], [], by simp, keeps.of_floating rfl, ?_, .inl rfl⟩
      simpa [none] using StackOf.one kind
    · rcases behind with rfl | ⟨q, mem, taken, block⟩
      · exact ⟨before, us ++ [t], [], by simp, keeps.of_floating rfl, stack.snoc kind above, .inl rfl⟩
      · obtain ⟨c, last, line⟩ := endsAbove_iff.mp above
        obtain ⟨u, among, rfl⟩ := stack.getLast? last
        have among := List.mem_of_mem_getLast? among
        have next : q.Leads t := lined.leads (by simp [mem]) (by simp)
        have below : u.Leads q := lined.left.leads (List.mem_append_right _ among) mem
        have lt := below.lt (stack.kind u among) fun isEnd => by
          simpa [kind, Kind.isTerminal] using next.ends (by rw [isEnd]; rfl)
        have le := next.le
        have line : u.start.line + 1 = t.start.line := line
        have same : t.start.line = q.start.line := by omega
        simp [Stand.holds, block, Read.extendsBlock, kind, same] at astray
  · exact ⟨before ++ us ++ after, [t], [], by simp, floats.of_floating rfl, .one kind, .inl rfl⟩

end Scattered

end Tray

/-- Over tokens of which no comment goes astray and the first starts a block, the block that goes on
then is that of one of them. -/
theorem Stand.exists_block (anchors : t.kind.anchors) (quiet : strays σ (t :: us) = []) :
    ∃ q ∈ t :: us, ∃ taken, (σ.pastAll (t :: us)).block = some (q.start, taken) := by
  induction us using List.reverseRecOn with
  | nil => exact ⟨t, List.mem_singleton_self t, [], block_past anchors⟩
  | append_singleton us u ih =>
    rw [← List.cons_append, strays_append, List.append_eq_nil_iff] at quiet
    obtain ⟨q, mem, taken, block⟩ := ih quiet.1
    rw [← List.cons_append, pastAll_append, pastAll_cons, pastAll_nil]
    by_cases starts : u.kind.anchors
    · exact ⟨u, by simp, [], block_past starts⟩
    · refine ⟨q, List.mem_append_left _ mem, ?_⟩
      generalize σ.pastAll (t :: us) = τ at quiet block
      cases kind : u.kind with
      | comment =>
        have held : τ.holds u := by
          by_contra astray
          rw [strays_cons_stray kind (by simpa using astray)] at quiet
          exact nomatch quiet.2
        exact ⟨taken ++ [Comment.ofToken u], by simp [past, kind, held, block]⟩
      | kwDays | kwHours => exact ⟨[], by simp [past, kind, block]⟩
      | _ => simp [kind, Kind.anchors] at starts

/-- A part of a rule is read behind the run that waits. -/
theorem Tray.Scattered.part (h : k.Scattered σ F ws) (anchors : t.kind.anchors)
    (quiet : strays σ (t :: us) = []) : k.Scattered (σ.pastAll (t :: us)) F (ws ++ t :: us) := by
  obtain ⟨before, vs, after, rfl, keeps, stack, -⟩ := h
  obtain ⟨q, mem, block⟩ := Stand.exists_block anchors quiet
  exact ⟨before, vs, after ++ t :: us, by simp, keeps, stack,
    .inr ⟨q, List.mem_append_right _ mem, block⟩⟩

end QualityRules
