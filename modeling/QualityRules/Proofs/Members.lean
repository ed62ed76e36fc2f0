import QualityRules.Proofs.Lookahead.Rule
import QualityRules.Proofs.Tokens

/-!
# Proofs — Members

A member of a combined rule is a rule in parentheses.  A comma ends a rule of a ruleset, also the
one in the parentheses: there it is taken when it stands right before the closing one.  Outside a
ruleset it is refused.  There is no other difference.

* `LeadStep.turn`: what comes behind the next part of a rule makes no difference.
* `leadLoop_ends`: up to the token that ends it a rule is the same at every place, and whatever ends
  it there.
* `readsMember_listed_iff`: a member in a ruleset is one outside of it, but for a comma before its
  closing parenthesis.
* `readsMember_separatedText`: such a comma is taken in a ruleset, and refused outside of it.
-/

namespace QualityRules

/-- A comma or a closing parenthesis may stand in the place of any token. -/
def Standing.closers : Standing where
  allows _ kind' := kind' = .comma ∨ kind' = .rightParen
  halts := by
    rintro _ _ (rfl | rfl) <;> decide

namespace Read

variable {stands : Standing} {fuel n : Nat} {t t' close paren last : Token} {d d' : Draft}
  {k k' l : Tray} {r s m : Row} {place : Place} {y : Rule} {x : Member} {ts : List Token}

/-- A turn of the loop of a rule leads on. -/
theorem LeadStep.suffix (step : LeadStep fuel d k r d' k' s) : ∃ us, r = Row.behind us s := by
  cases step with
  | @comment t _ _ => exact ⟨[t], rfl⟩
  | @ruleType t _ _ _ _ _ trail =>
    have peeks : Reading.Peeks .closers (trailing fuel t.start) := peeks_trailing
    obtain ⟨us, rfl⟩ := peeks.suffix trail
    exact ⟨t :: us, rfl⟩
  | @value t _ ruleType _ _ _ _ _ _ read =>
    have peeks : Reading.Peeks .closers (parameter fuel t ruleType.pos) := peeks_parameter
    obtain ⟨us, rfl⟩ := peeks.suffix read
    exact ⟨t :: us, rfl⟩
  | @condition t _ ruleType _ _ _ _ _ _ read =>
    have peeks : Reading.Peeks .closers (expression fuel t ruleType.pos) := peeks_expression
    obtain ⟨us, rfl⟩ := peeks.suffix read
    exact ⟨t :: us, rfl⟩

/-- A step depends on what it takes and on the token behind that. -/
theorem LeadStep.turn (step : LeadStep fuel d k r d' k' (Row.cons t m)) (final : r.Final)
    (turns : t.Turns stands t') :
    ∃ us, (∀ u ∈ us, u.kind ≠ .eof) ∧ r = Row.behind us (Row.cons t m) ∧
      ∀ m', LeadStep fuel d k (Row.behind us (Row.cons t' m')) d' k' (Row.cons t' m') := by
  generalize row : Row.cons t m = q at step
  cases step with
  | @comment u _ kind =>
    exact ⟨[u], by simp [kind], by rw [← row]; rfl, fun m' => .comment kind⟩
  | @ruleType u m₁ cs _ kind first trail =>
    subst row
    obtain ⟨us, going, rfl, trail'⟩ := peeks_trailing.turn final.tail trail turns
    exact ⟨u :: us, List.forall_mem_cons.mpr ⟨by simp [kind], going⟩, rfl,
      fun m' => .ruleType kind first (trail' m')⟩
  | @value u m₁ ruleType p cs _ kind typed before read =>
    subst row
    obtain ⟨us, going, rfl, read'⟩ := peeks_parameter.turn final.tail read turns
    have here : u.kind ≠ .eof := fun isEnd => by simp [isEnd, Kind.startsParameter] at kind
    exact ⟨u :: us, List.forall_mem_cons.mpr ⟨here, going⟩, rfl,
      fun m' => .value kind typed before (read' m')⟩
  | @condition u m₁ ruleType e cs _ kind typed first read =>
    subst row
    obtain ⟨us, going, rfl, read'⟩ := peeks_expression.turn final.tail read turns
    have here : u.kind ≠ .eof := fun isEnd => by simp [isEnd, Kind.startsExpression] at kind
    exact ⟨u :: us, List.forall_mem_cons.mpr ⟨here, going⟩, rfl,
      fun m' => .condition kind typed first (read' m')⟩

/-- A rule is read up to a token that ends it.  Another token that ends a rule may stand there, at
the same place or another one, and the rule is the same. -/
theorem leadLoop_ends (stands : Standing)
    (g : (leadLoop fuel place n d).Gives k r (.rule y) l s) (final : r.Final) :
    ∃ t m d' k', LeadEnd place d' k' (Row.cons t m) (.rule y) l s ∧
      ∀ t', t.Turns stands t' → ∃ us, (∀ u ∈ us, u.kind ≠ .eof) ∧
        r = Row.behind us (Row.cons t m) ∧ ∀ place' m' l' s',
          LeadEnd place' d' k' (Row.cons t' m') (.rule y) l' s' →
          (leadLoop fuel place' n d).Gives k (Row.behind us (Row.cons t' m')) (.rule y) l' s' := by
  induction n generalizing d k r with
  | zero => exact absurd g Reading.not_gives_fail
  | succ n ih =>
    rcases leadLoop_gives.mp g with ⟨d₁, k₁, m₁, step, rest⟩ | stop
    · obtain ⟨us, row⟩ := step.suffix
      obtain ⟨t, m, d', k', stop, turn⟩ := ih rest (final.rest row)
      refine ⟨t, m, d', k', stop, fun t' turns => ?_⟩
      obtain ⟨us, going, rfl, again⟩ := turn t' turns
      -- the step leaves the token that is exchanged, or one that stays
      cases us with
      | nil =>
        obtain ⟨vs, going', rfl, step'⟩ := step.turn final turns
        exact ⟨vs, going', rfl, fun place' m' l' s' stop' =>
          leadLoop_gives.mpr (.inl ⟨d₁, k₁, _, step' m', again place' m' l' s' stop'⟩)⟩
      | cons u us =>
        have stays : u.Turns stands u := .same (going u List.mem_cons_self)
        obtain ⟨vs, going', rfl, step'⟩ := step.turn final stays
        refine ⟨vs ++ u :: us, List.forall_mem_append.mpr ⟨going', going⟩, ?_, ?_⟩
        · rw [Row.behind_append]
          rfl
        · intro place' m' l' s' stop'
          rw [Row.behind_append]
          exact leadLoop_gives.mpr (.inl ⟨d₁, k₁, _, step' _, again place' m' l' s' stop'⟩)
    · obtain ⟨t, m, rfl, -⟩ := stop.gives fuel
      exact ⟨t, m, d, k, stop, fun t' _ => ⟨[], List.forall_mem_nil _, rfl,
        fun place' m' l' s' stop' => leadLoop_gives.mpr (.inr stop')⟩⟩

/-- What ends a rule before a closing parenthesis is that one, or in a ruleset a comma before it. -/
theorem LeadEnd.closed {listed : Bool} (closes : close.kind = .rightParen)
    (stop : LeadEnd ⟨listed, true⟩ d k (Row.cons t m) (.rule y) l (Row.cons close s))
    (final : (Row.cons t m).Final) :
    ∃ ruleType, d.ruleType = some ruleType ∧ y = d.toRule ruleType ∧
      (t = close ∧ m = s ∨ listed ∧ t.kind = .comma ∧ m = Row.cons close s) := by
  generalize row : Row.cons t m = q at stop
  generalize left : Row.cons close s = q' at stop
  cases stop with
  | text kind typed =>
    obtain ⟨rfl, rfl⟩ := Row.cons_inj.mp row
    subst left
    -- behind the end of the text there is no parenthesis
    obtain ⟨rfl, -⟩ := Row.cons_inj.mp (final [] t _ rfl kind)
    exact nomatch kind.symm.trans closes
  | @comma _ _ ruleType kind listed typed =>
    obtain ⟨rfl, rfl⟩ := Row.cons_inj.mp row
    exact ⟨ruleType, typed, rfl, .inr ⟨listed, kind, rfl⟩⟩
  | bracket kind _ _ =>
    obtain ⟨rfl, -⟩ := Row.cons_inj.mp left
    exact nomatch kind.symm.trans closes
  | @paren _ _ ruleType _ _ typed =>
    obtain ⟨rfl, rfl⟩ := Row.cons_inj.mp (row.trans left.symm)
    exact ⟨ruleType, typed, rfl, .inl ⟨rfl, rfl⟩⟩

/-- A rule in parentheses ends at the closing one, or in a ruleset at a comma before it.  At either
place it is the same with the other one of these ends. -/
theorem lead_closed {listed : Bool} (closes : close.kind = .rightParen) (final : r.Final)
    (g : (lead fuel ⟨listed, true⟩).Gives k r (.rule y) l (Row.cons close s)) :
    ∃ t m, (t = close ∧ m = s ∨ listed ∧ t.kind = .comma ∧ m = Row.cons close s) ∧
      (∃ us, r = Row.behind us (Row.cons t m) ∧ ∀ listed', ∃ l',
        (lead fuel ⟨listed', true⟩).Gives k (Row.behind us (Row.cons close s)) (.rule y) l'
          (Row.cons close s)) ∧
      ∀ comma : Token, comma.kind = .comma → ∃ us, r = Row.behind us (Row.cons t m) ∧ ∃ l',
        (lead fuel ⟨true, true⟩).Gives k (Row.behind us (Row.cons comma (Row.cons close s)))
          (.rule y) l' (Row.cons close s) := by
  obtain ⟨t, m, d, k', stop, turn⟩ := leadLoop_ends .closers g final
  obtain ⟨us, -, row, again⟩ := turn close (.stands (.inr closes))
  obtain ⟨ruleType, typed, rfl, ended⟩ := stop.closed closes (final.rest row)
  refine ⟨t, m, ended, ⟨us, row, fun listed' => ⟨k', ?_⟩⟩, fun comma separates => ?_⟩
  · exact again ⟨listed', true⟩ s k' _ (.paren closes rfl typed)
  · obtain ⟨us, -, row, again⟩ := turn comma (.stands (.inl separates))
    exact ⟨us, row, k'.spill, again ⟨true, true⟩ _ _ _ (.comma separates rfl typed)⟩

/-- Behind the parenthesis `paren` the member `x` is read off the row `r`, with the parenthesis that
closes it, and `s` is left. -/
def ReadsMember (fuel : Nat) (inRuleset : Bool) (paren : Token) (k : Tray) (r : Row) (x : Member)
    (s : Row) : Prop := ∃ l, (member fuel inRuleset paren).Gives k r x l s

/-- Behind the parenthesis of a member there is a rule up to the one that closes it. -/
theorem ReadsMember.lead {listed : Bool} (h : ReadsMember fuel listed paren k r x s) :
    ∃ l close, close.kind = .rightParen ∧ x = ⟨paren.start, x.rule, close.start⟩ ∧
      (lead fuel ⟨listed, true⟩).Gives ⟨k.floating, []⟩ r (.rule x.rule) l (Row.cons close s) := by
  obtain ⟨l, read⟩ := h
  obtain ⟨y, l', close, g, closes, -, rfl⟩ := member_gives.mp read
  exact ⟨l', close, closes, rfl, g⟩

/-- A rule up to a closing parenthesis is a member behind one that opens. -/
theorem readsMember_of_lead {listed : Bool} (closes : close.kind = .rightParen)
    (eq : x = ⟨paren.start, x.rule, close.start⟩)
    (g : (Read.lead fuel ⟨listed, true⟩).Gives ⟨k.floating, []⟩ r (.rule x.rule) l
      (Row.cons close s)) : ReadsMember fuel listed paren k r x s :=
  ⟨_, member_gives.mpr ⟨x.rule, l, close, g, closes, rfl, eq⟩⟩

namespace ReadsMember

variable {comma : Token}

/-- A member outside of a ruleset is one in it. -/
theorem listed (h : ReadsMember fuel false paren k r x s) (final : r.Final) :
    ReadsMember fuel true paren k r x s := by
  obtain ⟨l, close, closes, eq, g⟩ := h.lead
  obtain ⟨t, m, ended, ⟨us, row, again⟩, -⟩ := lead_closed closes final g
  obtain ⟨rfl, rfl⟩ | ⟨listed, -⟩ := ended
  · obtain ⟨l', again⟩ := again true
    exact readsMember_of_lead closes eq (row ▸ again)
  · cases listed

/-- A member in a ruleset is one outside of it, or there is a comma to leave out. -/
theorem unlisted (h : ReadsMember fuel true paren k r x s) (final : r.Final) :
    ReadsMember fuel false paren k r x s ∨
      ∃ us comma close, comma.kind = .comma ∧ close.kind = .rightParen ∧
        r = Row.behind us (Row.cons comma (Row.cons close s)) ∧
        ReadsMember fuel false paren k (Row.behind us (Row.cons close s)) x s := by
  obtain ⟨l, close, closes, eq, g⟩ := h.lead
  obtain ⟨t, m, ended, ⟨us, row, again⟩, -⟩ := lead_closed closes final g
  obtain ⟨l', again⟩ := again false
  obtain ⟨rfl, rfl⟩ | ⟨-, separates, rfl⟩ := ended
  · exact .inl (readsMember_of_lead closes eq (row ▸ again))
  · exact .inr ⟨us, t, close, separates, closes, row, readsMember_of_lead closes eq again⟩

/-- A comma may be put before the closing parenthesis of a member, if it is in a ruleset. -/
theorem with_comma (h : ReadsMember fuel false paren k r x s) (final : r.Final)
    (separates : comma.kind = .comma) :
    ∃ us close, close.kind = .rightParen ∧ r = Row.behind us (Row.cons close s) ∧
      ReadsMember fuel true paren k (Row.behind us (Row.cons comma (Row.cons close s))) x s := by
  obtain ⟨l, close, closes, eq, g⟩ := h.lead
  obtain ⟨t, m, ended, -, again⟩ := lead_closed closes final g
  obtain ⟨us, row, l', again⟩ := again comma separates
  obtain ⟨rfl, rfl⟩ | ⟨listed, -⟩ := ended
  · exact ⟨us, t, closes, row, readsMember_of_lead closes eq again⟩
  · cases listed

end ReadsMember

/-- **A member in a ruleset is one outside of it, but for a comma before its closing parenthesis.**
What is read behind an opening parenthesis in a ruleset is also read outside of it, with the same
tokens left; or there is a comma right before the closing parenthesis, and it is what is read
outside of a ruleset without that comma. -/
theorem readsMember_listed_iff (others : ∀ t ∈ ts, t.kind.isTerminal = false)
    (terminal : last.kind.isTerminal) :
    ReadsMember fuel true paren k (Row.ofTokens (ts ++ [last])) x s ↔
      ReadsMember fuel false paren k (Row.ofTokens (ts ++ [last])) x s ∨
      ∃ us comma close vs, ts = us ++ comma :: close :: vs ∧ comma.kind = .comma ∧
        close.kind = .rightParen ∧ s = Row.ofTokens (vs ++ [last]) ∧
        ReadsMember fuel false paren k (Row.ofTokens (us ++ close :: vs ++ [last])) x s := by
  have final : ∀ us : List Token, (∀ u ∈ us, u.kind.isTerminal = false) →
      (Row.ofTokens (us ++ [last])).Final := by
    intro us others
    rw [Row.ofTokens_eq others terminal]
    exact Row.final_behind others terminal
  have less : ∀ {us : List Token} {comma close vs},
      (∀ u ∈ us ++ comma :: close :: vs, u.kind.isTerminal = false) →
      ∀ u ∈ us ++ close :: vs, u.kind.isTerminal = false :=
    fun others u mem => others u (((List.sublist_cons_self _ _).append_left _).subset mem)
  constructor
  · intro h
    obtain unlisted | ⟨us, comma, close, separates, closes, row, unlisted⟩ :=
      h.unlisted (final ts others)
    · exact .inl unlisted
    · have row : Row.ofTokens (ts ++ [last]) = Row.behind (us ++ [comma]) (Row.cons close s) := by
        rw [row, Row.behind_append]
        rfl
      obtain ⟨vs, split, rfl⟩ := Row.split_of_ofTokens others terminal row (by simp [closes])
      obtain rfl : ts = us ++ comma :: close :: vs := split.trans (List.append_cons us comma _).symm
      refine .inr ⟨us, comma, close, vs, rfl, separates, closes, rfl, ?_⟩
      rwa [Row.ofTokens_append_cons (less others)]
  · rintro (h | ⟨us, comma, close, vs, rfl, separates, -, rfl, h⟩)
    · exact h.listed (final ts others)
    · have fewer := less others
      obtain ⟨us', close', closes, row, listed⟩ := h.with_comma (final _ fewer) separates
      -- the parenthesis that was read is the one behind the comma, for the same tokens are left
      obtain ⟨vs', split, left⟩ := Row.split_of_ofTokens fewer terminal row (by simp [closes])
      obtain rfl : vs = vs' := Row.ofTokens_inj
        (fun v mem => fewer v (List.mem_append_right _ (List.mem_cons_of_mem _ mem)))
        (fun v mem => fewer v (split ▸ List.mem_append_right _ (List.mem_cons_of_mem _ mem)))
        terminal left
      obtain ⟨rfl, eq⟩ := List.append_inj' split rfl
      obtain rfl := List.head_eq_of_cons_eq eq
      have going : close.kind.isTerminal = false := fewer close (by simp)
      rwa [Row.ofTokens_append_cons others, List.cons_append, Row.ofTokens_cons going]

/-- Whether a member is read can be looked at. -/
theorem exists_readsMember_iff {listed : Bool} :
    (∃ x s, ReadsMember fuel listed paren k (Row.ofTokens ts) x s) ↔
      ((member fuel listed paren k).run (Cursor.ofTokens ts)).1.isOk := by
  have same := (member fuel listed paren k).along_ofTokens ts
  simp only [ReadsMember, ParseRules.Gives, Reading.Gives, same]
  cases ((member fuel listed paren k).run (Cursor.ofTokens ts)).1 with
  | ok a => exact iff_of_true ⟨a.1, _, a.2, rfl⟩ rfl
  | error e =>
    refine iff_of_false ?_ Bool.false_ne_true
    rintro ⟨x, s, l, h⟩
    cases congrArg Prod.fst h

/-- A ruleset with a comma before the closing parenthesis of its only rule. -/
def separatedText : String := "Rules = [(A,)]"

/-- The parenthesis that opens the rule. -/
def separatedParen : Token := ⟨.leftParen, "(", ⟨9, 1, 10⟩, ⟨10, 1, 11⟩⟩

/-- In such a text the comma is read over in a ruleset, and the member is one without it elsewhere.
-/
theorem readsMember_listed_iff_separatedText :
    ∃ ts last, lex separatedText = (lex separatedText).take 3 ++ separatedParen :: (ts ++ [last]) ∧
      (∀ t ∈ ts, t.kind.isTerminal = false) ∧ last.kind.isTerminal ∧
      ∃ x us comma close vs, ts = us ++ comma :: close :: vs ∧ comma.kind = .comma ∧
        close.kind = .rightParen ∧
        ReadsMember 10 false separatedParen Tray.empty
          (Row.ofTokens (us ++ close :: vs ++ [last])) x (Row.ofTokens (vs ++ [last])) := by
  let ts := ((lex separatedText).drop 4).dropLast
  let last := ((lex separatedText).drop 4).getLast (by decide +kernel)
  have others : ∀ t ∈ ts, t.kind.isTerminal = false := by decide +kernel
  have terminal : last.kind.isTerminal := by decide +kernel
  obtain ⟨x, s, read⟩ : ∃ x s, ReadsMember 10 true separatedParen Tray.empty
      (Row.ofTokens (ts ++ [last])) x s := exists_readsMember_iff.mpr (by decide +kernel)
  have refused : ¬ ∃ x s, ReadsMember 10 false separatedParen Tray.empty
      (Row.ofTokens (ts ++ [last])) x s := mt exists_readsMember_iff.mp (by decide +kernel)
  refine ⟨ts, last, by decide +kernel, others, terminal, x, ?_⟩
  obtain unlisted | ⟨us, comma, close, vs, split, separates, closes, rfl, unlisted⟩ :=
    (readsMember_listed_iff others terminal).mp read
  · exact absurd ⟨x, s, unlisted⟩ refused
  · exact ⟨us, comma, close, vs, split, separates, closes, unlisted⟩

/-- **The comma before the closing parenthesis is taken in a ruleset.**  So the member is read there
and refused outside of it. -/
theorem readsMember_separatedText :
    lex separatedText = (lex separatedText).take 3 ++ separatedParen ::
      (lex separatedText).drop 4 ∧
    (∃ x s, ReadsMember 10 true separatedParen Tray.empty
      (Row.ofTokens ((lex separatedText).drop 4)) x s) ∧
    ¬ ∃ x s, ReadsMember 10 false separatedParen Tray.empty
      (Row.ofTokens ((lex separatedText).drop 4)) x s :=
  ⟨by decide +kernel, exists_readsMember_iff.mpr (by decide +kernel),
    mt exists_readsMember_iff.mp (by decide +kernel)⟩

end Read
end QualityRules
