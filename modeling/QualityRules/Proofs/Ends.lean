import QualityRules.Proofs.Unread

/-!
# Proofs — Ends

Reading ends, and not for want of steps.  Each turn that a loop makes before it is over takes a
token that was left; the end of the text, which can be taken as often as one likes, is none of them,
and a token that is put back is left again.  So no loop makes more turns than there are tokens, and
what comes of a text does not depend on how many it might have made.

* `Row.Left`: how many tokens are left before the last one.
* `Reading.Pays`: a reader that is stopped for want of steps has taken a token for each.
* `Read.EachTurnPays` says it of every loop, and of conditions behind `with threshold`.
* `Entry.reading_ends` is the main result.
-/

namespace QualityRules

variable {ε α : Type}

namespace Row

/-- So many tokens are left before the last one, which is the end of the text or a fault; a token
that was put back is one of them. -/
inductive Left : Nat → Row → Prop
  | ending {last} (terminal : last.kind.isTerminal) : Left 0 (ending last)
  | cons {n t r} (going : t.kind.isTerminal = false) (rest : Left n r) : Left (n + 1) (cons t r)

namespace Left

variable {n m : Nat} {t : Token} {r s : Row}

/-- To take a token that is not the end of the text leaves one less. -/
theorem exists_pred (h : Left n (Row.cons t r)) (going : t.kind ≠ .eof) :
    ∃ m, n = m + 1 ∧ Left m r := by
  generalize row : Row.cons t r = s at h
  cases h with
  | ending terminal =>
    obtain ⟨isEnd, rfl, -⟩ := ending_eq_cons terminal row.symm
    exact absurd isEnd going
  | cons _ rest =>
    obtain ⟨rfl, rfl⟩ := cons_inj.mp row
    exact ⟨_, rfl, rest⟩

/-- A row tells how many tokens are left. -/
theorem unique (h : Left n r) (h' : Left m r) : n = m := by
  induction h generalizing m with
  | @ending last terminal =>
    generalize row : Row.ending last = r at h'
    cases h' with
    | ending _ => rfl
    | cons going =>
      obtain ⟨isEnd, rfl, -⟩ := ending_eq_cons terminal row
      rw [terminal] at going
      exact nomatch going
  | cons going _ ih =>
    have notEnd : ∀ {t : Token}, t.kind.isTerminal = false → t.kind ≠ .eof := by
      intro t going isEnd
      simp [isEnd, Kind.isTerminal] at going
    obtain ⟨m, rfl, rest⟩ := h'.exists_pred (notEnd going)
    rw [ih rest]

/-- Tokens that are left are among some, and one may add a few more. -/
theorem exists_remains (h : Left n r) (us : List Token) : ∃ ts, us ⊆ ts ∧ r.Remains ts n := by
  have wider : ∀ {ts : List Token} (t : Token) {n r}, Remains ts n r → Remains (t :: ts) n r := by
    intro ts t n r remains
    induction remains with
    | ending mem terminal => exact .ending (List.mem_cons_of_mem _ mem) terminal
    | cons mem going _ ih => exact .cons (List.mem_cons_of_mem _ mem) going ih
  induction h with
  | @ending last terminal => exact ⟨last :: us, by simp, .ending List.mem_cons_self terminal⟩
  | @cons n t r going _ ih =>
    obtain ⟨ts, sub, remains⟩ := ih
    exact ⟨t :: ts, List.subset_cons_of_subset _ sub,
      .cons List.mem_cons_self going (wider t remains)⟩

end Left

/-- Where few of the tokens remain few are left. -/
theorem Remains.exists_left {ts : List Token} {n : Nat} {r : Row} (h : r.Remains ts n) :
    ∃ m ≤ n, r.Left m := by
  induction h with
  | ending _ terminal => exact ⟨0, Nat.zero_le _, .ending terminal⟩
  | cons _ going _ ih =>
    obtain ⟨m, le, left⟩ := ih
    exact ⟨m + 1, Nat.succ_le_succ le, .cons going left⟩

/-- All tokens of a text but the last are left at first. -/
theorem exists_left_lex (source : String) :
    ∃ n, n + 1 = (lex source).length ∧ (ofTokens (lex source)).Left n := by
  obtain ⟨us, last, eq, others, terminal⟩ := lex_eq source
  refine ⟨us.length, by simp [eq], ?_⟩
  rw [eq, ofTokens_eq others terminal]
  clear eq
  induction us with
  | nil => exact .ending terminal
  | cons u us ih =>
    obtain ⟨going, others⟩ := List.forall_mem_cons.mp others
    exact .cons going (ih others)

end Row

/-- When the reader is stopped for want of steps, at least `b` of the tokens that were left have
been taken.  Of a loop that may make one turn this says: the turn has ended the loop, or fewer
tokens are left. -/
def Reading.Pays (ref : ε → Refusal) (b : Nat) (p : Reading ε α) : Prop :=
  ∀ n r e s, r.Left n → p.Fails r e s → ref e = .overrun → ∃ m, m + b ≤ n ∧ s.Left m

/-- What takes so many tokens before it is stopped pays for its steps. -/
theorem Reading.pays_of_spends {ref : ε → Refusal} {b : Nat} {p : Reading ε α}
    {F : List Token → Refusal → Prop} {Q : List Token → Nat → α → Row → Prop} (us : List Token)
    (other : ∀ ts, ¬ F ts .overrun)
    (h : ∀ {ts n r}, us ⊆ ts → r.Remains ts n → Spends ref (F ts) ts b n p r (Q ts n)) :
    Pays ref b p := by
  intro n r e s left failed short
  obtain ⟨ts, sub, remains⟩ := left.exists_remains us
  obtain allowed | ⟨-, m, took, left'⟩ := (h sub remains).cases_fails failed
  · exact absurd (short ▸ allowed) (other ts)
  · obtain ⟨j, le, left'⟩ := left'.exists_left
    exact ⟨j, (Nat.add_le_add_right le b).trans took, left'⟩

/-- No token is at fault when the stack is full. -/
theorem Refusal.not_located_overrun (ts : List Token) : ¬ Refusal.Located ts .overrun :=
  fun located => not_documented_overrun (.inr located)

namespace Read

/-- Each turn of a loop that does not end it takes a token that was left, whatever was read before;
`fuel` are the steps of what is read within a turn. -/
structure EachTurnPays : Prop where
  /-- How many tokens are left is told by what there is to take. -/
  count (n m : Nat) (r : Row) (left : r.Left n) (left' : r.Left m) : n = m
  /-- The end of the text can be taken again and again. -/
  again (last : Token) (isEnd : last.kind = .eof) :
    pop.Gives (Row.ending last) last (Row.ending last)
  /-- Comments that trail something. -/
  trailing (anchor : Pos) (m : Nat) (taken : List Comment) :
    Reading.Pays id m (trailingLoop anchor m taken)
  /-- Comments before a value. -/
  skipped (m : Nat) (skipped : List Comment) : Reading.Pays id m (skipCommentsLoop m skipped)
  /-- The values of a list. -/
  values (fuel : Nat) (rulePos : Pos) (m : Nat) (values : List Parameter) (a : Attached) :
    Reading.Pays id (min fuel m) (valuesLoop fuel rulePos m values a)
  /-- Conditions, each behind the `with threshold` of the one before. -/
  condition (fuel : Nat) (rulePos : Pos) (m : Nat) (t : Token) :
    Reading.Pays id (min fuel m) (expressionLoop fuel rulePos m t)
  /-- The tokens of a rule. -/
  rule (fuel : Nat) (place : Place) (m : Nat) (d : Draft) (k : Tray) :
    Reading.Pays Prod.fst (min fuel m) (leadLoop fuel place m d k)
  /-- The members and connectives of a combined rule. -/
  group (fuel : Nat) (inRuleset : Bool) (m : Nat) (d : GroupDraft) (k : Tray) :
    Reading.Pays Prod.fst (min fuel m) (groupLoop fuel inRuleset m d k)
  /-- The rules of a ruleset. -/
  ruleset (fuel m : Nat) (d : RulesetDraft) (k : Tray) :
    Reading.Pays Prod.fst (min fuel m) (rulesetLoop fuel m d k)
  /-- The rulesets of a file. -/
  rulesets (fuel m : Nat) (before : List Ruleset) (k : Tray) :
    Reading.Pays Prod.fst (min fuel m) (rulesetsLoop fuel m before k)

/-- **Each turn of every loop takes a token or ends the loop.** -/
theorem eachTurnPays : EachTurnPays where
  count _ _ _ left left' := left.unique left'
  again _ isEnd := gives_pop.mpr (Row.ending_eof isEnd)
  trailing _ m taken :=
    Reading.pays_of_spends [] Refusal.not_located_overrun fun _ remains =>
      spends_trailingLoop taken remains (le_refl m)
  skipped m skipped :=
    Reading.pays_of_spends [] Refusal.not_located_overrun fun _ remains =>
      spends_skipCommentsLoop skipped remains (le_refl m)
  values fuel _ m values a :=
    Reading.pays_of_spends [] Refusal.not_located_overrun fun _ remains =>
      spends_valuesLoop values a remains (le_refl (min fuel m))
  condition fuel _ m t :=
    Reading.pays_of_spends [t] Refusal.not_located_overrun fun sub remains =>
      spends_expressionLoop (sub List.mem_cons_self) remains (le_refl (min fuel m))
  rule fuel _ m d k :=
    Reading.pays_of_spends [] Refusal.not_located_overrun fun _ remains =>
      spends_leadLoop d remains (le_refl (min fuel m)) k
  group fuel _ m _ k :=
    Reading.pays_of_spends [] Refusal.not_located_overrun fun _ remains =>
      spends_groupLoop remains (le_refl (min fuel m)) k
  ruleset fuel m _ k :=
    Reading.pays_of_spends [] (fun _ => Refusal.not_documented_overrun) fun _ remains =>
      spends_rulesetLoop remains (le_refl (min fuel m)) k
  rulesets fuel m before k :=
    Reading.pays_of_spends [] (fun _ => Refusal.not_documented_overrun) fun _ remains =>
      spends_rulesetsLoop before remains (le_refl (min fuel m)) k

end Read

namespace Entry

variable (entry : Entry) (source : String) {fuel : Nat}

/-- What an entry comes to on the tokens of a text when it may make so many steps. -/
def comesTo (fuel : Nat) : Except (Refusal × Tray) (Node × Tray) :=
  ((entry.reader fuel Tray.empty).run (Cursor.ofTokens (lex source))).1

/-- Each entry pays for its steps. -/
theorem pays_reader (fuel : Nat) (k : Tray) : Reading.Pays Prod.fst fuel (entry.reader fuel k) :=
  Reading.pays_of_spends [] (fun _ => Refusal.not_documented_overrun) fun _ remains =>
    entry.spends_reader remains (le_refl fuel) k

/-- As many steps as there are tokens are not used up: the last token is never paid with. -/
theorem comesTo_ne_overrun (enough : (lex source).length ≤ fuel) {e : Refusal × Tray}
    (failed : entry.comesTo source fuel = .error e) : e.1 ≠ .overrun := by
  intro short
  obtain ⟨n, length, left⟩ := Row.exists_left_lex source
  obtain ⟨m, took, -⟩ :=
    entry.pays_reader fuel Tray.empty n _ _ _ left (Reading.fails_of_run failed) short
  omega

/-- With more steps than there are tokens the same tokens are taken, and the same comes of them. -/
theorem comesTo_of_le (enough : (lex source).length ≤ fuel) :
    (entry.reader fuel Tray.empty).taken (Cursor.ofTokens (lex source))
        = (entry.reader (lex source).length Tray.empty).taken (Cursor.ofTokens (lex source)) ∧
      entry.comesTo source fuel = entry.comesTo source (lex source).length :=
  (entry.follows_reader enough Tray.empty).run_eq (.refl _ _) (Cursor.ready_ofTokens source) le_rfl
    fun _ => entry.comesTo_ne_overrun source (le_refl _)

/-- What is read of a text is what its reader comes to with any steps that are enough. -/
theorem read_eq_comesTo (enough : (lex source).length ≤ fuel) (options : Options) :
    entry.read source options = match entry.comesTo source fuel with
      | .ok (n, _) => .ok n
      | .error (e, _) => .error (e.report source options.snippetWidth) := by
  rw [entry.read_eq_outcome, (entry.comesTo_of_le source enough).2,
    ← (entry.comesTo_of_le source (Nat.le_succ _)).2]
  rfl

/-- An entry comes to an end on a text: its reader pays for its steps, it needs no more of them than
there are tokens, and any others that it might make change nothing. -/
structure Ends : Prop where
  pays (fuel : Nat) (k : Tray) : Reading.Pays Prod.fst fuel (entry.reader fuel k)
  enough (fuel : Nat) (k : Tray) (le : (lex source).length ≤ fuel) :
    entry.comesTo source fuel ≠ .error (.overrun, k)
  taken (fuel : Nat) (le : (lex source).length ≤ fuel) :
    (entry.reader fuel Tray.empty).taken (Cursor.ofTokens (lex source)) = entry.taken source
  outcome (fuel : Nat) (le : (lex source).length ≤ fuel) :
    entry.comesTo source fuel = entry.outcome source
  read (fuel : Nat) (le : (lex source).length ≤ fuel) (options : Options) :
    entry.read source options = match entry.comesTo source fuel with
      | .ok (n, _) => .ok n
      | .error (e, _) => .error (e.report source options.snippetWidth)

/-- **Reading always ends.**  Each turn of a loop ends it or takes a token that was left, so that no
entry needs more steps than a text has tokens; and what it comes to does not depend on the steps
that it might have made. -/
theorem reading_ends : Read.EachTurnPays ∧ entry.Ends source :=
  ⟨Read.eachTurnPays,
    { pays := entry.pays_reader
      enough := fun _ _ le stopped => entry.comesTo_ne_overrun source le stopped rfl
      taken := fun _ le => (entry.comesTo_of_le source le).1.trans
        (entry.comesTo_of_le source (Nat.le_succ _)).1.symm
      outcome := fun _ le => (entry.comesTo_of_le source le).2.trans
        (entry.comesTo_of_le source (Nat.le_succ _)).2.symm
      read := fun _ => entry.read_eq_comesTo source }⟩

/-- A condition behind the threshold of one that is behind a threshold. -/
def thresholdsText : String := "A in [1] with threshold in [2] with threshold > 1"

/-- With two steps such a text is not read, two of its tokens were taken then; with sixteen it is.
-/
theorem reading_ends_thresholdsText :
    (∃ n e s, (Row.ofTokens (lex thresholdsText)).Left n ∧
      (rule.reader (2 : Nat) Tray.empty).Fails (Row.ofTokens (lex thresholdsText)) e s ∧
      e.1 = .overrun ∧ ∃ m, m + 2 ≤ n ∧ s.Left m) ∧
    (lex thresholdsText).length = 16 ∧
    rule.comesTo thresholdsText 16 = rule.outcome thresholdsText := by
  obtain ⟨n, -, left⟩ := Row.exists_left_lex thresholdsText
  obtain ⟨e, stopped, short⟩ : ∃ e, rule.comesTo thresholdsText 2 = .error e ∧ e.1 = .overrun :=
    ⟨(.overrun, Tray.empty), by decide +kernel, rfl⟩
  have fails := Reading.fails_of_run stopped
  have length : (lex thresholdsText).length = 16 := by decide +kernel
  obtain ⟨-, ends⟩ := reading_ends rule thresholdsText
  exact ⟨⟨n, e, _, left, fails, short, ends.pays 2 Tray.empty n _ _ _ left fails short⟩, length,
    ends.outcome 16 length.le⟩

-- a rule type and the end of the text are two tokens, and one step is not enough
example : (lex "A").length = 2 ∧ rule.comesTo "A" 1 = .error (.overrun, Tray.empty) := by
  decide +kernel

end Entry

end QualityRules
