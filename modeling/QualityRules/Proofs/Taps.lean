import QualityRules.Proofs.Pulls
import QualityRules.Token.Taps

/-!
# Proofs — Taps

Any number of taps may be opened on a lexer, and all of them may be asked for tokens.  The one that
is asked first has the run: it gives the tokens of the text until somebody raises its flag.  Every
other one answers once that it is too late and then nothing, and leaves the lexer as it is.

* `Taps.Untouched` and `Taps.Won`: what is so before a tap is asked, and from then on.
* `Step.untouched` and `Step.won`: each step keeps to that, and so does each run, `Runs.won`.
* `Runs.flagsOf_eq_false` and `Runs.flagsOf_eq_true`: a tap is asked under a flag that is not raised
  until it is.
* `stoppable` is the main result, with the fingers and feeds of `Stoppable` beside the taps.
-/

namespace QualityRules

namespace Taps

variable {name source : String} {i j winner n : Nat} {flag : Option Nat} {u v w x : Taps} {d : Deed}
  {ds es : List Deed} {answers : List Answer} {answer : Answer} {c : Bool}

/-! ### What was answered -/

theorem drawsOf_append (i : Nat) (ds es : List Deed) :
    drawsOf i (ds ++ es) = drawsOf i ds ++ drawsOf i es := List.filterMap_append

theorem answersOf_append (i : Nat) (ds es : List Deed) :
    answersOf i (ds ++ es) = answersOf i ds ++ answersOf i es := by
  rw [answersOf, drawsOf_append, List.map_append]
  rfl

theorem flagsOf_append (i : Nat) (ds es : List Deed) :
    flagsOf i (ds ++ es) = flagsOf i ds ++ flagsOf i es := by
  rw [flagsOf, drawsOf_append, List.map_append]
  rfl

theorem length_flagsOf (i : Nat) (ds : List Deed) :
    (flagsOf i ds).length = (answersOf i ds).length := by
  rw [flagsOf, answersOf, List.length_map, List.length_map]

theorem Deed.tap?_draws_ne (other : i ≠ j) (c : Bool) (answer : Answer) :
    (Deed.draws i c answer).tap? ≠ some j := fun same => other (Option.some.inj same)

/-- Who asks another tap, or none, gets no answer from this one. -/
theorem drawsOf_eq_nil (h : ∀ d ∈ ds, d.tap? ≠ some i) : drawsOf i ds = [] := by
  refine List.filterMap_eq_nil_iff.mpr fun d mem => ?_
  cases d with
  | opens | raises => rfl
  | draws j c answer => exact if_neg fun same => h _ mem (congrArg some same)

theorem drawsOf_other (other : d.tap? ≠ some i) (ds : List Deed) :
    drawsOf i (ds ++ [d]) = drawsOf i ds := by
  rw [drawsOf_append, drawsOf_eq_nil (List.forall_mem_singleton.mpr other), List.append_nil]

theorem answersOf_other (other : d.tap? ≠ some i) (ds : List Deed) :
    answersOf i (ds ++ [d]) = answersOf i ds := congrArg (List.map _) (drawsOf_other other ds)

theorem flagsOf_other (other : d.tap? ≠ some i) (ds : List Deed) :
    flagsOf i (ds ++ [d]) = flagsOf i ds := congrArg (List.map _) (drawsOf_other other ds)

theorem answersOf_self (i : Nat) (c : Bool) (answer : Answer) (ds : List Deed) :
    answersOf i (ds ++ [.draws i c answer]) = answersOf i ds ++ [answer] := by
  simp [answersOf, drawsOf]

theorem flagsOf_self (i : Nat) (c : Bool) (answer : Answer) (ds : List Deed) :
    flagsOf i (ds ++ [.draws i c answer]) = flagsOf i ds ++ [c] := by
  simp [flagsOf, drawsOf]

theorem answersOf_eq_nil (silent : ds.findSome? Deed.tap? = none) (i : Nat) :
    answersOf i ds = [] := by
  rw [answersOf, drawsOf_eq_nil fun d mem => ?_]
  · rfl
  · rw [List.findSome?_eq_none_iff.mp silent d mem]
    nofun

/-! ### One tap has the run -/

theorem draw_fresh (name : String) (s : Scanner) (c : Bool) :
    (Lexer.mk name s false).draw c .fresh
      = (.ok (s.pull c).1, .running, ⟨name, (s.pull c).2, true⟩) := rfl

theorem draw_running (name : String) (s : Scanner) (c : Bool) :
    (Lexer.mk name s true).draw c .running
      = (.ok (s.pull c).1, .running, ⟨name, (s.pull c).2, true⟩) := rfl

/-- A tap that has not the run answered nothing yet, or it is shut and answered once that it is too
late. -/
def Late (name : String) (answers : List Answer) : Option Tap → Prop
  | some .running => False
  | some .shut => ∃ n, answers = .error ⟨name⟩ :: .replicate n (.ok none)
  | _ => answers = []

/-- No tap was asked yet. -/
structure Untouched (name source : String) (ds : List Deed) (w : Taps) : Prop where
  silent : ds.findSome? Deed.tap? = none
  lexer : w.lexer = .ofSource name source
  fresh : ∀ i, ∀ tap ∈ w.tap? i, tap = .fresh

/-- The tap `winner` was asked first, and has the run; it answers what is pulled from the scanner.
The others are too late. -/
structure Won (name source : String) (winner : Nat) (ds : List Deed) (w : Taps) : Prop where
  first : ds.findSome? Deed.tap? = some winner
  lexer : w.lexer = ⟨name, (Scanner.start source).pulled (flagsOf winner ds), true⟩
  answers : answersOf winner ds = ((Scanner.start source).pulls (flagsOf winner ds)).map .ok
  running : w.tap? winner = some .running
  others : ∀ j, j ≠ winner → Late name (answersOf j ds) (w.tap? j)

theorem untouched_ofSource (name source : String) :
    Untouched name source [] (ofSource name source) := ⟨rfl, rfl, nofun⟩

/-- To open a tap changes no other, and it was asked nothing. -/
theorem tap?_opens (w : Taps) (flag : Option Nat) (j : Nat) :
    { w with opened := w.opened ++ [(flag, Tap.fresh)] }.tap? j = w.tap? j ∨
      w.tap? j = none ∧
        { w with opened := w.opened ++ [(flag, Tap.fresh)] }.tap? j = some .fresh := by
  simp only [tap?, List.getElem?_append]
  split
  · exact .inl rfl
  · next past =>
    rw [List.getElem?_eq_none (Nat.le_of_not_lt past)]
    cases j - w.opened.length <;> simp

theorem tap?_draws_self {tap : Tap} (here : w.opened[i]? = some (flag, tap)) (tap' : Tap)
    (lexer : Lexer) :
    { w with lexer, opened := w.opened.set i (flag, tap') }.tap? i = some tap' := by
  obtain ⟨lt, -⟩ := List.getElem?_eq_some_iff.mp here
  simp [tap?, List.getElem?_set_self lt]

theorem tap?_draws_of_ne (other : i ≠ j) (tap' : Tap) (lexer : Lexer) :
    { w with lexer, opened := w.opened.set i (flag, tap') }.tap? j = w.tap? j := by
  simp [tap?, List.getElem?_set_ne other]

/-- What is done with other taps leaves a tap as it is. -/
theorem Step.tap?_eq (step : Step w d x) (other : d.tap? ≠ some j) {tap : Tap}
    (here : w.tap? j = some tap) : x.tap? j = some tap := by
  cases step with
  | opens flag =>
    rcases tap?_opens w flag j with same | ⟨absent, -⟩
    · exact same.trans here
    · cases here.symm.trans absent
  | raises => exact here
  | draws => rwa [tap?_draws_of_ne fun same => other (congrArg some same)]

/-- The first draw gives the run away. -/
theorem Step.untouched (step : Step w d x) (h : Untouched name source ds w) :
    Untouched name source (ds ++ [d]) x ∨ ∃ winner, Won name source winner (ds ++ [d]) x := by
  obtain ⟨silent, lexer, fresh⟩ := h
  have first : (ds ++ [d]).findSome? Deed.tap? = d.tap? := by
    rw [List.findSome?_append, silent]
    cases e : d.tap? <;> simp [e]
  cases step with
  | opens flag =>
    refine .inl ⟨first, lexer, fun j tap mem => ?_⟩
    rcases tap?_opens w flag j with same | ⟨-, new⟩
    · exact fresh j tap (same ▸ mem)
    · rw [new] at mem
      exact (Option.mem_some.mp mem).symm
  | raises => exact .inl ⟨first, lexer, fresh⟩
  | @draws i flag tap tap' answer _ here draw =>
    obtain rfl : tap = .fresh := fresh i tap (by simp [tap?, here])
    rw [lexer, Lexer.ofSource, draw_fresh, Prod.mk.injEq, Prod.mk.injEq] at draw
    obtain ⟨rfl, rfl, rfl⟩ := draw
    have none := answersOf_eq_nil silent
    have unasked : flagsOf i ds = [] :=
      List.length_eq_zero_iff.mp (by rw [length_flagsOf, none]; rfl)
    refine .inr ⟨i, first, ?_, ?_, tap?_draws_self here _ _, fun j other => ?_⟩
    · rw [flagsOf_self, unasked]
      rfl
    · rw [answersOf_self, flagsOf_self, unasked, none]
      rfl
    · rw [answersOf_other (Deed.tap?_draws_ne other.symm _ _), none, tap?_draws_of_ne other.symm]
      cases at_j : w.tap? j with
      | none => rfl
      | some tap =>
        rw [fresh j tap at_j]
        rfl

/-- A tap that is too late when the run was given away stays so, and leaves the lexer as it is. -/
theorem Step.late (step : Step w d x) (ran : w.lexer.ran = true)
    (late : Late w.lexer.name (answersOf j ds) (w.tap? j)) :
    Late w.lexer.name (answersOf j (ds ++ [d])) (x.tap? j) ∧
      (d.tap? = some j → x.lexer = w.lexer) := by
  -- only what is asked of the tap itself changes what it answered
  cases step with
  | opens flag =>
    refine ⟨?_, nofun⟩
    rw [answersOf_other (d := .opens flag) nofun]
    rcases tap?_opens w flag j with same | ⟨absent, new⟩
    · rwa [same]
    · rw [absent] at late
      rwa [new]
  | raises flag =>
    rw [answersOf_other (d := .raises flag) nofun]
    exact ⟨late, nofun⟩
  | @draws i flag tap tap' answer _ here draw =>
    by_cases same : i = j
    · subst same
      have before : w.tap? i = some tap := by simp [tap?, here]
      rw [before] at late
      rw [answersOf_self, tap?_draws_self here]
      cases tap with
      | running => exact late.elim
      | fresh =>
        rw [Lexer.draw_of_ran ran, Prod.mk.injEq, Prod.mk.injEq] at draw
        obtain ⟨rfl, rfl, rfl⟩ := draw
        rw [show answersOf i ds = [] from late]
        exact ⟨⟨0, rfl⟩, fun _ => rfl⟩
      | shut =>
        rw [Lexer.draw, Prod.mk.injEq, Prod.mk.injEq] at draw
        obtain ⟨rfl, rfl, rfl⟩ := draw
        obtain ⟨n, answers⟩ := late
        rw [answers]
        exact ⟨⟨n + 1, by rw [List.cons_append, ← List.replicate_succ']⟩, fun _ => rfl⟩
    · have other := Deed.tap?_draws_ne same (w.asked flag) answer
      rw [answersOf_other other, tap?_draws_of_ne same]
      exact ⟨late, fun eq => absurd eq other⟩

/-- From then on that tap has the run. -/
theorem Step.won (step : Step w d x) (h : Won name source winner ds w) :
    Won name source winner (ds ++ [d]) x := by
  obtain ⟨first, lexer, answers, running, others⟩ := h
  have ran : w.lexer.ran = true := by rw [lexer]
  have named : w.lexer.name = name := by rw [lexer]
  have first : (ds ++ [d]).findSome? Deed.tap? = some winner := by
    rw [List.findSome?_append, first]
    rfl
  have late : ∀ j, j ≠ winner → Late name (answersOf j (ds ++ [d])) (x.tap? j) ∧
      (d.tap? = some j → x.lexer = w.lexer) := by
    intro j other
    rw [← named]
    exact step.late ran (named ▸ others j other)
  by_cases asked : d.tap? = some winner
  · cases step with
    | opens | raises => cases asked
    | @draws _ flag tap tap' answer _ here draw =>
      obtain rfl := Option.some.inj asked
      obtain rfl : tap = .running := by simpa [tap?, here] using running
      rw [lexer, draw_running, Prod.mk.injEq, Prod.mk.injEq] at draw
      obtain ⟨rfl, rfl, rfl⟩ := draw
      refine ⟨first, ?_, ?_, tap?_draws_self here _ _, fun j other => (late j other).1⟩
      · rw [flagsOf_self, Scanner.pulled_append]
        rfl
      · rw [answersOf_self, flagsOf_self, Scanner.pulls_append, List.map_append, answers]
        rfl
  · have same : x.lexer = w.lexer := by
      cases step with
      | opens | raises => rfl
      | @draws i => exact (late i fun eq => asked (congrArg some eq)).2 rfl
    refine ⟨first, ?_, ?_, step.tap?_eq asked running, fun j other => (late j other).1⟩
    · rw [same, lexer, flagsOf_other asked]
    · rw [answersOf_other asked, flagsOf_other asked, answers]

/-- In every run the tap that is asked first has the run from then on. -/
theorem Runs.untouched_or_won (run : Runs (ofSource name source) ds w) :
    Untouched name source ds w ∨ ∃ winner, Won name source winner ds w := by
  induction run with
  | refl => exact .inl (untouched_ofSource name source)
  | more _ step ih =>
    rcases ih with untouched | ⟨winner, won⟩
    · exact step.untouched untouched
    · exact .inr ⟨winner, step.won won⟩

theorem Runs.won (run : Runs (ofSource name source) ds w)
    (first : ds.findSome? Deed.tap? = some winner) : Won name source winner ds w := by
  rcases run.untouched_or_won with untouched | ⟨other, won⟩
  · cases first.symm.trans untouched.silent
  · obtain rfl := Option.some.inj (first.symm.trans won.first)
    exact won

/-! ### The flags under which a tap is asked -/

/-- A tap keeps its flag, and a flag stays raised.  A tap is asked under its own flag. -/
theorem Step.flags (step : Step w d x) :
    (∀ flag ∈ w.flag? i, flag ∈ x.flag? i) ∧ (∀ flag, w.asked flag → x.asked flag) ∧
      ∀ c answer, d = .draws i c answer → ∃ flag ∈ w.flag? i, c = w.asked flag := by
  cases step with
  | opens flag =>
    refine ⟨fun f mem => ?_, fun _ => id, fun _ _ draws => nomatch draws⟩
    obtain ⟨y, at_i, rfl⟩ := Option.map_eq_some_iff.mp mem
    obtain ⟨lt, -⟩ := List.getElem?_eq_some_iff.mp at_i
    simp [flag?, List.getElem?_append_left lt, at_i]
  | raises flag =>
    refine ⟨fun _ => id, fun f raised => ?_, fun _ _ draws => nomatch draws⟩
    cases f with
    | none => cases raised
    | some n =>
      simp only [asked, Option.any_some, decide_eq_true_eq] at raised ⊢
      exact List.mem_cons_of_mem flag raised
  | @draws j flag tap tap' answer _ here draw =>
    refine ⟨fun f mem => ?_, fun _ => id, ?_⟩
    · by_cases same : j = i
      · subst same
        obtain ⟨lt, -⟩ := List.getElem?_eq_some_iff.mp here
        simp_all [flag?]
      · simpa [flag?, List.getElem?_set_ne same] using mem
    · rintro c answer ⟨⟩
      exact ⟨flag, by simp [flag?, here], rfl⟩

theorem Runs.flags (run : Runs v ds w) :
    (∀ flag ∈ v.flag? i, flag ∈ w.flag? i) ∧ ∀ flag, v.asked flag → w.asked flag := by
  induction run with
  | refl => exact ⟨fun _ => id, fun _ => id⟩
  | more _ step ih =>
    obtain ⟨keeps, stays, -⟩ := step.flags (i := i)
    exact ⟨fun f mem => keeps f (ih.1 f mem), fun f asked => stays f (ih.2 f asked)⟩

theorem mem_flagsOf_concat (mem : c ∈ flagsOf i (ds ++ [d])) :
    c ∈ flagsOf i ds ∨ ∃ answer, d = .draws i c answer := by
  by_cases own : d.tap? = some i
  · cases d with
    | opens | raises => cases own
    | draws j c' answer =>
      obtain rfl := Option.some.inj own
      rw [flagsOf_self] at mem
      rcases List.mem_append.mp mem with mem | mem
      · exact .inl mem
      · exact .inr ⟨answer, by rw [List.mem_singleton.mp mem]⟩
  · exact .inl (flagsOf_other own ds ▸ mem)

/-- Until somebody raises its flag, a tap is asked under one that is not raised. -/
theorem Runs.flagsOf_eq_false (run : Runs v ds w) (h : ∀ flag ∈ w.flag? i, w.asked flag = false) :
    ∀ c ∈ flagsOf i ds, c = false := by
  induction run with
  | refl => exact List.forall_mem_nil _
  | @more u x d ds run step ih =>
    obtain ⟨keeps, stays, own⟩ := step.flags (i := i)
    have before : ∀ flag ∈ u.flag? i, u.asked flag = false := by
      intro f mem
      have later := h f (keeps f mem)
      exact Bool.eq_false_iff.mpr fun raised => by simp [stays f raised] at later
    intro c mem
    rcases mem_flagsOf_concat mem with mem | ⟨answer, draws⟩
    · exact ih before c mem
    · obtain ⟨f, here, rfl⟩ := own c answer draws
      exact before f here

/-- Once its flag is raised, a tap is asked under a raised one. -/
theorem Runs.flagsOf_eq_true (run : Runs v ds w) (h : ∀ flag ∈ w.flag? i, v.asked flag = true) :
    ∀ c ∈ flagsOf i ds, c = true := by
  induction run with
  | refl => exact List.forall_mem_nil _
  | @more u x d ds run step ih =>
    obtain ⟨keeps, -, own⟩ := step.flags (i := i)
    intro c mem
    rcases mem_flagsOf_concat mem with mem | ⟨answer, draws⟩
    · exact ih (fun f mem => h f (keeps f mem)) c mem
    · obtain ⟨f, here, rfl⟩ := own c answer draws
      exact (run.flags (i := i)).2 f (h f (keeps f here))

/-- The flags that are raised are those that somebody raised. -/
theorem Runs.mem_raised_iff (run : Runs v ds w) :
    n ∈ w.raised ↔ n ∈ v.raised ∨ .raises n ∈ ds := by
  induction run with
  | refl => simp
  | more _ step ih => cases step <;> simp [ih, or_comm, or_left_comm]

theorem Runs.split (run : Runs v (ds ++ es) w) : ∃ u, Runs v ds u ∧ Runs u es w := by
  generalize all : ds ++ es = fs at run
  induction run generalizing es with
  | refl =>
    obtain ⟨rfl, rfl⟩ := List.append_eq_nil_iff.mp all
    exact ⟨_, .refl, .refl⟩
  | @more x y d fs run step ih =>
    rcases List.eq_nil_or_concat es with rfl | ⟨es, last, rfl⟩
    · rw [List.append_nil] at all
      exact ⟨_, all ▸ run.more step, .refl⟩
    · rw [List.concat_eq_append, ← List.append_assoc] at all
      obtain ⟨rfl, same⟩ := List.append_inj' all rfl
      obtain ⟨rfl, -⟩ := List.cons.inj same
      obtain ⟨u, first, others⟩ := ih rfl
      exact ⟨u, first, by rw [List.concat_eq_append]; exact others.more step⟩

/-! ### What comes of asking to stop -/

/-- Until its flag is raised, the tap that has the run gives the tokens of the text. -/
theorem Runs.delivers (run : Runs (ofSource name source) ds w)
    (first : ds.findSome? Deed.tap? = some winner)
    (unraised : ∀ n, w.flag? winner = some (some n) → .raises n ∉ ds) :
    ∃ items us, answersOf winner ds = items.map .ok ∧ Delivers items (lex source) us := by
  have won := run.won first
  have flags : ∀ c ∈ flagsOf winner ds, c = false := by
    refine run.flagsOf_eq_false fun flag mem => ?_
    cases flag with
    | none => rfl
    | some n => simpa [asked, run.mem_raised_iff, ofSource] using unraised n mem
  rw [won.answers, List.eq_replicate_of_mem flags]
  exact ⟨_, _, rfl, Scanner.delivers_pulls _ _⟩

/-- The tap that has the run cuts the tokens off when its flag is raised. -/
theorem Runs.cut {early late : List Deed}
    (run : Runs (ofSource name source) (early ++ .raises n :: late) w)
    (first : (early ++ .raises n :: late).findSome? Deed.tap? = some winner)
    (flag : w.flag? winner = some (some n)) (unraised : .raises n ∉ early) :
    ∃ before behind, answersOf winner early = before.map .ok ∧
      answersOf winner late = behind.map .ok ∧ Cut source before behind := by
  have won := run.won first
  obtain ⟨u, calm, rest⟩ := run.split
  have rest' : Runs u ([.raises n] ++ late) w := rest
  obtain ⟨v, raising, stopping⟩ := rest'.split
  have calmly : ∀ c ∈ flagsOf winner early, c = false := by
    refine calm.flagsOf_eq_false fun flag' mem => ?_
    obtain rfl := Option.some.inj (flag.symm.trans (rest.flags.1 flag' mem))
    simpa [asked, calm.mem_raised_iff, ofSource] using unraised
  have stopped : ∀ c ∈ flagsOf winner late, c = true := by
    refine stopping.flagsOf_eq_true fun flag' mem => ?_
    obtain rfl := Option.some.inj (flag.symm.trans mem)
    simp [asked, raising.mem_raised_iff]
  have flags : flagsOf winner (early ++ .raises n :: late)
      = .replicate (flagsOf winner early).length false
        ++ .replicate (flagsOf winner late).length true := by
    rw [flagsOf_append, ← List.eq_replicate_of_mem calmly, ← List.eq_replicate_of_mem stopped]
    rfl
  have answers := won.answers
  rw [flags, Scanner.pulls_append, List.map_append, answersOf_append] at answers
  obtain ⟨before, behind⟩ := List.append_inj answers (by simp [length_flagsOf])
  exact ⟨_, _, before, behind, Scanner.cut source _ _⟩

/-- A tap that was not asked first answers once that it is too late, and then nothing. -/
theorem Runs.late (run : Runs (ofSource name source) ds w)
    (first : ds.findSome? Deed.tap? = some winner) (other : j ≠ winner) :
    answersOf j ds = [] ∨ ∃ m, answersOf j ds = .error ⟨name⟩ :: .replicate m (.ok none) := by
  have late := (run.won first).others j other
  cases tap : w.tap? j with
  | none =>
    rw [tap] at late
    exact .inl late
  | some tap' =>
    rw [tap] at late
    cases tap' with
    | fresh => exact .inl late
    | running => exact late.elim
    | shut => exact .inr late

/-- A tap that was not asked first leaves the lexer as it is, and its first answer is that it is too
late. -/
theorem Runs.draws_late (run : Runs (ofSource name source) ds w)
    (first : ds.findSome? Deed.tap? = some winner) (other : j ≠ winner)
    (step : Step w (.draws j c answer) x) :
    x.lexer = w.lexer ∧ (answersOf j ds = [] → answer = .error ⟨name⟩) := by
  have won := run.won first
  have again := (run.more step).late (step.won won).first other
  have named : w.lexer.name = name := by rw [won.lexer]
  have late := step.late (by rw [won.lexer]) (named ▸ won.others j other)
  refine ⟨late.2 rfl, fun none => ?_⟩
  rw [answersOf_self, none] at again
  rcases again with nil | ⟨m, answers⟩
  · cases nil
  · exact (List.cons.inj answers).1

end Taps

/-- What one gets who pulls the tokens of `source` one after the other and asks to stop behind `k`
of them. -/
structure Stoppable (name source : String) : Prop where
  /-- A finger cuts the tokens off, character by character. -/
  finger : ∀ k n, ∃ before behind, before.length = k ∧ behind.length = n ∧
    Cut source before behind ∧
    ∀ items, Finger.Pulls (some .outside) (Finger.atStart source)
      (.replicate k false ++ .replicate n true) items ↔ items = before ++ behind
  /-- So does a feed that scans its tokens when it is asked for them. -/
  feed : ∀ k n, ∃ f g h before behind, (Feed.ofSource .inline source).start = .ok f ∧
    f.nexts k = .ok (before, g) ∧ g.cancel.nexts n = .ok (behind, h) ∧ before.length = k ∧
    behind.length = n ∧ Cut source before behind
  /-- So does the tap of a lexer that is asked first, whatever is done with other taps. -/
  tap : ∀ {winner n : Nat} {early late : List Taps.Deed} {w : Taps},
    Taps.Runs (.ofSource name source) (early ++ .raises n :: late) w →
    (early ++ .raises n :: late).findSome? Taps.Deed.tap? = some winner →
    w.flag? winner = some (some n) → .raises n ∉ early →
    ∃ before behind, Taps.answersOf winner early = before.map .ok ∧
      Taps.answersOf winner late = behind.map .ok ∧ Cut source before behind
  /-- As long as nobody asks it to stop, it gives the tokens of the text. -/
  going : ∀ {winner : Nat} {ds : List Taps.Deed} {w : Taps},
    Taps.Runs (.ofSource name source) ds w → ds.findSome? Taps.Deed.tap? = some winner →
    (∀ n, w.flag? winner = some (some n) → .raises n ∉ ds) →
    ∃ items us, Taps.answersOf winner ds = items.map .ok ∧ Delivers items (lex source) us
  /-- No other tap ever gives a token: the first draw from it fails and leaves the lexer as it is,
  and then it gives nothing. -/
  late : ∀ {winner : Nat} {ds : List Taps.Deed} {w : Taps}, Taps.Runs (.ofSource name source) ds w →
    ds.findSome? Taps.Deed.tap? = some winner → ∀ j, j ≠ winner →
    (Taps.answersOf j ds = [] ∨
      ∃ m, Taps.answersOf j ds = .error ⟨name⟩ :: .replicate m (.ok none)) ∧
    ∀ c answer x, Taps.Step w (.draws j c answer) x →
      x.lexer = w.lexer ∧ (Taps.answersOf j ds = [] → answer = .error ⟨name⟩)

/-- **Whoever asks to stop behind `k` tokens** was given the first `k` tokens of the text, is told
then that the scanner was told to stop, where the last of them stops, and is given nothing more;
behind the last token of the text nothing comes at all.  That is so for a finger, for a feed and for
the tap of a lexer that is asked first; all other taps of the lexer are too late. -/
theorem stoppable (name source : String) : Stoppable name source where
  finger k n := by
    refine ⟨_, _, by simp, by simp, Scanner.cut source k n, fun items => ?_⟩
    rw [Finger.pulls_iff, Scanner.pulls_append]
  feed := Feed.cut source
  tap run first flag unraised := run.cut first flag unraised
  going run first unraised := run.delivers first unraised
  late run first j other :=
    ⟨run.late first other, fun _ _ _ step => run.draws_late first other step⟩

namespace Taps

/-- Two taps that heed the same flag; the second one is asked first. -/
def early : List Deed :=
  [.opens (some 7), .opens (some 7),
    .draws 1 false (.ok (some ⟨.ident, "A", ⟨0, 1, 1⟩, ⟨1, 1, 2⟩⟩)), .draws 0 false (.error ⟨"f"⟩)]

/-- What is done with them when the flag is raised. -/
def late : List Deed :=
  [.draws 1 true (.ok (some (Scanner.canceled ⟨1, 1, 2⟩))), .draws 0 true (.ok none),
    .draws 1 true (.ok none)]

theorem runs_early_late : ∃ w, Runs (ofSource "f" "A B") (early ++ .raises 7 :: late) w ∧
    w.flag? 1 = some (some 7) := by
  have first : (Scanner.start "A B").pull false =
      (some ⟨.ident, "A", .origin, ⟨1, 1, 2⟩⟩, ⟨[' ', 'B'], ⟨1, 1, 2⟩, false⟩) := by
    decide +kernel
  have opened := (Runs.refl.more (.opens (ofSource "f" "A B") (some 7))).more (.opens _ (some 7))
  have drawn := opened.more (.draws (i := 1) rfl (draw_fresh "f" (Scanner.start "A B") false))
  rw [first] at drawn
  have tooLate := drawn.more (.draws (i := 0) rfl rfl)
  have stopped := (tooLate.more (.raises _ 7)).more (.draws (i := 1) rfl rfl)
  have shut := stopped.more (.draws (i := 0) rfl rfl)
  have nothing := shut.more (.draws (i := 1) rfl rfl)
  exact ⟨_, nothing, rfl⟩

end Taps

theorem stoppable_twoTaps :
    Taps.answersOf 0 (Taps.early ++ .raises 7 :: Taps.late) = [.error ⟨"f"⟩, .ok none] ∧
    ∃ before behind, Taps.answersOf 1 Taps.early = before.map .ok ∧
      Taps.answersOf 1 Taps.late = behind.map .ok ∧ Cut "A B" before behind := by
  obtain ⟨w, run, flag⟩ := Taps.runs_early_late
  exact ⟨rfl, (stoppable "f" "A B").tap run rfl flag (by simp [Taps.early])⟩

end QualityRules
