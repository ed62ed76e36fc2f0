import QualityRules.Proofs.Gives
import QualityRules.Proofs.Tokens

/-!
# Proofs — Pace — Calculus

A loop goes on only behind a token that it took, and the end of the text, which can be taken again
and again, is no such token.  So a reader that has more steps than there are tokens left is never
stopped for want of them: it succeeds, or it refuses the text at one of the tokens.

* `Row.Remains`: what remains of the tokens of a text, those that were put back among them;
  `Remains.step` says that to take another token than the end of the text leaves fewer.
* `Reading.Spends`: how a reader goes along a row.  When it is stopped for want of steps it took so
  many tokens before; `Spends.bind` goes on behind a result.
* `ParseRules.Spends` is the same on every tray.
-/

namespace QualityRules

variable {ε ε' α β : Type}

namespace Row

/-- At most so many of the tokens `ts` remain before the last one, which is the end of the text or a
fault. -/
inductive Remains (ts : List Token) : Nat → Row → Prop
  | ending {n last} (mem : last ∈ ts) (terminal : last.kind.isTerminal) : Remains ts n (ending last)
  | cons {n t r} (mem : t ∈ ts) (going : t.kind.isTerminal = false) (rest : Remains ts n r) :
      Remains ts (n + 1) (cons t r)

namespace Remains

variable {ts us : List Token} {t : Token} {n m : Nat} {r s : Row}

theorem mono (h : Remains ts n r) (le : n ≤ m) : Remains ts m r := by
  induction h generalizing m with
  | ending mem terminal => exact .ending mem terminal
  | cons mem going _ ih =>
    obtain ⟨m, rfl⟩ : ∃ l, m = l + 1 := ⟨m - 1, by omega⟩
    exact .cons mem going (ih (by omega))

/-- What can be taken is the end of the text, which stays, or one token less remains. -/
theorem cases_cons (h : Remains ts n (Row.cons t s)) : t ∈ ts ∧
    (t.kind = .eof ∧ s = Row.cons t s ∨
      t.kind.isTerminal = false ∧ ∃ m, n = m + 1 ∧ Remains ts m s) := by
  generalize row : Row.cons t s = r at h
  cases h with
  | @ending n last mem terminal =>
    obtain ⟨isEnd, rfl, rfl⟩ := ending_eq_cons terminal row.symm
    exact ⟨mem, .inl ⟨isEnd, rfl⟩⟩
  | cons mem going rest =>
    obtain ⟨rfl, rfl⟩ := cons_inj.mp row
    exact ⟨mem, .inr ⟨going, _, rfl, rest⟩⟩

theorem mem (h : Remains ts n (Row.cons t s)) : t ∈ ts := h.cases_cons.1

theorem tail (h : Remains ts n (Row.cons t s)) : Remains ts n s := by
  rcases h.cases_cons.2 with ⟨-, again⟩ | ⟨-, m, rfl, rest⟩
  · rwa [again]
  · exact rest.mono (Nat.le_succ m)

/-- To take a token that is not the end of the text leaves fewer. -/
theorem step (h : Remains ts n (Row.cons t s)) (going : t.kind ≠ .eof) :
    ∃ m, n = m + 1 ∧ Remains ts m s := by
  rcases h.cases_cons.2 with ⟨isEnd, -⟩ | ⟨-, rest⟩
  · exact absurd isEnd going
  · exact rest

/-- A token that was taken may be put back in front of what remains when more was taken. -/
theorem replace (h : Remains ts n (Row.cons t s)) (going : t.kind ≠ .eof) (rest : Remains ts m r)
    (lt : m < n) : Remains ts n (Row.cons t r) := by
  rcases h.cases_cons with ⟨mem, ⟨isEnd, -⟩ | ⟨nonterminal, -⟩⟩
  · exact absurd isEnd going
  · exact (cons mem nonterminal rest).mono lt

theorem drop (h : Remains ts n (behind us s)) : Remains ts n s := by
  induction us with
  | nil => exact h
  | cons u us ih => exact ih h.tail

/-- No more tokens can be taken before the end of the text than remain. -/
theorem length_le (h : Remains ts n (behind us s)) (going : ∀ u ∈ us, u.kind ≠ .eof) :
    us.length ≤ n := by
  induction us generalizing n with
  | nil => exact Nat.zero_le n
  | cons u us ih =>
    obtain ⟨n, rfl, rest⟩ := h.step (going u List.mem_cons_self)
    exact Nat.succ_le_succ (ih rest fun v mem => going v (List.mem_cons_of_mem _ mem))

theorem final (h : Remains ts n r) : r.Final := by
  suffices split : ∃ us last, r = behind us (Row.ending last) ∧
      (∀ u ∈ us, u.kind.isTerminal = false) ∧ last.kind.isTerminal by
    obtain ⟨us, last, rfl, others, terminal⟩ := split
    exact final_behind others terminal
  induction h with
  | @ending n last _ terminal => exact ⟨[], last, rfl, List.forall_mem_nil _, terminal⟩
  | @cons n t r _ going _ ih =>
    obtain ⟨us, last, rfl, others, terminal⟩ := ih
    exact ⟨t :: us, last, rfl, List.forall_mem_cons.mpr ⟨going, others⟩, terminal⟩

/-- All the tokens of a text remain at first. -/
theorem of_lex (source : String) :
    Remains (lex source) (lex source).length (ofTokens (lex source)) := by
  obtain ⟨us, last, eq, others, terminal⟩ := lex_eq source
  have each : ∀ vs ⊆ us, Remains (us ++ [last]) vs.length (behind vs (Row.ending last)) := by
    intro vs sub
    induction vs with
    | nil => exact .ending (by simp) terminal
    | cons v vs ih =>
      have mem : v ∈ us := sub List.mem_cons_self
      exact .cons (by simp [mem]) (others v mem) (ih fun u m => sub (List.mem_cons_of_mem _ m))
  rw [eq, ofTokens_eq others terminal]
  exact (each us (List.Subset.refl us)).mono (by simp)

end Remains

end Row

/-- The text is refused at one of the tokens `ts`. -/
def Refusal.Located (ts : List Token) (e : Refusal) : Prop :=
  ∃ cause, ∃ t ∈ ts, e = .at cause t.start

namespace Reading

/-- How a reader goes along a row on which no more than `n` of the tokens `ts` remain: it succeeds,
as `Q` says; or it fails, as `F` says; or it is stopped for want of steps and took `b` tokens
before. -/
inductive Spends (ref : ε → Refusal) (F : Refusal → Prop) (ts : List Token) (b n : Nat)
    (p : Reading ε α) (r : Row) (Q : α → Row → Prop) : Prop
  | gives {a s} (run : p.Gives r a s) (holds : Q a s)
  | fails {e s} (run : p.Fails r e s) (allowed : F (ref e))
  | stops {e s m} (run : p.Fails r e s) (spent : ref e = .overrun) (left : s.Remains ts m)
      (took : m + b ≤ n)

namespace Spends

variable {ref : ε → Refusal} {F : Refusal → Prop} {ts : List Token} {b n m : Nat} {p : Reading ε α}
  {r s : Row} {Q R : α → Row → Prop}

theorem done {a : α} (holds : Q a r) : Spends ref F ts b n (pure a) r Q := .gives rfl holds

/-- Where there are no steps, nothing is taken. -/
theorem spent {e : ε} (h : r.Remains ts n) (short : ref e = .overrun) (none : b = 0) :
    Spends ref F ts b n (.fail e : Reading ε α) r Q :=
  .stops rfl short h (none ▸ Nat.le_refl n)

/-- Two readers in turn pay for their steps when each one does. -/
theorem bind {f : α → Reading ε β} {R : β → Row → Prop} (h : Spends ref F ts b n p r Q)
    (rest : ∀ a s, Q a s → Spends ref F ts b n (f a) s R) :
    Spends ref F ts b n (p >>= f) r R := by
  cases h with
  | fails run allowed => exact .fails (fails_bind.mpr (.inl run)) allowed
  | stops run short left took => exact .stops (fails_bind.mpr (.inl run)) short left took
  | @gives a s run holds =>
    cases rest a s holds with
    | gives run' holds' => exact .gives (gives_bind.mpr ⟨a, s, run, run'⟩) holds'
    | fails run' allowed => exact .fails (fails_bind.mpr (.inr ⟨a, s, run, run'⟩)) allowed
    | stops run' short left took =>
      exact .stops (fails_bind.mpr (.inr ⟨a, s, run, run'⟩)) short left took

/-- What is known of the results that the reader gives is known of them. -/
theorem gives_imp (h : Spends ref F ts b n p r Q) (rest : ∀ a s, p.Gives r a s → Q a s → R a s) :
    Spends ref F ts b n p r R := by
  cases h with
  | gives run holds => exact .gives run (rest _ _ run holds)
  | fails run allowed => exact .fails run allowed
  | stops run short left took => exact .stops run short left took

/-- What follows from what is known then may be said instead. -/
theorem imp {F' : Refusal → Prop} (h : Spends ref F ts b n p r Q) (weaker : ∀ e, F e → F' e)
    (rest : ∀ a s, Q a s → R a s) : Spends ref F' ts b n p r R := by
  cases h with
  | gives run holds => exact .gives run (rest _ _ holds)
  | fails run allowed => exact .fails run (weaker _ allowed)
  | stops run short left took => exact .stops run short left took

theorem more (h : Spends ref F ts b m p r Q) (le : m ≤ n) : Spends ref F ts b n p r Q := by
  cases h with
  | gives run holds => exact .gives run holds
  | fails run allowed => exact .fails run allowed
  | stops run short left took => exact .stops run short left (took.trans le)

/-- What takes so many tokens behind another one takes one more with it. -/
theorem succ (h : Spends ref F ts (b - 1) n p r Q) : Spends ref F ts b (n + 1) p r Q := by
  cases h with
  | gives run holds => exact .gives run holds
  | fails run allowed => exact .fails run allowed
  | stops run short left took => exact .stops run short left (by omega)

/-- Failures may be told in other words. -/
theorem mapError {ref' : ε' → Refusal} {c : ε → ε'} (h : Spends ref F ts b n p r Q)
    (same : ∀ e, ref' (c e) = ref e) : Spends ref' F ts b n (p.mapError c) r Q := by
  have fails : ∀ {e s}, p.Fails r e s → (p.mapError c).Fails r (c e) s := by
    intro e s h
    rw [Fails, along_mapError, show p.along r = _ from h]
    rfl
  cases h with
  | gives run holds => exact .gives (gives_mapError.mpr run) holds
  | fails run allowed => exact .fails (fails run) ((same _).symm ▸ allowed)
  | stops run short left took => exact .stops (fails run) ((same _).trans short) left took

theorem attempt {ref' : ε' → Refusal} {F' : Refusal → Prop} (h : Spends ref F ts b n p r Q) :
    Spends ref' F' ts b n p.attempt r fun x s => match x with
      | .ok a => Q a s
      | .error e => F (ref e) ∨ ref e = .overrun ∧ ∃ m, m + b ≤ n ∧ s.Remains ts m := by
  cases h with
  | gives run holds => exact .gives (gives_attempt_ok.mpr run) holds
  | fails run allowed => exact .gives (gives_attempt_error.mpr run) (.inl allowed)
  | stops run short left took =>
    exact .gives (gives_attempt_error.mpr run) (.inr ⟨short, _, took, left⟩)

/-- A result is as the reader leaves it. -/
theorem holds {a : α} (h : Spends ref F ts b n p r Q) (g : p.Gives r a s) : Q a s := by
  cases h with
  | gives run holds =>
    cases run.symm.trans g
    exact holds
  | fails run | stops run => cases run.symm.trans g

/-- A failure is one that is allowed, or so many tokens were taken before. -/
theorem cases_fails {e : ε} (h : Spends ref F ts b n p r Q) (f : p.Fails r e s) :
    F (ref e) ∨ ref e = .overrun ∧ ∃ m, m + b ≤ n ∧ s.Remains ts m := by
  cases h with
  | gives run => cases run.symm.trans f
  | fails run allowed =>
    cases run.symm.trans f
    exact .inl allowed
  | stops run short left took =>
    cases run.symm.trans f
    exact .inr ⟨short, _, took, left⟩

/-- Another failure than for want of steps is one that is allowed. -/
theorem allowed {e : ε} (h : Spends ref F ts b n p r Q) (f : p.Fails r e s)
    (other : ref e ≠ .overrun) : F (ref e) :=
  (h.cases_fails f).resolve_right fun short => other short.1

/-- Where there are more steps than tokens, a failure is one that is allowed. -/
theorem allowed_of_lt {e : ε} (h : Spends ref F ts b n p r Q) (enough : n < b)
    (f : p.Fails r e s) : F (ref e) := by
  obtain allowed | ⟨-, m, took, -⟩ := h.cases_fails f
  · exact allowed
  · omega

end Spends

end Reading

/-- `Reading.Spends` where the text is refused at one of the tokens `ts`. -/
abbrev Parse.Spends (ts : List Token) (b n : Nat) (p : Parse α) (r : Row) (Q : α → Row → Prop) :
    Prop :=
  Reading.Spends id (Refusal.Located ts) ts b n p r Q

namespace Read

variable {ts : List Token} {t : Token} {b n : Nat} {r s : Row} {Q : α → Row → Prop}

theorem spends_pop (h : r.Remains ts n) :
    Parse.Spends ts b n pop r fun t s => (Row.cons t s).Remains ts n := by
  cases h with
  | @cons n t s mem going rest => exact .gives (gives_pop.mpr rfl) (.cons mem going rest)
  | @ending n last mem terminal =>
    cases kind : last.kind with
    | eof =>
      have again := Row.ending_eof kind
      exact .gives (gives_pop.mpr again) (again ▸ .ending mem terminal)
    | illegal =>
      have fault : pop.Fails (Row.ending last) (.at (.scan last.text) last.start)
          (Stream'.const (.error .starved)) := by
        rw [Row.ending, if_pos kind]
        rfl
      exact .fails fault ⟨_, last, mem, rfl⟩
    | _ => simp [kind, Kind.isTerminal] at terminal

theorem spends_push (h : (Row.cons t s).Remains ts n) :
    Parse.Spends ts b n (push t) s fun _ r => r.Remains ts n :=
  .gives rfl h

theorem spends_refuse (mem : t ∈ ts) (cause : Cause) :
    Parse.Spends ts b n (refuse cause t.start) r Q :=
  .fails rfl ⟨cause, t, mem, rfl⟩

end Read

namespace ParseRules

/-- `Reading.Spends` whatever is on the tray. -/
def Spends (F : Refusal → Prop) (ts : List Token) (b n : Nat) (p : ParseRules α) (r : Row)
    (Q : α → Row → Prop) : Prop :=
  ∀ k, Reading.Spends Prod.fst F ts b n (p k) r fun x s => Q x.1 s

variable {F F' : Refusal → Prop} {ts : List Token} {b n m : Nat} {p : ParseRules α} {r s : Row}
  {Q R : α → Row → Prop}

namespace Spends

theorem done {a : α} (holds : Q a r) : Spends F ts b n (pure a) r Q :=
  fun _ => Reading.Spends.done holds

theorem spent (h : r.Remains ts n) (none : b = 0) :
    Spends F ts b n (liftM (Read.fail .overrun : Parse α)) r Q :=
  fun _ => Reading.Spends.spent h rfl none

theorem bind {f : α → ParseRules β} {R : β → Row → Prop} (h : Spends F ts b n p r Q)
    (rest : ∀ a s, Q a s → Spends F ts b n (f a) s R) : Spends F ts b n (p >>= f) r R :=
  fun k => (h k).bind fun x s holds => rest x.1 s holds x.2

theorem imp (h : Spends F ts b n p r Q) (weaker : ∀ e, F e → F' e)
    (rest : ∀ a s, Q a s → R a s) : Spends F' ts b n p r R :=
  fun k => (h k).imp weaker fun x s => rest x.1 s

theorem gives_imp (h : Spends F ts b n p r Q)
    (rest : ∀ k a l s, p.Gives k r a l s → Q a s → R a s) : Spends F ts b n p r R :=
  fun k => (h k).gives_imp fun x s => rest k x.1 x.2 s

theorem more (h : Spends F ts b m p r Q) (le : m ≤ n) : Spends F ts b n p r Q :=
  fun k => (h k).more le

theorem succ (h : Spends F ts (b - 1) n p r Q) : Spends F ts b (n + 1) p r Q :=
  fun k => (h k).succ

theorem lift {p : Parse α} (h : Reading.Spends id F ts b n p r Q) :
    Spends F ts b n (liftM p) r Q := by
  intro k
  have seen : Reading.Spends Prod.fst F ts b n (p.mapError fun e => (e, k)) r Q :=
    h.mapError fun _ => rfl
  exact seen.bind fun _ _ holds => .done holds

theorem onTray {enter : Tray → Tray} {leave : Tray → Tray → Tray} (h : Spends F ts b n p r Q) :
    Spends F ts b n (Read.onTray enter leave p) r Q := by
  intro k
  have seen : Reading.Spends Prod.fst F ts b n
      ((p (enter k)).mapError fun e => (e.1, leave k e.2)) r fun x s => Q x.1 s :=
    (h (enter k)).mapError fun _ => rfl
  exact seen.bind fun _ _ holds => .done holds

theorem holds {a : α} {k l : Tray} (h : Spends F ts b n p r Q) (g : p.Gives k r a l s) : Q a s :=
  (h k).holds g

theorem allowed {e : Refusal} {k l : Tray} (h : Spends F ts b n p r Q)
    (f : (p k).Fails r (e, l) s) (other : e ≠ .overrun) : F e :=
  (h k).allowed f other

theorem allowed_of_lt {e : Refusal} {k l : Tray} (h : Spends F ts b n p r Q) (enough : n < b)
    (f : (p k).Fails r (e, l) s) : F e :=
  (h k).allowed_of_lt enough f

end Spends

end ParseRules

end QualityRules
