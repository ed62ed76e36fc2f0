import QualityRules.Proofs.Joined
import QualityRules.Proofs.Seam
import QualityRules.Proofs.Unread

/-!
# Proofs — Concatenated

Two files with an empty line between them are one file: the groups that float and the rulesets of
the first one, and those of the second one further down.

* `lex_joined`: the tokens of both.
* `Source.file_eq_ok_iff`: a file is read alike however much fuel is given beyond its tokens.
* `Source.file_joined` is the main result.
-/

namespace QualityRules

variable {a b : String} {us : List Token} {last : Token}

/-- The two texts with an empty line between them. -/
def joined (a b : String) : String := a ++ "\n\n" ++ b

/-- How far a text moves behind another one and an empty line. -/
def Offset.below (source : String) : Offset :=
  ⟨source.length + 2, source.toList.count '\n' + 2⟩

/-- The tokens of two texts with an empty line between them. -/
theorem lex_joined (h : lex a = us ++ [last]) (isEnd : last.kind = .eof) (b : String) :
    lex (joined a b) = us ++ shift (Offset.below a) (lex b) := by
  have text : joined a b = a ++ "\n" ++ ("" ++ "\n" ++ b) := by
    have blank : "\n\n" = "\n" ++ "\n" := by decide
    simp only [joined, blank, String.append_assoc, String.empty_append]
  have empty : lex "" = [] ++ [⟨.eof, "", ⟨0, 1, 1⟩, ⟨0, 1, 1⟩⟩] := by decide +kernel
  have offset : Offset.behind "" + Offset.behind a = Offset.below a := by
    change Offset.mk _ _ = Offset.mk _ _
    simp [Offset.behind]
    omega
  rw [text, lex_append_newline h isEnd, lex_append_newline empty rfl, List.nil_append, ← offset]
  exact congrArg (us ++ ·) ((List.map_map).trans (List.map_congr_left fun t _ =>
    Token.shift_shift t _ _))

/-- What comes out of two texts with an empty line between them. -/
theorem ofTokens_joined (h : lex a = us ++ [last]) (isEnd : last.kind = .eof)
    (others : ∀ u ∈ us, u.kind.isTerminal = false) (b : String) :
    Row.ofTokens (lex (joined a b))
      = Row.behind us (shift (Offset.below a) (Row.ofTokens (lex b))) := by
  rw [lex_joined h isEnd b, Row.ofTokens_append others, Row.shift_ofTokens]

/-- The second text starts further down than on the line below the first one. -/
theorem start_below {t u : Token} (upper : u ∈ lex a) (lower : t ∈ lex b) :
    u.start.line + 1 < (shift (Offset.below a) t).start.line := by
  have up := (line_start_of_mem_lex upper).2
  have down := (line_start_of_mem_lex lower).1
  change u.start.line + 1 < t.start.line + ((a.toList.count '\n' + 2 : Nat) : Int)
  omega

namespace Row

variable {ts : List Token} {n : Nat} {r : Row} {o : Offset}

/-- What is left of a row moves as the row does. -/
theorem Remains.shift (h : r.Remains ts n) :
    Remains (QualityRules.shift o ts) n (QualityRules.shift o r) := by
  induction h with
  | ending mem terminal =>
    rw [shift_ending]
    exact .ending (List.mem_map_of_mem mem) terminal
  | cons mem going _ ih =>
    rw [shift_cons]
    exact .cons (List.mem_map_of_mem mem) going ih

end Row

/-- The first of some rulesets starts before the end of the text. -/
theorem Read.rulesetsLoop_first {fuel n : Nat} {k l : Tray} {r s : Row} {all : List Ruleset}
    (g : (rulesetsLoop fuel n []).Gives k r all l s) (final : r.Final) :
    ∃ t q, r = Row.cons t q ∧ t.kind ≠ .eof := by
  cases n with
  | zero => exact absurd g Reading.not_gives_fail
  | succ n =>
    obtain ⟨x, k', t, q, read, -⟩ | ⟨none, -⟩ := rulesetsLoop_gives.mp g
    · obtain ⟨us, some, going, rfl, -⟩ := ruleset_turn read final
      cases us with
      | nil => exact absurd rfl some
      | cons u us => exact ⟨u, _, rfl, going u List.mem_cons_self⟩
    · exact absurd rfl none

/-- The tokens of a text of rulesets: those of the rulesets, the comments behind them and the end of
the text. -/
theorem Read.Resumes.lex_eq {fuel : Nat} {before all : List Ruleset} {k l w : Tray}
    {cs : List Token} (h : Resumes fuel before all k (Row.ofTokens (lex a)) l us cs w) :
    ∃ e, lex a = us ++ cs ++ [e] ∧ e.kind = .eof ∧ ∀ u ∈ us ++ cs, u.kind.isTerminal = false := by
  obtain ⟨ts, last, eq, others, terminal⟩ := QualityRules.lex_eq a
  obtain ⟨e, q, row, isEnd⟩ := h.row
  have whole : Row.behind ts (Row.ending last) = Row.behind (us ++ cs ++ [e]) q := by
    rw [← Row.ofTokens_eq others terminal, ← eq, row, Row.behind_append (us ++ cs)]
    rfl
  have going : ∀ u ∈ us ++ cs, u.kind ≠ .eof :=
    List.forall_mem_append.mpr ⟨h.going, fun u mem => by simp [h.comments u mem]⟩
  have same := Row.eq_of_behind others terminal whole isEnd
    fun u mem => going u (List.mem_of_getLast? mem)
  obtain ⟨rfl, -⟩ := List.append_inj' same rfl
  exact ⟨e, eq.trans same, isEnd, others⟩

namespace Source

variable {source filename : String} {options options' options'' : Options} {f g : RuleFile}

/-- A file is read alike however much fuel is given beyond its tokens. -/
theorem file_eq_ok_iff {n : Nat} (enough : (lex source).length < n) :
    (file filename source options).result = .ok f ↔
      ∃ all k s, (Read.rulesetsLoop n n []).Gives Tray.empty (Row.ofTokens (lex source)) all k s ∧
        f = ⟨filename, k.floating, all⟩ := by
  -- a file that is seen as a tree is the same file
  have seen : ∀ {fuel : Nat} {k : Tray} {s : Row}, ((Entry.file filename).reader fuel).Gives
      Tray.empty (Row.ofTokens (lex source)) (.file f) k s ↔
        (Read.file fuel filename).Gives Tray.empty (Row.ofTokens (lex source)) f k s := by
    intro fuel k s
    simp only [Entry.reader, ParseRules.gives_bind, ParseRules.gives_pure]
    constructor
    · rintro ⟨g, l, q, read, same, rfl, rfl⟩
      obtain rfl := Node.file.inj same
      exact read
    · exact fun read => ⟨f, k, s, read, rfl, rfl, rfl⟩
  have same := ((Entry.file filename).exists_gives_iff source (le_refl _) (.file f)).trans
    ((Entry.file filename).exists_gives_iff source enough _).symm
  rw [result_file, session_eq_ok_iff, ← exists_congr fun k => exists_congr fun s => seen, same]
  simp only [seen, Read.file_gives]
  constructor
  · rintro ⟨k, s, all, read, eq⟩
    exact ⟨all, k, s, read, eq⟩
  · rintro ⟨all, k, s, read, eq⟩
    exact ⟨k, s, all, read, eq⟩

/-- **Two files with an empty line between them are one file**: the groups that float and the
rulesets of the first one, and those of the second one as far down as its text. -/
theorem file_joined (h : (file filename a options).result = .ok f)
    (h' : (file filename b options').result = .ok g) :
    (file filename (joined a b) options'').result = .ok ⟨filename,
      f.commentGroups ++ shift (Offset.below a) g.commentGroups,
      f.rulesets ++ shift (Offset.below a) g.rulesets⟩ := by
  generalize size : (lex b).length + 1 = n at *
  generalize total : (lex a).length + n = m at *
  have small : (lex b).length < n := by omega
  have large : (lex a).length < m := by omega
  obtain ⟨all, k, s, read, rfl⟩ := (file_eq_ok_iff large).mp h
  obtain ⟨all', k', s', read', rfl⟩ := (file_eq_ok_iff small).mp h'
  obtain ⟨us, cs, ⟨floating, run⟩, resumes⟩ :=
    Read.rulesetsLoop_resumes (Row.Remains.of_lex a) read
  obtain rfl : run = [] := resumes.run
  obtain ⟨e, tokens, isEnd, others⟩ := resumes.lex_eq
  -- the second file, further down
  obtain ⟨t, q, row, going⟩ := Read.rulesetsLoop_first read' (Row.Remains.of_lex b).final
  have remains := (Row.Remains.of_lex b).shift (o := Offset.below a)
  have moved := (Read.follows_rulesetsLoop (o := Offset.below a) (le_refl n) (le_refl n) []).gives
    (Row.Remains.of_lex b).regular read'
  have mem : t ∈ lex b := (row ▸ Row.Remains.of_lex b).mem
  have below : ∀ u ∈ us ++ cs, u.start.line + 1 < (shift (Offset.below a) t).start.line :=
    fun u inside => start_below (tokens ▸ List.mem_append_left _ inside) mem
  have one := ofTokens_joined tokens isEnd others b
  rw [row, Row.shift_cons] at moved remains one
  have few : n + cs.length ≤ m := by
    rw [← total, tokens]
    simp
    omega
  have behind := Read.rulesetsLoop_behind remains small resumes.comments
    (fun u inside => below u (List.mem_append_right _ inside)) few moved all floating
  have going' : (shift (Offset.below a) t).kind ≠ .eof := going
  obtain ⟨steps, whole⟩ := resumes.resume going' below behind
  -- nowhere further down, but with more fuel
  have more := (Read.follows_rulesetsLoop (o := 0) (Nat.le_max_left m steps)
    (Nat.le_max_right m steps) []).gives remains.regular.behind whole
  simp only [shift_zero] at more
  rw [← one] at more
  have enough : (lex (joined a b)).length < max m steps := by
    refine Nat.lt_of_lt_of_le ?_ (Nat.le_max_left m steps)
    rw [lex_joined tokens isEnd b, ← total, tokens]
    simp
    omega
  refine (file_eq_ok_iff enough).mpr ⟨_, _, _, more, ?_⟩
  rw [resumes.tray]
  rfl

/-- A ruleset with a comment that trails it and comments that do not. -/
def upperText : String := "# a\nRules = [A] # b\n          # c\n# d"

/-- A ruleset with its description. -/
def lowerText : String := "# e\nRules = [\n  B # f\n]"

/-- The tree of both is the tree of the first with that of the second moved below it. -/
theorem file_joined_upperText_lowerText : ∃ f g,
    (file "f" upperText Options.default).result = .ok f ∧
    (file "f" lowerText Options.default).result = .ok g ∧
    (file "f" (joined upperText lowerText) Options.default).result = .ok ⟨"f",
      f.commentGroups ++ shift (Offset.below upperText) g.commentGroups,
      f.rulesets ++ shift (Offset.below upperText) g.rulesets⟩ := by
  obtain ⟨f, upper, -⟩ : ∃ f, (file "f" upperText Options.default).result = .ok f ∧ True :=
    Outcome.exists_ok (by decide +kernel)
  obtain ⟨g, lower, -⟩ : ∃ g, (file "f" lowerText Options.default).result = .ok g ∧ True :=
    Outcome.exists_ok (by decide +kernel)
  exact ⟨f, g, upper, lower, file_joined upper lower⟩

end Source

end QualityRules
