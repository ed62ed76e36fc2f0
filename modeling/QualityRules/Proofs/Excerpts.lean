import QualityRules.Proofs.Failures
import QualityRules.Proofs.Lines

/-!
# Proofs — Excerpts

What an excerpt shows of its text.  It is a stretch of one line, not longer than the width, and it
starts one character before its place.  Where that character is a line break the excerpt ends before
it has begun: of a place at the start of a line, the first line apart, it shows nothing.

* `Excerpt.Quotes`: what every excerpt is; `Excerpt.BehindBreak`: where it is empty.
* `Excerpt.shows_iff` is the main result, for places and for the reports on a text.
-/

namespace QualityRules

namespace Excerpt

variable {source : String} {pos : Pos} {width : Int} {c : Char}

/-- Some characters that stand together in the text, on one line and no more than the width of them,
and then nothing else or three dots. -/
def Quotes (source : String) (width : Int) (excerpt : String) : Prop :=
  ∃ body, body <:+: source.toList ∧ body.length ≤ width ∧ '\n' ∉ body ∧
    (excerpt.toList = body ∨ excerpt.toList = body ++ "...".toList)

/-- A line break stands right before the place. -/
def BehindBreak (source : String) (pos : Pos) : Prop :=
  0 < pos.index ∧ source.toList[pos.index - 1]? = some '\n'

instance : Decidable (BehindBreak source pos) := instDecidableAnd

/-- A clip that is no wider than the width starts as what it was taken from. -/
theorem clip_of_nonneg (h : 0 ≤ width) (cs : List Char) : clip width cs = cs.take width.toNat :=
  if_pos h

/-- The line of a place stands in the text. -/
theorem isInfix_line (source : String) (pos : Pos) : line source pos <:+: source.toList :=
  (List.takeWhile_prefix _).isInfix.trans (List.drop_suffix _ _).isInfix

/-- An excerpt is quoted from the text. -/
theorem near_quotes (source : String) (pos : Pos) (h : 0 ≤ width) :
    Quotes source width (near source pos width) := by
  have first : (line source pos).take width.toNat <+: line source pos := List.take_prefix _ _
  simp only [near]
  split
  · refine ⟨(line source pos).take width.toNat, first.isInfix.trans (isInfix_line source pos), ?_,
      fun mem => newline_not_mem_line source pos (first.subset mem), .inr ?_⟩
    · rw [List.length_take]
      omega
    · rw [clip_of_nonneg h, String.toList_append, String.toList_ofList]
  · exact ⟨line source pos, isInfix_line source pos, by omega, newline_not_mem_line source pos,
      .inl String.toList_ofList⟩

/-- The first characters of an excerpt are those of its line. -/
theorem getElem?_near {i : Nat} (h : (line source pos)[i]? = some c) (wide : i < width) :
    (near source pos width).toList[i]? = some c := by
  simp only [near]
  split
  · have inside : ((line source pos).take width.toNat)[i]? = some c := by
      rwa [List.getElem?_take_of_lt (by omega)]
    rw [clip_of_nonneg (by omega), String.toList_append, String.toList_ofList]
    exact List.getElem?_append_left (List.getElem?_eq_some_iff.mp inside).1 ▸ inside
  · rwa [String.toList_ofList]

/-- Without a line break before it, a place is on the line of its excerpt. -/
theorem getElem?_line (h : source.toList[pos.index]? = some c) (other : c ≠ '\n')
    (go : ¬BehindBreak source pos) : (line source pos)[min pos.index 1]? = some c := by
  obtain ⟨inside, is⟩ := List.getElem?_eq_some_iff.mp h
  have here : source.toList.drop pos.index = c :: source.toList.drop (pos.index + 1) := by
    rw [List.drop_eq_getElem_cons inside, is]
  by_cases first : pos.index = 0
  · have same : pos.index - 1 = pos.index := by omega
    rw [line, same, here, first]
    simp [other]
  · have before : pos.index - 1 < source.toList.length := by omega
    have shown : source.toList.drop (pos.index - 1)
        = source.toList[pos.index - 1] :: source.toList.drop pos.index := by
      rw [List.drop_eq_getElem_cons before, Nat.sub_add_cancel (by omega)]
    have goes : source.toList[pos.index - 1] ≠ '\n' := fun eq =>
      go ⟨by omega, by rw [List.getElem?_eq_getElem before, eq]⟩
    rw [line, shown, here, Nat.min_eq_right (by omega)]
    simp [goes, other]

/-- Right behind a line break the excerpt is empty. -/
theorem near_of_behindBreak (h : BehindBreak source pos) (wide : 0 ≤ width) :
    near source pos width = "" := by
  obtain ⟨-, at_⟩ := h
  obtain ⟨inside, is⟩ := List.getElem?_eq_some_iff.mp at_
  have none : line source pos = [] := by
    rw [line, List.drop_eq_getElem_cons inside, is]
    rfl
  simp [near, none, wide]

/-- An excerpt shows its place unless a line break is before it. -/
theorem near_shows_iff (h : source.toList[pos.index]? = some c) (other : c ≠ '\n')
    (wide : 2 ≤ width) :
    (near source pos width).toList[min pos.index 1]? = some c ↔ ¬BehindBreak source pos := by
  refine ⟨fun shown behind => ?_, fun go => getElem?_near (getElem?_line h other go) (by omega)⟩
  rw [near_of_behindBreak behind (by omega)] at shown
  cases shown

end Excerpt

/-! ### Reports -/

namespace Excerpt

/-- **An excerpt shows its place unless a line break stands right before it.**  Of a place in the
text that is no line break, an excerpt of two characters or more quotes one line; it has the
character at the place, behind the one before it, just if no line break is before the place, and
else it is empty.  A report is at a token, and of a token that is not the end of the text its
excerpt shows the first character on the same terms. -/
theorem shows_iff (source : String) :
    (∀ pos width c, source.toList[pos.index]? = some c → c ≠ '\n' → 2 ≤ width →
      Quotes source width (near source pos width) ∧
      ((near source pos width).toList[min pos.index 1]? = some c ↔ ¬BehindBreak source pos) ∧
      (BehindBreak source pos → near source pos width = "")) ∧
    ∀ (entry : Entry) (options : Options) (d : Diagnostic),
      entry.read source options = .error (.diagnostic d) → 2 ≤ options.snippetWidth →
      ∃ t ∈ lex source, d.pos = t.start ∧ (t.kind ≠ .eof →
        ∃ c, source.toList[t.start.index]? = some c ∧ c ≠ '\n' ∧
          (d.snippet.toList[min t.start.index 1]? = some c ↔ ¬BehindBreak source t.start) ∧
          (BehindBreak source t.start → d.snippet = "")) := by
  refine ⟨fun pos width c here other wide => ⟨near_quotes source pos (by omega),
    near_shows_iff here other wide, fun behind => near_of_behindBreak behind (by omega)⟩, ?_⟩
  intro entry options d fails wide
  have documented := entry.documented_read source options
  rw [fails] at documented
  cases documented with
  | @report t cause message mem filled =>
    refine ⟨t, mem, rfl, fun other => ?_⟩
    obtain ⟨c, here, blank⟩ := exists_char_of_mem_lex mem other
    have goes : c ≠ '\n' := by
      rintro rfl
      exact absurd blank (by decide)
    exact ⟨c, here, goes, near_shows_iff here goes wide,
      fun behind => near_of_behindBreak behind (by omega)⟩

/-- A rule with a bracket too many, on a line of its own and indented. -/
def indentedText : String := "A\n )"

/-- Where the bracket is indented the excerpt shows it. -/
theorem shows_iff_indentedText :
    Quotes indentedText 2 (near indentedText ⟨3, 2, 2⟩ 2) ∧
    (near indentedText ⟨3, 2, 2⟩ 2).toList[min 3 1]? = some ')' ∧
    ∃ d, Entry.rule.read indentedText Options.default = .error (.diagnostic d) ∧
      ∃ t ∈ lex indentedText, d.pos = t.start ∧ t.kind ≠ .eof ∧
        d.snippet.toList[min t.start.index 1]? = some ')' := by
  obtain ⟨places, reports⟩ := shows_iff indentedText
  obtain ⟨quotes, shown, -⟩ := places ⟨3, 2, 2⟩ 2 ')' (by decide +kernel) (by decide) (by decide)
  have fails : Entry.rule.read indentedText Options.default = .error (.diagnostic
      ⟨.unexpectedSymbol, "unexpected `)`", ⟨3, 2, 2⟩, " )"⟩) := by decide +kernel
  obtain ⟨t, mem, pos, first⟩ := reports .rule Options.default _ fails (by decide)
  have other : t.kind ≠ .eof := by
    clear first
    revert t
    decide +kernel
  obtain ⟨c, here, -, shows, -⟩ := first other
  rw [← pos] at here
  obtain rfl : c = ')' := by
    rw [show indentedText.toList[3]? = some ')' by decide +kernel] at here
    exact (Option.some.inj here).symm
  refine ⟨quotes, shown.mpr (by decide +kernel), _, fails, t, mem, pos, other, shows.mpr ?_⟩
  rw [← pos]
  decide +kernel

/-- The same rule with the bracket at the start of its line. -/
def outdentedText : String := "A\n)"

/-- Where the bracket starts its line the excerpt is empty. -/
theorem not_shows_outdentedText :
    outdentedText.toList[2]? = some ')' ∧
    (near outdentedText ⟨2, 2, 1⟩ 20).toList[min 2 1]? ≠ some ')' ∧
    Entry.rule.read outdentedText Options.default = .error (.diagnostic
      ⟨.unexpectedSymbol, "unexpected `)`", ⟨2, 2, 1⟩, ""⟩) ∧
    ∃ t ∈ lex outdentedText, t.kind = .rightParen ∧ t.start = ⟨2, 2, 1⟩ := by
  decide +kernel

end Excerpt

end QualityRules
