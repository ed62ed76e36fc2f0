import QualityRules.Proofs.Finger
import QualityRules.Proofs.Joined
import QualityRules.Proofs.Tiling

/-!
# Proofs — Printed

Lexemes that are written down with a line break between each two are read again as they were.  No
lexeme depends on what stands behind a line break, though a string may hold some itself.

* `Spelling`: a kind with one of its texts; `Spelling.print` writes some of them down.
* `Kind.Spells.munch`: a text of a kind is the lexeme of that kind when nothing follows it, so it
  has one token and the end of the text, `lex_of_spells`.
* `lex_print`: what is printed is read again, and what is read can be printed.
* `lex_newline`: the tokens of two texts with a line break between them.
-/

namespace QualityRules

open Lexeme (isLetter)

/-- The kind of a token and its text. -/
def Token.label (t : Token) : Kind × String := (t.kind, t.text)

/-- A kind of token with one of its texts. -/
structure Spelling where
  kind : Kind
  text : String
  spells : kind.Spells text.toList

namespace Spelling

/-- The kind and the text. -/
def label (s : Spelling) : Kind × String := (s.kind, s.text)

/-- The texts with a line break between each two. -/
def print (ss : List Spelling) : String := "\n".intercalate (ss.map Spelling.text)

end Spelling

/-! ### A text of a kind by itself -/

variable {L : List Char → Prop} {text : List Char} {k : Kind} {a b source : String}

/-- Nothing is longer than all that is there. -/
theorem Longest.of_mem (mem : L text) : Longest L text [] :=
  ⟨mem, fun _ _ head => by simpa using head.length_le⟩

namespace Kind

/-- A keyword is a word of its kind. -/
theorem ofWord_of_mem_keywords {word : String} (h : (word, k) ∈ keywords) :
    ofWord word = k ∧ IsWord word.toList := by
  have all : keywords.all fun e =>
      ofWord e.1 = e.2 ∧ e.1.toList ≠ [] ∧ e.1.toList.all isLetter := by
    decide +kernel
  simpa [IsWord] using List.all_eq_true.mp all _ h

/-- A keyword is the lexeme of its kind, unless parentheses have to follow it. -/
theorem munch_of_mem_keywords {word : String} (h : (word, k) ∈ keywords) (other : word ≠ "now") :
    Munch k word.toList [] := by
  obtain ⟨kind, is⟩ := ofWord_of_mem_keywords h
  have munch := Munch.word (.of_mem is) (fun eq => other (String.toList_inj.mp eq))
  rwa [String.ofList_toList, kind] at munch

/-- A text of a kind is the lexeme of that kind when nothing follows it. -/
theorem Spells.munch (h : k.Spells text) : Munch k text [] := by
  have operator : ∀ {k : Kind}, (text, k) ∈ operators → Munch k text [] :=
    fun entry => .operator entry (.of_mem ⟨_, entry⟩)
  cases k with
  | illegal | eof => exact h.elim
  | ident =>
    obtain ⟨some, letters, name⟩ := h
    have other : text ≠ "now".toList := by
      rintro rfl
      cases name
    have munch := Munch.word (.of_mem ⟨some, letters⟩) other
    rwa [name] at munch
  | number => exact .number (.of_mem h) nofun
  | string => exact .string h
  | comment => exact .comment (.of_mem h)
  | kwNow =>
    obtain rfl : text = "now()".toList := h
    exact .now
  | kwBetween | kwAnd | kwOr | kwIn | kwMatches | kwDays | kwHours | kwWith | kwThreshold | kwTrue |
    kwFalse | kwRules =>
    rw [h]
    exact munch_of_mem_keywords (by decide) (by decide)
  | _ =>
    obtain rfl := h
    exact operator (by decide)

end Kind

/-- A text of a kind has one token, and the end of the text. -/
theorem lex_of_spells (h : k.Spells source.toList) : ∃ start stop stop',
    lex source = [⟨k, source, start, stop⟩, ⟨.eof, "", stop, stop'⟩] := by
  have tokens : (Scanner.mk (source.toList ++ []) Pos.origin false).tokens = _ :=
    Scanner.tokens_of_munch h.munch
  rw [List.append_nil, String.ofList_toList] at tokens
  exact ⟨_, _, _, tokens⟩

/-! ### Printed lexemes -/

/-- What is printed is read again. -/
theorem Spelling.label_lex_print (ss : List Spelling) :
    (lex (print ss)).map Token.label = ss.map Spelling.label ++ [(.eof, "")] := by
  -- the first lexeme comes to the end of its text, so the break lets go of the others
  induction ss with
  | nil => rfl
  | cons s ss ih =>
    obtain ⟨start, stop, stop', first⟩ := lex_of_spells s.spells
    cases ss with
    | nil =>
      have only : print [s] = s.text := by simp [print]
      rw [only, first]
      rfl
    | cons s' ss =>
      have lines : print (s :: s' :: ss) = s.text ++ "\n" ++ print (s' :: ss) := by simp [print]
      have labels (o : Offset) (ts : List Token) :
          (shift o ts).map Token.label = ts.map Token.label := List.map_map
      have first : lex s.text =
          [⟨s.kind, s.text, start, stop⟩] ++ [⟨.eof, "", stop, stop'⟩] := first
      rw [lines, lex_append_newline first rfl, List.map_append, labels, ih]
      rfl

/-- The end of a text has no text. -/
theorem text_of_eof {t : Token} (mem : t ∈ lex source) (isEnd : t.kind = .eof) : t.text = "" := by
  suffices all : ∀ s : Scanner, ∀ t ∈ s.tokens, t.kind = .eof → t.text = "" from all _ t mem isEnd
  intro s
  induction s using Scanner.induct with
  | finished s f =>
    rw [Scanner.tokens_of_finished f]
    exact List.forall_mem_nil _
  | scan s f ih =>
    rw [Scanner.tokens_of_not_finished f]
    exact List.forall_mem_cons.mpr ⟨fun isEnd => (Scanner.scan_eof isEnd).2.1, ih⟩

/-- The tokens of a text that comes to its end, before that, are spelled like their kinds. -/
theorem exists_spellings (h : ∀ t ∈ lex source, t.kind ≠ .illegal) : ∃ ss : List Spelling,
    (lex source).dropLast.map Token.label = ss.map Spelling.label ∧
      (lex source).map Token.label = ss.map Spelling.label ++ [(.eof, "")] := by
  obtain ⟨us, last, eq, others, terminal⟩ := lex_eq source
  have spelled : ∀ t ∈ us, t.kind.Spells t.text.toList := fun t mem =>
    spells_of_mem_lex (eq ▸ List.mem_append_left [last] mem) (others t mem)
  have mem : last ∈ lex source := by simp [eq]
  have isEnd : last.kind = .eof := Kind.eq_eof terminal (h last mem)
  have ending : last.label = (.eof, "") := by rw [Token.label, isEnd, text_of_eof mem isEnd]
  let spell (t : Token) (spells : t.kind.Spells t.text.toList) : Spelling := ⟨_, _, spells⟩
  have labels : us.map Token.label = (us.pmap spell spelled).map Spelling.label := by
    rw [List.map_pmap]
    exact (List.pmap_eq_map spelled).symm
  refine ⟨us.pmap spell spelled, ?_, ?_⟩
  · rw [eq, List.dropLast_concat, labels]
  · rw [eq, List.map_append, labels, List.map_singleton, ending]

/-- **Lexemes that are printed are read again**, each as a token with its kind and its text, and
then comes the end of the text.  And where no fault ends the tokens of a text, they are such
lexemes, so they are the same when they are printed with a line break between each two. -/
theorem lex_print :
    (∀ ss : List Spelling,
      (lex (Spelling.print ss)).map Token.label = ss.map Spelling.label ++ [(.eof, "")]) ∧
    ∀ source, (∀ t ∈ lex source, t.kind ≠ .illegal) →
      (∃ ss : List Spelling,
        (lex source).map Token.label = ss.map Spelling.label ++ [(.eof, "")]) ∧
      (lex ("\n".intercalate ((lex source).dropLast.map Token.text))).map Token.label
        = (lex source).map Token.label := by
  refine ⟨Spelling.label_lex_print, fun source sound => ?_⟩
  obtain ⟨ss, others, all⟩ := exists_spellings sound
  have texts : (lex source).dropLast.map Token.text = ss.map Spelling.text := by
    have seconds := congrArg (List.map Prod.snd) others
    rwa [List.map_map, List.map_map] at seconds
  have again := Spelling.label_lex_print ss
  rw [Spelling.print, ← texts, ← all] at again
  exact ⟨⟨ss, all⟩, again⟩

/-- A number with nothing behind its point, a string over two lines, a comment and a `now`. -/
def printedText : String := "A>=1.\"x\ny\"#now(\n\tnow()"

/-- Three operators with a line break between each two are read back. -/
theorem lex_print_printedText :
    (lex (Spelling.print [⟨.greater, ">", rfl⟩, ⟨.equal, "=", rfl⟩, ⟨.kwNow, "now()", rfl⟩])).map
        Token.label = [(.greater, ">"), (.equal, "="), (.kwNow, "now()"), (.eof, "")] ∧
      (∀ t ∈ lex printedText, t.kind ≠ .illegal) ∧
      (lex ("\n".intercalate ((lex printedText).dropLast.map Token.text))).map Token.label
        = (lex printedText).map Token.label := by
  have sound : ∀ t ∈ lex printedText, t.kind ≠ .illegal := by decide +kernel
  exact ⟨lex_print.1 _, sound, (lex_print.2 printedText sound).2⟩

/-! ### Two texts -/

/-- **The tokens of two texts with a line break between them**, if those of the first one come to
its end, are those of the first one without the end and those of the second one: as many characters
further on as the first text and the break have, as many lines further down, and in the same
columns.  A finger that moves over both texts gives no others. -/
theorem lex_newline (h : ∃ last ∈ (lex a).getLast?, last.kind = .eof) (b : String) :
    (lex (a ++ "\n" ++ b) = (lex a).dropLast ++ (lex b).map fun t => ⟨t.kind, t.text,
      ⟨t.start.index + (a.length + 1), t.start.line + (a.toList.count '\n' + 1), t.start.column⟩,
      ⟨t.stop.index + (a.length + 1), t.stop.line + (a.toList.count '\n' + 1), t.stop.column⟩⟩) ∧
    ∀ us vs, Finger.Gives (some .outside) (Finger.atStart a) us →
      Finger.Gives (some .outside) (Finger.atStart b) vs →
      Finger.Gives (some .outside) (Finger.atStart (a ++ "\n" ++ b))
        (us.dropLast ++ shift (Offset.behind a) vs) := by
  obtain ⟨last, mem, isEnd⟩ := h
  have split : lex a = (lex a).dropLast ++ [last] := (List.dropLast_append_getLast? last mem).symm
  have both := lex_append_newline split isEnd b
  refine ⟨both, fun us vs first second => ?_⟩
  rw [Finger.gives_iff] at first second ⊢
  rw [first, second, both]

/-- A text that ends with a number, and one that starts with a point. -/
def pointedTexts : String × String := ("a >\n1", ".5 \"b")

/-- A digit before the line break and a point behind it are not read together. -/
theorem lex_newline_pointedTexts :
    (∃ last ∈ (lex pointedTexts.1).getLast?, last.kind = .eof) ∧
      lex "a >\n1\n.5 \"b" = [⟨.ident, "a", ⟨0, 1, 1⟩, ⟨1, 1, 2⟩⟩,
        ⟨.greater, ">", ⟨2, 1, 3⟩, ⟨3, 1, 4⟩⟩, ⟨.number, "1", ⟨4, 2, 1⟩, ⟨5, 2, 2⟩⟩,
        ⟨.illegal, "unrecognized character: U+002E '.'", ⟨6, 3, 1⟩, ⟨7, 3, 2⟩⟩] := by
  have ends : ∃ last ∈ (lex pointedTexts.1).getLast?, last.kind = .eof := by decide +kernel
  exact ⟨ends, (lex_newline ends pointedTexts.2).1.trans (by decide +kernel)⟩

end QualityRules
