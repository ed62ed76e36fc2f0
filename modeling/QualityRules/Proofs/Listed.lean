import QualityRules.Listing.Command
import QualityRules.Proofs.Lines
import QualityRules.Proofs.Unquoted

/-!
# Proofs — Listed

Tokens are listed one to a line, and a list of lines tells the tokens.  No line holds a character
that any convention takes for the end of a line; and the fields of a line are apart, for a blank ends
the name of a kind and a place, and a text in quotes tells where it ends.

* `LineEnds.split`: the lines of a text under some convention.
* `Token.LineForEach`: a text has one line for each of some tokens, under all conventions.
* `Token.listLine_inj` and `Token.dumpLine_inj`: a line tells the kind, the text and the places of a
  token (`Token.shown`).
* `Token.listed_lex` is the main result; `Command.perform_lists` and `Command.perform_tells` say the
  same of the files that the command reads and writes.
-/

namespace QualityRules

/-! ### Lines -/

namespace LineEnds

/-- The lines of a text where the characters that `breaks` says end a line.  A carriage return and a
line feed right behind it are one end, and there is no line behind the last end. -/
def split (breaks : Char → Bool) (text : String) : List String :=
  let cs := if breaks '\r' then unify text.toList else text.toList
  let ls := cs.splitOnP breaks
  (if ls.getLast? = some [] then ls.dropLast else ls).map String.ofList

variable {breaks : Char → Bool}

/-- Lines that hold no break and are each closed by a line feed are the pieces of the text. -/
theorem splitOnP_flatMap (feed : breaks '\n') {ls : List (List Char)}
    (whole : ∀ l ∈ ls, ∀ c ∈ l, breaks c = false) :
    (ls.flatMap (· ++ ['\n'])).splitOnP breaks = ls ++ [[]] := by
  induction ls with
  | nil => exact List.splitOnP_nil
  | cons l ls ih =>
    obtain ⟨here, rest⟩ := List.forall_mem_cons.mp whole
    rw [List.flatMap_cons, List.append_assoc, List.singleton_append,
      List.splitOnP_append_cons_of_forall_mem here '\n' feed, ih rest, List.cons_append]

/-- Lines that are each closed by a line feed are the lines of the text that they make. -/
theorem split_unlines (feed : breaks '\n') {ls : List String}
    (whole : ∀ l ∈ ls, ∀ c ∈ l.toList, breaks c = false) :
    split breaks (Token.unlines ls) = ls := by
  have chars : (Token.unlines ls).toList = (ls.map String.toList).flatMap (· ++ ['\n']) := by
    rw [Token.unlines, String.toList_join, List.flatMap_map, List.flatMap_map]
    simp only [String.toList_append]
    rfl
  have unified : (if breaks '\r' then unify (Token.unlines ls).toList
      else (Token.unlines ls).toList) = (Token.unlines ls).toList := by
    split
    · next back =>
      refine unify_of_no_return _ fun mem => ?_
      rw [chars, List.mem_flatMap] at mem
      obtain ⟨_, line, mem⟩ := mem
      obtain ⟨s, among, rfl⟩ := List.mem_map.mp line
      have inside : '\r' ∈ s.toList := by simpa using mem
      exact Bool.false_ne_true ((whole s among _ inside).symm.trans back)
    · rfl
  have pieces : (Token.unlines ls).toList.splitOnP breaks = ls.map String.toList ++ [[]] := by
    rw [chars]
    refine splitOnP_flatMap feed fun _ line => ?_
    obtain ⟨s, among, rfl⟩ := List.mem_map.mp line
    exact whole s among
  simp only [split, unified, pieces, List.getLast?_concat, if_true, List.dropLast_concat,
    List.map_map]
  simp [Function.comp_def]

end LineEnds

/-! ### Fields -/

/-- Where a character stands for the first time, what is before it can be told, and what is behind
it. -/
theorem delimited_inj {a : Char} {xs ys zs ws : List Char} (hx : a ∉ xs) (hy : a ∉ ys)
    (eq : xs ++ a :: zs = ys ++ a :: ws) : xs = ys ∧ zs = ws := by
  induction xs generalizing ys with
  | nil =>
    cases ys with
    | nil => exact ⟨rfl, (List.cons.inj eq).2⟩
    | cons y ys =>
      obtain ⟨rfl, -⟩ := List.cons.inj eq
      exact absurd List.mem_cons_self hy
  | cons x xs ih =>
    cases ys with
    | nil =>
      obtain ⟨rfl, -⟩ := List.cons.inj eq
      exact absurd List.mem_cons_self hx
    | cons y ys =>
      obtain ⟨rfl, rest⟩ := List.cons.inj eq
      obtain ⟨rfl, rfl⟩ := ih (fun mem => hx (List.mem_cons_of_mem _ mem))
        (fun mem => hy (List.mem_cons_of_mem _ mem)) rest
      exact ⟨rfl, rfl⟩

/-- All characters of a text have a visible form. -/
def Visible (s : String) : Prop := ∀ c ∈ s.toList, Printable.isPrintable c

namespace Visible

variable {s s' : String}

/-- A text of printable ASCII is visible. -/
theorem of_ascii (h : ∀ c ∈ s.toList, 0x20 ≤ c.toNat ∧ c.toNat ≤ 0x7E) : Visible s :=
  fun c mem => Printable.isPrintable_of_ascii (h c mem).1 (h c mem).2

theorem literal (h : s.toList.all fun c => 0x20 ≤ c.toNat ∧ c.toNat ≤ 0x7E) : Visible s :=
  of_ascii fun c mem => of_decide_eq_true (List.all_eq_true.mp h c mem)

/-- Two visible texts make one. -/
theorem append (h : Visible s) (h' : Visible s') : Visible (s ++ s') := by
  intro c mem
  rw [String.toList_append] at mem
  exact (List.mem_append.mp mem).elim (h c) (h' c)

/-- Whatever is quoted is visible. -/
theorem quoted (s : String) : Visible (Quoted.text s) := by
  intro c mem
  rw [Quoted.text, String.toList_ofList] at mem
  exact Quoted.isPrintable_of_mem_encode mem

end Visible

namespace Pos

variable {p q : Pos} {c : Char}

/-- A character that writes a place: a digit, a sign or a colon. -/
def Writes (c : Char) : Prop := c.isDigit ∨ c = '-' ∨ c = ':'

/-- What writes a place is printable ASCII and no blank. -/
theorem Writes.ascii (h : Writes c) : 0x20 < c.toNat ∧ c.toNat ≤ 0x7E := by
  rcases h with digit | rfl | rfl
  · obtain ⟨lo, hi⟩ := Char.isDigit_iff_toNat.mp digit
    exact ⟨lt_of_lt_of_le (by decide) lo, hi.trans (by decide)⟩
  · decide
  · decide

/-- A number is written in digits. -/
theorem isDigit_of_mem_nat {n : Nat} (mem : c ∈ (toString n).toList) : c.isDigit := by
  rw [Nat.toString_eq_repr, Nat.toList_repr] at mem
  exact Nat.isDigit_of_mem_toDigits (by decide) (by decide) mem

/-- An integer is written in digits, perhaps with a sign. -/
theorem writes_of_mem_int {z : Int} (mem : c ∈ (toString z).toList) : Writes c := by
  cases z with
  | ofNat n => exact .inl (isDigit_of_mem_nat mem)
  | negSucc n =>
    have sign : toString (Int.negSucc n) = "-" ++ toString (n + 1) := rfl
    rw [sign, String.toList_append, List.mem_append] at mem
    rcases mem with minus | digit
    · exact .inr (.inl (by simpa using minus))
    · exact .inl (isDigit_of_mem_nat digit)

/-- A place is written in digits, signs and colons. -/
theorem writes_of_mem_text (mem : c ∈ p.text.toList) : Writes c := by
  unfold text at mem
  split at mem
  · exact .inr (.inl (by simpa using mem))
  · split at mem
    · exact writes_of_mem_int mem
    · rw [String.toList_append, String.toList_append, List.mem_append, List.mem_append] at mem
      rcases mem with (line | colon) | column
      · exact writes_of_mem_int line
      · exact .inr (.inr (by simpa using colon))
      · exact writes_of_mem_int column

/-- What is written of a place is visible. -/
theorem visible_text (p : Pos) : Visible p.text :=
  .of_ascii fun _ mem => ⟨(writes_of_mem_text mem).ascii.1.le, (writes_of_mem_text mem).ascii.2⟩

/-- No blank is written of a place. -/
theorem blank_not_mem_text (p : Pos) : ' ' ∉ p.text.toList :=
  fun mem => absurd (writes_of_mem_text mem).ascii.1 (by decide)

/-- The place lies in a text, in a line and a column. -/
def Counted (p : Pos) : Prop := ∃ line column : Nat, p.line = line + 1 ∧ p.column = column + 1

/-- A place of a text is in a line and a column. -/
theorem Faithful.counted {source : String} (h : p.Faithful source) : p.Counted :=
  ⟨_, _, by rw [h.line, add_comm], by rw [h.column, add_comm]⟩

/-- Of a place in a text the line is written, a colon, and the column. -/
theorem Counted.toList_text {line column : Nat} (hl : p.line = line + 1)
    (hc : p.column = column + 1) :
    p.text.toList = Nat.toDigits 10 (line + 1) ++ ':' :: Nat.toDigits 10 (column + 1) := by
  have written : ∀ n : Nat, (toString ((n : Int) + 1)).toList = Nat.toDigits 10 (n + 1) := by
    intro n
    have same : toString ((n : Int) + 1) = toString (n + 1) := rfl
    rw [same, Nat.toString_eq_repr, Nat.toList_repr]
  have valid : ¬ (!p.isValid) = true := by simp only [isValid, hl]; simp
  have apart : p.column ≠ 0 := by omega
  rw [text, if_neg valid, if_neg apart, hl, hc, String.toList_append, String.toList_append,
    written, written, List.append_assoc]
  rfl

/-- Places in a text are told by what is written of them. -/
theorem Counted.text_inj (hp : p.Counted) (hq : q.Counted) (eq : p.text = q.text) :
    p.line = q.line ∧ p.column = q.column := by
  obtain ⟨l, c, pl, pc⟩ := hp
  obtain ⟨l', c', ql, qc⟩ := hq
  have colon : ∀ n : Nat, ':' ∉ Nat.toDigits 10 n := fun n mem =>
    absurd (Nat.isDigit_of_mem_toDigits (by decide) (by decide) mem) (by decide)
  have number : ∀ m n : Nat, Nat.toDigits 10 m = Nat.toDigits 10 n → m = n := by
    intro m n same
    have read := congrArg (Nat.ofDigitChars 10 · 0) same
    simpa only [Nat.ofDigitChars_toDigits (b := 10) (by decide) (by decide)] using read
  have chars := congrArg String.toList eq
  rw [toList_text pl pc, toList_text ql qc] at chars
  obtain ⟨line, column⟩ := delimited_inj (colon _) (colon _) chars
  rw [pl, ql, pc, qc]
  exact ⟨congrArg Nat.cast (number _ _ line), congrArg Nat.cast (number _ _ column)⟩

end Pos

namespace Kind

variable {c : Char}

/-- The name of a kind is printable ASCII without blanks. -/
theorem ascii_of_mem_name (k : Kind) : ∀ c ∈ k.name.toList, 0x20 < c.toNat ∧ c.toNat ≤ 0x7E := by
  have ascii : k.name.toList.all fun c => 0x20 < c.toNat ∧ c.toNat ≤ 0x7E := by cases k <;> decide
  exact fun c mem => of_decide_eq_true (List.all_eq_true.mp ascii c mem)

theorem visible_name (k : Kind) : Visible k.name :=
  .of_ascii fun c mem => ⟨(k.ascii_of_mem_name c mem).1.le, (k.ascii_of_mem_name c mem).2⟩

theorem blank_not_mem_name (k : Kind) : ' ' ∉ k.name.toList :=
  fun mem => absurd (k.ascii_of_mem_name _ mem).1 (by decide)

/-- A kind is told by its name. -/
theorem name_inj {k k' : Kind} (eq : k.name = k'.name) : k = k' := by
  have read := congrArg ofName eq
  simpa only [ofName_name, Except.ok.injEq] using read

end Kind

namespace Token

variable {t u : Token} {n : Nat}

/-- What a line shows of a token. -/
def shown (t : Token) : Kind × String × (Int × Int) × (Int × Int) :=
  (t.kind, t.text, (t.start.line, t.start.column), (t.stop.line, t.stop.column))

theorem visible_number (n : Nat) : Visible (toString n) :=
  .of_ascii fun _ mem =>
    have ascii := Pos.Writes.ascii (.inl (Pos.isDigit_of_mem_nat mem))
    ⟨ascii.1.le, ascii.2⟩

/-- The places of a token are visible. -/
theorem visible_span (t : Token) : Visible t.span := by
  have start : Visible "start=" := .literal (by decide)
  have stop : Visible " end=" := .literal (by decide)
  exact ((start.append t.start.visible_text).append stop).append t.stop.visible_text

/-- A line of a listing is visible. -/
theorem visible_listLine (n : Nat) (t : Token) : Visible (listLine n t) := by
  have opening : Visible "[" := .literal (by decide)
  have kind : Visible "] kind=" := .literal (by decide)
  have text : Visible " text=" := .literal (by decide)
  have blank : Visible " " := .literal (by decide)
  have fault : Visible (if t.kind = .illegal then " error=True" else "") := by
    split <;> exact .literal (by decide)
  exact (((((((opening.append (visible_number n)).append kind).append t.kind.visible_name).append
    text).append (.quoted t.text)).append blank).append t.visible_span).append fault

/-- A line of a dump is visible. -/
theorem visible_dumpLine (n : Nat) (t : Token) : Visible (dumpLine n t) := by
  have number : Visible (paddedNumber 3 n) := by
    intro c mem
    rw [paddedNumber, String.toList_ofList] at mem
    rcases List.mem_append.mp mem with zero | digit
    · rw [List.eq_of_mem_replicate zero]
      exact Printable.isPrintable_of_ascii (by decide) (by decide)
    · refine visible_number n c ?_
      rwa [Nat.toString_eq_repr, Nat.toList_repr]
  have name : Visible (paddedWord 14 t.kind.name) := by
    intro c mem
    rw [paddedWord, String.toList_ofList] at mem
    rcases List.mem_append.mp mem with letter | pad
    · exact t.kind.visible_name c letter
    · rw [List.eq_of_mem_replicate pad]
      exact Printable.isPrintable_of_ascii (by decide) (by decide)
  have blank : Visible " " := .literal (by decide)
  have text : Visible " text=" := .literal (by decide)
  exact (((((number.append blank).append name).append blank).append t.visible_span).append
    text).append (.quoted t.text)

/-! ### What a line tells -/

/-- Where the place of a token is written with something behind, the place can be told, and what is
behind. -/
theorem span_inj {rest rest' : List Char} (ht : t.start.Counted) (hu : u.start.Counted)
    (eq : "start=".toList ++ (t.start.text.toList ++ ' ' :: rest)
      = "start=".toList ++ (u.start.text.toList ++ ' ' :: rest')) :
    (t.start.line = u.start.line ∧ t.start.column = u.start.column) ∧ rest = rest' := by
  rw [List.append_cancel_left_eq] at eq
  obtain ⟨start, rest⟩ := delimited_inj t.start.blank_not_mem_text u.start.blank_not_mem_text eq
  exact ⟨ht.text_inj hu (String.toList_inj.mp start), rest⟩

/-- The fields of a line of a listing. -/
theorem toList_listLine (n : Nat) (t : Token) : (listLine n t).toList =
    ("[" ++ toString n ++ "] kind=").toList ++ (t.kind.name.toList ++ ' ' :: ("text=".toList ++
      (Quoted.encode t.text.toList ++ (' ' :: ("start=".toList ++ (t.start.text.toList ++ ' ' ::
        ("end=".toList ++ (t.stop.text.toList ++
          (if t.kind = .illegal then " error=True" else "").toList)))))))) := by
  have text : " text=".toList = ' ' :: "text=".toList := rfl
  have stop : " end=".toList = ' ' :: "end=".toList := rfl
  simp only [listLine, span, Quoted.text, String.toList_append, String.toList_ofList, text, stop,
    List.append_assoc, List.cons_append]
  rfl

/-- The fields of a line of a dump. -/
theorem toList_dumpLine (n : Nat) (t : Token) : (dumpLine n t).toList =
    (paddedNumber 3 n ++ " ").toList ++ (t.kind.name.toList ++ ' ' ::
      (List.replicate (14 - t.kind.name.toList.length) ' ' ++ ("start=".toList ++
        (t.start.text.toList ++ ' ' :: ("end=".toList ++ (t.stop.text.toList ++ ' ' ::
          ("text=".toList ++ Quoted.encode t.text.toList))))))) := by
  have blanks : ∀ k (cs : List Char),
      List.replicate k ' ' ++ ' ' :: cs = ' ' :: (List.replicate k ' ' ++ cs) := by
    intro k cs
    rw [← List.cons_append, ← List.replicate_succ, List.replicate_succ', List.append_assoc]
    rfl
  have text : " text=".toList = ' ' :: "text=".toList := rfl
  have stop : " end=".toList = ' ' :: "end=".toList := rfl
  have blank : " ".toList = [' '] := rfl
  simp only [dumpLine, span, paddedWord, Quoted.text, String.toList_append, String.toList_ofList,
    List.rightpad, text, stop, blank, List.append_assoc, List.cons_append, List.nil_append, blanks]

variable (start : t.start.Counted) (stop : t.stop.Counted) (start' : u.start.Counted)
  (stop' : u.stop.Counted)

include start stop start' stop' in
/-- A line of a listing tells the token. -/
theorem listLine_inj (eq : listLine n t = listLine n u) : t.shown = u.shown := by
  have chars := congrArg String.toList eq
  rw [toList_listLine, toList_listLine, List.append_cancel_left_eq] at chars
  obtain ⟨name, chars⟩ := delimited_inj t.kind.blank_not_mem_name u.kind.blank_not_mem_name chars
  have kind := Kind.name_inj (String.toList_inj.mp name)
  rw [List.append_cancel_left_eq] at chars
  obtain ⟨text, chars⟩ := Quoted.encode_append_inj chars
  obtain ⟨starts, chars⟩ := span_inj start start' (List.cons.inj chars).2
  -- whether the line ends in a mark is told by the kind
  rw [List.append_cancel_left_eq, kind, List.append_cancel_right_eq] at chars
  obtain ⟨line, column⟩ := stop.text_inj stop' (String.toList_inj.mp chars)
  simp only [shown, kind, String.toList_inj.mp text, starts.1, starts.2, line, column]

include start stop start' stop' in
/-- A line of a dump tells the token. -/
theorem dumpLine_inj (eq : dumpLine n t = dumpLine n u) : t.shown = u.shown := by
  have chars := congrArg String.toList eq
  rw [toList_dumpLine, toList_dumpLine, List.append_cancel_left_eq] at chars
  obtain ⟨name, chars⟩ := delimited_inj t.kind.blank_not_mem_name u.kind.blank_not_mem_name chars
  have kind := Kind.name_inj (String.toList_inj.mp name)
  rw [kind, List.append_cancel_left_eq] at chars
  obtain ⟨starts, chars⟩ := span_inj start start' chars
  rw [List.append_cancel_left_eq] at chars
  obtain ⟨stops, chars⟩ := delimited_inj t.stop.blank_not_mem_text u.stop.blank_not_mem_text chars
  obtain ⟨line, column⟩ := stop.text_inj stop' (String.toList_inj.mp stops)
  rw [List.append_cancel_left_eq] at chars
  obtain ⟨text, -⟩ := Quoted.encode_append_inj (congrArg (· ++ []) chars)
  simp only [shown, kind, String.toList_inj.mp text, starts.1, starts.2, line, column]

/-! ### Lists of tokens -/

/-- The lines are those of the tokens, one by one. -/
theorem getElem?_lines (line : Nat → Token → String) (ts : List Token) (i : Nat) :
    (lines line ts)[i]? = ts[i]?.map (line i) := by
  simp only [lines, List.getElem?_map, List.getElem?_zipIdx, Option.map_map]
  cases ts[i]? <;> simp

/-- Under every convention for the ends of lines that knows the line feed, the text has one line for
each of the tokens, and each of these is the line of its token. -/
def LineForEach (line : Nat → Token → String) (ts : List Token) (text : String) : Prop :=
  ∀ breaks : Char → Bool, breaks '\n' → (∀ c, breaks c → Printable.breaksLine c) →
    (LineEnds.split breaks text).length = ts.length ∧
      ∀ i t, ts[i]? = some t → (LineEnds.split breaks text)[i]? = some (line i t)

variable {line : Nat → Token → String} {ts us : List Token}

/-- Lines in which nothing is hidden are the lines of the text that they make. -/
theorem split_lines {breaks : Char → Bool} (feed : breaks '\n')
    (known : ∀ c, breaks c → Printable.breaksLine c) (visible : ∀ n t, Visible (line n t))
    (ts : List Token) : LineEnds.split breaks (unlines (lines line ts)) = lines line ts := by
  refine LineEnds.split_unlines feed fun l mem c inside => ?_
  obtain ⟨⟨t, n⟩, -, rfl⟩ := List.mem_map.mp mem
  cases ends : breaks c with
  | false => rfl
  | true =>
    have hidden := Printable.not_isPrintable_of_breaksLine (known c ends)
    exact absurd (visible n t c inside) (by simp [hidden])

/-- Visible lines are lines for each of the tokens. -/
theorem lineForEach (visible : ∀ n t, Visible (line n t)) (ts : List Token) :
    LineForEach line ts (unlines (lines line ts)) := by
  intro breaks feed known
  rw [split_lines feed known visible]
  refine ⟨length_lines line ts, fun i t at_i => ?_⟩
  rw [getElem?_lines, at_i]
  rfl

/-- Lists of lines tell the tokens when lines do. -/
theorem map_shown_inj (visible : ∀ n t, Visible (line n t))
    (tells : ∀ n, ∀ t ∈ ts, ∀ u ∈ us, line n t = line n u → t.shown = u.shown)
    (eq : unlines (lines line ts) = unlines (lines line us)) : ts.map shown = us.map shown := by
  have known : ∀ c : Char, (c == '\n') = true → Printable.breaksLine c := by
    intro c feed
    rw [eq_of_beq feed]
    decide
  have same := congrArg (LineEnds.split (· == '\n')) eq
  rw [split_lines rfl known visible, split_lines rfl known visible] at same
  refine List.ext_getElem? fun i => ?_
  have here := congrArg (·[i]?) same
  simp only [getElem?_lines] at here
  rw [List.getElem?_map, List.getElem?_map]
  cases at_t : ts[i]? with
  | none =>
    cases at_u : us[i]? with
    | none => rfl
    | some u => simp [at_t, at_u] at here
  | some t =>
    cases at_u : us[i]? with
    | none => simp [at_t, at_u] at here
    | some u =>
      rw [at_t, at_u] at here
      exact congrArg some (tells i t (List.mem_of_getElem? at_t) u (List.mem_of_getElem? at_u)
        (Option.some.inj here))

variable {source source' : String}

/-- Two texts with the same listing have the same tokens, as far as these are shown. -/
theorem shown_of_listing (same : (Command.listing source).2 = (Command.listing source').2) :
    (lex source).map shown = (lex source').map shown :=
  map_shown_inj visible_listLine (fun _ _ ht _ hu =>
    listLine_inj (faithful_start_of_mem_lex ht).counted (faithful_stop_of_mem_lex ht).counted
      (faithful_start_of_mem_lex hu).counted (faithful_stop_of_mem_lex hu).counted) same

/-- Two texts with the same dump have the same tokens, as far as these are shown. -/
theorem shown_of_dump (same : dump (lex source) = dump (lex source')) :
    (lex source).map shown = (lex source').map shown :=
  map_shown_inj visible_dumpLine (fun _ _ ht _ hu =>
    dumpLine_inj (faithful_start_of_mem_lex ht).counted (faithful_stop_of_mem_lex ht).counted
      (faithful_start_of_mem_lex hu).counted (faithful_stop_of_mem_lex hu).counted) same

/-- **The tokens of a text are listed one to a line, and nothing that is shown of them is lost.**
Under every convention for the ends of lines that knows the line feed, a listing and a dump have one
line for each token; and two texts with the same listing, or the same dump, have tokens of the same
kinds and texts in the same places. -/
theorem listed_lex (source : String) :
    LineForEach listLine (lex source) (Command.listing source).2 ∧
    LineForEach dumpLine (lex source) (dump (lex source)) ∧
    ∀ source', (Command.listing source).2 = (Command.listing source').2 ∨
        dump (lex source) = dump (lex source') →
      (lex source).map shown = (lex source').map shown :=
  ⟨lineForEach visible_listLine _, lineForEach visible_dumpLine _,
    fun _ same => same.elim shown_of_listing shown_of_dump⟩

/-- A comment with both quotes, a backslash and a separator of lines, behind a blank or a tab. -/
def quotesText (gap : String) : String := "A" ++ gap ++ "# 'a' \"b\" \\ \u2028"

/-- What stands between the tokens is not listed, and the separator of lines makes no line. -/
theorem listed_lex_quotesText :
    (Command.listing (quotesText " ")).2 = (Command.listing (quotesText "\t")).2 ∧
    (lex (quotesText " ")).map shown = (lex (quotesText "\t")).map shown ∧
    (LineEnds.split Printable.breaksLine (Command.listing (quotesText " ")).2).length = 3 := by
  have same : (Command.listing (quotesText " ")).2 = (Command.listing (quotesText "\t")).2 := by
    decide +kernel
  obtain ⟨listing, -, tells⟩ := listed_lex (quotesText " ")
  have three : (lex (quotesText " ")).length = 3 := by decide +kernel
  refine ⟨same, tells _ (.inl same), ?_⟩
  exact (listing Printable.breaksLine (by decide) fun _ h => h).1.trans three

end Token

/-! ### Files -/

namespace Command

open Token (LineForEach listLine)

variable {t t' u u' : FileTree} {input input' output output' : Route} {bytes bytes' : ByteArray}
  {text text' line line' : String}

/-- **The command lists what a file holds, whatever its line ends are.**  When it succeeds the file
that it read holds a text, whose line ends are made one, and the file that it wrote then holds the
listing of that text: a line for each token, under every convention for the ends of lines that knows
the line feed. -/
theorem perform_lists (h : perform t input output = .ok (t', line)) :
    ∃ bytes text, t.read input = .ok bytes ∧ decode bytes = some text ∧ '\r' ∉ text.toList ∧
      t'.read output = .ok (listing text).2.toUTF8 ∧
      LineForEach listLine (lex text) (listing text).2 ∧
      line = report (lex text).length output := by
  obtain ⟨bytes, text, made, read, reads, -, write, rfl⟩ := perform_eq_ok.mp h
  exact ⟨bytes, text, read, reads, return_not_mem_of_decode reads, FileTree.read_of_write write,
    Token.lineForEach Token.visible_listLine _, rfl⟩

/-- Two files that were listed alike hold texts with the same tokens, as far as these are shown. -/
theorem perform_tells (h : perform t input output = .ok (t', line))
    (h' : perform u input' output' = .ok (u', line')) (same : t'.read output = u'.read output')
    (read : t.read input = .ok bytes) (reads : decode bytes = some text)
    (read' : u.read input' = .ok bytes') (reads' : decode bytes' = some text') :
    (lex text).map Token.shown = (lex text').map Token.shown := by
  obtain ⟨_, _, found, decoded, -, written, -⟩ := perform_lists h
  obtain ⟨_, _, found', decoded', -, written', -⟩ := perform_lists h'
  obtain rfl := Except.ok.inj (found.symm.trans read)
  obtain rfl := Except.ok.inj (found'.symm.trans read')
  obtain rfl := Option.some.inj (decoded.symm.trans reads)
  obtain rfl := Option.some.inj (decoded'.symm.trans reads')
  have listed := Except.ok.inj (written.symm.trans (same.trans written'))
  exact Token.shown_of_listing (String.toByteArray_inj.mp listed)

end Command

end QualityRules
