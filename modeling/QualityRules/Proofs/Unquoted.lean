import Mathlib.Data.Nat.Digits.Defs
import QualityRules.Text.Quoted

/-!
# Proofs — Unquoted

A text in quotes shows everything and can be read back.  What stands for a character tells by its
first one or two characters how far it goes, so that the quotes end where they seem to, whatever
comes behind them.

* `Quoted.unescape` reads one character back; `unescape_escape` says that it is the right one.
* `Quoted.encode_append_inj`: the text that stands in quotes can be told, and what is behind them.
* `Quoted.isPrintable_of_mem_encode`: nothing in it is hidden, so none of it ends a line.
-/

namespace QualityRules.Quoted

variable {c d m : Char} {cs ds rest rest' : List Char} {n w : Nat}

/-! ### Hexadecimal digits -/

/-- The value of a hexadecimal digit. -/
def digitValue (c : Char) : Nat :=
  if c.isDigit then c.toNat - '0'.toNat else c.toNat - 'a'.toNat + 10

/-- The number that hexadecimal digits write. -/
def value (cs : List Char) : Nat := cs.foldl (fun n c => 16 * n + digitValue c) 0

theorem digitValue_digitChar : ∀ k < 16, digitValue (Nat.digitChar k) = k := by decide

theorem value_append_singleton (cs : List Char) (c : Char) :
    value (cs ++ [c]) = 16 * value cs + digitValue c := by
  simp [value]

theorem value_toDigits (n : Nat) : value (Nat.toDigits 16 n) = n := by
  induction n using Nat.strongRecOn with
  | ind n ih =>
    by_cases small : n < 16
    · rw [Nat.toDigits_of_lt_base small]
      simpa [value] using digitValue_digitChar n small
    · have digit := digitValue_digitChar (n % 16) (Nat.mod_lt n (by decide))
      rw [Nat.toDigits_of_base_le (by decide) (by omega), value_append_singleton,
        ih (n / 16) (by omega), digit]
      omega

theorem value_hex (w n : Nat) : value (hex w n) = n := by
  have zeros : ∀ k, value (List.replicate k '0') = 0 := by
    intro k
    induction k with
    | zero => rfl
    | succ k ih => rw [List.replicate_succ', value_append_singleton, ih]; decide
  have start : (List.replicate (w - (Nat.toDigits 16 n).length) '0').foldl
      (fun n c => 16 * n + digitValue c) 0 = 0 := zeros _
  rw [hex, List.leftpad, value, List.foldl_append, start]
  exact value_toDigits n

theorem length_hex (pos : 0 < w) (fits : n < 16 ^ w) : (hex w n).length = w := by
  rw [hex, List.length_leftpad]
  exact Nat.max_eq_left (Nat.toDigits_length 16 n w pos fits)

/-- A digit is the digit of a number. -/
theorem exists_of_mem_toDigits (mem : c ∈ Nat.toDigits 16 n) : ∃ k < 16, c = Nat.digitChar k := by
  induction n using Nat.strongRecOn with
  | ind n ih =>
    by_cases small : n < 16
    · rw [Nat.toDigits_of_lt_base small, List.mem_singleton] at mem
      exact ⟨n, small, mem⟩
    · rw [Nat.toDigits_of_base_le (by decide) (by omega), List.mem_append,
        List.mem_singleton] at mem
      rcases mem with before | last
      · exact ih (n / 16) (by omega) before
      · exact ⟨n % 16, Nat.mod_lt n (by decide), last⟩

theorem isPrintable_of_mem_hex (mem : c ∈ hex w n) : Printable.isPrintable c := by
  have ascii : ∀ k < 16, 0x20 ≤ (Nat.digitChar k).toNat ∧ (Nat.digitChar k).toNat ≤ 0x7E := by
    decide
  obtain ⟨k, lt, rfl⟩ : ∃ k < 16, c = Nat.digitChar k := by
    rcases List.mem_append.mp mem with zero | digit
    · exact ⟨0, by decide, List.eq_of_mem_replicate zero⟩
    · exact exists_of_mem_toDigits digit
  exact Printable.isPrintable_of_ascii (ascii k lt).1 (ascii k lt).2

/-! ### One character -/

/-- How many digits follow a backslash and that letter, if any do. -/
def codeWidth? : Char → Option Nat
  | 'x' => some 2
  | 'u' => some 4
  | 'U' => some 8
  | _ => none

/-- The character that a backslash and one more stand for, where no digits follow. -/
def plain : Char → Char
  | 'n' => '\n'
  | 'r' => '\r'
  | 't' => '\t'
  | c => c

/-- Reads one character back, with what is behind it. -/
def unescape : List Char → Option (Char × List Char)
  | [] => none
  | ['\\'] => none
  | '\\' :: d :: cs =>
    match codeWidth? d with
    | some w => some (Char.ofNat (value (cs.take w)), cs.drop w)
    | none => some (plain d, cs)
  | c :: cs => some (c, cs)

theorem unescape_of_ne (h : c ≠ '\\') (cs : List Char) : unescape (c :: cs) = some (c, cs) := by
  unfold unescape
  split <;> simp_all

theorem unescape_code (width : codeWidth? d = some w) (pos : 0 < w) (fits : n < 16 ^ w)
    (rest : List Char) :
    unescape ('\\' :: d :: hex w n ++ rest) = some (Char.ofNat n, rest) := by
  have length := length_hex pos fits
  have first : (hex w n ++ rest).take w = hex w n := List.take_left' length
  have behind : (hex w n ++ rest).drop w = rest := List.drop_left' length
  simp only [unescape, List.cons_append, width, first, behind, value_hex]

/-- A character stands for itself, or a backslash and one more character stand for it, or digits of
its code behind both. -/
theorem escape_cases (is_mark : m = '\x27' ∨ m = '"') (c : Char) :
    (c ≠ '\\' ∧ c ≠ m ∧ Printable.isPrintable c ∧ escape m c = [c]) ∨
    (∃ d, codeWidth? d = none ∧ plain d = c ∧ Printable.isPrintable d ∧
      escape m c = ['\\', d]) ∨
    ∃ d w, codeWidth? d = some w ∧ 0 < w ∧ c.toNat < 16 ^ w ∧ Printable.isPrintable d ∧
      escape m c = '\\' :: d :: hex w c.toNat := by
  have visible : ∀ d : Char, 0x20 ≤ d.toNat → d.toNat ≤ 0x7E → Printable.isPrintable d :=
    fun d => Printable.isPrintable_of_ascii
  unfold escape
  split_ifs with itself feed back tab shown
  · right; left
    rcases itself with rfl | rfl
    · rcases is_mark with rfl | rfl <;>
        exact ⟨_, rfl, rfl, visible _ (by decide) (by decide), rfl⟩
    · exact ⟨_, rfl, rfl, visible _ (by decide) (by decide), rfl⟩
  · exact .inr (.inl ⟨'n', rfl, feed.symm, visible _ (by decide) (by decide), rfl⟩)
  · exact .inr (.inl ⟨'r', rfl, back.symm, visible _ (by decide) (by decide), rfl⟩)
  · exact .inr (.inl ⟨'t', rfl, tab.symm, visible _ (by decide) (by decide), rfl⟩)
  · exact .inl ⟨fun eq => itself (.inr eq), fun eq => itself (.inl eq), shown, rfl⟩
  · right; right
    unfold escapeCode
    split_ifs with two four
    · exact ⟨'x', 2, rfl, by decide, two, visible _ (by decide) (by decide), rfl⟩
    · exact ⟨'u', 4, rfl, by decide, four, visible _ (by decide) (by decide), rfl⟩
    · have code : c.toNat < 0x110000 := by
        rcases c.valid with low | ⟨-, high⟩
        · exact low.trans (by decide)
        · exact high
      exact ⟨'U', 8, rfl, by decide, by omega, visible _ (by decide) (by decide), rfl⟩

/-- What stands for a character is read back, whatever is behind it. -/
theorem unescape_escape (is_mark : m = '\x27' ∨ m = '"') (c : Char) (rest : List Char) :
    unescape (escape m c ++ rest) = some (c, rest) := by
  rcases escape_cases is_mark c with ⟨other, -, -, eq⟩ | ⟨d, short, rfl, -, eq⟩ |
    ⟨d, w, width, pos, fits, -, eq⟩ <;> rw [eq]
  · exact unescape_of_ne other rest
  · simp only [List.cons_append, List.nil_append, unescape, short]
  · rw [unescape_code width pos fits, Char.ofNat_toNat]

/-- What stands for a character inside a mark does not start with that mark. -/
theorem escape_ne_mark (is_mark : m = '\x27' ∨ m = '"') (c : Char) :
    ∃ d ds, escape m c = d :: ds ∧ d ≠ m := by
  have back : '\\' ≠ m := by rcases is_mark with rfl | rfl <;> decide
  rcases escape_cases is_mark c with ⟨-, other, -, eq⟩ | ⟨d, -, -, -, eq⟩ | ⟨d, w, -, -, -, -, eq⟩
  · exact ⟨_, _, eq, other⟩
  · exact ⟨_, _, eq, back⟩
  · exact ⟨_, _, eq, back⟩

theorem isPrintable_of_mem_escape (is_mark : m = '\x27' ∨ m = '"') (mem : d ∈ escape m c) :
    Printable.isPrintable d := by
  have back : Printable.isPrintable '\\' := Printable.isPrintable_of_ascii (by decide) (by decide)
  rcases escape_cases is_mark c with ⟨-, -, shown, eq⟩ | ⟨x, -, -, shown, eq⟩ |
    ⟨x, w, -, -, -, shown, eq⟩ <;> rw [eq] at mem
  · obtain rfl := List.mem_singleton.mp mem
    exact shown
  · simp only [List.mem_cons, List.not_mem_nil, or_false] at mem
    rcases mem with rfl | rfl
    · exact back
    · exact shown
  · rcases List.mem_cons.mp mem with rfl | mem
    · exact back
    · rcases List.mem_cons.mp mem with rfl | digit
      · exact shown
      · exact isPrintable_of_mem_hex digit

/-! ### Whole texts -/

/-- Where a text is written up to a mark, the text can be told, and what is behind the mark. -/
theorem flatMap_escape_inj (is_mark : m = '\x27' ∨ m = '"')
    (eq : cs.flatMap (escape m) ++ m :: rest = ds.flatMap (escape m) ++ m :: rest') :
    cs = ds ∧ rest = rest' := by
  induction cs generalizing ds with
  | nil =>
    cases ds with
    | nil => exact ⟨rfl, (List.cons.inj eq).2⟩
    | cons d ds =>
      obtain ⟨x, xs, first, other⟩ := escape_ne_mark is_mark d
      rw [List.flatMap_cons, first] at eq
      exact absurd (List.cons.inj eq).1.symm other
  | cons c cs ih =>
    cases ds with
    | nil =>
      obtain ⟨x, xs, first, other⟩ := escape_ne_mark is_mark c
      rw [List.flatMap_cons, first] at eq
      exact absurd (List.cons.inj eq).1 other
    | cons d ds =>
      simp only [List.flatMap_cons, List.append_assoc] at eq
      have same := congrArg unescape eq
      rw [unescape_escape is_mark, unescape_escape is_mark] at same
      obtain ⟨rfl, rest⟩ := Prod.mk.inj (Option.some.inj same)
      obtain ⟨rfl, rfl⟩ := ih rest
      exact ⟨rfl, rfl⟩

/-- Where a text stands in quotes, the text can be told, and what is behind the quotes. -/
theorem encode_append_inj (eq : encode cs ++ rest = encode ds ++ rest') : cs = ds ∧ rest = rest' := by
  simp only [encode_eq, List.cons_append, List.append_assoc, List.cons.injEq] at eq
  obtain ⟨same, eq⟩ := eq
  rw [← same] at eq
  exact flatMap_escape_inj (mark_cases cs) (by simpa using eq)

/-- Nothing is hidden in a text in quotes. -/
theorem isPrintable_of_mem_encode (mem : d ∈ encode cs) : Printable.isPrintable d := by
  have visible : Printable.isPrintable (mark cs) := by
    rcases mark_cases cs with eq | eq <;> rw [eq] <;>
      exact Printable.isPrintable_of_ascii (by decide) (by decide)
  rw [encode_eq, List.mem_append, List.mem_cons, List.mem_flatMap, List.mem_singleton] at mem
  rcases mem with (rfl | ⟨c, -, mem⟩) | rfl
  · exact visible
  · exact isPrintable_of_mem_escape (mark_cases cs) mem
  · exact visible

end QualityRules.Quoted
