import QualityRules.Text.Printable

/-!
# Text — Quoted

A text in quotes, on one line and with nothing hidden.  The mark is the apostrophe, unless the text
holds an apostrophe and no double quote; then it is the double quote.  The mark and the backslash
are written after a backslash, line feed, carriage return and tab by their letters, any other
hidden character by its code point in two, four or eight hexadecimal digits.

* `encode_eq`: a quoted text opens and closes with its mark.
* `mark_eq_double_iff`: when the mark is the double quote.
-/

namespace QualityRules.Quoted

/-- `n` in lower-case hexadecimal digits, at least `width` of them. -/
def hex (width n : Nat) : List Char := (Nat.toDigits 16 n).leftpad width '0'

/-- `n` in upper-case hexadecimal digits, at least `width` of them. -/
def upperHex (width n : Nat) : List Char := (hex width n).map Char.toUpper

/-- The mark that goes around `cs`. -/
def mark (cs : List Char) : Char :=
  if '\x27' ∈ cs ∧ '"' ∉ cs then '"' else '\x27'

/-- A hidden character by its code point, with the shortest of the three forms that holds it. -/
def escapeCode (n : Nat) : List Char :=
  if n < 0x100 then '\\' :: 'x' :: hex 2 n
  else if n < 0x10000 then '\\' :: 'u' :: hex 4 n
  else '\\' :: 'U' :: hex 8 n

/-- The character `c` as it stands inside the mark `m`. -/
def escape (m c : Char) : List Char :=
  if c = m ∨ c = '\\' then ['\\', c]
  else if c = '\n' then ['\\', 'n']
  else if c = '\r' then ['\\', 'r']
  else if c = '\t' then ['\\', 't']
  else if Printable.isPrintable c then [c]
  else escapeCode c.toNat

/-- The characters `cs` in quotes. -/
def encode (cs : List Char) : List Char :=
  let m := mark cs
  m :: cs.flatMap (escape m) ++ [m]

/-- The text `s` in quotes. -/
def text (s : String) : String := String.ofList (encode s.toList)

/-- There are only two marks. -/
theorem mark_cases (cs : List Char) : mark cs = '\x27' ∨ mark cs = '"' := by
  unfold mark; split <;> simp

/-- A double quote goes around an apostrophe only. -/
theorem mark_eq_double_iff {cs : List Char} : mark cs = '"' ↔ '\x27' ∈ cs ∧ '"' ∉ cs := by
  unfold mark; split <;> simp_all

/-- The mark opens and closes what it goes around. -/
theorem encode_eq (cs : List Char) :
    encode cs = mark cs :: cs.flatMap (escape (mark cs)) ++ [mark cs] := rfl

end QualityRules.Quoted
