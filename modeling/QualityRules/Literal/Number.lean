import QualityRules.Literal.Decimal
import QualityRules.Tree.Parameter

/-!
# Literal — Number

The value of a number as it is written.  A text without a point is an integer, any other a
double-precision number.  Blanks may stand around a number and a sign before it; its digits may be
those of any script, and single underscores may stand between them.

* `Number.ofText` decodes a number; a text that is none, or an integer with more than
  `Number.maxDigits` digits, is refused.
* `Number.text` writes a number.
-/

namespace QualityRules

/-- The value of a number. -/
inductive Number where
  | integer (value : Int)
  /-- A double-precision number by its bits. -/
  | double (bits : Nat)
deriving DecidableEq

namespace Number

/-- The most digits that an integer may have, leading zeros counted. -/
def maxDigits : Nat := 4300

/-- The digit zero of each script that has digits (Unicode 15); the other nine follow it. -/
def zeros : List Nat :=
  [0x30, 0x660, 0x6F0, 0x7C0, 0x966, 0x9E6, 0xA66, 0xAE6, 0xB66, 0xBE6, 0xC66, 0xCE6, 0xD66,
    0xDE6, 0xE50, 0xED0, 0xF20, 0x1040, 0x1090, 0x17E0, 0x1810, 0x1946, 0x19D0, 0x1A80, 0x1A90,
    0x1B50, 0x1BB0, 0x1C40, 0x1C50, 0xA620, 0xA8D0, 0xA900, 0xA9D0, 0xA9F0, 0xAA50, 0xABF0,
    0xFF10, 0x104A0, 0x10D30, 0x11066, 0x110F0, 0x11136, 0x111D0, 0x112F0, 0x11450, 0x114D0,
    0x11650, 0x116C0, 0x11730, 0x118E0, 0x11950, 0x11C50, 0x11D50, 0x11DA0, 0x11F50, 0x16A60,
    0x16AC0, 0x16B50, 0x1D7CE, 0x1D7D8, 0x1D7E2, 0x1D7EC, 0x1D7F6, 0x1E140, 0x1E2F0, 0x1E4F0,
    0x1E950, 0x1FBF0]

/-- The digit that a character stands for. -/
def digit? (c : Char) : Option Nat :=
  (zeros.find? fun z => z ≤ c.toNat && c.toNat < z + 10).map fun z => c.toNat - z

/-- The blanks that may stand around a number. -/
def isBlank (c : Char) : Bool :=
  let n := c.toNat
  (0x09 ≤ n && n ≤ 0x0D) || n = 0x20 || n = 0x85 || n = 0xA0 || n = 0x1680 ||
    (0x2000 ≤ n && n ≤ 0x200A) || n = 0x2028 || n = 0x2029 || n = 0x202F || n = 0x205F ||
    n = 0x3000

/-- A text without the blanks around it. -/
def trim (cs : List Char) : List Char :=
  ((cs.dropWhile isBlank).reverse.dropWhile isBlank).reverse

/-- A sign and what follows it; without one the number is positive. -/
def signed : List Char → Bool × List Char
  | '-' :: rest => (true, rest)
  | '+' :: rest => (false, rest)
  | rest => (false, rest)

/-- The digits at the head of a text and what follows them.  An underscore goes with the digit
behind it, so there is none at the start, at the end, or beside another. -/
def digits (cs : List Char) : List Nat × List Char :=
  match cs with
  | [] => ([], [])
  | c :: rest =>
    match digit? c with
    | none => ([], c :: rest)
    | some d => let (ds, left) := more rest; (d :: ds, left)
where
  /-- The digits that go on with others. -/
  more : List Char → List Nat × List Char
    | '_' :: c :: rest =>
      match digit? c with
      | some d => let (ds, left) := more rest; (d :: ds, left)
      | none => ([], '_' :: c :: rest)
    | c :: rest =>
      match digit? c with
      | some d => let (ds, left) := more rest; (d :: ds, left)
      | none => ([], c :: rest)
    | [] => ([], [])

/-- The count that a row of decimal digits writes. -/
def value (ds : List Nat) : Nat := ds.foldl (fun n d => 10 * n + d) 0

/-- An integer: a sign and digits. -/
def integer? (cs : List Char) : Option Int :=
  let (negative, cs) := signed (trim cs)
  match digits cs with
  | (d :: ds, []) =>
    if maxDigits < (d :: ds).length then none
    else some (if negative then -(value (d :: ds) : Int) else value (d :: ds))
  | _ => none

/-- An exponent of ten behind the letter that marks it; zero where nothing stands. -/
def exponent? : List Char → Option Int
  | [] => some 0
  | c :: rest =>
    if c = 'e' || c = 'E' then
      let (negative, rest) := signed rest
      match digits rest with
      | (d :: ds, []) => some (if negative then -(value (d :: ds) : Int) else value (d :: ds))
      | _ => none
    else none

/-- A double-precision number: a sign, digits with a point among them, an exponent of ten. -/
def double? (cs : List Char) : Option Nat :=
  let (negative, cs) := signed (trim cs)
  let (whole, rest) := digits cs
  let (fraction, rest) := match rest with
    | '.' :: rest => digits rest
    | rest => ([], rest)
  if whole.isEmpty && fraction.isEmpty then none
  else match exponent? rest with
    | none => none
    | some exponent =>
      let ds := (whole ++ fraction).dropWhile (· = 0)
      let bits := Double.ofScientific (value ds) ds.length (exponent - fraction.length)
      some (if negative then Double.signBit + bits else bits)

/-- The value of a number as it is written. -/
def ofText (text : String) : Option Number :=
  if text.toList.contains '.' then (double? text.toList).map double
  else (integer? text.toList).map integer

/-- A number written out. -/
def text : Number → String
  | integer value => toString value
  | double bits => Double.text bits

end Number

/-- The value of a number. -/
def NumberParameter.decoded (p : NumberParameter) : Option Number := Number.ofText p.value

/-- The number of days or hours. -/
def DurationParameter.magnitude (p : DurationParameter) : Option Int :=
  Number.integer? p.number.toList

end QualityRules
