import QualityRules.Literal.Double

/-!
# Literal — Decimal

Double-precision numbers in decimal digits: the fewest that read back as the number, and of those
the nearest to it.  A number of ordinary size is written with a point among its digits, any other
with an exponent of ten behind them.

* `Decimal.nearby?` looks for digits that read back where the last of them has a given weight;
  `bits_of_nearby?` says that it gives no others.
* `Decimal.ofBits` takes the fewest digits, `Double.text` writes a number.
-/

namespace QualityRules

namespace Double

/-- A finite number without a sign as a fraction of two counts. -/
def fraction (bits : Nat) : Nat × Nat :=
  let exponent := bits / Nat.pow 2 52
  let rest := bits % Nat.pow 2 52
  if exponent = 0 then (rest, Nat.pow 2 1074)
  else ((Nat.pow 2 52 + rest) * Nat.pow 2 (exponent - 1075), Nat.pow 2 (1075 - exponent))

end Double

/-- Decimal digits with an exponent of ten. -/
structure Decimal where
  digits : Nat
  exponent : Int
deriving DecidableEq

namespace Decimal

/-- How many decimal digits a count has. -/
def places (n : Nat) : Nat := (Nat.toDigits 10 n).length

/-- The bits that a decimal reads back as. -/
def bits (d : Decimal) : Nat := Double.ofScientific d.digits (places d.digits) d.exponent

/-- The least power of ten, by its exponent, that is above `num / den`, for counts above zero. -/
def powerAbove (num den : Nat) : Int :=
  if den ≤ num then places (num / den) else 1 - (places ((den - 1) / num) : Int)

/-- The decimal nearest to `num / den` among those with that exponent that read back as `bits`; of
two that are equally near, the one whose last digit is even. -/
def nearby? (bits num den : Nat) (exponent : Int) : Option Decimal :=
  let top := num * Nat.pow 10 (-exponent).toNat
  let step := den * Nat.pow 10 exponent.toNat
  let near := roundDiv top step
  let far := if near = top / step then near + 1 else top / step
  [Decimal.mk near exponent, Decimal.mk far exponent].find? fun d => d.bits = bits

/-- What is found reads back. -/
theorem bits_of_nearby? {bits num den : Nat} {exponent : Int} {d : Decimal}
    (h : nearby? bits num den exponent = some d) : d.bits = bits := by
  simpa using List.find?_some h

/-- More digits than this are not needed for any number to read back. -/
def enough : Nat := 17

/-- The fewest digits that read back as a finite number without a sign; all its digits if there
were more than enough. -/
def ofBits (bits : Nat) : Decimal :=
  if bits = 0 then ⟨0, 0⟩
  else
    let (num, den) := Double.fraction bits
    let above := powerAbove num den
    ((List.range enough).findSome? fun (n : Nat) =>
      nearby? bits num den (above - (n + 1))).getD
      ⟨num * Nat.pow 5 den.log2, -(den.log2 : Int)⟩

/-- Digits with a point behind the first `point` of them, filled up with zeros. -/
def positional (ds : List Char) (point : Int) : List Char :=
  if point ≤ 0 then '0' :: '.' :: (List.replicate (-point).toNat '0' ++ ds)
  else
    let rest := ds.drop point.toNat
    (ds.take point.toNat).rightpad point.toNat '0' ++ '.' :: if rest.isEmpty then ['0'] else rest

/-- Digits with a point behind the first, if there are more, and an exponent of ten with a sign and
at least two digits. -/
def scaled (ds : List Char) (exponent : Int) : List Char :=
  let rest := ds.drop 1
  ds.take 1 ++ (if rest.isEmpty then [] else '.' :: rest) ++
    'e' :: (if exponent < 0 then '-' else '+') ::
      (Nat.toDigits 10 exponent.natAbs).leftpad 2 '0'

/-- The exponents of the first digit from which on, and below which, a number is written without an
exponent. -/
def ordinary : Int × Int := (-4, 16)

/-- A decimal written out, without the zeros at its end. -/
def text (d : Decimal) : String :=
  let all := Nat.toDigits 10 d.digits
  let ds := if d.digits = 0 then ['0'] else (all.reverse.dropWhile (· = '0')).reverse
  let point := d.exponent + all.length
  let first := point - 1
  String.ofList
    (if ordinary.1 ≤ first ∧ first < ordinary.2 then positional ds point else scaled ds first)

end Decimal

/-- A double-precision number written out, by its bits. -/
def Double.text (bits : Nat) : String :=
  let negative := Double.signBit ≤ bits
  let size := if negative then bits - Double.signBit else bits
  if Double.infinity < size then "nan"
  else
    (if negative then "-" else "") ++
      if size = Double.infinity then "inf" else (Decimal.ofBits size).text

end QualityRules
