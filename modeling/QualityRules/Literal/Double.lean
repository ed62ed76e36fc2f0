/-!
# Literal — Double

The double-precision number nearest to a fraction of two counts, as its 64 bits.  Of two that are
equally near, the one with the even last bit is taken; what lies beyond the greatest finite number
by half a step or more becomes infinity.

* `roundDiv` rounds a quotient; `roundDiv_close` says that it is off by half at most.
* `Double.ofFraction` gives the bits of the nearest number, `Double.ofScientific` does so for
  decimal digits with an exponent of ten.
-/

namespace QualityRules

/-- The count nearest to `num / den`; of two that are equally near, the even one. -/
def roundDiv (num den : Nat) : Nat :=
  let q := num / den
  let twice := 2 * (num % den)
  if twice < den then q
  else if den < twice then q + 1
  else if q % 2 = 0 then q else q + 1

/-- Rounding is off by half at most. -/
theorem roundDiv_close (num den : Nat) (h : 0 < den) :
    2 * (roundDiv num den * den) ≤ 2 * num + den ∧ 2 * num ≤ 2 * (roundDiv num den * den) + den := by
  have e := Nat.div_add_mod num den
  have lt := Nat.mod_lt num h
  have c : den * (num / den) = num / den * den := Nat.mul_comm _ _
  unfold roundDiv
  simp only
  split
  · omega
  split
  · rw [Nat.add_mul, Nat.one_mul]; omega
  split
  · omega
  · rw [Nat.add_mul, Nat.one_mul]; omega

namespace Double

/-- The bits of infinity. -/
def infinity : Nat := 0x7FF0000000000000

/-- The bit that makes a number negative. -/
def signBit : Nat := 0x8000000000000000

/-- The greatest power of two, by its exponent, that is not above `num / den`. -/
def exponentOf (num den : Nat) : Int :=
  let k : Int := (num.log2 : Int) - den.log2
  if den * Nat.pow 2 k.toNat ≤ num * Nat.pow 2 (-k).toNat then k else k - 1

/-- The bits of the number nearest to `num / den`, for counts above zero. -/
def ofFraction (num den : Nat) : Nat :=
  let exponent := max (exponentOf num den) (-1022)
  let unit := exponent - 52
  let significand := roundDiv (num * Nat.pow 2 (-unit).toNat) (den * Nat.pow 2 unit.toNat)
  min infinity ((exponent + 1022).toNat * Nat.pow 2 52 + significand)

/-- More decimal places to the left than any finite number has, or to the right than any number
above zero. -/
def farExponent : Int := 400

/-- The bits of the number nearest to `digits * 10 ^ exponent`, where `digits` has `places` decimal
places. -/
def ofScientific (digits places : Nat) (exponent : Int) : Nat :=
  if digits = 0 then 0
  else if farExponent < places + exponent then infinity
  else if places + exponent < -farExponent then 0
  else ofFraction (digits * Nat.pow 10 exponent.toNat) (Nat.pow 10 (-exponent).toNat)

end Double

end QualityRules
