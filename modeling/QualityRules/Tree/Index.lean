/-!
# Tree — Index

Numbers of the members of a row.  They count from zero, those below zero from the end, and have 64
bits, sign included.

* `Index.resolve` finds the member of that number; `resolve_ofNat` and `resolve_neg` say which it
  is, from the front and from the end.
-/

namespace QualityRules

/-- Why a row has no member of some number. -/
inductive IndexFault where
  /-- The number needs more than 64 bits, whatever the row. -/
  | tooWide
  /-- The row has too few members. -/
  | outOfRange
deriving DecidableEq

namespace Index

/-- The least number that a member can have. -/
def least : Int := -0x8000000000000000

/-- The greatest number that a member can have. -/
def greatest : Int := 0x7FFFFFFFFFFFFFFF

/-- The place, among `size` members, of the member of number `i`. -/
def resolve (size : Nat) (i : Int) : Except IndexFault (Fin size) :=
  if i < least ∨ greatest < i then .error .tooWide
  else
    let place := if i < 0 then i + size else i
    if h : 0 ≤ place ∧ place < size then .ok ⟨place.toNat, by omega⟩ else .error .outOfRange

/-- From zero on, the number is the place. -/
theorem resolve_ofNat {size : Nat} (k : Fin size) (h : (k : Int) ≤ greatest) :
    resolve size (k : Nat) = .ok k := by
  have hk := k.isLt
  have hg : greatest = 9223372036854775807 := rfl
  have hl : least = -9223372036854775808 := rfl
  simp only [resolve]
  rw [if_neg (by omega), dif_pos (by split <;> omega)]
  rfl

/-- The member `k` places before the end has the number `-k`. -/
theorem resolve_neg {size k : Nat} (hk : 0 < k) (h : k ≤ size) (hl : least ≤ -(k : Int)) :
    resolve size (-(k : Int)) = .ok ⟨size - k, by omega⟩ := by
  have hg : greatest = 9223372036854775807 := rfl
  simp only [resolve]
  rw [if_neg (by omega), dif_pos (by split <;> omega)]
  congr 1
  apply Fin.ext
  simp only
  split <;> omega

end Index

end QualityRules
