import QualityRules.Literal.Number
import QualityRules.Proofs.Spelling

/-!
# Proofs — Numerals

The value of a number that is spelled as a token: digits of ASCII, or such digits with a point among
them.  There is no blank around it, no sign before it and no exponent behind it.

* `Number.integer?_digits`: digits are the count that they write, unless there are too many.
* `Number.ofText_eq_none_iff`: a number has no value just if it is an integer of too many digits.
-/

namespace QualityRules

open Lexeme (isDigit)

namespace Number

variable {c : Char} {cs ds fs rest : List Char}

/-- The count that a digit of ASCII stands for. -/
def count (c : Char) : Nat := c.toNat - '0'.toNat

/-- Digits stand one behind the other among the characters. -/
theorem toNat_of_isDigit (h : isDigit c) : '0'.toNat ≤ c.toNat ∧ c.toNat < '0'.toNat + 10 := by
  simp only [isDigit, Bool.and_eq_true, decide_eq_true_eq, Char.le_def,
    UInt32.le_iff_toNat_le] at h
  have nine : '9'.val.toNat = '0'.toNat + 9 := rfl
  exact ⟨h.1, Nat.lt_succ_of_le (nine ▸ h.2)⟩

/-- A digit has its value. -/
theorem digit?_of_isDigit (h : isDigit c) : digit? c = some (count c) := by
  have bounds := toNat_of_isDigit h
  have zero : '0'.toNat = 0x30 := rfl
  rw [zero] at bounds
  simp [digit?, zeros, bounds, count, zero]

/-- A digit is neither a sign nor a point nor an underscore. -/
theorem ne_of_isDigit (h : isDigit c) : c ≠ '_' ∧ c ≠ '-' ∧ c ≠ '+' ∧ c ≠ '.' := by
  refine ⟨?_, ?_, ?_, ?_⟩ <;>
  · rintro rfl
    exact absurd h (by decide)

/-- A digit is no blank. -/
theorem isBlank_of_isDigit (h : isDigit c) : isBlank c = false := by
  have bounds := toNat_of_isDigit h
  have zero : '0'.toNat = 0x30 := rfl
  simp only [isBlank, Bool.or_eq_false_iff, Bool.and_eq_false_iff, decide_eq_false_iff_not]
  omega

/-- Where there is no blank, none is taken off. -/
theorem trim_eq_self (h : ∀ c ∈ cs, isBlank c = false) : trim cs = cs := by
  have keep : ∀ {cs : List Char}, (∀ c ∈ cs, isBlank c = false) → cs.dropWhile isBlank = cs := by
    intro cs h
    cases cs with
    | nil => rfl
    | cons c cs => rw [List.dropWhile_cons_of_neg (by simp [h c])]
  rw [trim, keep h, keep (by simpa using h), List.reverse_reverse]

/-- A number that starts with a digit has no sign. -/
theorem signed_of_isDigit (h : isDigit c) : signed (c :: cs) = (false, c :: cs) := by
  obtain ⟨-, minus, plus, -⟩ := ne_of_isDigit h
  unfold signed
  split <;> simp_all

/-- Digits are taken up to what is no digit. -/
theorem more_append (h : ∀ c ∈ ds, isDigit c) (ends : digits.more rest = ([], rest)) :
    digits.more (ds ++ rest) = (ds.map count, rest) := by
  induction ds with
  | nil => exact ends
  | cons c ds ih =>
    obtain ⟨digit, digits⟩ := List.forall_mem_cons.mp h
    have other := (ne_of_isDigit digit).1
    rw [List.cons_append, digits.more]
    · rw [digit?_of_isDigit digit, ih digits]
      rfl
    · exact fun _ _ eq => absurd eq other

/-- A run of digits is read up to its end. -/
theorem digits_append (h : ∀ c ∈ ds, isDigit c) (ends : digits.more rest = ([], rest))
    (some : ds ≠ []) : digits (ds ++ rest) = (ds.map count, rest) := by
  obtain ⟨c, ds, rfl⟩ := List.exists_cons_of_ne_nil some
  obtain ⟨digit, tail⟩ := List.forall_mem_cons.mp h
  rw [List.cons_append, digits, digit?_of_isDigit digit, more_append tail ends]
  rfl

/-- **Digits are the count that they write**, unless there are too many. -/
theorem integer?_digits (h : ∀ c ∈ ds, isDigit c) (some : ds ≠ []) :
    integer? ds =
      if maxDigits < ds.length then none else Option.some (value (ds.map count) : Int) := by
  have trimmed : trim ds = ds := trim_eq_self fun c mem => isBlank_of_isDigit (h c mem)
  have all : digits (ds ++ []) = (ds.map count, []) := digits_append h rfl some
  rw [List.append_nil] at all
  obtain ⟨c, ds, rfl⟩ := List.exists_cons_of_ne_nil some
  have unsigned : signed (c :: ds) = (false, c :: ds) := signed_of_isDigit (h c List.mem_cons_self)
  simp only [integer?, trimmed, unsigned, all, List.map_cons, List.length_cons, List.length_map]
  rfl

/-- Digits with a point among them have a value. -/
theorem isSome_double? (h : ∀ c ∈ ds, isDigit c) (some : ds ≠ []) (h' : ∀ c ∈ fs, isDigit c) :
    (double? (ds ++ '.' :: fs)).isSome := by
  have trimmed : trim (ds ++ '.' :: fs) = ds ++ '.' :: fs := by
    refine trim_eq_self fun c mem => ?_
    rcases List.mem_append.mp mem with mem | mem
    · exact isBlank_of_isDigit (h c mem)
    · obtain rfl | mem := List.mem_cons.mp mem
      · decide
      · exact isBlank_of_isDigit (h' c mem)
  have whole : digits (ds ++ '.' :: fs) = (ds.map count, '.' :: fs) := digits_append h rfl some
  have fraction : digits fs = (fs.map count, []) := by
    cases fs with
    | nil => rfl
    | cons f fs =>
      have all : digits (f :: fs ++ []) = ((f :: fs).map count, []) :=
        digits_append h' rfl (List.cons_ne_nil f fs)
      rwa [List.append_nil] at all
  have unsigned : signed (ds ++ '.' :: fs) = (false, ds ++ '.' :: fs) := by
    obtain ⟨c, ds, rfl⟩ := List.exists_cons_of_ne_nil some
    exact signed_of_isDigit (h c List.mem_cons_self)
  simp [double?, trimmed, unsigned, whole, fraction, some, exponent?]

/-- **A number has no value just if it is an integer of too many digits.** -/
theorem ofText_eq_none_iff {text : String} (h : Kind.number.Spells text.toList) :
    ofText text = none ↔ '.' ∉ text.toList ∧ maxDigits < text.length := by
  obtain ⟨ds, some, digits, whole | ⟨fs, digits', pointed⟩⟩ := h
  · have none : '.' ∉ ds := fun mem => absurd (digits _ mem) (by decide)
    simp [ofText, none, whole, integer?_digits digits some, ← String.length_toList]
  · have point : '.' ∈ text.toList := by simp [pointed]
    have value := isSome_double? digits some digits'
    rw [← pointed] at value
    simp [ofText, point, Option.ne_none_iff_isSome.mpr value]

end Number

end QualityRules
