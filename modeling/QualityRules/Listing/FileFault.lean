/-!
# Listing — FileFault

Why an operation on files fails.

* `FileFault.bind_eq_ok`: two operations in turn do not fail when neither does.
-/

namespace QualityRules

/-- Why an operation on files fails. -/
inductive FileFault where
  | notFound
  | isFolder
  | notFolder
  | exists
  /-- The bytes of the file encode no text. -/
  | undecodable
  /-- No file can have this name, since a zero character is in it. -/
  | zeroInName
  /-- No file can have this name, since it is longer than files may have it. -/
  | nameTooLong
  /-- Nobody knows where the folder of that user is. -/
  | noHome
deriving DecidableEq

variable {α β : Type}

/-- Two operations in turn do not fail when neither does. -/
theorem FileFault.bind_eq_ok {x : Except FileFault α} {f : α → Except FileFault β} {b : β} :
    (x >>= f) = .ok b ↔ ∃ a, x = .ok a ∧ f a = .ok b := by
  cases x <;> simp [bind, Except.bind]

end QualityRules
