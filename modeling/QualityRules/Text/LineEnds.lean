/-!
# Text — LineEnds

A text may end its lines with a line feed, a carriage return, or both in that order.  `unify`
leaves line feeds only.

* `unify_of_no_return`: a text without carriage returns stays as it is.
* `return_not_mem_unify`: no carriage return is left.
-/

namespace QualityRules.LineEnds

/-- Every line end becomes one line feed. -/
def unify : List Char → List Char
  | [] => []
  | '\r' :: '\n' :: rest => '\n' :: unify rest
  | c :: rest => (if c = '\r' then '\n' else c) :: unify rest

theorem return_not_mem_unify (cs : List Char) : '\r' ∉ unify cs := by
  fun_induction unify cs with
  | case1 => simp
  | case2 rest ih => simp [ih]
  | case3 c rest _ ih => by_cases h : c = '\r' <;> simp [h, ih, Ne.symm]

theorem unify_of_no_return (cs : List Char) (h : '\r' ∉ cs) : unify cs = cs := by
  fun_induction unify cs with
  | case1 => rfl
  | case2 rest ih => simp at h
  | case3 c rest _ ih =>
    simp only [List.mem_cons, not_or] at h
    simp [Ne.symm h.1, ih h.2]

end QualityRules.LineEnds
