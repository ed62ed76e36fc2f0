import QualityRules.Listing.FileFault
import QualityRules.Listing.Route

/-!
# Listing — FileTree

Files in folders, with the operations of a command that reads one file and writes another.

* `FileTree.resolve` follows a route, `FileTree.read` gives what a file holds, `FileTree.makeFolders`
  and `FileTree.write` change the tree.
* `lookup_set`: a file holds what was put into it.
* `read_of_write`: what was written to a file is read from it.
-/

namespace QualityRules

/-- Files by the steps that lead to them from the root, folders that hold none, and the folder
where one is. -/
structure FileTree where
  files : List (List String × ByteArray)
  folders : List (List String)
  here : List String

namespace FileTree

/-- The most bytes that the name of a file may have. -/
def maxName : Nat := 255

/-- The most bytes that the text of a route may have. -/
def maxRoute : Nat := 4095

/-- What the file at `steps` holds. -/
def lookup (t : FileTree) (steps : List String) : Option ByteArray :=
  (t.files.find? fun f => f.1 = steps).map Prod.snd

/-- There is a folder at `steps`: the root, the one where one is, one that was made, or one that
holds something. -/
def isFolder (t : FileTree) (steps : List String) : Bool :=
  steps.isEmpty || steps.isPrefixOf t.here || t.folders.any (steps.isPrefixOf ·) ||
    t.files.any fun f => steps.isPrefixOf f.1 && f.1 ≠ steps

/-- Why one cannot go on from `steps` by `step`, if one cannot. -/
def blocked? (t : FileTree) (steps : List String) (step : String) : Option FileFault :=
  if !t.isFolder steps then
    some (if (t.lookup steps).isSome then .notFolder else .notFound)
  else if maxName < step.utf8ByteSize then some .nameTooLong
  else none

/-- Where one step leads; two dots lead up. -/
def stepFrom (steps : List String) (step : String) : List String :=
  if step = ".." then steps.dropLast else steps ++ [step]

/-- Where the steps `further` lead from `steps`. -/
def resolveFrom (t : FileTree) (steps : List String) :
    List String → Except FileFault (List String)
  | [] => .ok steps
  | step :: further =>
    match t.blocked? steps step with
    | some fault => .error fault
    | none => t.resolveFrom (stepFrom steps step) further

/-- Where a route starts, if its text is one that can name a file. -/
def origin (t : FileTree) (r : Route) : Except FileFault (List String) :=
  if r.steps.any (·.contains '\x00') then .error .zeroInName
  else if maxRoute < r.text.utf8ByteSize then .error .nameTooLong
  else .ok (if r.start = .here then t.here else [])

/-- Where a route leads. -/
def resolve (t : FileTree) (r : Route) : Except FileFault (List String) := do
  t.resolveFrom (← t.origin r) r.steps

/-- What the file at the end of a route holds. -/
def read (t : FileTree) (r : Route) : Except FileFault ByteArray := do
  let steps ← t.resolve r
  if t.isFolder steps then throw .isFolder
  match t.lookup steps with
  | some bytes => return bytes
  | none => throw .notFound

/-- Makes the folders along the steps `further` from the folder at `steps` where there are none.
A file in the way is one that the route leads through, unless it stands at the end or some folder
was `made` before it: then it has the place of the folder to make next. -/
def makeFoldersFrom (t : FileTree) (made : Bool) (steps : List String) :
    List String → Except FileFault FileTree
  | [] => .ok t
  | step :: further =>
    let next := stepFrom steps step
    if maxName < step.utf8ByteSize then .error .nameTooLong
    else if t.isFolder next then t.makeFoldersFrom made next further
    else if (t.lookup next).isSome then
      .error (if made || further.isEmpty then .exists else .notFolder)
    else makeFoldersFrom { t with folders := t.folders ++ [next] } true next further

/-- Makes the folders along a route where there are none. -/
def makeFolders (t : FileTree) (r : Route) : Except FileFault FileTree := do
  t.makeFoldersFrom false (← t.origin r) r.steps

/-- The tree when the file at `steps` holds `bytes`. -/
def set (t : FileTree) (steps : List String) (bytes : ByteArray) : FileTree :=
  { t with files := (steps, bytes) :: t.files.filter fun f => f.1 ≠ steps }

/-- Writes a file. -/
def write (t : FileTree) (r : Route) (bytes : ByteArray) : Except FileFault FileTree := do
  let steps ← t.resolve r
  if t.isFolder steps then throw .isFolder
  return t.set steps bytes

/-! ### What was written is read -/

variable {t t' : FileTree} {r : Route} {p q further : List String} {step : String}
  {bytes : ByteArray}

/-- A file holds what was put into it. -/
theorem lookup_set (t : FileTree) (steps : List String) (bytes : ByteArray) :
    (t.set steps bytes).lookup steps = some bytes := by
  simp [lookup, set]

/-- One can go on from a folder, by a step that is not too long. -/
theorem blocked?_eq_none :
    t.blocked? p step = none ↔ t.isFolder p ∧ step.utf8ByteSize ≤ maxName := by
  unfold blocked?
  by_cases folder : t.isFolder p
  · by_cases long : maxName < step.utf8ByteSize
    · simp [folder, long, Nat.not_le.mpr long]
    · simp [folder, long, Nat.not_lt.mp long]
  · simp [folder]

/-- Where a folder was there still is one, once a file is put somewhere. -/
theorem isFolder_set (h : t.isFolder p) (steps : List String) (bytes : ByteArray) :
    (t.set steps bytes).isFolder p := by
  have kept : (t.files.any fun f => p.isPrefixOf f.1 && f.1 ≠ p) →
      ((t.set steps bytes).files.any fun f => p.isPrefixOf f.1 && f.1 ≠ p) := by
    simp only [List.any_eq_true, set, List.mem_cons, List.mem_filter, decide_eq_true_eq]
    rintro ⟨f, mem, inside⟩
    by_cases same : f.1 = steps
    · exact ⟨(steps, bytes), .inl rfl, same ▸ inside⟩
    · exact ⟨f, .inr ⟨mem, same⟩, inside⟩
  simp only [isFolder, Bool.or_eq_true] at h ⊢
  exact h.imp_right kept

/-- No folder comes to be where a file is put. -/
theorem isFolder_set_self (t : FileTree) (steps : List String) (bytes : ByteArray) :
    (t.set steps bytes).isFolder steps = t.isFolder steps := by
  -- the file itself counts for no folder here, and neither did the one that it replaces
  have others : ∀ f : List String × ByteArray,
      (decide (f.1 ≠ steps) && (steps.isPrefixOf f.1 && decide (f.1 ≠ steps)))
        = (steps.isPrefixOf f.1 && decide (f.1 ≠ steps)) := by
    intro f
    rw [Bool.and_left_comm, Bool.and_self]
  simp only [isFolder, set, List.any_cons, List.any_filter, others, ne_eq, not_true, decide_false,
    Bool.and_false, Bool.false_or]

theorem resolveFrom_set (h : t.resolveFrom p further = .ok q) (steps : List String)
    (bytes : ByteArray) : (t.set steps bytes).resolveFrom p further = .ok q := by
  induction further generalizing p with
  | nil => exact h
  | cons step further ih =>
    unfold resolveFrom at h ⊢
    cases way : t.blocked? p step with
    | some fault => rw [way] at h; cases h
    | none =>
      obtain ⟨folder, short⟩ := blocked?_eq_none.mp way
      rw [way] at h
      rw [blocked?_eq_none.mpr ⟨isFolder_set folder steps bytes, short⟩]
      exact ih h

/-- A route leads where it led, once a file is put somewhere. -/
theorem resolve_set (h : t.resolve r = .ok p) (steps : List String) (bytes : ByteArray) :
    (t.set steps bytes).resolve r = .ok p := by
  obtain ⟨start, origin, way⟩ := FileFault.bind_eq_ok.mp h
  exact FileFault.bind_eq_ok.mpr ⟨start, origin, resolveFrom_set way steps bytes⟩

/-- A file is written where the route leads, unless a folder is there. -/
theorem write_eq_ok : t.write r bytes = .ok t' ↔
    ∃ steps, t.resolve r = .ok steps ∧ ¬ t.isFolder steps ∧ t' = t.set steps bytes := by
  refine FileFault.bind_eq_ok.trans (exists_congr fun steps => and_congr_right fun _ => ?_)
  by_cases folder : t.isFolder steps
  · simp [folder, bind, Except.bind, throw, throwThe, MonadExceptOf.throw]
  · simp only [folder, Bool.false_eq_true, if_false, not_false_eq_true, true_and]
    exact ⟨fun h => (Except.ok.inj h).symm, fun h => congrArg Except.ok h.symm⟩

/-- **What was written to a file is read from it.** -/
theorem read_of_write (h : t.write r bytes = .ok t') : t'.read r = .ok bytes := by
  obtain ⟨steps, way, folder, rfl⟩ := write_eq_ok.mp h
  refine FileFault.bind_eq_ok.mpr ⟨steps, resolve_set way steps bytes, ?_⟩
  rw [isFolder_set_self, if_neg folder, lookup_set]
  rfl

end FileTree

end QualityRules
