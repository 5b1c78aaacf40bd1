import Nbtrfs.Namespace.Path

/-!
# Paths and their components

An absolute path is made of components. The path functions take such a path apart again, and the
content of `curr_path` in `item_search` is the path of the components that have been passed.
-/

namespace Nbtrfs

/-- The path of components; without any it is empty. -/
def joinPath (components : List CString) : CString := components.flatMap fun token => slash :: token

/-- An absolute path. -/
def pathOf (components : List CString) : CString :=
  if components = [] then [slash] else joinPath components

/-- A name: not empty, without `/` and NUL. -/
def IsName (name : CString) : Prop := name ≠ [] ∧ slash ∉ name ∧ 0 ∉ name

/-- Whether a string is a name is decidable. -/
instance (name : CString) : Decidable (IsName name) := inferInstanceAs (Decidable (_ ∧ _ ∧ _))

variable {components : List CString} {name : CString}

/-- No components give the empty path. -/
@[simp] theorem joinPath_nil : joinPath [] = [] := rfl

/-- Every component follows a slash. -/
@[simp] theorem joinPath_cons (name : CString) (components : List CString) :
    joinPath (name :: components) = slash :: name ++ joinPath components := rfl

/-- Paths of components are appended. -/
theorem joinPath_append (first second : List CString) :
    joinPath (first ++ second) = joinPath first ++ joinPath second := List.flatMap_append

/-- Only the root is written with a slash alone. -/
theorem pathOf_of_ne_nil (nonempty : components ≠ []) : pathOf components = joinPath components :=
  if_neg nonempty

/-- A component makes a path longer. -/
theorem joinPath_length_cons (name : CString) (components : List CString) :
    (joinPath (name :: components)).length = name.length + 1 + (joinPath components).length := by
  rw [joinPath_cons, List.length_append, List.length_cons]

/-- A path of names is longer than `/`. -/
theorem one_lt_joinPath (names : ∀ name ∈ components, IsName name) (nonempty : components ≠ []) :
    1 < (joinPath components).length := by
  cases components with
  | nil => exact absurd rfl nonempty
  | cons name components =>
    have positive := List.length_pos_of_ne_nil (names name List.mem_cons_self).1
    rw [joinPath_length_cons]
    omega

/-- The components behind the beginning of one. -/
theorem segmentsFrom_append (segment : CString) (name rest : CString) (noSlash : slash ∉ name) :
    segmentsFrom segment (name ++ rest) = segmentsFrom (segment ++ name) rest := by
  induction name generalizing segment with
  | nil => rw [List.nil_append, List.append_nil]
  | cons char name ih =>
    have differs : slash ≠ char := List.ne_of_not_mem_cons noSlash
    have later : slash ∉ name := List.not_mem_of_not_mem_cons noSlash
    rw [List.cons_append, segmentsFrom, if_neg (Ne.symm differs), ih _ later, List.append_assoc,
      List.singleton_append]

/-- The components behind a whole one. -/
theorem segmentsFrom_joinPath (segment : CString) (nonempty : segment ≠ [])
    (names : ∀ name ∈ components, IsName name) :
    segmentsFrom segment (joinPath components) = segment :: components := by
  induction components generalizing segment with
  | nil => rw [joinPath_nil, segmentsFrom, if_neg nonempty]
  | cons name components ih =>
    obtain ⟨filled, noSlash, -⟩ := names name List.mem_cons_self
    rw [joinPath_cons, List.cons_append, segmentsFrom, if_pos rfl, if_neg nonempty,
      segmentsFrom_append [] name _ noSlash, List.nil_append,
      ih name filled fun other inside => names other (List.mem_cons_of_mem _ inside)]

/-- The components of a path are those it was made of. -/
theorem segmentsFrom_pathOf (names : ∀ name ∈ components, IsName name) :
    segmentsFrom [] (pathOf components) = components := by
  cases components with
  | nil => rfl
  | cons name components =>
    obtain ⟨filled, noSlash, -⟩ := names name List.mem_cons_self
    rw [pathOf_of_ne_nil (List.cons_ne_nil name components), joinPath_cons, List.cons_append,
      segmentsFrom, if_pos rfl, if_pos rfl, segmentsFrom_append [] name _ noSlash, List.nil_append,
      segmentsFrom_joinPath name filled fun other inside => names other (List.mem_cons_of_mem _ inside)]

/-- `split` returns the components in their order. -/
theorem split_pathOf (names : ∀ name ∈ components, IsName name) (i : Nat) :
    split (pathOf components) (i + 1) = components[i]? := by
  rw [split, if_neg (Nat.succ_ne_zero i), segmentsFrom_pathOf names, Nat.add_sub_cancel]

/-- A path of names has as many slashes as names. -/
theorem count_joinPath (names : ∀ name ∈ components, IsName name) :
    (joinPath components).count slash = components.length := by
  induction components with
  | nil => rfl
  | cons name components ih =>
    obtain ⟨-, noSlash, -⟩ := names name List.mem_cons_self
    rw [joinPath_cons, List.count_append, List.count_cons_self, List.count_eq_zero.mpr noSlash,
      ih fun other inside => names other (List.mem_cons_of_mem _ inside), List.length_cons]
    omega

/-- `count_l` counts the components. -/
theorem countL_pathOf (names : ∀ name ∈ components, IsName name) :
    countL (pathOf components) = components.length := by
  by_cases empty : components = []
  · rw [empty]
    rfl
  · have longer := one_lt_joinPath names empty
    rw [pathOf_of_ne_nil empty, countL, if_neg (by omega), count_joinPath names]

/-- What stands behind the last `/` of a path. -/
theorem takeWhile_reverse (front : CString) (noSlash : slash ∉ name) :
    (front ++ slash :: name).reverse.takeWhile (· ≠ slash) = name.reverse := by
  rw [List.reverse_append, List.reverse_cons, List.append_assoc, List.takeWhile_append_of_pos]
  · rw [List.singleton_append, List.takeWhile_cons_of_neg (by simp), List.append_nil]
  · intro char inside
    have inName := List.mem_reverse.mp inside
    rw [decide_eq_true_iff]
    rintro rfl
    exact noSlash inName

/-- What stands up to the last `/` of a path. -/
theorem dropWhile_reverse (front : CString) (noSlash : slash ∉ name) :
    ((front ++ slash :: name).reverse.dropWhile (· ≠ slash)).reverse = front ++ [slash] := by
  rw [List.reverse_append, List.reverse_cons, List.append_assoc, List.dropWhile_append_of_pos]
  · rw [List.singleton_append, List.dropWhile_cons_of_neg (by simp), List.reverse_cons,
      List.reverse_reverse]
  · intro char inside
    have inName := List.mem_reverse.mp inside
    rw [decide_eq_true_iff]
    rintro rfl
    exact noSlash inName

/-- The path of a name in a directory. -/
theorem pathOf_concat (components : List CString) (name : CString) :
    pathOf (components ++ [name]) = joinPath components ++ slash :: name := by
  rw [pathOf_of_ne_nil (by simp), joinPath_append, joinPath_cons, joinPath_nil, List.append_nil]

/-- `get_name` returns the last component. -/
theorem getName_pathOf (components : List CString) (isName : IsName name) :
    getName (pathOf (components ++ [name])) = name := by
  rw [pathOf_concat, getName, takeWhile_reverse _ isName.2.1, List.reverse_reverse]

/-- `parent_path` returns the path of the other components. -/
theorem parentPath_pathOf (names : ∀ name ∈ components, IsName name) (isName : IsName name) :
    parentPath (pathOf (components ++ [name])) (countL (pathOf (components ++ [name]))) =
      pathOf components := by
  have all : ∀ other ∈ components ++ [name], IsName other := by
    intro other inside
    rcases List.mem_append.mp inside with before | last
    · exact names other before
    · rw [List.mem_singleton.mp last]
      exact isName
  rw [countL_pathOf all, List.length_append, List.length_singleton, parentPath]
  by_cases empty : components = []
  · rw [empty, if_pos (by simp)]
    rfl
  · have longer := one_lt_joinPath names empty
    have positive := List.length_pos_of_ne_nil empty
    rw [if_neg (by omega), pathOf_concat]
    dsimp only
    rw [dropWhile_reverse _ isName.2.1, List.length_append, List.length_singleton, if_neg (by omega),
      List.dropLast_concat, pathOf_of_ne_nil empty]

/-- `curr_path` takes another component if there is room. -/
theorem extendPath_joinPath {passed : List CString}
    (room : (joinPath (passed ++ [name])).length < pathMax) :
    extendPath (joinPath passed) name = joinPath (passed ++ [name]) := by
  have whole : joinPath passed ++ slash :: name = joinPath (passed ++ [name]) := by
    rw [joinPath_append, joinPath_cons, joinPath_nil, List.append_nil]
  rw [extendPath, whole, List.take_of_length_le (by omega)]

/-- Only the whole path is equal to it. -/
theorem joinPath_eq_iff {passed rest : List CString} :
    joinPath (passed ++ rest) = joinPath passed ↔ rest = [] := by
  rw [joinPath_append]
  constructor
  · intro same
    have empty := List.append_right_eq_self.mp same
    cases rest with
    | nil => rfl
    | cons name rest => cases empty
  · rintro rfl
    exact List.append_nil _

end Nbtrfs
