import Mathlib.Data.List.TakeWhile
import Nbtrfs.Namespace.Components

/-!
# The scanners of paths

The path functions of `string.c` as the loops that they are. A pointer that moves forwards is the
rest of the string from it on, so nothing is left at the terminator; the pointer that moves
backwards is an index. Each scanner computes the function of the same name of the path model, and
together they take a path apart into the components that it was made of.
-/

namespace Nbtrfs

namespace Scanner

/-- The loop of `count_l`. -/
def countFrom : CString → Nat → Nat
  | [], c => c
  | char :: path, c => countFrom path (if char = slash then c + 1 else c)

/-- `count_l`. -/
def countL (path : CString) : Nat := if path.length = 1 then 0 else countFrom path 0

/-- The byte at an index of a string, the terminator behind the last one. -/
def charAt (path : CString) (i : Nat) : UInt8 := path.getD i 0

/-- The loop of `parent_path`, which moves `end` back to a slash or to the beginning. -/
def endFrom (path : CString) : Nat → Nat
  | 0 => 0
  | i + 1 => if charAt path (i + 1) ≠ slash then endFrom path i else i + 1

/-- `parent_path`. There is no result where the terminator is put behind the buffer, or where an
empty path is said to have components. -/
def parentPath (path : CString) (l : Int) : Option CString :=
  if l ≤ 1 then some [slash]
  else if path = [] then none
  else
    let last := endFrom path (path.length - 1)
    if last = 0 then some [slash]
    else if last < pathMax then some (path.take last)
    else none

/-- `strrchr`: the string from the last occurrence of a byte on. -/
def strrchr (char : UInt8) : CString → Option CString
  | [] => none
  | first :: rest =>
    match strrchr char rest with
    | some found => some found
    | none => if first = char then some (first :: rest) else none

/-- `get_name`. -/
def getName (path : CString) : CString :=
  match strrchr slash path with
  | none => path
  | some lastSlash => lastSlash.tail

/-- The loop of `split` with the number of segments left. -/
def splitFrom : Nat → CString → Option CString
  | 0, _ => none
  | left + 1, start =>
    if start = [] then none
    else
      let start := start.dropWhile (· = slash)
      if start = [] then none
      else if left = 0 then some (start.takeWhile (· ≠ slash))
      else splitFrom left (start.dropWhile (· ≠ slash))

/-- `split`. -/
def split (path : CString) (n : Int) : Option CString :=
  if n ≤ 0 then none else splitFrom n.toNat path

/-- The path of an entry of a directory, as `nbtrfs_readdir` prints it into `absolute`. -/
def absolute (path name : CString) : CString :=
  (if 0 < countL path then path ++ slash :: name else path ++ name).take (pathMax - 1)

end Scanner

variable {path name : CString} {components : List CString}

/-- The loop of `count_l` adds the slashes behind. -/
theorem countFrom_eq (path : CString) (c : Nat) : Scanner.countFrom path c = c + path.count slash := by
  induction path generalizing c with
  | nil => rfl
  | cons char path ih =>
    rw [Scanner.countFrom, ih, List.count_cons]
    by_cases isSlash : char = slash
    · simp only [isSlash, if_true, beq_self_eq_true]
      omega
    · simp [isSlash]

/-- `count_l` counts as the path model does. -/
theorem countL_scanned (path : CString) : Scanner.countL path = countL path := by
  rw [Scanner.countL, countL, countFrom_eq, Nat.zero_add]

/-- Slashes in front of a component are passed over. -/
theorem segmentsFrom_slashes (path : CString) :
    segmentsFrom [] path = segmentsFrom [] (path.dropWhile (· = slash)) := by
  induction path with
  | nil => rfl
  | cons char path ih =>
    by_cases isSlash : char = slash
    · rw [segmentsFrom, if_pos isSlash, if_pos rfl, List.dropWhile_cons_of_pos (by simpa using isSlash),
        ih]
    · rw [List.dropWhile_cons_of_neg (by simpa using isSlash)]

/-- A component goes up to the next slash. -/
theorem segmentsFrom_component (segment path : CString) (nonempty : segment ≠ []) :
    segmentsFrom segment path =
      (segment ++ path.takeWhile (· ≠ slash)) :: segmentsFrom [] (path.dropWhile (· ≠ slash)) := by
  induction path generalizing segment with
  | nil => simp [segmentsFrom, nonempty]
  | cons char path ih =>
    by_cases isSlash : char = slash
    · rw [segmentsFrom, if_pos isSlash, if_neg nonempty,
        List.takeWhile_cons_of_neg (by simpa using isSlash),
        List.dropWhile_cons_of_neg (by simpa using isSlash), List.append_nil, segmentsFrom,
        if_pos isSlash, if_pos rfl]
    · rw [segmentsFrom, if_neg isSlash, ih _ (by simp),
        List.takeWhile_cons_of_pos (by simpa using isSlash),
        List.dropWhile_cons_of_pos (by simpa using isSlash), List.append_assoc,
        List.singleton_append]

/-- Behind the slashes in front, a path is its first component and the others. -/
theorem segmentsFrom_next (path : CString) :
    segmentsFrom [] path =
      if path.dropWhile (· = slash) = [] then []
      else (path.dropWhile (· = slash)).takeWhile (· ≠ slash) ::
        segmentsFrom [] ((path.dropWhile (· = slash)).dropWhile (· ≠ slash)) := by
  rw [segmentsFrom_slashes]
  cases front : path.dropWhile (· = slash) with
  | nil => rfl
  | cons char rest =>
    have differs : char ≠ slash := by
      have some_left : path.dropWhile (fun byte => decide (byte = slash)) ≠ [] := by
        rw [front]
        exact List.cons_ne_nil _ _
      have first := List.head_dropWhile_not (fun byte => decide (byte = slash)) some_left
      simp only [front] at first
      exact of_decide_eq_false first
    rw [if_neg (List.cons_ne_nil _ _), segmentsFrom, if_neg differs, List.nil_append,
      segmentsFrom_component [char] rest (List.cons_ne_nil _ _),
      List.takeWhile_cons_of_pos (by simpa using differs),
      List.dropWhile_cons_of_pos (by simpa using differs), List.singleton_append]

/-- The loop of `split` returns the component by the number of segments left. -/
theorem splitFrom_eq (left : Nat) (start : CString) :
    Scanner.splitFrom (left + 1) start = (segmentsFrom [] start)[left]? := by
  induction left generalizing start with
  | zero =>
    rw [segmentsFrom_next, Scanner.splitFrom]
    by_cases empty : start = []
    · simp [empty]
    · rw [if_neg empty]
      dsimp only
      split
      · rfl
      · rfl
  | succ left ih =>
    rw [segmentsFrom_next, Scanner.splitFrom]
    by_cases empty : start = []
    · simp [empty]
    · rw [if_neg empty]
      dsimp only
      split
      · rfl
      · rw [if_neg (Nat.succ_ne_zero left), ih, List.getElem?_cons_succ]

/-- `split` returns the component of the path model. -/
theorem split_scanned (path : CString) (n : Int) : Scanner.split path n = split path n.toNat := by
  rw [Scanner.split, split]
  by_cases none : n ≤ 0
  · rw [if_pos none, if_pos (Int.toNat_eq_zero.mpr none)]
  · have positive : n.toNat ≠ 0 := by omega
    obtain ⟨left, number⟩ := Nat.exists_eq_succ_of_ne_zero positive
    rw [if_neg none, if_neg positive, number, Nat.succ_eq_add_one, splitFrom_eq,
      Nat.add_sub_cancel]

/-- A path with a slash is what stands in front of the last one and what stands behind. -/
theorem exists_last_slash (inside : slash ∈ path) :
    ∃ front name, path = front ++ slash :: name ∧ slash ∉ name := by
  obtain ⟨behind, before, reversed, first⟩ :=
    List.eq_append_cons_of_mem (List.mem_reverse.mpr inside)
  refine ⟨before.reverse, behind.reverse, ?_, fun wrong => first (List.mem_reverse.mp wrong)⟩
  rw [← List.reverse_reverse path, reversed]
  simp

/-- `strrchr` finds nothing where there is no slash. -/
theorem strrchr_missing (noSlash : slash ∉ name) : Scanner.strrchr slash name = none := by
  induction name with
  | nil => rfl
  | cons char name ih =>
    have differs : char ≠ slash := Ne.symm (List.ne_of_not_mem_cons noSlash)
    rw [Scanner.strrchr, ih (List.not_mem_of_not_mem_cons noSlash)]
    exact if_neg differs

/-- It finds the last slash. -/
theorem strrchr_append (front : CString) (noSlash : slash ∉ name) :
    Scanner.strrchr slash (front ++ slash :: name) = some (slash :: name) := by
  induction front with
  | nil =>
    rw [List.nil_append, Scanner.strrchr, strrchr_missing noSlash]
    exact if_pos rfl
  | cons char front ih => rw [List.cons_append, Scanner.strrchr, ih]

/-- `get_name` returns what the path model does. -/
theorem getName_scanned (path : CString) : Scanner.getName path = getName path := by
  by_cases inside : slash ∈ path
  · obtain ⟨front, name, rfl, noSlash⟩ := exists_last_slash inside
    rw [Scanner.getName, strrchr_append front noSlash, getName, takeWhile_reverse front noSlash,
      List.reverse_reverse]
    rfl
  · have whole : path.reverse.takeWhile (· ≠ slash) = path.reverse := by
      apply List.takeWhile_eq_self_iff.mpr
      intro char found
      rw [decide_eq_true_iff]
      rintro rfl
      exact inside (List.mem_reverse.mp found)
    rw [Scanner.getName, strrchr_missing inside, getName, whole, List.reverse_reverse]

/-- The index moves back over the last component to its slash. -/
theorem endFrom_append (front : CString) (noSlash : slash ∉ name) {k : Nat} (within : k ≤ name.length) :
    Scanner.endFrom (front ++ slash :: name) (front.length + k) = front.length := by
  induction k with
  | zero =>
    rw [Nat.add_zero]
    cases front with
    | nil => rfl
    | cons char front =>
      have here : Scanner.charAt (char :: front ++ slash :: name) (front.length + 1) = slash := by
        simp [Scanner.charAt]
      rw [List.length_cons, Scanner.endFrom, if_neg (fun differs => differs here)]
  | succ k ih =>
    have here : Scanner.charAt (front ++ slash :: name) (front.length + k + 1) ≠ slash := by
      have inName : k < name.length := within
      have same : Scanner.charAt (front ++ slash :: name) (front.length + k + 1) = name[k] := by
        rw [Scanner.charAt, List.getD_eq_getElem?_getD, Nat.add_assoc,
          List.getElem?_append_right (Nat.le_add_right _ _), Nat.add_sub_cancel_left,
          List.getElem?_cons_succ, List.getElem?_eq_getElem inName, Option.getD_some]
      rw [same]
      intro wrong
      apply noSlash
      rw [← wrong]
      exact List.getElem_mem inName
    rw [← Nat.add_assoc, Scanner.endFrom, if_pos here, ih (by omega)]

/-- Without a slash it moves back to the beginning. -/
theorem endFrom_missing (noSlash : slash ∉ path) (i : Nat) : Scanner.endFrom path i = 0 := by
  induction i with
  | zero => rfl
  | succ i ih =>
    have here : Scanner.charAt path (i + 1) ≠ slash := by
      rw [Scanner.charAt, List.getD_eq_getElem?_getD]
      cases found : path[i + 1]? with
      | none => decide
      | some char =>
        rintro rfl
        exact noSlash (List.mem_of_getElem? found)
    rw [Scanner.endFrom, if_pos here, ih]

/-- `parent_path` returns what the path model does, for a path that its buffer holds. -/
theorem parentPath_scanned (filled : path ≠ []) (short : path.length ≤ pathMax) (l : Nat) :
    Scanner.parentPath path l = some (parentPath path l) := by
  rw [Scanner.parentPath, parentPath]
  by_cases top : l ≤ 1
  · rw [if_pos (show (l : Int) ≤ 1 by omega), if_pos top]
  · rw [if_neg (show ¬ (l : Int) ≤ 1 by omega), if_neg top, if_neg filled]
    by_cases inside : slash ∈ path
    · obtain ⟨front, name, rfl, noSlash⟩ := exists_last_slash inside
      rw [List.length_append, List.length_cons] at short
      have last : Scanner.endFrom (front ++ slash :: name) ((front ++ slash :: name).length - 1) =
          front.length := by
        rw [List.length_append, List.length_cons]
        exact endFrom_append front noSlash le_rfl
      dsimp only
      rw [last, dropWhile_reverse front noSlash, List.length_append, List.length_singleton]
      by_cases root : front.length = 0
      · rw [if_pos root, if_pos (by omega)]
      · rw [if_neg root, if_pos (show front.length < pathMax by omega),
          if_neg (show ¬ front.length + 1 ≤ 1 by omega), List.take_left, List.dropLast_concat]
    · have nothing : path.reverse.dropWhile (· ≠ slash) = [] := by
        apply List.dropWhile_eq_nil_iff.mpr
        intro char found
        rw [decide_eq_true_iff]
        rintro rfl
        exact inside (List.mem_reverse.mp found)
      dsimp only
      rw [endFrom_missing inside, if_pos rfl, nothing, if_pos (by decide)]

/-- The components of a path are counted, found by their numbers and told from what stands in front
of the last one, whose path with the last one is the path again. -/
theorem path_scanned (names : ∀ name ∈ components, IsName name) (nonempty : components ≠ [])
    (short : (joinPath components).length < pathMax) :
    Scanner.countL (joinPath components) = components.length ∧
      (∀ (i : Nat) (inside : i < components.length),
        Scanner.split (joinPath components) (i + 1) = some components[i]) ∧
      (∀ i : Int, components.length < i → Scanner.split (joinPath components) i = none) ∧
      Scanner.getName (joinPath components) = components.getLast nonempty ∧
      Scanner.parentPath (joinPath components) (Scanner.countL (joinPath components)) =
        some (if components.length = 1 then [slash] else joinPath components.dropLast) ∧
      Scanner.absolute (if components.length = 1 then [slash] else joinPath components.dropLast)
        (Scanner.getName (joinPath components)) = joinPath components := by
  have path := pathOf_of_ne_nil nonempty
  have parts := List.dropLast_append_getLast nonempty
  have before : ∀ name ∈ components.dropLast, IsName name :=
    fun name inside => names name (List.mem_of_mem_dropLast inside)
  have last : IsName (components.getLast nonempty) := names _ (List.getLast_mem nonempty)
  have longer := one_lt_joinPath names nonempty
  have counted : Scanner.countL (joinPath components) = components.length := by
    rw [countL_scanned, ← path, countL_pathOf names]
  have named : Scanner.getName (joinPath components) = components.getLast nonempty := by
    rw [getName_scanned, ← path]
    nth_rewrite 1 [← parts]
    exact getName_pathOf _ last
  have others : components.length = 1 ↔ components.dropLast = [] := by
    rw [← List.length_eq_zero_iff, List.length_dropLast]
    have positive := List.length_pos_of_ne_nil nonempty
    omega
  have parent : pathOf components.dropLast =
      if components.length = 1 then [slash] else joinPath components.dropLast := by
    rw [pathOf]
    by_cases single : components.length = 1
    · rw [if_pos single, if_pos (others.mp single)]
    · rw [if_neg single, if_neg (mt others.mpr single)]
  refine ⟨counted, ?_, ?_, named, ?_, ?_⟩
  · intro i inside
    rw [split_scanned, show ((i : Int) + 1).toNat = i + 1 by omega, ← path, split_pathOf names,
      List.getElem?_eq_getElem inside]
  · intro i behind
    obtain ⟨left, number⟩ : ∃ left, i.toNat = left + 1 := ⟨i.toNat - 1, by omega⟩
    rw [split_scanned, number, ← path, split_pathOf names]
    exact List.getElem?_eq_none (by omega)
  · have filled : joinPath components ≠ [] := List.ne_nil_of_length_pos (by omega)
    rw [parentPath_scanned filled short.le, countL_scanned, ← parent, ← path]
    nth_rewrite 1 2 [← parts]
    rw [parentPath_pathOf before last]
  · rw [named, ← parent, Scanner.absolute, countL_scanned, countL_pathOf before]
    have whole : joinPath components =
        joinPath components.dropLast ++ slash :: components.getLast nonempty := by
      nth_rewrite 1 [← parts]
      rw [joinPath_append, joinPath_cons, joinPath_nil, List.append_nil]
    have joined : (if 0 < components.dropLast.length then
        pathOf components.dropLast ++ slash :: components.getLast nonempty
        else pathOf components.dropLast ++ components.getLast nonempty) = joinPath components := by
      rw [whole]
      by_cases single : components.dropLast = []
      · rw [single]
        rfl
      · rw [if_pos (List.length_pos_of_ne_nil single), pathOf_of_ne_nil single]
    rw [joined, List.take_of_length_le (by omega)]

/-- The path `/a/bc`. -/
theorem path_scanned_nested :
    Scanner.countL [47, 97, 47, 98, 99] = 2 ∧
      (∀ (i : Nat) (inside : i < 2),
        Scanner.split [47, 97, 47, 98, 99] (i + 1) = some [[97], [98, 99]][i]) ∧
      (∀ i : Int, 2 < i → Scanner.split [47, 97, 47, 98, 99] i = none) ∧
      Scanner.getName [47, 97, 47, 98, 99] = [98, 99] ∧
      Scanner.parentPath [47, 97, 47, 98, 99] (Scanner.countL [47, 97, 47, 98, 99]) =
        some [47, 97] ∧
      Scanner.absolute [47, 97] (Scanner.getName [47, 97, 47, 98, 99]) = [47, 97, 47, 98, 99] :=
  @path_scanned [[97], [98, 99]] (by decide) (by decide) (by decide)

end Nbtrfs
