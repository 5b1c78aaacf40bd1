import Mathlib.Logic.Function.Basic
import Mathlib.Tactic

/-!
# Trees of names

A tree of names says of each path whether it is a directory, a file or nothing. Names are added to
directories, and a name is removed with all that is below it. A store that walks along keys of the names
spells the tree if every path of the tree leads to what it is, and a path to nothing leads nowhere unless
it goes on behind a file. Adding and removing names keep this as long as the keys are distinct.
-/

namespace NameTree

variable {Name Key Id : Type}

/-- What a path is. -/
inductive Node (Id : Type) where
  /-- A directory. -/
  | directory (id : Id)
  /-- A file. -/
  | file (id : Id)
deriving DecidableEq

/-- The tree with a path added. -/
def add [DecidableEq Name] (tree : List Name → Option (Node Id)) (path : List Name) (node : Node Id) :
    List Name → Option (Node Id) :=
  Function.update tree path (some node)

/-- The tree without a path and all that is below it. -/
def remove [DecidableEq Name] (tree : List Name → Option (Node Id)) (path : List Name) :
    List Name → Option (Node Id) :=
  fun other => if path <+: other then none else tree other

/-- The root is a directory, and so is what a path is in. -/
structure WellFormed (tree : List Name → Option (Node Id)) : Prop where
  /-- The root. -/
  root : ∃ id, tree [] = some (.directory id)
  /-- What a path is in. -/
  above : ∀ place name, tree (place ++ [name]) ≠ none → ∃ id, tree place = some (.directory id)

/-- A path goes on behind a file. -/
def Behind (tree : List Name → Option (Node Id)) (path : List Name) : Prop :=
  ∃ front rest id, rest ≠ [] ∧ path = front ++ rest ∧ tree front = some (.file id)

/-- A walk along keys leads to what the paths of a tree are. -/
structure Spells (key : Name → Key) (walk : List Key → Option (Node Id))
    (tree : List Name → Option (Node Id)) : Prop where
  /-- A path of the tree leads to what it is. -/
  named : ∀ path node, tree path = some node → walk (path.map key) = some node
  /-- Another path leads nowhere, but for those behind a file. -/
  nothing : ∀ path, tree path = none → ¬ Behind tree path → walk (path.map key) = none

section

variable {tree : List Name → Option (Node Id)} {place path : List Name} {name : Name} {node : Node Id}
  {id : Id}

/-- What is above a path is a directory. -/
theorem WellFormed.directory (well : WellFormed tree) {front rest : List Name} (below : rest ≠ [])
    (named : tree (front ++ rest) ≠ none) : ∃ id, tree front = some (.directory id) := by
  induction rest using List.reverseRecOn with
  | nil => exact absurd rfl below
  | append_singleton rest name ih =>
    rw [← List.append_assoc] at named
    obtain ⟨id, above⟩ := well.above (front ++ rest) name named
    by_cases last : rest = []
    · rw [last, List.append_nil] at above
      exact ⟨id, above⟩
    · apply ih last
      rw [above]
      exact Option.some_ne_none _

/-- There is nothing below nothing. -/
theorem WellFormed.nothing_below (well : WellFormed tree) (absent : tree path = none)
    (rest : List Name) : tree (path ++ rest) = none := by
  by_cases here : rest = []
  · rw [here, List.append_nil, absent]
  · by_contra named
    obtain ⟨id, directory⟩ := well.directory here named
    rw [absent] at directory
    cases directory

/-- A directory is not behind a file, and neither is what may be added to it. -/
theorem WellFormed.absent_not_behind (well : WellFormed tree)
    (directory : tree place = some (.directory id)) : ¬ Behind tree (place ++ [name]) := by
  rintro ⟨front, rest, other, below, same, file⟩
  obtain ⟨between, last, rfl⟩ : ∃ between last, rest = between ++ [last] :=
    ⟨rest.dropLast, rest.getLast below, (List.dropLast_append_getLast below).symm⟩
  rw [← List.append_assoc] at same
  obtain ⟨rfl, -⟩ := List.append_inj' same rfl
  by_cases here : between = []
  · rw [here, List.append_nil, file] at directory
    cases directory
  · have named : tree (front ++ between) ≠ none := by
      rw [directory]
      exact Option.some_ne_none _
    obtain ⟨above, above_eq⟩ := well.directory here named
    rw [file] at above_eq
    cases above_eq

end

section

variable [DecidableEq Name] {tree : List Name → Option (Node Id)} {place path : List Name} {name : Name}
  {node : Node Id} {id : Id}

/-- A name that is added to a directory. -/
theorem WellFormed.add (well : WellFormed tree) (directory : tree place = some (.directory id))
    (absent : tree (place ++ [name]) = none) :
    WellFormed (NameTree.add tree (place ++ [name]) node) := by
  have kept : ∀ {other : List Name} {at_ : Id}, tree other = some (.directory at_) →
      NameTree.add tree (place ++ [name]) node other = some (.directory at_) := by
    intro other at_ here
    rw [NameTree.add, Function.update_of_ne, here]
    rintro rfl
    rw [absent] at here
    cases here
  constructor
  · obtain ⟨root, here⟩ := well.root
    exact ⟨root, kept here⟩
  · intro other last named
    by_cases same : other ++ [last] = place ++ [name]
    · obtain ⟨rfl, -⟩ := List.append_inj' same rfl
      exact ⟨id, kept directory⟩
    · rw [NameTree.add, Function.update_of_ne same] at named
      obtain ⟨above, here⟩ := well.above other last named
      exact ⟨above, kept here⟩

/-- A path that is removed. -/
theorem WellFormed.remove (well : WellFormed tree) (proper : path ≠ []) :
    WellFormed (NameTree.remove tree path) := by
  constructor
  · obtain ⟨root, here⟩ := well.root
    refine ⟨root, ?_⟩
    rw [NameTree.remove, if_neg (fun above => proper (List.prefix_nil.mp above)), here]
  · intro other last named
    unfold NameTree.remove at named ⊢
    split at named
    case isTrue => exact absurd rfl named
    case isFalse outside =>
      rw [if_neg fun above => outside (above.trans (List.prefix_append other [last]))]
      exact well.above other last named

variable {key : Name → Key} {walk walk' : List Key → Option (Node Id)}

/-- A walk that gets a new name and keeps the rest. -/
theorem Spells.add (spells : Spells key walk tree) (well : WellFormed tree)
    (injective : Function.Injective key) (absent : tree (place ++ [name]) = none)
    (around : ∀ keys, ¬ (place ++ [name]).map key <+: keys → walk' keys = walk keys)
    (here : walk' ((place ++ [name]).map key) = some node)
    (below : ∀ id, node = .directory id → ∀ rest ≠ [],
      walk' ((place ++ [name]).map key ++ rest) = none) :
    Spells key walk' (NameTree.add tree (place ++ [name]) node) := by
  have elsewhere : ∀ {other : List Name}, ¬ (place ++ [name]) <+: other →
      walk' (other.map key) = walk (other.map key) := by
    intro other outside
    apply around
    rw [List.prefix_map_iff_of_injective injective]
    exact outside
  constructor
  · intro other at_ named
    unfold NameTree.add at named
    by_cases same : other = place ++ [name]
    · rw [same, Function.update_self] at named
      rw [same, here, named]
    · rw [Function.update_of_ne same] at named
      rw [elsewhere, spells.named other at_ named]
      rintro ⟨rest, rfl⟩
      rw [well.nothing_below absent] at named
      cases named
  · intro other nothing notBehind
    have kept : ∀ {front : List Name} {file : Id}, tree front = some (.file file) →
        NameTree.add tree (place ++ [name]) node front = some (.file file) := by
      intro front file named
      rw [NameTree.add, Function.update_of_ne, named]
      rintro rfl
      rw [absent] at named
      cases named
    have differs : other ≠ place ++ [name] := by
      rintro rfl
      rw [NameTree.add, Function.update_self] at nothing
      cases nothing
    by_cases under : place ++ [name] <+: other
    · obtain ⟨rest, rfl⟩ := under
      have more : rest ≠ [] := by
        rintro rfl
        exact differs (List.append_nil _)
      cases node with
      | directory id =>
        rw [List.map_append]
        apply below id rfl
        exact fun empty => more (List.map_eq_nil_iff.mp empty)
      | file id =>
        apply absurd _ notBehind
        refine ⟨place ++ [name], rest, id, more, rfl, ?_⟩
        rw [NameTree.add, Function.update_self]
    · rw [NameTree.add, Function.update_of_ne differs] at nothing
      rw [elsewhere under]
      apply spells.nothing other nothing
      rintro ⟨front, rest, id, more, rfl, file⟩
      exact notBehind ⟨front, rest, id, more, rfl, kept file⟩

/-- A walk that loses a name and keeps the rest. -/
theorem Spells.remove (spells : Spells key walk tree) (injective : Function.Injective key)
    (around : ∀ keys, ¬ path.map key <+: keys → walk' keys = walk keys)
    (through : ∀ rest, walk' (path.map key ++ rest) = none) :
    Spells key walk' (NameTree.remove tree path) := by
  constructor
  · intro other node named
    unfold NameTree.remove at named
    split at named
    case isTrue => cases named
    case isFalse outside =>
      rw [around, spells.named other node named]
      rw [List.prefix_map_iff_of_injective injective]
      exact outside
  · intro other nothing notBehind
    by_cases under : path <+: other
    · obtain ⟨rest, rfl⟩ := under
      rw [List.map_append]
      exact through _
    · rw [NameTree.remove, if_neg under] at nothing
      rw [around]
      · apply spells.nothing other nothing
        rintro ⟨front, rest, id, more, rfl, file⟩
        refine notBehind ⟨front, rest, id, more, rfl, ?_⟩
        rw [NameTree.remove, if_neg fun above => under (above.trans (List.prefix_append front rest)), file]
      · rw [List.prefix_map_iff_of_injective injective]
        exact under

end

end NameTree
