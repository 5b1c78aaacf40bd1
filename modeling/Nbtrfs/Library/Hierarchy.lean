import Mathlib.Tactic

/-!
# Hierarchies of directories

Directories with entries under keys, and the walk from a directory along a list of keys. An entry is
another directory or a file; whether a walk may go on behind a file, and stays there, is a parameter.
If no directory is reached in two ways, then changing one entry changes the walks through that entry
and no others.
-/

namespace Hierarchy

variable {Dir Key File : Type}

/-- What a directory has under a key. -/
inductive Entry (Dir File : Type) where
  /-- Another directory. -/
  | directory (dir : Dir)
  /-- A file. -/
  | file (file : File)
deriving DecidableEq

/-- The walk along keys. `behind` are the keys that a walk may go on with behind a file that it has
found under a key. -/
def walk (behind : Key → List Key → Bool) (entries : Dir → Key → Option (Entry Dir File)) :
    Dir → List Key → Option (Entry Dir File)
  | dir, [] => some (.directory dir)
  | dir, key :: keys =>
    match entries dir key with
    | none => none
    | some (.directory next) => walk behind entries next keys
    | some (.file file) => if behind key keys then some (.file file) else none

/-- No directory is reached in two ways. -/
def Unshared (behind : Key → List Key → Bool) (entries : Dir → Key → Option (Entry Dir File))
    (root : Dir) : Prop :=
  ∀ keys keys' dir, walk behind entries root keys = some (.directory dir) →
    walk behind entries root keys' = some (.directory dir) → keys = keys'

section Walk

variable {behind : Key → List Key → Bool} {entries : Dir → Key → Option (Entry Dir File)}
  {root dir : Dir} {key : Key} {place keys : List Key}

/-- A walk through a directory goes on from there. -/
theorem walk_append (reached : walk behind entries root place = some (.directory dir))
    (keys : List Key) : walk behind entries root (place ++ keys) = walk behind entries dir keys := by
  induction place generalizing root with
  | nil =>
    obtain rfl := Entry.directory.inj (Option.some.inj reached)
    rfl
  | cons first place ih =>
    rw [List.cons_append, walk]
    rw [walk] at reached
    cases entry : entries root first with
    | none =>
      rw [entry] at reached
      cases reached
    | some found =>
      rw [entry] at reached
      cases found with
      | directory next => exact ih reached
      | file file =>
        dsimp only at reached
        split at reached
        · cases reached
        · cases reached

/-- A walk of one key. -/
theorem walk_single (dir : Dir) (key : Key) (ends : behind key [] = true) :
    walk behind entries dir [key] = entries dir key := by
  rw [walk]
  cases entries dir key with
  | none => rfl
  | some found =>
    cases found with
    | directory next => rfl
    | file file => exact if_pos ends

/-- The last step of a walk. -/
theorem walk_last (reached : walk behind entries root place = some (.directory dir))
    (ends : behind key [] = true) :
    walk behind entries root (place ++ [key]) = entries dir key := by
  rw [walk_append reached]
  exact walk_single dir key ends

/-- A directory is reached through a directory. -/
theorem walk_directory_last (reached : walk behind entries root (place ++ [key]) = some (.directory dir)) :
    ∃ above, walk behind entries root place = some (.directory above) ∧
      entries above key = some (.directory dir) := by
  induction place generalizing root with
  | nil =>
    refine ⟨root, rfl, ?_⟩
    rw [List.nil_append, walk] at reached
    cases entry : entries root key with
    | none =>
      rw [entry] at reached
      cases reached
    | some found =>
      rw [entry] at reached
      cases found with
      | directory next =>
        obtain rfl := Entry.directory.inj (Option.some.inj reached)
        rfl
      | file file =>
        dsimp only at reached
        split at reached
        · cases reached
        · cases reached
  | cons first place ih =>
    rw [List.cons_append, walk] at reached
    cases entry : entries root first with
    | none =>
      rw [entry] at reached
      cases reached
    | some found =>
      rw [entry] at reached
      cases found with
      | directory next =>
        obtain ⟨above, walked, under⟩ := ih reached
        refine ⟨above, ?_, under⟩
        rw [walk, entry]
        exact walked
      | file file =>
        dsimp only at reached
        split at reached
        · cases reached
        · cases reached

end Walk

/-- A walk goes on behind no file. -/
def ends : Key → List Key → Bool := fun _ keys => keys.isEmpty

section Ends

variable {behind : Key → List Key → Bool} {entries : Dir → Key → Option (Entry Dir File)}
  {root : Dir}

/-- Behind a file there is nothing. -/
theorem walk_ends_behind {front keys : List Key} {file : File} (more : keys ≠ [])
    (reached : walk ends entries root front = some (.file file)) :
    walk ends entries root (front ++ keys) = none := by
  induction front generalizing root with
  | nil => cases reached
  | cons first front ih =>
    rw [List.cons_append, walk]
    rw [walk] at reached
    cases entry : entries root first with
    | none => rfl
    | some found =>
      rw [entry] at reached
      cases found with
      | directory next => exact ih reached
      | file other =>
        have rest : front ++ keys ≠ [] := by simp [more]
        exact if_neg (by simp [ends, rest])

/-- A walk that may go on behind files ends where the one that may not ends, or behind a file. -/
theorem walk_iff_ends (stops : ∀ key, behind key [] = true) {keys : List Key}
    {entry : Entry Dir File} :
    walk behind entries root keys = some entry ↔ walk ends entries root keys = some entry ∨
      ∃ front key rest file, keys = front ++ key :: rest ∧ rest ≠ [] ∧ behind key rest = true ∧
        walk ends entries root (front ++ [key]) = some (.file file) ∧ entry = .file file := by
  induction keys generalizing root with
  | nil =>
    constructor
    · exact Or.inl
    · rintro (reached | ⟨front, key, rest, file, nothing, -⟩)
      · exact reached
      · exact absurd nothing.symm (by simp)
  | cons first keys ih =>
    rw [walk, walk]
    cases here : entries root first with
    | none =>
      constructor
      · exact fun wrong => by cases wrong
      · rintro (reached | ⟨front, key, rest, file, parts, -, -, reached, -⟩)
        · cases reached
        · cases front with
          | nil =>
            obtain ⟨rfl, -⟩ := List.cons.inj parts
            rw [List.nil_append, walk, here] at reached
            cases reached
          | cons other front =>
            obtain ⟨rfl, -⟩ := List.cons.inj parts
            rw [List.cons_append, walk, here] at reached
            cases reached
    | some found =>
      cases found with
      | directory next =>
        dsimp only
        rw [ih]
        constructor
        · rintro (reached | ⟨front, key, rest, file, rfl, more, goes, reached, same⟩)
          · exact Or.inl reached
          · refine Or.inr ⟨first :: front, key, rest, file, rfl, more, goes, ?_, same⟩
            rw [List.cons_append, walk, here]
            exact reached
        · rintro (reached | ⟨front, key, rest, file, parts, more, goes, reached, same⟩)
          · exact Or.inl reached
          · cases front with
            | nil =>
              obtain ⟨rfl, -⟩ := List.cons.inj parts
              rw [List.nil_append, walk, here] at reached
              cases reached
            | cons other front =>
              obtain ⟨rfl, rfl⟩ := List.cons.inj parts
              rw [List.cons_append, walk, here] at reached
              exact Or.inr ⟨front, key, rest, file, rfl, more, goes, reached, same⟩
      | file file =>
        dsimp only
        constructor
        · intro reached
          split at reached
          case isTrue goes =>
            obtain rfl := Option.some.inj reached
            cases keys with
            | nil => exact Or.inl (if_pos rfl)
            | cons second keys =>
              refine Or.inr ⟨[], first, second :: keys, file, rfl, by simp, goes, ?_, rfl⟩
              rw [List.nil_append, walk, here]
              exact if_pos rfl
          case isFalse => cases reached
        · rintro (reached | ⟨front, key, rest, other, parts, more, goes, reached, rfl⟩)
          · split at reached
            case isTrue empty =>
              obtain rfl : keys = [] := by simpa [ends] using empty
              rw [if_pos (stops first)]
              exact reached
            case isFalse => cases reached
          · cases front with
            | nil =>
              obtain ⟨rfl, rfl⟩ := List.cons.inj parts
              rw [List.nil_append, walk, here] at reached
              rw [if_pos goes]
              exact reached
            | cons second front =>
              obtain ⟨rfl, rfl⟩ := List.cons.inj parts
              rw [List.cons_append, walk, here] at reached
              have further : front ++ [key] ≠ [] := by simp
              dsimp only at reached
              rw [if_neg (by simp [ends])] at reached
              cases reached

end Ends

section Named

variable {Name : Type} {key : Name → Key} {names : Dir → Name → Option (Entry Dir File)}
  {entries : Dir → Key → Option (Entry Dir File)} {root : Dir}

/-- The walk along names is a walk along their keys. -/
theorem walk_named
    (under : ∀ dir name entry, names dir name = some entry → entries dir (key name) = some entry)
    {path : List Name} {entry : Entry Dir File} (reached : walk ends names root path = some entry) :
    walk ends entries root (path.map key) = some entry := by
  induction path generalizing root with
  | nil => exact reached
  | cons name path ih =>
    rw [walk] at reached
    rw [List.map_cons, walk]
    cases found : names root name with
    | none =>
      rw [found] at reached
      cases reached
    | some at_ =>
      rw [found] at reached
      rw [under root name at_ found]
      cases at_ with
      | directory next => exact ih reached
      | file file =>
        dsimp only at reached ⊢
        simpa [ends] using reached

/-- If every key is that of a name, a walk along keys is one along names. -/
theorem walk_spelled
    (spelled : ∀ dir under entry, entries dir under = some entry →
      ∃ name, names dir name = some entry ∧ key name = under)
    {keys : List Key} {entry : Entry Dir File} (reached : walk ends entries root keys = some entry) :
    ∃ path, path.map key = keys ∧ walk ends names root path = some entry := by
  induction keys generalizing root with
  | nil => exact ⟨[], rfl, reached⟩
  | cons first keys ih =>
    rw [walk] at reached
    cases found : entries root first with
    | none =>
      rw [found] at reached
      cases reached
    | some at_ =>
      rw [found] at reached
      obtain ⟨name, here, rfl⟩ := spelled root first at_ found
      cases at_ with
      | directory next =>
        obtain ⟨path, rfl, walked⟩ := ih reached
        refine ⟨name :: path, rfl, ?_⟩
        rw [walk, here]
        exact walked
      | file file =>
        dsimp only at reached
        split at reached
        case isTrue empty =>
          obtain rfl : keys = [] := by simpa [ends] using empty
          refine ⟨[name], rfl, ?_⟩
          rw [walk, here]
          exact reached
        case isFalse => cases reached

/-- If no two names of a directory have one key, two paths of one spelling are the same. -/
theorem walk_named_injective
    (distinct : ∀ dir name other, (names dir name).isSome → (names dir other).isSome →
      key name = key other → name = other)
    {path other : List Name} {entry entry' : Entry Dir File}
    (reached : walk ends names root path = some entry)
    (reached' : walk ends names root other = some entry') (same : path.map key = other.map key) :
    path = other := by
  induction path generalizing root other with
  | nil => exact (List.map_eq_nil_iff.mp same.symm).symm
  | cons name path ih =>
    cases other with
    | nil => exact absurd same (by simp)
    | cons name' other =>
      obtain ⟨first, rest⟩ := List.cons.inj same
      rw [walk] at reached reached'
      cases found : names root name with
      | none =>
        rw [found] at reached
        cases reached
      | some at_ =>
        cases found' : names root name' with
        | none =>
          rw [found'] at reached'
          cases reached'
        | some at_' =>
          obtain rfl := distinct root name name' (by rw [found]; rfl) (by rw [found']; rfl) first
          obtain rfl := Option.some.inj (found.symm.trans found')
          rw [found] at reached reached'
          cases at_ with
          | directory next => rw [ih reached reached' rest]
          | file file =>
            dsimp only at reached reached'
            split at reached
            case isTrue empty =>
              split at reached'
              case isTrue empty' =>
                have nothing : path = [] := by simpa [ends] using empty
                have nothing' : other = [] := by simpa [ends] using empty'
                rw [nothing, nothing']
              case isFalse => cases reached'
            case isFalse => cases reached

end Named

section Assign

variable [DecidableEq Dir] [DecidableEq Key]

/-- The entries with another one under a key of a directory. -/
def assign (entries : Dir → Key → Option (Entry Dir File)) (dir : Dir) (key : Key)
    (entry : Option (Entry Dir File)) : Dir → Key → Option (Entry Dir File) :=
  fun other under => if other = dir ∧ under = key then entry else entries other under

variable {behind : Key → List Key → Bool} {entries : Dir → Key → Option (Entry Dir File)}
  {root dir : Dir} {key : Key} {place : List Key} {entry : Option (Entry Dir File)}

/-- The entry that is assigned. -/
theorem assign_same (entries : Dir → Key → Option (Entry Dir File)) (dir : Dir) (key : Key)
    (entry : Option (Entry Dir File)) : assign entries dir key entry dir key = entry :=
  if_pos ⟨rfl, rfl⟩

/-- The other entries are kept. -/
theorem assign_other {other : Dir} {under : Key} (apart : ¬ (other = dir ∧ under = key)) :
    assign entries dir key entry other under = entries other under :=
  if_neg apart

/-- The walk from a directory on the way, if the whole walk does not go through the entry. -/
theorem walk_assign_from (unshared : Unshared behind entries root)
    (reached : walk behind entries root place = some (.directory dir)) {gone rest : List Key} {here : Dir}
    (walked : walk behind entries root gone = some (.directory here))
    (around : ¬ place ++ [key] <+: gone ++ rest) :
    walk behind (assign entries dir key entry) here rest = walk behind entries here rest := by
  induction rest generalizing gone here with
  | nil => rfl
  | cons next rest ih =>
    have apart : ¬ (here = dir ∧ next = key) := by
      rintro ⟨rfl, rfl⟩
      apply around
      rw [unshared gone place here walked reached]
      exact ⟨rest, by rw [List.append_assoc, List.singleton_append]⟩
    rw [walk, walk, assign_other apart]
    cases found : entries here next with
    | none => rfl
    | some at_ =>
      cases at_ with
      | file file => rfl
      | directory other =>
        have further : walk behind entries root (gone ++ [next]) = some (.directory other) := by
          rw [walk_append walked, walk, found]
          rfl
        have around' : ¬ place ++ [key] <+: (gone ++ [next]) ++ rest := by
          rw [List.append_assoc, List.singleton_append]
          exact around
        exact ih further around'

/-- A walk that does not go through the entry is not changed. -/
theorem walk_assign_around (unshared : Unshared behind entries root)
    (reached : walk behind entries root place = some (.directory dir)) {keys : List Key}
    (around : ¬ place ++ [key] <+: keys) :
    walk behind (assign entries dir key entry) root keys = walk behind entries root keys :=
  walk_assign_from unshared reached (show walk behind entries root [] = some (.directory root) from rfl)
    around

/-- The directory of the entry is reached as before. -/
theorem walk_assign_place (unshared : Unshared behind entries root)
    (reached : walk behind entries root place = some (.directory dir)) :
    walk behind (assign entries dir key entry) root place = some (.directory dir) := by
  rw [walk_assign_around unshared reached]
  · exact reached
  · intro inside
    have longer := inside.length_le
    rw [List.length_append, List.length_singleton] at longer
    omega

/-- A walk through the entry goes on from what the entry is now. -/
theorem walk_assign_through (unshared : Unshared behind entries root)
    (reached : walk behind entries root place = some (.directory dir)) (rest : List Key) :
    walk behind (assign entries dir key entry) root (place ++ [key] ++ rest) =
      match entry with
      | none => none
      | some (.directory next) => walk behind (assign entries dir key entry) next rest
      | some (.file file) => if behind key rest then some (.file file) else none := by
  rw [List.append_assoc, walk_append (walk_assign_place unshared reached), List.singleton_append, walk,
    assign_same]

/-- Removing an entry, or making it a file, brings no second way to a directory. -/
theorem Unshared.assign_file (unshared : Unshared behind entries root)
    (reached : walk behind entries root place = some (.directory dir))
    (noDirectory : ∀ next, entry ≠ some (.directory next)) :
    Unshared behind (assign entries dir key entry) root := by
  have former : ∀ keys there,
      walk behind (assign entries dir key entry) root keys = some (.directory there) →
        walk behind entries root keys = some (.directory there) := by
    intro keys there walked
    by_cases through : place ++ [key] <+: keys
    · obtain ⟨rest, rfl⟩ := through
      rw [walk_assign_through unshared reached] at walked
      cases entry with
      | none => cases walked
      | some found =>
        cases found with
        | directory next => exact absurd rfl (noDirectory next)
        | file file =>
          dsimp only at walked
          split at walked
          · cases walked
          · cases walked
    · rw [walk_assign_around unshared reached through] at walked
      exact walked
  intro keys keys' there walked walked'
  exact unshared keys keys' there (former keys there walked) (former keys' there walked')

/-- A walk through a new directory without entries ends there. -/
theorem walk_assign_new {new : Dir} (unshared : Unshared behind entries root)
    (reached : walk behind entries root place = some (.directory dir))
    (empty : ∀ key, entries new key = none) (apart : new ≠ dir) (rest : List Key) :
    walk behind (assign entries dir key (some (.directory new))) root (place ++ [key] ++ rest) =
      if rest = [] then some (.directory new) else none := by
  rw [walk_assign_through unshared reached]
  cases rest with
  | nil => rfl
  | cons next rest =>
    dsimp only
    rw [walk, assign_other (fun same => apart same.1), empty, if_neg (List.cons_ne_nil next rest)]

/-- A new directory without entries is reached in one way. -/
theorem Unshared.assign_new {new : Dir} (unshared : Unshared behind entries root)
    (reached : walk behind entries root place = some (.directory dir))
    (empty : ∀ key, entries new key = none) (apart : new ≠ dir)
    (fresh : ∀ keys, walk behind entries root keys ≠ some (.directory new)) :
    Unshared behind (assign entries dir key (some (.directory new))) root := by
  have former : ∀ keys there,
      walk behind (assign entries dir key (some (.directory new))) root keys = some (.directory there) →
        (keys = place ++ [key] ∧ there = new) ∨
          walk behind entries root keys = some (.directory there) := by
    intro keys there walked
    by_cases through : place ++ [key] <+: keys
    · obtain ⟨rest, rfl⟩ := through
      rw [walk_assign_new unshared reached empty apart] at walked
      split at walked
      · rename_i ends
        obtain rfl := Entry.directory.inj (Option.some.inj walked)
        exact Or.inl ⟨by rw [ends, List.append_nil], rfl⟩
      · cases walked
    · rw [walk_assign_around unshared reached through] at walked
      exact Or.inr walked
  intro keys keys' there walked walked'
  rcases former keys there walked with ⟨rfl, rfl⟩ | before
  · rcases former keys' there walked' with ⟨rfl, -⟩ | before'
    · rfl
    · exact absurd before' (fresh keys')
  · rcases former keys' there walked' with ⟨rfl, rfl⟩ | before'
    · exact absurd before (fresh keys)
    · exact unshared keys keys' there before before'

end Assign

end Hierarchy
