import Mathlib.Data.List.Basic
import Mathlib.Tactic.Common

/-!
# Hash maps with chained buckets

A table of chains of key-value pairs. A key lives in the chain of its hash; insertion puts a
pair at the head of the chain without looking for the key, removal unlinks the first pair of
the key, and assignment overwrites the value of the first pair. `Chained` says that each chain
holds keys of its own hash only, each once; under it the table is a finite map, and the
operations keep it when an inserted key is absent.
-/

namespace Chains

variable {κ β : Type}

/-- A table of chains, indexed by hash value. -/
abbrev Table (κ β : Type) := Nat → List (κ × β)

variable (hash : κ → Nat)

/-- Replace one chain. -/
def setChain (table : Table κ β) (slot : Nat) (chain : List (κ × β)) : Table κ β :=
  fun other => if other = slot then chain else table other

/-- The chain that is set. -/
@[simp] theorem setChain_same (table : Table κ β) (slot : Nat) (chain : List (κ × β)) :
    setChain table slot chain slot = chain := by simp [setChain]

/-- The other chains are kept. -/
@[simp] theorem setChain_other (table : Table κ β) (slot other : Nat) (chain : List (κ × β))
    (distinct : other ≠ slot) : setChain table slot chain other = table other := by
  simp [setChain, distinct]

/-- Every chain holds keys of its own hash, each once. -/
structure Chained (table : Table κ β) : Prop where
  /-- A pair is in the chain of its key. -/
  placed : ∀ slot, ∀ pair ∈ table slot, hash pair.1 = slot
  /-- No key occurs twice in a chain. -/
  distinct : ∀ slot, ((table slot).map Prod.fst).Nodup

/-- The table without chains is well chained. -/
theorem chained_empty : Chained hash (fun _ => [] : Table κ β) :=
  ⟨by simp, by simp⟩

variable [DecidableEq κ]

/-- Walk the chain of a key to its first pair. -/
def lookup (table : Table κ β) (key : κ) : Option β := (table (hash key)).lookup key

/-- Put a pair at the head of its chain. -/
def insert (table : Table κ β) (key : κ) (value : β) : Table κ β :=
  setChain table (hash key) ((key, value) :: table (hash key))

/-- Unlink the first pair of a key. -/
def erase (table : Table κ β) (key : κ) : Table κ β :=
  setChain table (hash key) ((table (hash key)).eraseP fun pair => pair.1 == key)

/-- Overwrite the value of the first pair of a key in one chain. -/
def assignFirst (key : κ) (value : β) : List (κ × β) → List (κ × β)
  | [] => []
  | pair :: rest => if pair.1 = key then (key, value) :: rest else pair :: assignFirst key value rest

/-- Overwrite the value of a key. -/
def assign (table : Table κ β) (key : κ) (value : β) : Table κ β :=
  setChain table (hash key) (assignFirst key value (table (hash key)))

/-- A chain answers nothing if and only if it holds no pair of the key. -/
theorem lookup_eq_none_iff {chain : List (κ × β)} {key : κ} :
    chain.lookup key = none ↔ key ∉ chain.map Prod.fst := by
  rw [List.lookup_eq_none_iff]
  constructor
  · intro absent inside
    obtain ⟨pair, held, rfl⟩ := List.mem_map.mp inside
    simpa using absent pair held
  · intro absent pair held
    exact bne_iff_ne.mpr fun same => absent (same ▸ List.mem_map_of_mem held)

/-- Unlinking a key of a chain leaves the answers for the other keys. -/
theorem lookup_eraseP_other {chain : List (κ × β)} {key other : κ} (differs : other ≠ key) :
    (chain.eraseP fun pair => pair.1 == key).lookup other = chain.lookup other := by
  induction chain with
  | nil => rfl
  | cons pair rest ih =>
    obtain ⟨first, held⟩ := pair
    by_cases same : first = key
    · subst same
      simp [List.lookup_cons, beq_false_of_ne differs]
    · simp [beq_false_of_ne same, List.lookup_cons, ih]

/-- Unlinking a key of a chain without repeated keys removes it. -/
theorem lookup_eraseP_same {chain : List (κ × β)} {key : κ}
    (distinct : (chain.map Prod.fst).Nodup) :
    (chain.eraseP fun pair => pair.1 == key).lookup key = none := by
  induction chain with
  | nil => rfl
  | cons pair rest ih =>
    obtain ⟨first, held⟩ := pair
    obtain ⟨fresh, restDistinct⟩ := List.nodup_cons.mp distinct
    by_cases same : first = key
    · subst same
      simpa [List.eraseP_cons] using lookup_eq_none_iff.mpr fresh
    · simp [beq_false_of_ne same, List.lookup_cons, beq_false_of_ne (Ne.symm same),
        ih restDistinct]

/-- The value found in a table is a pair of the key's chain. -/
theorem lookup_insert (table : Table κ β) (key other : κ) (value : β) :
    lookup hash (insert hash table key value) other =
      if other = key then some value else lookup hash table other := by
  unfold lookup insert
  by_cases same : other = key
  · subst same
    simp
  · by_cases collide : hash other = hash key
    · simp [collide, List.lookup_cons, beq_false_of_ne same, same]
    · simp [collide, same]

/-- Removing a key from a well chained table removes its answer only. -/
theorem lookup_erase {table : Table κ β} (chained : Chained hash table) (key other : κ) :
    lookup hash (erase hash table key) other =
      if other = key then none else lookup hash table other := by
  unfold lookup erase
  by_cases same : other = key
  · subst same
    simp [lookup_eraseP_same (chained.distinct _)]
  · by_cases collide : hash other = hash key
    · simp [collide, lookup_eraseP_other same, same]
    · simp [collide, same]

/-- Overwriting the first pair of a present key changes its answer. -/
theorem lookup_assignFirst_same {chain : List (κ × β)} {key : κ} {former : β}
    (found : chain.lookup key = some former) (value : β) :
    (assignFirst key value chain).lookup key = some value := by
  induction chain with
  | nil => cases found
  | cons pair rest ih =>
    obtain ⟨first, held⟩ := pair
    unfold assignFirst
    by_cases same : first = key
    · simp [same]
    · rw [List.lookup_cons, beq_false_of_ne (Ne.symm same)] at found
      rw [if_neg same, List.lookup_cons, beq_false_of_ne (Ne.symm same)]
      exact ih found

/-- Overwriting the value of a key leaves the answers for the other keys of its chain. -/
theorem lookup_assignFirst_other {chain : List (κ × β)} {key other : κ} (differs : other ≠ key)
    (value : β) : (assignFirst key value chain).lookup other = chain.lookup other := by
  induction chain with
  | nil => rfl
  | cons pair rest ih =>
    obtain ⟨first, held⟩ := pair
    unfold assignFirst
    by_cases same : first = key
    · rw [if_pos same, List.lookup_cons, List.lookup_cons, beq_false_of_ne differs, same,
        beq_false_of_ne differs]
    · rw [if_neg same, List.lookup_cons, List.lookup_cons, ih]

/-- Assignment to a present key changes its answer. -/
theorem lookup_assign_same {table : Table κ β} {key : κ} {former : β}
    (found : lookup hash table key = some former) (value : β) :
    lookup hash (assign hash table key value) key = some value := by
  unfold lookup assign
  rw [setChain_same]
  exact lookup_assignFirst_same found value

/-- Assignment leaves the answers for the other keys. -/
theorem lookup_assign_other {table : Table κ β} {key other : κ} (differs : other ≠ key) (value : β) :
    lookup hash (assign hash table key value) other = lookup hash table other := by
  unfold lookup assign
  by_cases collide : hash other = hash key
  · rw [collide, setChain_same, lookup_assignFirst_other differs]
  · rw [setChain_other _ _ _ _ collide]

/-- Assignment keeps the keys of a chain. -/
theorem keys_assignFirst (key : κ) (value : β) (chain : List (κ × β)) :
    (assignFirst key value chain).map Prod.fst = chain.map Prod.fst := by
  induction chain with
  | nil => rfl
  | cons pair rest ih =>
    unfold assignFirst
    split
    case isTrue same => rw [List.map_cons, List.map_cons, ← same]
    case isFalse => rw [List.map_cons, List.map_cons, ih]

/-- Assignment keeps the table well chained. -/
theorem chained_assign {table : Table κ β} (chained : Chained hash table) (key : κ) (value : β) :
    Chained hash (assign hash table key value) := by
  have keys : ∀ slot, ((assign hash table key value) slot).map Prod.fst =
      (table slot).map Prod.fst := by
    intro slot
    unfold assign
    by_cases same : slot = hash key
    · rw [same, setChain_same, keys_assignFirst]
    · rw [setChain_other _ _ _ _ same]
  constructor
  · intro slot pair inside
    have key_mem : pair.1 ∈ ((assign hash table key value) slot).map Prod.fst :=
      List.mem_map_of_mem inside
    rw [keys slot] at key_mem
    obtain ⟨former, held, same⟩ := List.mem_map.mp key_mem
    rw [← same]
    exact chained.placed slot former held
  · intro slot
    rw [keys slot]
    exact chained.distinct slot

/-- Insertion of an absent key keeps the table well chained. -/
theorem chained_insert {table : Table κ β} (chained : Chained hash table) (key : κ) (value : β)
    (absent : lookup hash table key = none) : Chained hash (insert hash table key value) := by
  constructor
  · intro slot pair inside
    by_cases same : slot = hash key
    · subst same
      simp only [insert, setChain_same, List.mem_cons] at inside
      rcases inside with rfl | old
      · rfl
      · exact chained.placed _ _ old
    · rw [insert, setChain_other _ _ _ _ same] at inside
      exact chained.placed _ _ inside
  · intro slot
    by_cases same : slot = hash key
    · subst same
      simp only [insert, setChain_same, List.map_cons, List.nodup_cons]
      exact ⟨lookup_eq_none_iff.mp absent, chained.distinct _⟩
    · rw [insert, setChain_other _ _ _ _ same]
      exact chained.distinct _

/-- Removal keeps the table well chained. -/
theorem chained_erase {table : Table κ β} (chained : Chained hash table) (key : κ) :
    Chained hash (erase hash table key) := by
  have sublist : ((table (hash key)).eraseP fun pair => pair.1 == key).Sublist (table (hash key)) :=
    List.eraseP_sublist
  constructor
  · intro slot pair inside
    by_cases same : slot = hash key
    · subst same
      rw [erase, setChain_same] at inside
      exact chained.placed _ _ (sublist.subset inside)
    · rw [erase, setChain_other _ _ _ _ same] at inside
      exact chained.placed _ _ inside
  · intro slot
    by_cases same : slot = hash key
    · subst same
      rw [erase, setChain_same]
      exact (sublist.map Prod.fst).nodup (chained.distinct _)
    · rw [erase, setChain_other _ _ _ _ same]
      exact chained.distinct _

end Chains
