import Nbtrfs.Cache.Lists

/-!
# The primary cache index as a finite map

Runs of `pci_insert`, `pci_delete` and `pci_lookup` against a map from block numbers to
indices. `pci_delete` tells the first node of a chain from a later one by its local `prev`,
which its loop leaves as it was on entry when the first node is the block's; `pci_lookup`
returns the stored 64-bit index as an `int`.
-/

namespace Nbtrfs

/-- The `int` that `pci_lookup` returns: the stored index converted, or -1. -/
def pciLookupInt (hashmap : PciHm) (blockNumber : Nat) : Int :=
  match pciLookup hashmap blockNumber with
  | none => -1
  | some index => (index : Int).bmod (2 ^ 32)

/-- A call on the index. `stray` says that `prev` does not hold NULL when `pci_delete` is
entered. -/
inductive PciCall where
  | insert (blockNumber index : Nat)
  | delete (blockNumber : Nat) (stray : Bool)
  | lookup (blockNumber : Nat)

/-- The index after a call. -/
def pciCall (hashmap : PciHm) : PciCall → Option PciHm
  | .insert blockNumber index => some (pciInsert hashmap blockNumber index)
  | .delete blockNumber stray => pciDelete stray hashmap blockNumber
  | .lookup _ => some hashmap

/-- The index after a sequence of calls. -/
def pciRun (hashmap : PciHm) (calls : List PciCall) : Option PciHm :=
  calls.foldlM pciCall hashmap

/-- A finite map from block numbers to indices. -/
abbrev IndexMap := Nat → Option Nat

/-- What a call does to the map. -/
def IndexMap.call (map : IndexMap) : PciCall → IndexMap
  | .insert blockNumber index => Function.update map blockNumber (some index)
  | .delete blockNumber _ => Function.update map blockNumber none
  | .lookup _ => map

/-- The map after a sequence of calls. -/
def IndexMap.run (map : IndexMap) (calls : List PciCall) : IndexMap :=
  calls.foldl IndexMap.call map

/-- What a lookup in the map answers. -/
def IndexMap.answer (map : IndexMap) (blockNumber : Nat) : Int :=
  match map blockNumber with
  | none => -1
  | some index => index

/-- The calls that a sequence may make: 64-bit arguments, insertion of absent blocks and
deletion of present ones. -/
def IndexMap.Permits (map : IndexMap) : List PciCall → Prop
  | [] => True
  | call :: rest =>
    (match call with
      | .insert blockNumber index =>
        blockNumber < 2 ^ 64 ∧ index < 2 ^ 64 ∧ map blockNumber = none
      | .delete blockNumber _ => blockNumber < 2 ^ 64 ∧ map blockNumber ≠ none
      | .lookup blockNumber => blockNumber < 2 ^ 64) ∧
    IndexMap.Permits (map.call call) rest

/-- Every lookup answers as in the map. -/
def PciAnswers (hashmap : PciHm) (map : IndexMap) : Prop :=
  ∀ blockNumber, pciLookupInt hashmap blockNumber = map.answer blockNumber

/-- What the index must meet before a call: an inserted index fits an `int`, and `prev` is
NULL when the deleted block is the first of its chain. -/
def PciReady (hashmap : PciHm) : PciCall → Prop
  | .insert _ index => index < 2 ^ 31
  | .delete blockNumber stray =>
    ((hashmap (hashmapBucket blockNumber)).head?.map Prod.fst = some blockNumber → stray = false)
  | .lookup _ => True

/-- Every call of a sequence finds the index ready. -/
def PciReadyAll (hashmap : PciHm) : List PciCall → Prop
  | [] => True
  | call :: rest =>
    PciReady hashmap call ∧ ∀ after, pciCall hashmap call = some after → PciReadyAll after rest

/-- All numbers of a map fit an `int`. -/
def IndexMap.Small (map : IndexMap) : Prop :=
  ∀ blockNumber index, map blockNumber = some index → index < 2 ^ 31

/-- The index holds the pairs of the map, each once. -/
structure PciStores (hashmap : PciHm) (map : IndexMap) : Prop where
  chained : Chains.Chained hashmapBucket hashmap
  same : ∀ blockNumber, pciLookup hashmap blockNumber = map blockNumber

/-- The empty index stores the empty map. -/
theorem pciStores_empty : PciStores (fun _ => []) (fun _ => none) :=
  ⟨Chains.chained_empty hashmapBucket, fun _ => rfl⟩

/-- Deletion of a block that is not the first of its chain never reads the `prev` it was
entered with. -/
theorem pciDelete_behind {hashmap : PciHm} {blockNumber : Nat}
    (behind : (hashmap (hashmapBucket blockNumber)).head?.map Prod.fst ≠ some blockNumber)
    (stray : Bool) : pciDelete stray hashmap blockNumber = pciDelete false hashmap blockNumber := by
  unfold pciDelete
  cases chain : hashmap (hashmapBucket blockNumber) with
  | nil => rfl
  | cons first rest =>
    have other : first.1 ≠ blockNumber := by simpa [chain] using behind
    simp only [if_neg other]

/-- Deletion of the first block of a chain with something in `prev` is undefined. -/
theorem pciDelete_first {hashmap : PciHm} {blockNumber : Nat}
    (first : (hashmap (hashmapBucket blockNumber)).head?.map Prod.fst = some blockNumber) :
    pciDelete true hashmap blockNumber = none := by
  unfold pciDelete
  cases chain : hashmap (hashmapBucket blockNumber) with
  | nil => rfl
  | cons pair rest =>
    have same : pair.1 = blockNumber := by simpa [chain] using first
    simp only [if_pos same, if_true]

/-- An index answers a stored 64-bit number if and only if it fits an `int`. -/
theorem bmod_eq_iff {index : Nat} :
    (index : Int).bmod (2 ^ 32) = index ↔ index < 2 ^ 31 := by
  rw [Int.bmod_def]
  split <;> omega

variable {hashmap after : PciHm} {map : IndexMap} {next : PciCall} {calls : List PciCall}

/-- An index that stores a map answers it when all stored numbers fit an `int`. -/
theorem PciStores.answers (stores : PciStores hashmap map) (small : map.Small) :
    PciAnswers hashmap map := by
  intro blockNumber
  unfold pciLookupInt IndexMap.answer
  rw [stores.same blockNumber]
  cases held : map blockNumber with
  | none => rfl
  | some index =>
    have fits : index < 2 ^ 31 := small blockNumber index held
    exact bmod_eq_iff.mpr fits

/-- A permitted call that finds the index ready is defined and does what it does to the
map. -/
theorem PciStores.call (stores : PciStores hashmap map) (permitted : map.Permits (next :: calls))
    (ready : PciReady hashmap next) :
    ∃ after, pciCall hashmap next = some after ∧ PciStores after (map.call next) := by
  cases next with
  | insert blockNumber index =>
    have absent : pciLookup hashmap blockNumber = none := by
      rw [stores.same]
      exact permitted.1.2.2
    refine ⟨pciInsert hashmap blockNumber index, rfl, ?_, ?_⟩
    · exact Chains.chained_insert hashmapBucket stores.chained blockNumber index absent
    · intro other
      have found := Chains.lookup_insert hashmapBucket hashmap blockNumber other index
      rw [pciLookup, pciInsert, found, IndexMap.call, Function.update_apply]
      split
      · rfl
      · exact stores.same other
  | delete blockNumber stray =>
    have present : map blockNumber ≠ none := permitted.1.2
    obtain ⟨index, held⟩ := Option.ne_none_iff_exists'.mp present
    rw [← stores.same] at held
    have run : pciDelete stray hashmap blockNumber =
        some (Chains.erase hashmapBucket hashmap blockNumber) := by
      by_cases first : (hashmap (hashmapBucket blockNumber)).head?.map Prod.fst = some blockNumber
      · rw [ready first]
        exact pciDelete_present held
      · rw [pciDelete_behind first]
        exact pciDelete_present held
    refine ⟨_, run, ?_, ?_⟩
    · exact Chains.chained_erase hashmapBucket stores.chained blockNumber
    · intro other
      have found := Chains.lookup_erase hashmapBucket stores.chained blockNumber other
      rw [pciLookup, found, IndexMap.call, Function.update_apply]
      split
      · rfl
      · exact stores.same other
  | lookup blockNumber => exact ⟨hashmap, rfl, stores⟩

/-- A call on a ready index keeps the numbers small. -/
theorem IndexMap.Small.call (small : map.Small) (ready : PciReady hashmap next) :
    (map.call next).Small := by
  intro other index held
  cases next with
  | insert blockNumber number =>
    rw [IndexMap.call, Function.update_apply] at held
    split at held
    · have same : number = index := Option.some.inj held
      exact same ▸ ready
    · exact small other index held
  | delete blockNumber stray =>
    rw [IndexMap.call, Function.update_apply] at held
    split at held
    · cases held
    · exact small other index held
  | lookup blockNumber => exact small other index held

/-- A call that is defined and leaves an index that answers the map found the index ready. -/
theorem PciAnswers.ready (run : pciCall hashmap next = some after)
    (answers : PciAnswers after (map.call next)) : PciReady hashmap next := by
  cases next with
  | insert blockNumber index =>
    have stored : pciLookup after blockNumber = some index := by
      have same : pciInsert hashmap blockNumber index = after := Option.some.inj run
      rw [← same]
      have found := Chains.lookup_insert hashmapBucket hashmap blockNumber blockNumber index
      rw [if_pos rfl] at found
      exact found
    have answer := answers blockNumber
    unfold pciLookupInt IndexMap.answer at answer
    rw [stored] at answer
    simp only [IndexMap.call, Function.update_self] at answer
    exact bmod_eq_iff.mp answer
  | delete blockNumber stray =>
    intro first
    cases stray with
    | false => rfl
    | true =>
      rw [pciCall, pciDelete_first first] at run
      cases run
  | lookup blockNumber => exact True.intro

/-- Along every prefix of the calls the index is defined and answers the map. -/
def PciExact (hashmap : PciHm) (map : IndexMap) (calls : List PciCall) : Prop :=
  ∀ count, ∃ after, pciRun hashmap (calls.take count) = some after ∧
    PciAnswers after (map.run (calls.take count))

/-- A run is exact if and only if its first call is and the rest is. -/
theorem pciExact_cons : PciExact hashmap map (next :: calls) ↔
    PciAnswers hashmap map ∧
      ∃ after, pciCall hashmap next = some after ∧ PciExact after (map.call next) calls := by
  constructor
  · intro exact
    obtain ⟨start, begun, answers⟩ := exact 0
    cases begun
    obtain ⟨first, one, -⟩ := exact 1
    have stepped : pciCall hashmap next = some first := by simpa [pciRun] using one
    refine ⟨answers, first, stepped, fun count => ?_⟩
    obtain ⟨last, run, right⟩ := exact (count + 1)
    refine ⟨last, ?_, right⟩
    simpa [pciRun, stepped] using run
  · rintro ⟨answers, first, stepped, exact⟩ count
    cases count with
    | zero => exact ⟨hashmap, rfl, answers⟩
    | succ count =>
      obtain ⟨last, run, right⟩ := exact count
      refine ⟨last, ?_, right⟩
      simpa [pciRun, stepped] using run

/-- A permitted run from an index that stores a map is exact if and only if every call finds
the index ready. -/
theorem PciStores.exact_iff (stores : PciStores hashmap map) (small : map.Small)
    (permitted : map.Permits calls) :
    PciExact hashmap map calls ↔ PciReadyAll hashmap calls := by
  induction calls generalizing hashmap map with
  | nil =>
    constructor
    · intro _
      exact True.intro
    · intro _ count
      rw [List.take_nil]
      exact ⟨hashmap, rfl, stores.answers small⟩
  | cons next rest ih =>
    rw [pciExact_cons]
    constructor
    · rintro ⟨-, after, stepped, exact⟩
      obtain ⟨same, begun, answers⟩ := exact 0
      cases begun
      have ready := PciAnswers.ready stepped answers
      obtain ⟨last, again, kept⟩ := stores.call permitted ready
      refine ⟨ready, fun other run => ?_⟩
      have agree : after = last := Option.some.inj (stepped.symm.trans again)
      have equal : after = other := Option.some.inj (stepped.symm.trans run)
      rw [← equal]
      exact (ih (agree ▸ kept) (small.call ready) permitted.2).mp exact
    · rintro ⟨ready, later⟩
      obtain ⟨last, stepped, kept⟩ := stores.call permitted ready
      refine ⟨stores.answers small, last, stepped, ?_⟩
      exact (ih kept (small.call ready) permitted.2).mpr (later last stepped)

/-- Insertions of absent blocks, deletions of present ones and lookups from the empty index
behave as on a finite map, at every point of the run, if and only if every inserted index
fits an `int` and no first block of a chain is deleted with something other than NULL in
`prev`. -/
theorem pciRun_exact_iff (calls : List PciCall)
    (permitted : IndexMap.Permits (fun _ => none) calls) :
    PciExact (fun _ => []) (fun _ => none) calls ↔ PciReadyAll (fun _ => []) calls :=
  pciStores_empty.exact_iff nofun permitted

/-- Two colliding blocks: the later one is first in the chain and deleted with NULL in
`prev`, the earlier one is found. -/
theorem pciRun_exact_iff_collision :
    let calls := [.insert 1 0, .insert 33 1, .delete 33 false, .lookup 1]
    IndexMap.Permits (fun _ => none) calls ∧
      (PciExact (fun _ => []) (fun _ => none) calls ↔ PciReadyAll (fun _ => []) calls) := by
  have permitted : IndexMap.Permits (fun _ => none)
      [.insert 1 0, .insert 33 1, .delete 33 false, .lookup 1] := by
    simp [IndexMap.Permits, IndexMap.call]
  exact ⟨permitted, pciRun_exact_iff _ permitted⟩

/-- A block that was just inserted is not deleted when `prev` holds something. -/
theorem pciRun_exact_false :
    ¬ ∀ calls, IndexMap.Permits (fun _ => none) calls →
      PciExact (fun _ => []) (fun _ => none) calls := by
  intro all
  have permitted : IndexMap.Permits (fun _ => none) [.insert 5 0, .delete 5 true] := by
    simp [IndexMap.Permits, IndexMap.call]
  obtain ⟨after, run, -⟩ := all _ permitted 2
  have undefined : pciRun (fun _ => []) [.insert 5 0, .delete 5 true] = none := by
    decide +kernel
  simp [undefined] at run

end Nbtrfs
