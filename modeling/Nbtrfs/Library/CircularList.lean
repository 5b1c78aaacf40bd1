import Mathlib.Data.List.Nodup
import Mathlib.Data.List.Induction
import Mathlib.Tactic.Common

/-!
# Circular doubly linked lists

A heap of nodes with `next` and `prev` addresses, a head address and a size. `push` inserts
a node between the head and its predecessor; `unlink` takes out the node at an address.
`CircularList.Holds` says that the heap stores a list of addressed values, head first, as a closed
chain. The two operations are proved against that list: `push` is `cons` and `unlink` erases
one entry, wherever it stands. A circular chain has no first node, so every case of `unlink`
is the case of the first node after a rotation.
-/

namespace CircularList

/-- A list node: a value and the addresses of its two neighbours. -/
structure Node (α : Type) where
  /-- The stored value. -/
  val : α
  /-- Address of the following node. -/
  next : Nat
  /-- Address of the preceding node. -/
  prev : Nat

variable {α : Type}

/-- Allocated nodes by address. -/
abbrev Heap (α : Type) := Nat → Option (Node α)

/-- Store a node at an address. -/
def Heap.put (heap : Heap α) (address : Nat) (node : Node α) : Heap α :=
  fun other => if other = address then some node else heap other

/-- Release an address. -/
def Heap.free (heap : Heap α) (address : Nat) : Heap α :=
  fun other => if other = address then none else heap other

/-- Assign the `next` field of an allocated node. -/
def Heap.setNext (heap : Heap α) (address target : Nat) : Option (Heap α) :=
  (heap address).map fun node => heap.put address { node with next := target }

/-- Assign the `prev` field of an allocated node. -/
def Heap.setPrev (heap : Heap α) (address target : Nat) : Option (Heap α) :=
  (heap address).map fun node => heap.put address { node with prev := target }

/-- The node that is put. -/
@[simp] theorem Heap.put_same (heap : Heap α) (address : Nat) (node : Node α) :
    heap.put address node address = some node := by simp [Heap.put]

/-- The other nodes are kept. -/
@[simp] theorem Heap.put_other (heap : Heap α) (address other : Nat) (node : Node α)
    (distinct : other ≠ address) : heap.put address node other = heap other := by
  simp [Heap.put, distinct]

/-- Freeing a node keeps the others. -/
@[simp] theorem Heap.free_other (heap : Heap α) (address other : Nat)
    (distinct : other ≠ address) : heap.free address other = heap other := by
  simp [Heap.free, distinct]

/-- First address of a list of addressed values, or a default. -/
def firstOr : List (Nat × α) → Nat → Nat
  | [], default => default
  | entry :: _, _ => entry.1

/-- Last address of a list of addressed values, or a default. -/
def lastOr : List (Nat × α) → Nat → Nat
  | [], default => default
  | entry :: rest, _ => lastOr rest entry.1

/-- The first address of a list with an entry in front. -/
@[simp] theorem firstOr_cons (entry : Nat × α) (rest : List (Nat × α)) (default : Nat) :
    firstOr (entry :: rest) default = entry.1 := rfl

/-- The last address of a list with an entry in front. -/
@[simp] theorem lastOr_cons (entry : Nat × α) (rest : List (Nat × α)) (default : Nat) :
    lastOr (entry :: rest) default = lastOr rest entry.1 := rfl

/-- An empty list has the default as its first address. -/
@[simp] theorem firstOr_nil (default : Nat) : firstOr ([] : List (Nat × α)) default = default := rfl

/-- An empty list has the default as its last address. -/
@[simp] theorem lastOr_nil (default : Nat) : lastOr ([] : List (Nat × α)) default = default := rfl

/-- The first address of two lists. -/
theorem firstOr_append (left right : List (Nat × α)) (default : Nat) :
    firstOr (left ++ right) default = firstOr left (firstOr right default) := by
  cases left <;> rfl

/-- The last address of two lists. -/
theorem lastOr_append (left right : List (Nat × α)) (default : Nat) :
    lastOr (left ++ right) default = lastOr right (lastOr left default) := by
  induction left generalizing default with
  | nil => rfl
  | cons entry rest ih => exact ih entry.1

/-- The last address of a nonempty list is one of its addresses. -/
theorem lastOr_mem (list : List (Nat × α)) (default : Nat) (nonempty : list ≠ []) :
    lastOr list default ∈ list.map Prod.fst := by
  induction list generalizing default with
  | nil => exact absurd rfl nonempty
  | cons entry rest ih =>
    by_cases last : rest = []
    · simp [last]
    · exact List.mem_cons_of_mem _ (ih entry.1 last)

/-- A doubly linked segment: each node points to the next one and back to the one before,
the ends to the two given addresses. -/
def Segment (heap : Heap α) : Nat → List (Nat × α) → Nat → Prop
  | _, [], _ => True
  | before, (address, value) :: rest, after =>
    heap address = some ⟨value, firstOr rest after, before⟩ ∧ Segment heap address rest after

/-- A segment splits at any point. -/
theorem segment_append (heap : Heap α) (before : Nat) (left right : List (Nat × α)) (after : Nat) :
    Segment heap before (left ++ right) after ↔
      Segment heap before left (firstOr right after) ∧
        Segment heap (lastOr left before) right after := by
  induction left generalizing before with
  | nil => simp [Segment]
  | cons entry rest ih =>
    obtain ⟨address, value⟩ := entry
    simp only [List.cons_append, Segment, ih, lastOr_cons, firstOr_append, and_assoc]

/-- A segment only depends on the heap at its own addresses. -/
theorem segment_congr {heap other : Heap α} {before after : Nat} {list : List (Nat × α)}
    (same : ∀ address ∈ list.map Prod.fst, other address = heap address)
    (segment : Segment heap before list after) : Segment other before list after := by
  induction list generalizing before with
  | nil => trivial
  | cons entry rest ih =>
    obtain ⟨address, value⟩ := entry
    refine ⟨(same address (by simp)).trans segment.1, ih (fun a h => same a ?_) segment.2⟩
    exact List.mem_cons_of_mem _ h

/-- Every address of a segment is allocated and holds its value. -/
theorem segment_get {heap : Heap α} {before after : Nat} {list : List (Nat × α)}
    (segment : Segment heap before list after) {address : Nat} {value : α}
    (inside : (address, value) ∈ list) : ∃ node, heap address = some node ∧ node.val = value := by
  induction list generalizing before with
  | nil => cases inside
  | cons entry rest ih =>
    rcases List.mem_cons.mp inside with rfl | later
    · exact ⟨_, segment.1, rfl⟩
    · exact ih segment.2 later

/-- A nonempty list stored as a closed chain. -/
def Circular (heap : Heap α) (list : List (Nat × α)) : Prop :=
  Segment heap (lastOr list 0) list (firstOr list 0)

/-- A closed chain may be read from its second node. -/
theorem circular_rotate (heap : Heap α) (entry : Nat × α) (rest : List (Nat × α)) :
    Circular heap (entry :: rest) ↔ Circular heap (rest ++ [entry]) := by
  obtain ⟨address, value⟩ := entry
  cases rest with
  | nil => simp [Circular]
  | cons second tail =>
    simp only [Circular, segment_append, lastOr_append, firstOr_append, lastOr_cons, lastOr_nil,
      firstOr_cons, firstOr_nil, Segment]
    tauto

/-- A closed chain may be read from any of its nodes. -/
theorem circular_swap (heap : Heap α) (left right : List (Nat × α)) :
    Circular heap (left ++ right) ↔ Circular heap (right ++ left) := by
  induction left generalizing right with
  | nil => simp
  | cons entry rest ih =>
    rw [List.cons_append, circular_rotate, List.append_assoc, ih (right ++ [entry])]
    simp

/-- What an assignment to a `next` field does, and that it needs the node. -/
theorem setNext_eq_some {heap other : Heap α} {address target : Nat} :
    heap.setNext address target = some other ↔
      ∃ node, heap address = some node ∧ heap.put address { node with next := target } = other := by
  simp [Heap.setNext]

/-- What an assignment to a `prev` field does, and that it needs the node. -/
theorem setPrev_eq_some {heap other : Heap α} {address target : Nat} :
    heap.setPrev address target = some other ↔
      ∃ node, heap address = some node ∧ heap.put address { node with prev := target } = other := by
  simp [Heap.setPrev]

/-- Redirecting the last `next` of a segment. -/
theorem segment_setNext {heap other : Heap α} {before after target : Nat}
    {list : List (Nat × α)} (nonempty : list ≠ []) (distinct : (list.map Prod.fst).Nodup)
    (segment : Segment heap before list after)
    (set : heap.setNext (lastOr list 0) target = some other) :
    Segment other before list target := by
  induction list generalizing before with
  | nil => exact absurd rfl nonempty
  | cons entry rest ih =>
    obtain ⟨address, value⟩ := entry
    obtain ⟨here, tail⟩ := segment
    have fresh : address ∉ rest.map Prod.fst := (List.nodup_cons.mp distinct).1
    cases rest with
    | nil =>
      obtain ⟨node, found, rfl⟩ := setNext_eq_some.mp set
      obtain rfl : node = _ := Option.some.inj (found.symm.trans here)
      simp [Segment]
    | cons second more =>
      have last : lastOr (second :: more) 0 ≠ address := fun same =>
        fresh (same ▸ lastOr_mem (second :: more) 0 (by simp))
      obtain ⟨node, _, kept⟩ := setNext_eq_some.mp set
      refine ⟨?_, ih (by simp) (List.nodup_cons.mp distinct).2 tail set⟩
      rw [← kept, Heap.put_other _ _ _ _ (by simpa using Ne.symm last), here]
      rfl

/-- Redirecting the first `prev` of a segment. -/
theorem segment_setPrev {heap other : Heap α} {before after target address : Nat} {value : α}
    {rest : List (Nat × α)} (fresh : address ∉ rest.map Prod.fst)
    (segment : Segment heap before ((address, value) :: rest) after)
    (set : heap.setPrev address target = some other) :
    Segment other target ((address, value) :: rest) after := by
  obtain ⟨here, tail⟩ := segment
  obtain ⟨node, found, rfl⟩ := setPrev_eq_some.mp set
  obtain rfl : node = _ := Option.some.inj (found.symm.trans here)
  refine ⟨by simp, segment_congr (fun a inside => ?_) tail⟩
  exact Heap.put_other _ _ _ _ (fun same => fresh (same ▸ inside))

end CircularList

/-- A circular list in memory: its nodes, the next address an allocation returns, the head
pointer and the stored length. -/
structure CircularList (α : Type) where
  /-- The allocated nodes. -/
  heap : CircularList.Heap α
  /-- The next address that `malloc` returns. -/
  fresh : Nat
  /-- The head pointer, `none` for NULL. -/
  head : Option Nat
  /-- The stored number of nodes. -/
  size : Nat

namespace CircularList

variable {α : Type}

/-- The ring with no node. -/
def empty : CircularList α := ⟨fun _ => none, 0, none, 0⟩

/-- Allocate a node and link it between the head and its predecessor, or to itself when the
ring is empty. The head pointer is left to the caller. -/
def push (ring : CircularList α) (value : α) : Option (Nat × CircularList α) :=
  match ring.head with
  | some first =>
    if 0 < ring.size then do
      let node ← ring.heap first
      let heap := ring.heap.put ring.fresh ⟨value, first, node.prev⟩
      let heap ← heap.setPrev first ring.fresh
      let heap ← heap.setNext node.prev ring.fresh
      some (ring.fresh, { ring with heap, fresh := ring.fresh + 1, size := ring.size + 1 })
    else
      some (ring.fresh, { ring with
        heap := ring.heap.put ring.fresh ⟨value, ring.fresh, ring.fresh⟩,
        fresh := ring.fresh + 1, size := ring.size + 1 })
  | none =>
    some (ring.fresh, { ring with
      heap := ring.heap.put ring.fresh ⟨value, ring.fresh, ring.fresh⟩,
      fresh := ring.fresh + 1, size := ring.size + 1 })

/-- Unlink and release the node at an address. Returns its value and the address of the node
after it, which is `none` when the ring becomes empty. The head moves on when it is unlinked. -/
def unlink (ring : CircularList α) (address : Nat) : Option (α × Option Nat × CircularList α) := do
  let node ← ring.heap address
  if ring.size = 1 then
    some (node.val, none,
      { ring with heap := ring.heap.free address, head := none, size := ring.size - 1 })
  else do
    let heap ← ring.heap.setNext node.prev node.next
    let heap ← heap.setPrev node.next node.prev
    some (node.val, some node.next,
      { ring with
        heap := heap.free address,
        head := if ring.head = some address then some node.next else ring.head,
        size := ring.size - 1 })

/-- Walk back along `prev` to the first node whose value is accepted. -/
def findBack (ring : CircularList α) (accept : α → Bool) : Nat → Nat → Option Nat
  | 0, _ => none
  | fuel + 1, address => do
    let node ← ring.heap address
    if accept node.val then some address else findBack ring accept fuel node.prev

/-- The ring stores a list of addressed values, head first. -/
structure Holds (ring : CircularList α) (list : List (Nat × α)) : Prop where
  /-- The stored length is the length. -/
  size : ring.size = list.length
  /-- The head pointer is the first address. -/
  head : ring.head = list.head?.map Prod.fst
  /-- No node occurs twice. -/
  distinct : (list.map Prod.fst).Nodup
  /-- Later allocations return other addresses. -/
  below : ∀ address ∈ list.map Prod.fst, address < ring.fresh
  /-- The nodes form a closed chain. -/
  chain : Circular ring.heap list

/-- The empty ring stores the empty list. -/
theorem empty_holds : (empty : CircularList α).Holds [] :=
  ⟨rfl, rfl, List.nodup_nil, by simp, trivial⟩

/-- Every stored entry is an allocated node with its value. -/
theorem Holds.get {ring : CircularList α} {list : List (Nat × α)} (holds : ring.Holds list)
    {address : Nat} {value : α} (inside : (address, value) ∈ list) :
    ∃ node, ring.heap address = some node ∧ node.val = value :=
  segment_get holds.chain inside

/-- The node before a stored entry is the one before it in the list, around the head. -/
theorem Holds.prev {ring : CircularList α} {left right : List (Nat × α)} {address : Nat} {value : α}
    (holds : ring.Holds (left ++ (address, value) :: right)) :
    ∃ node, ring.heap address = some node ∧ node.val = value ∧
      node.prev = lastOr left (lastOr right address) := by
  have chain := holds.chain
  unfold Circular at chain
  rw [segment_append, lastOr_append] at chain
  exact ⟨_, chain.2.1, rfl, by cases left <;> simp⟩

/-- Pushing and moving the head to the new node puts its value first. -/
theorem push_holds {ring : CircularList α} {list : List (Nat × α)} (holds : ring.Holds list) (value : α) :
    ∃ pushed, ring.push value = some (ring.fresh, pushed) ∧ pushed.fresh = ring.fresh + 1 ∧
      { pushed with head := some ring.fresh }.Holds ((ring.fresh, value) :: list) := by
  have notIn : ring.fresh ∉ list.map Prod.fst := fun inside =>
    Nat.lt_irrefl _ (holds.below _ inside)
  have distinct : (((ring.fresh, value) :: list).map Prod.fst).Nodup :=
    List.nodup_cons.mpr ⟨notIn, holds.distinct⟩
  have below : ∀ address ∈ ((ring.fresh, value) :: list).map Prod.fst,
      address < ring.fresh + 1 := by
    intro address inside
    rcases List.mem_cons.mp inside with rfl | old
    · exact Nat.lt_succ_self _
    · exact Nat.lt_succ_of_lt (holds.below _ old)
  cases list with
  | nil =>
    have head : ring.head = none := holds.head
    refine ⟨_, by rw [push, head], rfl, ?_⟩
    exact ⟨by simp [holds.size], rfl, distinct, below, by simp [Circular, Segment]⟩
  | cons entry rest =>
    obtain ⟨first, firstValue⟩ := entry
    have head : ring.head = some first := holds.head
    have positive : 0 < ring.size := by rw [holds.size]; simp
    have firstFresh : first ≠ ring.fresh := fun same => notIn (by simp [same])
    have chain : Segment ring.heap (lastOr rest first) ((first, firstValue) :: rest) first :=
      holds.chain
    have unrelated : Segment (ring.heap.put ring.fresh ⟨value, first, lastOr rest first⟩)
        (lastOr rest first) ((first, firstValue) :: rest) first :=
      segment_congr (fun a inside => Heap.put_other _ _ _ _ (fun same => notIn (same ▸ inside)))
        chain
    obtain ⟨second, setPrev⟩ : ∃ second, (ring.heap.put ring.fresh
        ⟨value, first, lastOr rest first⟩).setPrev first ring.fresh = some second :=
      ⟨_, setPrev_eq_some.mpr ⟨_, unrelated.1, rfl⟩⟩
    have firstDistinct := List.nodup_cons.mp holds.distinct
    have back := segment_setPrev firstDistinct.1 unrelated setPrev
    have lastInside : lastOr ((first, firstValue) :: rest) 0 ∈
        ((first, firstValue) :: rest).map Prod.fst := lastOr_mem _ 0 (by simp)
    obtain ⟨lastEntry, lastMem, lastSame⟩ := List.mem_map.mp lastInside
    obtain ⟨lastNode, lastFound, -⟩ :=
      segment_get back (show (lastEntry.1, lastEntry.2) ∈ _ from lastMem)
    rw [lastSame] at lastFound
    obtain ⟨third, setNext⟩ : ∃ third, second.setNext (lastOr rest first) ring.fresh = some third :=
      ⟨_, setNext_eq_some.mpr ⟨_, lastFound, rfl⟩⟩
    have closed := segment_setNext (by simp) holds.distinct back setNext
    have newNode : third ring.fresh = some ⟨value, first, lastOr rest first⟩ := by
      obtain ⟨node, _, rfl⟩ := setNext_eq_some.mp setNext
      obtain ⟨node', _, rfl⟩ := setPrev_eq_some.mp setPrev
      have lastFresh : ring.fresh ≠ lastOr rest first := fun same => notIn (same ▸ lastInside)
      simp [lastFresh, Ne.symm firstFresh]
    refine ⟨{ ring with heap := third, fresh := ring.fresh + 1, size := ring.size + 1 },
      by simp [push, head, positive, chain.1, setPrev, setNext], rfl, ?_⟩
    exact ⟨by simp [holds.size], rfl, distinct, below, newNode, closed⟩

/-- Taking out the first node of a closed chain of at least two nodes closes the rest. -/
theorem circular_unlink {heap : Heap α} {address : Nat} {value : α} {rest : List (Nat × α)}
    (nonempty : rest ≠ []) (distinct : (((address, value) :: rest).map Prod.fst).Nodup)
    (chain : Circular heap ((address, value) :: rest)) :
    ∃ forward back, heap.setNext (lastOr rest 0) (firstOr rest 0) = some forward ∧
      forward.setPrev (firstOr rest 0) (lastOr rest 0) = some back ∧
      Circular (back.free address) rest := by
  obtain ⟨notIn, restDistinct⟩ := List.nodup_cons.mp distinct
  obtain ⟨⟨first, firstValue⟩, more, rfl⟩ := List.exists_cons_of_ne_nil nonempty
  have segment : Segment heap address ((first, firstValue) :: more) address := chain.2
  obtain ⟨lastEntry, lastMem, lastSame⟩ :=
    List.mem_map.mp (lastOr_mem ((first, firstValue) :: more) 0 (by simp))
  obtain ⟨lastNode, lastFound, -⟩ :=
    segment_get segment (show (lastEntry.1, lastEntry.2) ∈ _ from lastMem)
  rw [lastSame] at lastFound
  obtain ⟨forward, setNext⟩ : ∃ forward, heap.setNext (lastOr more first) first = some forward :=
    ⟨_, setNext_eq_some.mpr ⟨_, lastFound, rfl⟩⟩
  have opened := segment_setNext (by simp) restDistinct segment setNext
  obtain ⟨back, setPrev⟩ : ∃ back, forward.setPrev first (lastOr more first) = some back :=
    ⟨_, setPrev_eq_some.mpr ⟨_, opened.1, rfl⟩⟩
  have closed := segment_setPrev (List.nodup_cons.mp restDistinct).1 opened setPrev
  refine ⟨forward, back, setNext, setPrev, segment_congr (fun a inside => ?_) closed⟩
  exact Heap.free_other _ _ _ (fun same => notIn (same ▸ inside))

/-- Unlinking any stored node erases its entry and nothing else. -/
theorem unlink_holds {ring : CircularList α} {left right : List (Nat × α)} {address : Nat} {value : α}
    (holds : ring.Holds (left ++ (address, value) :: right)) :
    ∃ after unlinked, ring.unlink address = some (value, after, unlinked) ∧
      unlinked.fresh = ring.fresh ∧ unlinked.Holds (left ++ right) := by
  obtain ⟨node, found, nodeValue, -⟩ := holds.prev
  have sublist : (left ++ right).Sublist (left ++ (address, value) :: right) :=
    (List.Sublist.refl left).append (List.sublist_cons_self _ right)
  have distinct := (sublist.map Prod.fst).nodup holds.distinct
  have below : ∀ a ∈ (left ++ right).map Prod.fst, a < ring.fresh := fun a inside =>
    holds.below a ((sublist.map Prod.fst).subset inside)
  have size := holds.size
  by_cases single : left ++ right = []
  · obtain ⟨rfl, rfl⟩ := List.append_eq_nil_iff.mp single
    refine ⟨none, { ring with heap := ring.heap.free address, head := none, size := 0 },
      by simp [unlink, found, size, nodeValue], rfl, ?_⟩
    exact ⟨rfl, rfl, List.nodup_nil, by simp, trivial⟩
  · have swapped : Circular ring.heap ((address, value) :: (right ++ left)) := by
      have := (circular_swap ring.heap left ((address, value) :: right)).mp holds.chain
      simpa using this
    have perm : ((address, value) :: (right ++ left)).Perm (left ++ (address, value) :: right) := by
      have := @List.perm_append_comm _ ((address, value) :: right) left
      simpa using this
    have rest : right ++ left ≠ [] := by simpa [and_comm] using single
    obtain ⟨forward, back, setNext, setPrev, closed⟩ := circular_unlink rest
      ((perm.map Prod.fst).nodup_iff.mpr holds.distinct) swapped
    have here : node = ⟨value, firstOr (right ++ left) 0, lastOr (right ++ left) 0⟩ := by
      obtain ⟨entry, more, same⟩ := List.exists_cons_of_ne_nil rest
      have := swapped.1
      rw [same] at this ⊢
      exact Option.some.inj (found.symm.trans (by simpa using this))
    have several : ring.size ≠ 1 := by
      have : 0 < (left ++ right).length := List.length_pos_iff.mpr single
      rw [size]
      simp only [List.length_append, List.length_cons] at this ⊢
      omega
    subst here
    refine ⟨some (firstOr (right ++ left) 0), { ring with
      heap := back.free address,
      head := if ring.head = some address then some (firstOr (right ++ left) 0) else ring.head,
      size := ring.size - 1 }, by simp [unlink, found, several, setNext, setPrev], rfl, ?_⟩
    refine ⟨by simp [size], ?_, distinct, below, (circular_swap _ _ _).mp closed⟩
    cases left with
    | nil =>
      cases right with
      | nil => exact absurd rfl rest
      | cons entry more => simp [holds.head]
    | cons entry more =>
      have other : entry.1 ≠ address := by
        have := (List.nodup_cons.mp holds.distinct).1
        intro same
        exact this (by simp [same])
      simp [holds.head, other]

/-- Walking back through rejected nodes stops at the accepted node before them. -/
theorem findBack_from {ring : CircularList α} {accept : α → Bool} {left middle tail : List (Nat × α)}
    {address : Nat} {value : α} (accepted : accept value = true)
    (rejected : ∀ entry ∈ middle, accept entry.2 = false) (fuel : Nat)
    (enough : middle.length < fuel)
    (holds : ring.Holds (left ++ (address, value) :: (middle ++ tail))) :
    ring.findBack accept fuel (lastOr middle address) = some address := by
  induction middle using List.reverseRecOn generalizing tail fuel with
  | nil =>
    obtain ⟨fuel, rfl⟩ := Nat.exists_eq_succ_of_ne_zero (by omega : fuel ≠ 0)
    obtain ⟨node, found, same, -⟩ := holds.prev
    simp [findBack, found, same, accepted]
  | append_singleton middle entry ih =>
    obtain ⟨fuel, rfl⟩ := Nat.exists_eq_succ_of_ne_zero (by omega : fuel ≠ 0)
    obtain ⟨at_, held⟩ := entry
    have regrouped : ring.Holds ((left ++ (address, value) :: middle) ++ (at_, held) :: tail) := by
      simpa using holds
    obtain ⟨node, found, same, before⟩ := regrouped.prev
    have skip : accept node.val = false := by
      rw [same]
      exact rejected (at_, held) (by simp)
    have shorter : middle.length < fuel := by
      rw [List.length_append, List.length_singleton] at enough
      omega
    have step := @ih ((at_, held) :: tail) (fun e inside => rejected e (by simp [inside])) fuel
      shorter (by simpa using holds)
    simpa [findBack, lastOr_append, found, skip, before] using step

/-- A list with an accepted value splits at its last one. -/
theorem exists_last {accept : α → Bool} {list : List (Nat × α)}
    (some_accepted : ∃ entry ∈ list, accept entry.2 = true) :
    ∃ left address value right, list = left ++ (address, value) :: right ∧
      accept value = true ∧ ∀ entry ∈ right, accept entry.2 = false := by
  induction list using List.reverseRecOn with
  | nil =>
    obtain ⟨entry, inside, -⟩ := some_accepted
    cases inside
  | append_singleton list last ih =>
    obtain ⟨address, value⟩ := last
    by_cases accepted : accept value = true
    · exact ⟨list, address, value, [], rfl, accepted, by simp⟩
    · have earlier : ∃ entry ∈ list, accept entry.2 = true := by
        obtain ⟨entry, inside, holds⟩ := some_accepted
        rcases List.mem_append.mp inside with old | new
        · exact ⟨entry, old, holds⟩
        · rw [List.mem_singleton.mp new] at holds
          exact absurd holds accepted
      obtain ⟨left, at_, held, right, rfl, holds, rejected⟩ := ih earlier
      refine ⟨left, at_, held, right ++ [(address, value)], by simp, holds, ?_⟩
      intro entry inside
      rcases List.mem_append.mp inside with old | new
      · exact rejected entry old
      · rw [List.mem_singleton.mp new]
        exact Bool.not_eq_true _ ▸ accepted

/-- Walking back from the node before the head stops at the last accepted node. -/
theorem findBack_last {ring : CircularList α} {accept : α → Bool} {left right : List (Nat × α)}
    {address : Nat} {value : α} (holds : ring.Holds (left ++ (address, value) :: right))
    (accepted : accept value = true) (rejected : ∀ entry ∈ right, accept entry.2 = false)
    (fuel : Nat) (enough : right.length < fuel) :
    ring.findBack accept fuel (lastOr (left ++ (address, value) :: right) 0) = some address := by
  rw [lastOr_append, lastOr_cons]
  have whole : ring.Holds (left ++ (address, value) :: (right ++ [])) := by
    rw [List.append_nil]
    exact holds
  exact findBack_from accepted rejected fuel enough whole

/-- With no accepted node the walk back never stops. -/
theorem findBack_none {ring : CircularList α} {accept : α → Bool} {list : List (Nat × α)}
    (holds : ring.Holds list) (rejected : ∀ entry ∈ list, accept entry.2 = false) (fuel : Nat)
    {address : Nat} (inside : address ∈ list.map Prod.fst) :
    ring.findBack accept fuel address = none := by
  induction fuel generalizing address with
  | zero => rfl
  | succ fuel ih =>
    obtain ⟨⟨at_, value⟩, member, rfl⟩ := List.mem_map.mp inside
    obtain ⟨left, right, rfl⟩ := List.append_of_mem member
    obtain ⟨node, found, same, before⟩ := holds.prev
    have skip : accept node.val = false := by
      rw [same]
      exact rejected (at_, value) member
    have previous : node.prev ∈ (left ++ (at_, value) :: right).map Prod.fst := by
      rw [before]
      cases left with
      | nil =>
        cases right with
        | nil => simp
        | cons entry rest =>
          exact List.mem_cons_of_mem _ (lastOr_mem (entry :: rest) at_ (by simp))
      | cons entry rest =>
        rw [List.map_append]
        exact List.mem_append_left _ (lastOr_mem (entry :: rest) _ (by simp))
    rw [findBack, found, Option.bind_eq_bind, Option.bind_some, skip]
    exact ih previous

/-- The node before the head is the last one. -/
theorem Holds.head_prev {ring : CircularList α} {list : List (Nat × α)} (holds : ring.Holds list)
    {first : Nat} (head : ring.head = some first) :
    ∃ node, ring.heap first = some node ∧ node.prev = lastOr list 0 := by
  rw [holds.head] at head
  cases list with
  | nil => cases head
  | cons entry rest =>
    obtain ⟨address, value⟩ := entry
    obtain rfl : address = first := by simpa using head
    exact ⟨_, holds.chain.1, rfl⟩

end CircularList
