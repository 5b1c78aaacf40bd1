import Nbtrfs.Cache.Fsync

/-!
# The nodes of the global dirty list

How many nodes each slot has. `write_block` puts two nodes of a clean slot on the list and one more of
a dirty slot, and an eviction or a `cache_fsync` takes one node off, so from the first write on until
the next `cache_sync` the list has more nodes than there are dirty slots.
-/

namespace Nbtrfs

variable {Page : Type}

/-- The nodes of a slot on the global dirty list. -/
def nodesOf (pending : List (Nat × Nat)) (slot : Nat) : Nat := (pending.map Prod.snd).count slot

/-- The dirty slots. -/
def Cache.dirtySlots (cache : Cache Page) : List Nat :=
  (List.range cache.cacheSize).filter fun slot => (cache.entries slot).dirtyBit

/-- A list of nodes is exactly the set of dirty slots. -/
structure GdlLists (machine : Machine Page) (pending : List (Nat × Nat)) : Prop where
  /-- The list is the one in memory. -/
  gdl : machine.cache.gdl.Holds pending
  /-- A dirty slot has one node, and `gdl_pos` points to it. -/
  dirty : ∀ slot < machine.cache.cacheSize, (machine.cache.entries slot).dirtyBit = true →
    ∃ node, (machine.cache.entries slot).gdlPos = some node ∧
      pending.filter (fun entry => entry.2 == slot) = [(node, slot)]
  /-- A clean slot has no node. -/
  clean : ∀ slot < machine.cache.cacheSize, (machine.cache.entries slot).dirtyBit = false →
    ∀ entry ∈ pending, entry.2 ≠ slot
  /-- `gdl_size` is the number of dirty slots. -/
  size : machine.cache.gdl.size = machine.cache.dirtySlots.length

/-- The global dirty list is exactly the set of dirty slots. -/
def GdlExact (machine : Machine Page) : Prop := ∃ pending, GdlLists machine pending

/-- Whether a block was written since the cache was allocated or synced. -/
def writtenSince (written : Bool) : List (FileCall Page) → Bool
  | [] => written
  | .write _ _ _ :: calls => writtenSince true calls
  | .sync :: calls => writtenSince false calls
  | .get _ _ :: calls | .fsync _ :: calls => writtenSince written calls

/-- The blocks on the list of an inode are in slots that are dirty or have `gdl_pos` NULL. The
`gdl_pos` of a slot that was never dirty is not initialised. -/
def FsyncReads (machine : Machine Page) (inum : Nat) : Prop :=
  ∀ block ∈ blocksOf machine.cache.dirtyList inum, ∀ slot,
    pciLookup machine.cache.pci block = some slot →
      (machine.cache.entries slot).dirtyBit = true ∨ (machine.cache.entries slot).gdlPos = none

/-- No `cache_fsync` of a run goes through a `gdl_pos` that is not initialised. -/
def FsyncRunReads (tags : PageTags Page) : Machine Page → List (FileCall Page) → Prop
  | _, [] => True
  | machine, call :: calls =>
    (∀ inum, call = .fsync inum → FsyncReads machine inum) ∧
      ∀ after, fileStep tags machine call = some after → FsyncRunReads tags after calls

/-- The nodes of the slots: a dirty slot has at least two, and there are nodes if and only if a block
was written. -/
structure Marked (machine : Machine Page) (recent pending : List (Nat × Nat)) (written : Bool) :
    Prop where
  /-- The records are in order. -/
  tidy : Tidy machine recent pending
  /-- A free slot is clean. -/
  idle : ∀ slot ∈ machine.cache.freeList, (machine.cache.entries slot).dirtyBit = false
  /-- A dirty slot has at least two nodes. -/
  twice : ∀ slot ∈ recent.map Prod.snd, (machine.cache.entries slot).dirtyBit = true →
    2 ≤ nodesOf pending slot
  /-- There are nodes if and only if a block was written. -/
  nodes : written = true ↔ pending ≠ []

section

variable {tags : PageTags Page} {machine after ready : Machine Page}
  {recent pending pending' before later : List (Nat × Nat)} {written : Bool}
  {inum pnum slot mark : Nat} {page : Page}

/-- Slots with two nodes each have twice as many nodes. -/
theorem double_le_length {slots : List Nat} (distinct : slots.Nodup)
    (twice : ∀ slot ∈ slots, 2 ≤ nodesOf pending slot) : 2 * slots.length ≤ pending.length := by
  have sub : (slots ++ slots).Subperm (pending.map Prod.snd) := by
    rw [List.subperm_ext_iff]
    intro slot inside
    have here : slot ∈ slots := by simpa using inside
    have most := List.nodup_iff_count_le_one.mp distinct slot
    have least := twice slot here
    rw [List.count_append]
    unfold nodesOf at least
    omega
  have bound := sub.length_le
  rw [List.length_append, List.length_map] at bound
  omega

/-- A slot of the array that is dirty is in use. -/
theorem Marked.used (marked : Marked machine recent pending written)
    (inside : slot < machine.cache.cacheSize)
    (dirty : (machine.cache.entries slot).dirtyBit = true) : slot ∈ recent.map Prod.snd := by
  have somewhere := marked.tidy.slots.mem_iff.mpr (List.mem_range.mpr inside)
  rcases List.mem_append.mp somewhere with used | free
  · exact used
  · rw [marked.idle slot free] at dirty
    cases dirty

/-- The list is exact if and only if no block was written. -/
theorem Marked.exact_iff (marked : Marked machine recent pending written) :
    GdlExact machine ↔ written = false := by
  have size := marked.tidy.gdl.size
  constructor
  · rintro ⟨other, lists⟩
    cases isWritten : written with
    | false => rfl
    | true =>
      have some_node := marked.nodes.mp isWritten
      have positive := List.length_pos_iff.mpr some_node
      have distinct : machine.cache.dirtySlots.Nodup := List.nodup_range.filter _
      have double : 2 * machine.cache.dirtySlots.length ≤ pending.length := by
        apply double_le_length distinct
        intro slot isDirty
        have both := List.mem_filter.mp isDirty
        have dirty : (machine.cache.entries slot).dirtyBit = true := both.2
        exact marked.twice slot (marked.used (List.mem_range.mp both.1) dirty) dirty
      have counted := lists.size
      omega
  · intro notWritten
    have empty : pending = [] := by
      by_contra some_node
      rw [marked.nodes.mpr some_node] at notWritten
      cases notWritten
    have clean : ∀ slot < machine.cache.cacheSize, (machine.cache.entries slot).dirtyBit = false := by
      intro slot inside
      by_contra dirty
      rw [Bool.not_eq_false] at dirty
      have least := marked.twice slot (marked.used inside dirty) dirty
      rw [empty] at least
      simp [nodesOf] at least
    refine ⟨pending, marked.tidy.gdl, ?_, ?_, ?_⟩
    · intro slot inside dirty
      rw [clean slot inside] at dirty
      cases dirty
    · rw [empty]
      intro slot _ _ entry none
      cases none
    · have none : machine.cache.dirtySlots = [] := by
        unfold Cache.dirtySlots
        rw [List.filter_eq_nil_iff]
        intro slot inside
        rw [clean slot (List.mem_range.mp inside)]
        exact Bool.false_ne_true
      rw [none, size, empty]
      rfl

/-- The nodes of another slot after one node is taken off. -/
theorem nodesOf_erase_other {other : Nat} (differs : other ≠ slot) :
    nodesOf (before ++ later) other = nodesOf (before ++ (mark, slot) :: later) other := by
  unfold nodesOf
  rw [List.map_append, List.map_append, List.count_append, List.count_append, List.map_cons,
    List.count_cons_of_ne (Ne.symm differs)]

/-- A list from which one of two nodes is taken off has a node. -/
theorem ne_nil_of_twice (twice : 2 ≤ nodesOf (before ++ (mark, slot) :: later) slot) :
    before ++ later ≠ [] := by
  intro empty
  obtain ⟨rfl, rfl⟩ := List.append_eq_nil_iff.mp empty
  simp [nodesOf] at twice

/-- `get_block` leaves the other slots their nodes. -/
theorem Marked.get (marked : Marked machine recent pending written)
    (run : getBlock tags machine inum pnum = some (page, after)) :
    ∃ recent' pending', Marked after recent' pending' written := by
  cases present : pciLookup machine.cache.pci pnum with
  | some slot =>
    obtain ⟨left, former, right, lru, node, rfl, rfl, -, tidy⟩ := marked.tidy.touch present run
    have flags : ∀ other, ((machine.touched slot lru node).cache.entries other).dirtyBit =
        (machine.cache.entries other).dirtyBit := by
      intro other
      by_cases same : other = slot
      · rw [same, Machine.touched_same]
      · rw [Machine.touched_other _ _ _ _ _ same]
    refine ⟨_, pending, tidy, ?_, ?_, marked.nodes⟩
    · intro other free
      rw [flags]
      exact marked.idle other free
    · intro other used dirty
      rw [flags] at dirty
      apply marked.twice other _ dirty
      simpa [or_left_comm] using used
  | none =>
    obtain ⟨slot, ready, rest, pending', free, lru, node, readied, tidy', -, rfl, tidy, marks⟩ :=
      marked.tidy.miss present run
    obtain ⟨freeSlots, head⟩ := readied.free
    have others : ∀ other, other ≠ slot →
        ready.cache.entries other = machine.cache.entries other := by
      intro other differs
      by_cases full : machine.cache.freeList = []
      · exact (readied.evicted full).2.1.others other differs
      · rw [(readied.untouched full).1]
    have unused : slot ∉ rest.map Prod.snd := by
      intro used
      apply tidy'.not_free used
      rw [head]
      exact List.mem_cons_self
    have inRecent : ∀ other ∈ rest.map Prod.snd, other ∈ recent.map Prod.snd := by
      intro other used
      rw [readied.slots] at used
      exact List.mem_of_mem_erase used
    have counts : ∀ other, other ≠ slot → nodesOf pending' other = nodesOf pending other := by
      intro other differs
      rcases marks with same | ⟨-, before, mark, later, rfl, rfl⟩
      · rw [same]
      · exact nodesOf_erase_other differs
    refine ⟨_, pending', tidy, ?_, ?_, ?_⟩
    · intro other isFree
      have isFree : other ∈ free := isFree
      have notUsed : other ≠ slot := by
        rintro rfl
        exact tidy.not_free (by simp) isFree
      rw [Machine.loaded_other _ _ _ _ _ _ _ _ _ notUsed, others other notUsed]
      have notRest : other ∉ rest.map Prod.snd := by
        intro used
        exact tidy.not_free (List.mem_cons_of_mem _ used) isFree
      have somewhere := tidy'.slots.mem_iff.mpr
        (tidy.slots.mem_iff.mp (List.mem_append_right _ isFree))
      rcases List.mem_append.mp somewhere with used | wasFree
      · exact absurd used notRest
      · by_cases full : machine.cache.freeList = []
        · rw [(readied.evicted full).2.1.free, List.mem_singleton] at wasFree
          exact absurd wasFree notUsed
        · rw [(readied.untouched full).1] at wasFree
          exact marked.idle other wasFree
    · intro other used dirty
      rw [List.map_cons, List.mem_cons] at used
      rcases used with rfl | inRest
      · rw [Machine.loaded_same] at dirty
        cases dirty
      · have differs : other ≠ slot := fun same => unused (same ▸ inRest)
        rw [Machine.loaded_other _ _ _ _ _ _ _ _ _ differs, others other differs] at dirty
        rw [counts other differs]
        exact marked.twice other (inRecent other inRest) dirty
    · rcases marks with same | ⟨dirty, before, mark, later, rfl, rfl⟩
      · rw [same]
        exact marked.nodes
      · have used : slot ∈ recent.map Prod.snd := by
          by_cases full : machine.cache.freeList = []
          · obtain ⟨left, node, right, rfl, -⟩ := (readied.evicted full).2.2
            simp
          · rw [(readied.untouched full).1] at head
            have clean := marked.idle slot (by rw [head]; exact List.mem_cons_self)
            rw [clean] at dirty
            cases dirty
        have least := marked.twice slot used dirty
        rw [marked.nodes]
        constructor
        · intro _
          exact ne_nil_of_twice least
        · intro _
          simp

/-- The slot of a block leaves the other slots their nodes. -/
theorem Marked.resident (marked : Marked machine recent pending written)
    (run : residentSlot tags machine inum pnum = some (slot, ready)) :
    ∃ recent' pending', Marked ready recent' pending' written ∧
      pciLookup ready.cache.pci pnum = some slot := by
  rw [residentSlot] at run
  cases present : pciLookup machine.cache.pci pnum with
  | some index =>
    rw [present] at run
    obtain ⟨rfl, rfl⟩ := Prod.mk.inj (Option.some.inj run)
    exact ⟨recent, pending, marked, present⟩
  | none =>
    rw [present] at run
    obtain ⟨⟨page, loaded⟩, get, run⟩ := Option.bind_eq_some_iff.mp run
    obtain ⟨index, found, run⟩ := Option.bind_eq_some_iff.mp run
    obtain ⟨rfl, rfl⟩ := Prod.mk.inj (Option.some.inj run)
    obtain ⟨recent', pending', marked'⟩ := marked.get get
    exact ⟨recent', pending', marked', found⟩

/-- `write_block` puts nodes of its slot on the list, two if the slot was clean. -/
theorem Marked.write (marked : Marked machine recent pending written) {buf : Page}
    (run : writeBlock tags machine buf inum pnum = some after) :
    ∃ recent' pending', Marked after recent' pending' true := by
  obtain ⟨⟨slot, ready⟩, resident, write⟩ := Option.bind_eq_some_iff.mp run
  obtain ⟨cache, copied, write⟩ := Option.bind_eq_some_iff.mp write
  obtain rfl := Option.some.inj write
  obtain ⟨recent', pending', marked', found⟩ := marked.resident resident
  obtain ⟨mark, listed, gdl, stored, kept, old, ⟨first, nodes⟩, rfl⟩ :=
    writeSlot_some marked'.tidy.gdl copied
  obtain ⟨used, -⟩ := marked'.tidy.indexed pnum slot found
  refine ⟨recent', (mark, slot) :: listed, marked'.tidy.written found stored kept old, ?_, ?_, ?_⟩
  · intro other isFree
    have differs : other ≠ slot := fun same => marked'.tidy.not_free used (same ▸ isFree)
    rw [Cache.setEntry_other _ _ _ _ differs]
    exact marked'.idle other isFree
  · intro other inUse dirty
    by_cases same : other = slot
    · rw [same]
      cases wasDirty : (ready.cache.entries slot).dirtyBit with
      | true =>
        rw [wasDirty, if_pos rfl] at nodes
        have before := marked'.twice slot used wasDirty
        rw [nodes]
        unfold nodesOf at before ⊢
        rw [List.map_cons, List.count_cons_self]
        omega
      | false =>
        rw [wasDirty, if_neg Bool.false_ne_true] at nodes
        rw [nodes]
        unfold nodesOf
        rw [List.map_cons, List.map_cons, List.count_cons_self, List.count_cons_self]
        omega
    · rw [Cache.setEntry_other _ _ _ _ same] at dirty
      have before := marked'.twice other inUse dirty
      have others : nodesOf ((mark, slot) :: listed) other = nodesOf pending' other := by
        rw [nodes]
        unfold nodesOf
        rw [List.map_cons, List.count_cons_of_ne (Ne.symm same)]
        split
        · rfl
        · rw [List.map_cons, List.count_cons_of_ne (Ne.symm same)]
      rw [others]
      exact before
  · simp

/-- A slot that is written back loses the node that `gdl_pos` points to. -/
theorem Marked.cleaned (marked : Marked machine recent pending written) {gdl : CircularList Nat}
    {popped : Option Nat} (bound : slot < machine.cache.cacheSize)
    (reads : (machine.cache.entries slot).dirtyBit = true ∨ (machine.cache.entries slot).gdlPos = none)
    (pop : gdlPop machine.cache.gdl (machine.cache.entries slot).gdlPos = some (popped, gdl))
    (dirtyList : DlHm) {image : Image Page} (total : image.totalBlocks = machine.image.totalBlocks) :
    ∃ pending', Marked (machine.cleaned slot gdl dirtyList image) recent pending' written := by
  have here : (machine.cleaned slot gdl dirtyList image).cache.entries slot =
      { machine.cache.entries slot with dirtyBit := false, gdlPos := none } :=
    Cache.setEntry_same _ _ _
  have others : ∀ other, other ≠ slot → (machine.cleaned slot gdl dirtyList image).cache.entries other =
      machine.cache.entries other := fun other differs => Cache.setEntry_other _ _ _ _ differs
  have idle : ∀ other ∈ machine.cache.freeList,
      ((machine.cleaned slot gdl dirtyList image).cache.entries other).dirtyBit = false := by
    intro other isFree
    by_cases same : other = slot
    · rw [same, here]
    · rw [others other same]
      exact marked.idle other isFree
  have twice : ∀ pending' : List (Nat × Nat),
      (∀ other, other ≠ slot → nodesOf pending' other = nodesOf pending other) →
      ∀ other ∈ recent.map Prod.snd,
        ((machine.cleaned slot gdl dirtyList image).cache.entries other).dirtyBit = true →
          2 ≤ nodesOf pending' other := by
    intro pending' counts other used dirty
    by_cases same : other = slot
    · rw [same, here] at dirty
      cases dirty
    · rw [others other same] at dirty
      rw [counts other same]
      exact marked.twice other used dirty
  cases dirtyBit : (machine.cache.entries slot).dirtyBit with
  | true =>
    have used := marked.used bound dirtyBit
    obtain ⟨entry, inside, rfl⟩ := List.mem_map.mp used
    obtain ⟨mark, position, listed⟩ := (marked.tidy.kept entry.1 entry.2 inside).dirty dirtyBit
    obtain ⟨before, later, rfl⟩ := List.append_of_mem listed
    obtain ⟨gdl', pop', stored⟩ := gdlPop_holds marked.tidy.gdl
    rw [position] at pop
    obtain ⟨-, rfl⟩ := Prod.mk.inj (Option.some.inj (pop.symm.trans pop'))
    refine ⟨before ++ later, ?_, idle, twice _ fun other differs => nodesOf_erase_other differs, ?_⟩
    · apply marked.tidy.cleaned stored dirtyList total _ _ bound
      · intro other at_ differs inPending
        rw [List.mem_append, List.mem_cons] at inPending
        rw [List.mem_append]
        rcases inPending with early | same | late
        · exact Or.inl early
        · exact absurd (Prod.mk.inj same).2 differs
        · exact Or.inr late
      · intro other inPending
        rcases List.mem_append.mp inPending with early | late
        · exact List.mem_append_left _ early
        · exact List.mem_append_right _ (List.mem_cons_of_mem _ late)
    · rw [marked.nodes]
      constructor
      · intro _
        exact ne_nil_of_twice (marked.twice entry.2 used dirtyBit)
      · intro _
        simp
  | false =>
    rw [dirtyBit] at reads
    rcases reads with dirty | empty
    · cases dirty
    · rw [empty] at pop
      obtain ⟨-, rfl⟩ := Prod.mk.inj (Option.some.inj pop)
      refine ⟨pending, ?_, idle, twice _ fun _ _ => rfl, marked.nodes⟩
      exact marked.tidy.cleaned marked.tidy.gdl dirtyList total (fun _ _ _ listed => listed)
        (fun _ listed => listed) bound

/-- The loop of `cache_sync` takes all nodes off. -/
theorem Marked.syncLoop {fuel : Nat} (tidy : Tidy machine recent pending)
    (idle : ∀ slot ∈ machine.cache.freeList, (machine.cache.entries slot).dirtyBit = false)
    (run : cacheSyncLoop tags fuel machine = some after) : Marked after recent [] false := by
  induction fuel generalizing machine pending with
  | zero => cases run
  | succ fuel ih =>
    rcases List.eq_nil_or_concat pending with rfl | ⟨marks, ⟨mark, slot⟩, rfl⟩
    · have empty : machine.cache.gdl.size = 0 := tidy.gdl.size
      rw [cacheSyncLoop, empty, if_neg (by omega)] at run
      obtain rfl := Option.some.inj run
      refine ⟨tidy, idle, ?_, by simp⟩
      intro slot used dirty
      obtain ⟨entry, inside, rfl⟩ := List.mem_map.mp used
      obtain ⟨mark, -, listed⟩ := (tidy.kept entry.1 entry.2 inside).dirty dirty
      cases listed
    · rw [List.concat_eq_append] at tidy
      obtain ⟨gdl, page, image, -, -, run, tidy'⟩ := tidy.syncRound run
      apply ih (tidy' _) _ run
      intro other isFree
      by_cases same : other = slot
      · have here := Cache.setEntry_same { machine.cache with gdl } slot
          { machine.cache.entries slot with dirtyBit := false, gdlPos := none }
        rw [same]
        exact congrArg CacheEntry.dirtyBit here
      · have here := Cache.setEntry_other { machine.cache with gdl } slot other
          { machine.cache.entries slot with dirtyBit := false, gdlPos := none } same
        exact (congrArg CacheEntry.dirtyBit here).trans (idle other isFree)

/-- The loop of `cache_fsync` takes a node of each slot off. -/
theorem Marked.fsyncLoop {list : List DlNode} (marked : Marked machine recent pending written)
    (reads : ∀ block ∈ list.map Prod.snd, ∀ slot, pciLookup machine.cache.pci block = some slot →
      (machine.cache.entries slot).dirtyBit = true ∨ (machine.cache.entries slot).gdlPos = none)
    (run : cacheFsyncLoop list machine = some after) :
    ∃ pending', Marked after recent pending' written := by
  induction list generalizing machine pending with
  | nil =>
    obtain rfl := Option.some.inj run
    exact ⟨pending, marked⟩
  | cons node rest ih =>
    obtain ⟨dlIndex, block⟩ := node
    rw [cacheFsyncLoop] at run
    obtain ⟨slot, found, run⟩ := Option.bind_eq_some_iff.mp run
    obtain ⟨page, -, run⟩ := Option.bind_eq_some_iff.mp run
    obtain ⟨image, store, run⟩ := Option.bind_eq_some_iff.mp run
    obtain ⟨⟨popped, gdl⟩, pop, run⟩ := Option.bind_eq_some_iff.mp run
    obtain ⟨used, -⟩ := marked.tidy.indexed block slot found
    have bound : slot < machine.cache.cacheSize :=
      List.mem_range.mp (marked.tidy.slots.mem_iff.mp (List.mem_append_left _ used))
    have total : image.totalBlocks = machine.image.totalBlocks := by
      obtain ⟨place, -, rfl⟩ := Option.map_eq_some_iff.mp store
      rfl
    obtain ⟨pending', marked'⟩ := marked.cleaned bound (reads block (by simp) slot found) pop
      machine.cache.dirtyList total
    dsimp only at run
    split at run
    · apply ih marked' _ run
      intro other inRest index found'
      by_cases same : index = slot
      · right
        rw [same]
        exact congrArg CacheEntry.gdlPos (Cache.setEntry_same _ _ _)
      · have kept : (machine.cleaned slot gdl machine.cache.dirtyList image).cache.entries index =
            machine.cache.entries index := Cache.setEntry_other _ _ _ _ same
        rw [kept]
        exact reads other (List.mem_cons_of_mem _ inRest) index found'
    · obtain rfl := Option.some.inj run
      exact ⟨pending', marked'⟩

/-- `cache_fsync` takes a node of each slot of the inode off. -/
theorem Marked.fsync (marked : Marked machine recent pending written)
    (reads : FsyncReads machine inum) (run : cacheFsync machine inum = some after) :
    ∃ pending', Marked after recent pending' written := by
  rw [cacheFsync] at run
  cases found : dlLookup machine.cache.dirtyList inum with
  | none =>
    rw [found] at run
    obtain rfl := Option.some.inj run
    exact ⟨pending, marked⟩
  | some list =>
    rw [found] at run
    obtain ⟨walked, walk, run⟩ := Option.bind_eq_some_iff.mp run
    obtain rfl := Option.some.inj run
    have listed : blocksOf machine.cache.dirtyList inum = list.map Prod.snd := by
      unfold blocksOf
      rw [found]
      rfl
    unfold FsyncReads at reads
    rw [listed] at reads
    obtain ⟨pending', marked'⟩ := marked.fsyncLoop reads walk
    have tidy := marked'.tidy
    exact ⟨pending', ⟨tidy.lru, tidy.gdl, tidy.slots, tidy.chained, tidy.kept, tidy.indexed,
      tidy.marked⟩, marked'.idle, marked'.twice, marked'.nodes⟩

/-- A call keeps the count of the nodes. -/
theorem Marked.step (marked : Marked machine recent pending written) {call : FileCall Page}
    (reads : ∀ inum, call = .fsync inum → FsyncReads machine inum)
    (run : fileStep tags machine call = some after) :
    ∃ recent' pending', Marked after recent' pending' (writtenSince written [call]) := by
  cases call with
  | get inum pnum =>
    obtain ⟨⟨result, after'⟩, step, same⟩ := Option.map_eq_some_iff.mp run
    obtain ⟨⟨page, after''⟩, get, same'⟩ := Option.map_eq_some_iff.mp step
    obtain ⟨-, rfl⟩ := Prod.mk.inj same'
    obtain rfl : after'' = after := same
    exact marked.get get
  | write buf inum pnum =>
    obtain ⟨⟨result, after'⟩, step, same⟩ := Option.map_eq_some_iff.mp run
    obtain ⟨after'', write, same'⟩ := Option.map_eq_some_iff.mp step
    obtain ⟨-, rfl⟩ := Prod.mk.inj same'
    obtain rfl : after'' = after := same
    exact marked.write write
  | sync =>
    obtain ⟨⟨result, after'⟩, step, same⟩ := Option.map_eq_some_iff.mp run
    obtain ⟨after'', sync, same'⟩ := Option.map_eq_some_iff.mp step
    obtain ⟨-, rfl⟩ := Prod.mk.inj same'
    obtain rfl : after'' = after := same
    exact ⟨recent, [], Marked.syncLoop marked.tidy marked.idle sync⟩
  | fsync inum =>
    obtain ⟨pending', marked'⟩ := marked.fsync (reads inum rfl) run
    exact ⟨recent, pending', marked'⟩

/-- A run keeps the count of the nodes. -/
theorem Marked.run (marked : Marked machine recent pending written) (calls : List (FileCall Page))
    (reads : FsyncRunReads tags machine calls) (run : fileRun tags machine calls = some after) :
    ∃ recent' pending', Marked after recent' pending' (writtenSince written calls) := by
  induction calls generalizing machine recent pending written with
  | nil =>
    obtain rfl := Option.some.inj run
    exact ⟨recent, pending, marked⟩
  | cons call calls ih =>
    obtain ⟨next, step, run⟩ := Option.bind_eq_some_iff.mp run
    obtain ⟨recent', pending', marked'⟩ := marked.step reads.1 step
    have goesOn : writtenSince written (call :: calls) =
        writtenSince (writtenSince written [call]) calls := by
      cases call <;> rfl
    rw [goesOn]
    exact ih marked' (reads.2 next step) run

/-- A new cache has no nodes. -/
theorem allocCache_marked (image : Image Page) (cacheSize : Nat)
    (uninitialised : Nat → CacheEntry Page) :
    Marked ⟨allocCache cacheSize uninitialised, image⟩ [] [] false :=
  ⟨allocCache_tidy image cacheSize uninitialised, fun _ _ => rfl, nofun, by simp⟩

/-- Where every block belongs to one inode and a data block stays a data block, `cache_fsync` finds the
blocks of its list dirty. -/
theorem Filed.fsyncReads {owner : Nat → Nat} (filed : Filed tags owner machine) (inum : Nat) :
    FsyncReads machine inum := by
  intro block inside slot found
  obtain ⟨-, other, page, found', dirty, -⟩ := (filed.blocks inum block).mp inside
  obtain rfl := Option.some.inj (found.symm.trans found')
  exact Or.inl dirty

/-- So do all calls of such a run. -/
theorem FileRunPermits.fsyncReads {owner : Nat → Nat} {latest : Nat → Page}
    (freed : tags.freedIsData = tags.isData) (calls : List (FileCall Page))
    (coherent : Coherent machine latest recent pending []) (filed : Filed tags owner machine)
    (nonempty : 0 < machine.cache.cacheSize)
    (permits : FileRunPermits tags owner latest machine calls) :
    FsyncRunReads tags machine calls := by
  induction calls generalizing machine latest recent pending with
  | nil => trivial
  | cons call calls ih =>
    obtain ⟨now, later⟩ := permits
    obtain ⟨next, recent', pending', step, whole, filed', size⟩ :=
      fileStep_coherent freed coherent filed nonempty now
    rw [step] at later
    constructor
    · intro inum _
      exact filed.fsyncReads inum
    · intro after step'
      obtain rfl := Option.some.inj (step.symm.trans step')
      exact ih whole filed' (size ▸ nonempty) later

/-- In every run from a new cache in which `cache_fsync` reads no `gdl_pos` that is not initialised,
the global dirty list is exactly the set of dirty slots if and only if no block was written since the
cache was allocated or synced. -/
theorem fileRun_gdlExact_iff (tags : PageTags Page) (image : Image Page) (cacheSize : Nat)
    (uninitialised : Nat → CacheEntry Page) (calls : List (FileCall Page)) (after : Machine Page)
    (reads : FsyncRunReads tags ⟨allocCache cacheSize uninitialised, image⟩ calls)
    (run : fileRun tags ⟨allocCache cacheSize uninitialised, image⟩ calls = some after) :
    GdlExact after ↔ writtenSince false calls = false := by
  obtain ⟨recent, pending, marked⟩ :=
    (allocCache_marked image cacheSize uninitialised).run calls reads run
  exact marked.exact_iff

/-- After a write, a flush of the inode and a sync the list is exact again. -/
theorem fileRun_gdlExact_iff_synced :
    ∃ after, fileRun ⟨fun _ => true, fun _ => true⟩
        ⟨allocCache 2 fun _ => wildEntry, ⟨4, fun pnum => pnum⟩⟩
        [.write 7 5 1, .fsync 5, .write 8 5 1, .sync] = some after ∧ GdlExact after := by
  let tags : PageTags Nat := ⟨fun _ => true, fun _ => true⟩
  let calls : List (FileCall Nat) := [.write 7 5 1, .fsync 5, .write 8 5 1, .sync]
  have coherent := allocCache_coherent (⟨4, fun pnum => pnum⟩ : Image Nat) 2 (by decide)
    fun _ => wildEntry
  have filed := @allocCache_filed _ tags (fun _ => 5) ⟨4, fun pnum => pnum⟩ 2 fun _ => wildEntry
  have reads := FileRunPermits.fsyncReads rfl calls coherent filed (by decide) (by decide +kernel)
  obtain ⟨after, -, -, -, run, -⟩ := fileRun_coherent rfl calls coherent filed (by decide) (by decide +kernel)
  exact ⟨after, run, (fileRun_gdlExact_iff tags _ 2 _ calls after reads run).mpr rfl⟩

/-- After one write there is one dirty slot and there are two nodes. -/
theorem fileRun_gdlExact_false :
    ∃ after, fileRun ⟨fun _ => true, fun _ => true⟩
        ⟨allocCache 2 fun _ => wildEntry, ⟨4, fun pnum => pnum⟩⟩ [.write 7 5 1] = some after ∧
      ¬ GdlExact after := by
  have counts : ((fileRun ⟨fun _ => true, fun _ => true⟩
      ⟨allocCache 2 fun _ => wildEntry, ⟨4, fun pnum => pnum⟩⟩ [.write 7 5 1]).any
        fun (after : Machine Nat) =>
          after.cache.gdl.size == 2 && after.cache.dirtySlots.length == 1) = true := by
    decide +kernel
  obtain ⟨after, run, both⟩ := (Option.any_eq_true _ _).mp counts
  rw [Bool.and_eq_true, beq_iff_eq, beq_iff_eq] at both
  refine ⟨after, run, ?_⟩
  rintro ⟨pending, lists⟩
  have size := lists.size
  rw [both.1, both.2] at size
  cases size

end

end Nbtrfs
