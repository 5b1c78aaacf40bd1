import Nbtrfs.Cache.Coherence
import Nbtrfs.Library.Recency

/-!
# The cache's own records

What every call keeps right whatever the pages hold and wherever the addressing of the image leads:
the recency list, the free list, the primary cache index and the marks of the dirty slots. Each part
of `get_block` has one lemma that says what it does to them.
-/

namespace Nbtrfs

variable {Page : Type}

/-- A slot in use: its node, its index entry, its block and its page. -/
structure Kept (image : Image Page) (pci : PciHm) (pending : List (Nat × Nat))
    (entry : CacheEntry Page) (node slot : Nat) : Prop where
  /-- `lru_pos` is the slot's node. -/
  position : entry.lruPos = some node
  /-- The index finds the slot under its block. -/
  found : pciLookup pci entry.blockNumber = some slot
  /-- The addressing leads to some block of the image. -/
  located : ∃ place, image.locate (diskGetBlock entry.blockNumber) = some place
  /-- The slot has a page. -/
  page : ∃ page, entry.pageData = some page
  /-- A dirty slot points at one of its nodes on the global dirty list. -/
  dirty : entry.dirtyBit = true → ∃ mark, entry.gdlPos = some mark ∧ (mark, slot) ∈ pending

/-- The records of a cache. `recent` and `pending` are the recency list and the global dirty list. -/
structure Tidy (machine : Machine Page) (recent pending : List (Nat × Nat)) : Prop where
  /-- The recency list in memory. -/
  lru : machine.cache.lru.Holds recent
  /-- The global dirty list in memory. -/
  gdl : machine.cache.gdl.Holds pending
  /-- Every slot is in use or free, once. -/
  slots : (recent.map Prod.snd ++ machine.cache.freeList).Perm (List.range machine.cache.cacheSize)
  /-- The index is well chained. -/
  chained : Chains.Chained hashmapBucket machine.cache.pci
  /-- Every slot in use is kept. -/
  kept : ∀ node slot, (node, slot) ∈ recent →
    Kept machine.image machine.cache.pci pending (machine.cache.entries slot) node slot
  /-- The index names slots in use, under their blocks. -/
  indexed : ∀ pnum slot, pciLookup machine.cache.pci pnum = some slot →
    slot ∈ recent.map Prod.snd ∧ (machine.cache.entries slot).blockNumber = pnum
  /-- The global dirty list names slots of the array. -/
  marked : ∀ entry ∈ pending, entry.2 < machine.cache.cacheSize

/-- A coherent machine is tidy. -/
theorem Coherent.tidy {machine : Machine Page} {latest : Nat → Page}
    {recent pending : List (Nat × Nat)} {spare : List Nat}
    (coherent : Coherent machine latest recent pending spare)
    (spares : ∀ slot ∈ spare, slot < machine.cache.cacheSize) : Tidy machine recent pending where
  lru := coherent.lru
  gdl := coherent.gdl
  slots := coherent.slots
  chained := coherent.chained
  kept node slot inside := by
    have resident := coherent.resident node slot inside
    exact ⟨resident.position, resident.found, ⟨_, Image.locate_eq resident.reaches⟩,
      ⟨_, resident.page⟩, resident.dirty⟩
  indexed := coherent.indexed
  marked entry listed := by
    rcases coherent.listed entry.1 entry.2 listed with used | evicted
    · exact coherent.slot_lt (List.mem_append_left _ used)
    · exact spares entry.2 evicted

/-- A slot stays kept when its index entry and its marks are. -/
theorem Kept.frame {image image' : Image Page} {pci pci' : PciHm} {pending pending' : List (Nat × Nat)}
    {entry : CacheEntry Page} {node slot : Nat} (kept : Kept image pci pending entry node slot)
    (total : image'.totalBlocks = image.totalBlocks)
    (index : pciLookup pci' entry.blockNumber = pciLookup pci entry.blockNumber)
    (marks : ∀ mark, (mark, slot) ∈ pending → (mark, slot) ∈ pending') :
    Kept image' pci' pending' entry node slot := by
  refine ⟨kept.position, index.trans kept.found, ?_, kept.page, fun dirty => ?_⟩
  · obtain ⟨place, located⟩ := kept.located
    unfold Image.locate at located ⊢
    rw [total]
    exact ⟨place, located⟩
  · obtain ⟨mark, position, listed⟩ := kept.dirty dirty
    exact ⟨mark, position, marks mark listed⟩

section Facts

variable {machine : Machine Page} {recent left right pending pending' : List (Nat × Nat)}
  {node slot : Nat} {lru gdl : CircularList Nat}

/-- The slots in use and the free slots are all different. -/
theorem Tidy.nodup (tidy : Tidy machine recent pending) :
    (recent.map Prod.snd ++ machine.cache.freeList).Nodup :=
  tidy.slots.nodup_iff.mpr List.nodup_range

/-- A slot in use is not free. -/
theorem Tidy.not_free (tidy : Tidy machine recent pending) (used : slot ∈ recent.map Prod.snd) :
    slot ∉ machine.cache.freeList := by
  have apart := (List.nodup_append.mp tidy.nodup).2.2
  intro free
  exact apart slot used slot free rfl

/-- Two slots in use hold different blocks. -/
theorem Tidy.block_unique (tidy : Tidy machine recent pending) {node' slot' : Nat}
    (inside : (node, slot) ∈ recent) (also : (node', slot') ∈ recent)
    (same : (machine.cache.entries slot').blockNumber = (machine.cache.entries slot).blockNumber) :
    slot' = slot := by
  have first := (tidy.kept node slot inside).found
  have second := (tidy.kept node' slot' also).found
  rw [same, first] at second
  exact (Option.some.inj second).symm

/-- The slot that the index names, with its node. -/
theorem Tidy.hit (tidy : Tidy machine recent pending) {pnum : Nat}
    (present : pciLookup machine.cache.pci pnum = some slot) :
    ∃ node, (node, slot) ∈ recent ∧ (machine.cache.entries slot).blockNumber = pnum := by
  obtain ⟨used, block⟩ := tidy.indexed pnum slot present
  obtain ⟨entry, inside, rfl⟩ := List.mem_map.mp used
  exact ⟨entry.1, inside, block⟩

/-- The index names a slot if and only if the slot is in use and holds the block. -/
theorem Tidy.lookup_iff (tidy : Tidy machine recent pending) (pnum slot : Nat) :
    pciLookup machine.cache.pci pnum = some slot ↔
      slot ∈ recent.map Prod.snd ∧ (machine.cache.entries slot).blockNumber = pnum := by
  constructor
  · exact tidy.indexed pnum slot
  · rintro ⟨used, rfl⟩
    obtain ⟨entry, inside, rfl⟩ := List.mem_map.mp used
    exact (tidy.kept entry.1 entry.2 inside).found

/-- The other slots of a recency list are different ones. -/
theorem Tidy.others (tidy : Tidy machine (left ++ (node, slot) :: right) pending) :
    ∀ entry ∈ left ++ right,
      entry ∈ left ++ (node, slot) :: right ∧ entry.2 ≠ slot := by
  have nodup := (List.nodup_append.mp tidy.nodup).1
  rw [List.map_append, List.map_cons] at nodup
  have apart := (List.nodup_cons.mp (List.nodup_middle.mp nodup)).1
  intro entry inside
  constructor
  · rcases List.mem_append.mp inside with before | after
    · exact List.mem_append_left _ before
    · exact List.mem_append_right _ (List.mem_cons_of_mem _ after)
  · intro same
    apply apart
    rw [← List.map_append, ← same]
    exact List.mem_map.mpr ⟨entry, inside, rfl⟩

/-- The other slots of a recency list, in order. -/
theorem Tidy.erase_slot (tidy : Tidy machine (left ++ (node, slot) :: right) pending) :
    ((left ++ (node, slot) :: right).map Prod.snd).erase slot = (left ++ right).map Prod.snd := by
  have unused : slot ∉ left.map Prod.snd := by
    intro inside
    obtain ⟨entry, before, same⟩ := List.mem_map.mp inside
    exact (tidy.others entry (List.mem_append_left _ before)).2 same
  rw [List.map_append, List.map_cons, List.erase_append_right _ unused, List.erase_cons_head,
    List.map_append]

/-- A change of one slot that keeps its block, of the dirty lists and of the image's content. -/
theorem Tidy.update (tidy : Tidy machine recent pending) (entry : CacheEntry Page)
    (image : Image Page) (dirtyList : DlHm) (marks : gdl.Holds pending')
    (total : image.totalBlocks = machine.image.totalBlocks)
    (kept : ∀ mark other, other ≠ slot → (mark, other) ∈ pending → (mark, other) ∈ pending')
    (old : ∀ entry ∈ pending', entry ∈ pending ∨ entry.2 = slot) (bound : slot < machine.cache.cacheSize)
    (block : entry.blockNumber = (machine.cache.entries slot).blockNumber)
    (updated : ∀ node, (node, slot) ∈ recent →
      Kept image machine.cache.pci pending' entry node slot) :
    Tidy { cache := { machine.cache with gdl, dirtyList }.setEntry slot entry, image }
      recent pending' := by
  refine ⟨tidy.lru, marks, tidy.slots, tidy.chained, ?_, ?_, ?_⟩
  · intro node other inside
    by_cases same : other = slot
    · subst same
      rw [Cache.setEntry_same]
      exact updated node inside
    · rw [Cache.setEntry_other _ _ _ _ same]
      exact (tidy.kept node other inside).frame total rfl fun mark => kept mark other same
  · intro pnum other found
    have indexed := tidy.indexed pnum other found
    refine ⟨indexed.1, ?_⟩
    by_cases same : other = slot
    · subst same
      rw [Cache.setEntry_same, block]
      exact indexed.2
    · rw [Cache.setEntry_other _ _ _ _ same]
      exact indexed.2
  · intro entry listed
    rcases old entry listed with before | same
    · exact tidy.marked entry before
    · rw [same]
      exact bound

/-- A slot leaves the recency list and the index, and becomes the first free one. -/
theorem Tidy.release (tidy : Tidy machine (left ++ (node, slot) :: right) pending)
    (entries : Nat → CacheEntry Page) (image : Image Page) (dirtyList : DlHm)
    (recency : lru.Holds (left ++ right)) (marks : gdl.Holds pending')
    (total : image.totalBlocks = machine.image.totalBlocks)
    (kept : ∀ mark other, other ≠ slot → (mark, other) ∈ pending → (mark, other) ∈ pending')
    (old : ∀ entry ∈ pending', entry ∈ pending)
    (frame : ∀ other, other ≠ slot → entries other = machine.cache.entries other) :
    Tidy
      { cache := { machine.cache with
          lru, gdl, dirtyList, entries,
          pci := Chains.erase hashmapBucket machine.cache.pci
            (machine.cache.entries slot).blockNumber,
          freeList := flPush machine.cache.freeList slot }
        image }
      (left ++ right) pending' := by
  have inside : (node, slot) ∈ left ++ (node, slot) :: right := by simp
  have erased := Chains.lookup_erase hashmapBucket tidy.chained
    (machine.cache.entries slot).blockNumber
  refine ⟨recency, marks, ?_, Chains.chained_erase _ tidy.chained _, ?_, ?_,
    fun entry listed => tidy.marked entry (old entry listed)⟩
  · refine List.Perm.trans ?_ tidy.slots
    show ((left ++ right).map Prod.snd ++ slot :: machine.cache.freeList).Perm _
    simp only [List.map_append, List.map_cons, List.append_assoc, List.cons_append]
    exact List.Perm.append_left _ List.perm_middle
  · intro node' other also
    obtain ⟨before, differs⟩ := tidy.others _ also
    have blocks : (machine.cache.entries other).blockNumber ≠
        (machine.cache.entries slot).blockNumber :=
      fun equal => differs (tidy.block_unique inside before equal)
    have lookup := erased (machine.cache.entries other).blockNumber
    rw [if_neg blocks] at lookup
    show Kept image _ pending' (entries other) node' other
    rw [frame other differs]
    exact (tidy.kept node' other before).frame total lookup fun mark => kept mark other differs
  · intro pnum other found
    have lookup := (erased pnum).symm.trans found
    by_cases same : pnum = (machine.cache.entries slot).blockNumber
    · rw [if_pos same] at lookup
      cases lookup
    · rw [if_neg same] at lookup
      have indexed := tidy.indexed pnum other lookup
      have differs : other ≠ slot := by
        rintro rfl
        exact same indexed.2.symm
      refine ⟨?_, ?_⟩
      · have used := indexed.1
        simp only [List.map_append, List.map_cons, List.mem_append, List.mem_cons] at used ⊢
        tauto
      · show (entries other).blockNumber = pnum
        rw [frame other differs]
        exact indexed.2

end Facts

/-- The machine with a slot's node moved to the front of the recency list. -/
def Machine.touched (machine : Machine Page) (slot : Nat) (lru : CircularList Nat) (node : Nat) :
    Machine Page :=
  { machine with
    cache := { machine.cache with lru }.setEntry slot
      { machine.cache.entries slot with lruPos := some node } }

/-- The machine with a block loaded into a slot. -/
def Machine.loaded (machine : Machine Page) (slot inum pnum : Nat) (page : Page)
    (freeList : List Nat) (lru : CircularList Nat) (node : Nat) : Machine Page :=
  { machine with
    cache :=
      { machine.cache with freeList, lru, pci := pciInsert machine.cache.pci pnum slot }.setEntry slot
        { machine.cache.entries slot with
          dirtyBit := false, pinCount := 0, blockNumber := pnum, inodeNumber := inum,
          pageData := some page, lruPos := some node } }

/-- A touched slot has its new node. -/
@[simp] theorem Machine.touched_same (machine : Machine Page) (slot : Nat) (lru : CircularList Nat)
    (node : Nat) : (machine.touched slot lru node).cache.entries slot =
      { machine.cache.entries slot with lruPos := some node } :=
  Cache.setEntry_same _ _ _

/-- Touching a slot keeps the others. -/
@[simp] theorem Machine.touched_other (machine : Machine Page) (slot other : Nat)
    (lru : CircularList Nat) (node : Nat) (distinct : other ≠ slot) :
    (machine.touched slot lru node).cache.entries other = machine.cache.entries other :=
  Cache.setEntry_other _ _ _ _ distinct

/-- A loaded slot has the block, clean and without pins. -/
@[simp] theorem Machine.loaded_same (machine : Machine Page) (slot inum pnum : Nat) (page : Page)
    (freeList : List Nat) (lru : CircularList Nat) (node : Nat) :
    (machine.loaded slot inum pnum page freeList lru node).cache.entries slot =
      { machine.cache.entries slot with
        dirtyBit := false, pinCount := 0, blockNumber := pnum, inodeNumber := inum,
        pageData := some page, lruPos := some node } :=
  Cache.setEntry_same _ _ _

/-- Loading a slot keeps the others. -/
@[simp] theorem Machine.loaded_other (machine : Machine Page) (slot inum pnum other : Nat)
    (page : Page) (freeList : List Nat) (lru : CircularList Nat) (node : Nat)
    (distinct : other ≠ slot) :
    (machine.loaded slot inum pnum page freeList lru node).cache.entries other =
      machine.cache.entries other :=
  Cache.setEntry_other _ _ _ _ distinct

/-- What an eviction does to the slot it empties. -/
structure Evicted (tags : PageTags Page) (machine : Machine Page) (slot : Nat)
    (after : Machine Page) : Prop where
  /-- The slot was not pinned. -/
  unpinned : (machine.cache.entries slot).pinCount = 0
  /-- It is the free slot now. -/
  free : after.cache.freeList = [slot]
  /-- The cache has as many slots. -/
  cacheSize : after.cache.cacheSize = machine.cache.cacheSize
  /-- The other slots are left alone. -/
  others : ∀ other, other ≠ slot → after.cache.entries other = machine.cache.entries other
  /-- The index forgets the slot's block and no other. -/
  forgets : ∀ pnum, pciLookup after.cache.pci pnum =
    if pnum = (machine.cache.entries slot).blockNumber then none
    else pciLookup machine.cache.pci pnum
  /-- A clean slot changes neither the dirty lists nor the image. -/
  clean : (machine.cache.entries slot).dirtyBit = false →
    after.image = machine.image ∧ after.cache.dirtyList = machine.cache.dirtyList ∧
      after.cache.gdl = machine.cache.gdl
  /-- A dirty slot is written back and leaves the dirty list of its inode. -/
  dirty : (machine.cache.entries slot).dirtyBit = true →
    ∃ page, (machine.cache.entries slot).pageData = some page ∧
      diskWriteBlock machine.image (machine.cache.entries slot).blockNumber page =
        some after.image ∧
      after.cache.dirtyList = if tags.freedIsData page
        then dlRemoveBlock machine.cache.dirtyList (machine.cache.entries slot).inodeNumber
          (machine.cache.entries slot).blockNumber
        else machine.cache.dirtyList

/-- A push that has a result puts the index first. -/
theorem lruPush_some {lru pushed : CircularList Nat} {list : List (Nat × Nat)} {index node : Nat}
    (holds : lru.Holds list) (run : lruPush lru index = some (node, pushed)) :
    pushed.Holds ((node, index) :: list) := by
  have room : list.length < intMax := by
    rw [← holds.size]
    by_contra full
    rw [lruPush, if_neg full] at run
    cases run
  obtain ⟨stored, push, -, after⟩ := lruPush_holds holds room index
  obtain ⟨rfl, rfl⟩ := Prod.mk.inj (Option.some.inj (push.symm.trans run))
  exact after

section Parts

variable {tags : PageTags Page} {machine after : Machine Page} {recent pending : List (Nat × Nat)}
  {inum pnum slot : Nat} {page : Page}

/-- A hit moves the slot's node to the front. -/
theorem Tidy.touch (tidy : Tidy machine recent pending)
    (present : pciLookup machine.cache.pci pnum = some slot)
    (run : getBlock tags machine inum pnum = some (page, after)) :
    ∃ left former right lru node, recent = left ++ (former, slot) :: right ∧
      after = machine.touched slot lru node ∧
      (machine.cache.entries slot).pageData = some page ∧
      Tidy after ((node, slot) :: (left ++ right)) pending := by
  obtain ⟨former, inside, block⟩ := tidy.hit present
  have here := tidy.kept former slot inside
  obtain ⟨content, held⟩ := here.page
  obtain ⟨left, right, rfl⟩ := List.append_of_mem inside
  obtain ⟨popped, pop, -, poppedHolds⟩ := lruPop_holds tidy.lru
  rw [getBlock, present] at run
  obtain ⟨address, position, run⟩ := Option.bind_eq_some_iff.mp run
  obtain rfl := Option.some.inj (position.symm.trans here.position)
  obtain ⟨⟨index, lru⟩, pop', run⟩ := Option.bind_eq_some_iff.mp run
  obtain ⟨rfl, rfl⟩ := Prod.mk.inj (Option.some.inj (pop'.symm.trans pop))
  obtain ⟨⟨node, pushed⟩, push, run⟩ := Option.bind_eq_some_iff.mp run
  obtain ⟨content, held, result⟩ := Option.bind_eq_some_iff.mp run
  obtain ⟨rfl, rfl⟩ : content = page ∧ machine.touched index pushed node = after :=
    Prod.mk.inj (Option.some.inj result)
  refine ⟨left, address, right, pushed, node, rfl, rfl, held, ?_⟩
  have slots : (((node, index) :: (left ++ right)).map Prod.snd).Perm
      ((left ++ (address, index) :: right).map Prod.snd) := by
    simp only [List.map_cons, List.map_append]
    exact List.perm_middle.symm
  refine ⟨lruPush_some poppedHolds push, tidy.gdl, (slots.append_right _).trans tidy.slots,
    tidy.chained, ?_, ?_, tidy.marked⟩
  · intro at_ other also
    rcases List.mem_cons.mp also with new | old
    · obtain ⟨rfl, rfl⟩ := Prod.mk.inj new
      rw [Machine.touched_same]
      exact ⟨rfl, here.found, here.located, here.page, here.dirty⟩
    · obtain ⟨before, differs⟩ := tidy.others _ old
      rw [Machine.touched_other _ _ _ _ _ differs]
      exact tidy.kept at_ other before
  · intro number other found
    have indexed := tidy.indexed number other found
    refine ⟨slots.mem_iff.mpr indexed.1, ?_⟩
    by_cases same : other = index
    · subst same
      rw [Machine.touched_same]
      exact indexed.2
    · rw [Machine.touched_other _ _ _ _ _ same]
      exact indexed.2

/-- A block is loaded into the first free slot, whose node comes first. -/
theorem Tidy.fill (tidy : Tidy machine recent pending)
    (missing : pciLookup machine.cache.pci pnum = none) {free : List Nat}
    (ready : machine.cache.freeList = slot :: free)
    (run : load machine inum pnum = some (page, after)) :
    ∃ lru node, diskReadBlock machine.image pnum = some page ∧
      after = machine.loaded slot inum pnum page free lru node ∧
      Tidy after ((node, slot) :: recent) pending := by
  rw [load, ready] at run
  obtain ⟨⟨index, rest⟩, pop, run⟩ := Option.bind_eq_some_iff.mp run
  obtain ⟨rfl, rfl⟩ := Prod.mk.inj (Option.some.inj pop)
  obtain ⟨content, read, run⟩ := Option.bind_eq_some_iff.mp run
  obtain ⟨⟨node, pushed⟩, push, result⟩ := Option.bind_eq_some_iff.mp run
  obtain ⟨rfl, rfl⟩ :
      content = page ∧ machine.loaded slot inum pnum content free pushed node = after :=
    Prod.mk.inj (Option.some.inj result)
  refine ⟨pushed, node, read, rfl, ?_⟩
  have inserted := Chains.lookup_insert hashmapBucket machine.cache.pci pnum
  have unused : slot ∉ recent.map Prod.snd := by
    intro used
    apply tidy.not_free used
    rw [ready]
    exact List.mem_cons_self
  obtain ⟨place, located, -⟩ := Option.map_eq_some_iff.mp read
  refine ⟨lruPush_some tidy.lru push, tidy.gdl, ?_,
    Chains.chained_insert _ tidy.chained pnum slot missing, ?_, ?_, tidy.marked⟩
  · refine List.Perm.trans ?_ tidy.slots
    rw [ready]
    exact List.perm_middle.symm
  · intro at_ other also
    rcases List.mem_cons.mp also with new | old
    · obtain ⟨rfl, rfl⟩ := Prod.mk.inj new
      rw [Machine.loaded_same]
      have found := inserted pnum other
      rw [if_pos rfl] at found
      exact ⟨rfl, found, ⟨place, located⟩, ⟨_, rfl⟩, nofun⟩
    · have differs : other ≠ slot := fun same => unused (same ▸ List.mem_map_of_mem old)
      rw [Machine.loaded_other _ _ _ _ _ _ _ _ _ differs]
      have kept := tidy.kept at_ other old
      have fresh : (machine.cache.entries other).blockNumber ≠ pnum := by
        intro same
        have found := kept.found
        rw [same, missing] at found
        cases found
      have lookup := inserted (machine.cache.entries other).blockNumber slot
      rw [if_neg fresh] at lookup
      exact kept.frame rfl lookup fun _ listed => listed
  · intro number other found
    have lookup := (inserted number slot).symm.trans found
    by_cases same : number = pnum
    · rw [if_pos same] at lookup
      obtain rfl := Option.some.inj lookup
      rw [Machine.loaded_same]
      exact ⟨List.mem_cons_self, same.symm⟩
    · rw [if_neg same] at lookup
      have indexed := tidy.indexed number other lookup
      have differs : other ≠ slot := fun equal => unused (equal ▸ indexed.1)
      rw [Machine.loaded_other _ _ _ _ _ _ _ _ _ differs]
      exact ⟨List.mem_cons_of_mem _ indexed.1, indexed.2⟩

/-- The global dirty list when a slot is emptied: it is kept, or a dirty slot loses a node. -/
def Unmarked (entry : CacheEntry Page) (slot : Nat) (pending pending' : List (Nat × Nat)) : Prop :=
  pending' = pending ∨ entry.dirtyBit = true ∧ ∃ before mark later,
    pending = before ++ (mark, slot) :: later ∧ pending' = before ++ later

/-- With no free slot and some slot unpinned, the eviction ends, and empties the unpinned slot
nearest to the tail of the recency list. -/
theorem Tidy.evicts (tidy : Tidy machine recent pending) (full : machine.cache.freeList = [])
    (victim : ∃ slot < machine.cache.cacheSize, machine.cache.evictable slot = true) :
    ∃ left node slot right after pending', recent = left ++ (node, slot) :: right ∧
      (∀ entry ∈ right, machine.cache.evictable entry.2 = false) ∧
      evict tags machine = some after ∧ Evicted tags machine slot after ∧
      Tidy after (left ++ right) pending' ∧
      Unmarked (machine.cache.entries slot) slot pending pending' := by
  have evictable : ∃ entry ∈ recent, machine.cache.evictable entry.2 = true := by
    obtain ⟨slot, bound, accepted⟩ := victim
    have used : slot ∈ recent.map Prod.snd ++ machine.cache.freeList :=
      tidy.slots.mem_iff.mpr (List.mem_range.mpr bound)
    rw [full, List.append_nil] at used
    obtain ⟨entry, inside, rfl⟩ := List.mem_map.mp used
    exact ⟨entry, inside, accepted⟩
  obtain ⟨left, node, slot, right, rfl, accepted, rejected⟩ := CircularList.exists_last evictable
  have unpinned : (machine.cache.entries slot).pinCount = 0 := beq_iff_eq.mp accepted
  obtain ⟨first, head⟩ : ∃ first, machine.cache.lru.head = some first := by
    rw [tidy.lru.head]
    cases left with
    | nil => exact ⟨node, rfl⟩
    | cons entry rest => exact ⟨entry.1, rfl⟩
  obtain ⟨tail, tailFound, tailPrev⟩ := tidy.lru.head_prev head
  have enough : right.length < machine.cache.lru.size := by
    rw [tidy.lru.size, List.length_append, List.length_cons]
    omega
  have scan := CircularList.findBack_last tidy.lru accepted rejected _ enough
  obtain ⟨popped, pop, -, recency⟩ := lruPop_holds tidy.lru
  have here := tidy.kept node slot (by simp)
  have delete := pciDelete_present here.found
  have forgets := Chains.lookup_erase hashmapBucket tidy.chained
    (machine.cache.entries slot).blockNumber
  have ready : flPush machine.cache.freeList slot = [slot] := by
    rw [full]
    rfl
  cases dirtyBit : (machine.cache.entries slot).dirtyBit with
  | false =>
    have written : writeBackVictim tags
        { machine with cache := { machine.cache with lru := popped } } slot =
        some { machine with cache := { machine.cache with lru := popped } } := by
      simp [writeBackVictim, dirtyBit]
    refine ⟨left, node, slot, right, _, pending, rfl, rejected, ?_, ?_,
      tidy.release machine.cache.entries machine.image machine.cache.dirtyList recency tidy.gdl rfl
        (fun _ _ _ listed => listed) (fun _ listed => listed) fun _ _ => rfl, Or.inl rfl⟩
    · simp only [evict, head, tailFound, tailPrev, scan, pop, written, delete,
        Option.bind_eq_bind, Option.bind_some]
    · refine ⟨unpinned, ready, rfl, fun _ _ => rfl, forgets, fun _ => ⟨rfl, rfl, rfl⟩, ?_⟩
      intro dirty
      rw [dirtyBit] at dirty
      cases dirty
  | true =>
    obtain ⟨content, held⟩ := here.page
    obtain ⟨place, located⟩ := here.located
    obtain ⟨mark, position, listed⟩ := here.dirty dirtyBit
    obtain ⟨before, later, rfl⟩ := List.append_of_mem listed
    obtain ⟨gdl, popMark, marks⟩ := gdlPop_holds tidy.gdl
    have store : diskWriteBlock machine.image (machine.cache.entries slot).blockNumber content =
        some (machine.image.put place content) := by
      rw [diskWriteBlock, located]
      rfl
    let dirtyList := if tags.freedIsData content
      then dlRemoveBlock machine.cache.dirtyList (machine.cache.entries slot).inodeNumber
        (machine.cache.entries slot).blockNumber
      else machine.cache.dirtyList
    have written : writeBackVictim tags
        { machine with cache := { machine.cache with lru := popped } } slot = some
        { cache := { machine.cache with lru := popped, gdl, dirtyList }.setEntry slot
            { machine.cache.entries slot with gdlPos := none }
          image := machine.image.put place content } := by
      unfold writeBackVictim
      simp only [dirtyBit, if_true]
      rw [held, Option.bind_eq_bind, Option.bind_some, store]
      rw [position, Option.bind_eq_bind, Option.bind_some, popMark]
      rfl
    have kept : ∀ other at_, at_ ≠ slot → (other, at_) ∈ before ++ (mark, slot) :: later →
        (other, at_) ∈ before ++ later := by
      intro other at_ differs inside
      rw [List.mem_append, List.mem_cons] at inside
      rw [List.mem_append]
      rcases inside with early | same | late
      · exact Or.inl early
      · exact absurd (Prod.mk.inj same).2 differs
      · exact Or.inr late
    have old : ∀ entry ∈ before ++ later, entry ∈ before ++ (mark, slot) :: later := by
      intro entry inside
      rcases List.mem_append.mp inside with early | late
      · exact List.mem_append_left _ early
      · exact List.mem_append_right _ (List.mem_cons_of_mem _ late)
    refine ⟨left, node, slot, right, _, before ++ later, rfl, rejected, ?_, ?_,
      tidy.release
        (machine.cache.setEntry slot { machine.cache.entries slot with gdlPos := none }).entries
        (machine.image.put place content) dirtyList recency marks rfl kept old
        fun other differs => Cache.setEntry_other _ _ _ _ differs,
      Or.inr ⟨dirtyBit, before, mark, later, rfl, rfl⟩⟩
    · simp only [evict, head, tailFound, tailPrev, scan, pop, written, Cache.setEntry_same,
        Option.bind_eq_bind, Option.bind_some]
      simp only [Cache.setEntry, delete, Option.bind_some]
    · refine ⟨unpinned, ready, rfl, fun other differs => Cache.setEntry_other _ _ _ _ differs,
        forgets, ?_, fun _ => ⟨content, held, store, rfl⟩⟩
      intro clean
      rw [dirtyBit] at clean
      cases clean

/-- Without an unpinned slot the eviction does not end. -/
theorem Tidy.evict_none (tidy : Tidy machine recent pending)
    (pinned : ∀ slot ∈ recent.map Prod.snd, machine.cache.evictable slot = false) :
    evict tags machine = none := by
  rw [evict]
  cases head : machine.cache.lru.head with
  | none => rfl
  | some first =>
    obtain ⟨tail, tailFound, tailPrev⟩ := tidy.lru.head_prev head
    have nonempty : recent ≠ [] := by
      rintro rfl
      rw [tidy.lru.head] at head
      cases head
    have scan := CircularList.findBack_none tidy.lru
      (fun entry inside => pinned entry.2 (List.mem_map_of_mem inside)) machine.cache.lru.size
      (CircularList.lastOr_mem recent 0 nonempty)
    simp only [tailFound, tailPrev, scan, Option.bind_eq_bind, Option.bind_some, Option.bind_none]

/-- The free slot that a miss loads its block into, and the machine before it is loaded. -/
structure Readied (tags : PageTags Page) (machine : Machine Page) (recent : List (Nat × Nat))
    (slot : Nat) (ready : Machine Page) (rest : List (Nat × Nat)) : Prop where
  /-- The slot is the first free one. -/
  free : ∃ free, ready.cache.freeList = slot :: free
  /-- The slots in use are the others. -/
  slots : rest.map Prod.snd = (recent.map Prod.snd).erase slot
  /-- Without an eviction nothing has changed. -/
  untouched : machine.cache.freeList ≠ [] → ready = machine ∧ rest = recent
  /-- With no free slot it was evicted. -/
  evicted : machine.cache.freeList = [] →
    evict tags machine = some ready ∧ Evicted tags machine slot ready ∧
      ∃ left node right, recent = left ++ (node, slot) :: right ∧ rest = left ++ right ∧
        ∀ entry ∈ right, machine.cache.evictable entry.2 = false

/-- A miss makes a slot ready and loads the block into it. -/
theorem Tidy.miss (tidy : Tidy machine recent pending)
    (missing : pciLookup machine.cache.pci pnum = none)
    (run : getBlock tags machine inum pnum = some (page, after)) :
    ∃ slot ready rest pending' free lru node, Readied tags machine recent slot ready rest ∧
      Tidy ready rest pending' ∧ diskReadBlock ready.image pnum = some page ∧
      after = ready.loaded slot inum pnum page free lru node ∧
      Tidy after ((node, slot) :: rest) pending' ∧
      Unmarked (machine.cache.entries slot) slot pending pending' := by
  rw [getBlock, missing] at run
  by_cases full : machine.cache.freeList = []
  · dsimp only at run
    rw [if_pos full] at run
    obtain ⟨ready, evicted, run⟩ := Option.bind_eq_some_iff.mp run
    have victim : ∃ slot < machine.cache.cacheSize, machine.cache.evictable slot = true := by
      by_contra none
      have pinned : ∀ slot ∈ recent.map Prod.snd, machine.cache.evictable slot = false := by
        intro slot used
        have inside := tidy.slots.mem_iff.mp (List.mem_append_left _ used)
        by_contra unpinned
        exact none ⟨slot, List.mem_range.mp inside, by simpa using unpinned⟩
      rw [tidy.evict_none pinned] at evicted
      cases evicted
    obtain ⟨left, node, slot, right, ready', pending', rfl, rejected, evicted', change, tidy',
      marks⟩ := @Tidy.evicts _ tags _ _ _ tidy full victim
    obtain rfl := Option.some.inj (evicted'.symm.trans evicted)
    have absent : pciLookup ready'.cache.pci pnum = none := by
      rw [change.forgets]
      split
      · rfl
      · exact missing
    obtain ⟨lru, front, read, result, filled⟩ := tidy'.fill absent change.free run
    refine ⟨slot, ready', left ++ right, pending', [], lru, front, ⟨⟨[], change.free⟩, ?_, ?_, ?_⟩,
      tidy', read, result, filled, marks⟩
    · exact tidy.erase_slot.symm
    · intro nonempty
      exact absurd full nonempty
    · intro _
      exact ⟨evicted', change, left, node, right, rfl, rfl, rejected⟩
  · dsimp only at run
    rw [if_neg full, Option.bind_eq_bind, Option.bind_some] at run
    obtain ⟨slot, free, ready⟩ := List.exists_cons_of_ne_nil full
    obtain ⟨lru, front, read, result, filled⟩ := tidy.fill missing ready run
    have unused : slot ∉ recent.map Prod.snd := by
      intro used
      apply tidy.not_free used
      rw [ready]
      exact List.mem_cons_self
    refine ⟨slot, machine, recent, pending, free, lru, front, ⟨⟨free, ready⟩, ?_, ?_, ?_⟩,
      tidy, read, result, filled, Or.inl rfl⟩
    · rw [List.erase_of_not_mem unused]
    · intro _
      exact ⟨rfl, rfl⟩
    · intro empty
      exact absurd empty full

end Parts

section Writes

variable {tags : PageTags Page} {cache cache' : Cache Page} {pending : List (Nat × Nat)} {slot : Nat}

/-- Filing a block twice is filing it once. -/
theorem dlInsert_twice (hashmap : DlHm) (inum pnum : Nat) :
    dlInsert (dlInsert hashmap inum pnum) inum pnum = dlInsert hashmap inum pnum := by
  have found : ∃ list, dlLookup (dlInsert hashmap inum pnum) inum = some list ∧
      dlFindBlock list pnum = true := by
    unfold dlInsert
    cases former : dlLookup hashmap inum with
    | none =>
      refine ⟨dlPush [] pnum, ?_, by simp [dlPush, dlFindBlock]⟩
      exact (Chains.lookup_insert hashmapBucket hashmap inum inum _).trans (if_pos rfl)
    | some list =>
      dsimp only
      by_cases listed : dlFindBlock list pnum = true
      · rw [if_pos listed]
        exact ⟨list, former, listed⟩
      · rw [if_neg listed]
        refine ⟨dlPush list pnum, Chains.lookup_assign_same hashmapBucket former _, ?_⟩
        cases list with
        | nil => simp [dlPush, dlFindBlock]
        | cons head rest => simp [dlPush, dlFindBlock]
  obtain ⟨list, present, listed⟩ := found
  rw [dlInsert, present]
  exact if_pos listed

/-- The per-inode lists after `write_block` of a page. -/
def filedUnder (tags : PageTags Page) (dirtyList : DlHm) (page : Page) (inum pnum : Nat) : DlHm :=
  if tags.isData page then dlInsert dirtyList inum pnum else dirtyList

/-- Listing a slot puts a node of it first on the global dirty list. -/
theorem markGlobal_some (marks : cache.gdl.Holds pending) (run : markGlobal cache slot = some cache') :
    ∃ mark gdl, gdl.Holds ((mark, slot) :: pending) ∧
      cache' = { cache with gdl }.setEntry slot { cache.entries slot with gdlPos := some mark } := by
  obtain ⟨⟨mark, gdl⟩, push, result⟩ := Option.bind_eq_some_iff.mp run
  exact ⟨mark, gdl, lruPush_some marks push, (Option.some.inj result).symm⟩

/-- Filing a slot's block and listing the slot, after the slot's entry was changed. -/
theorem mark_some (marks : cache.gdl.Holds pending) {page : Page} {inum pnum : Nat}
    {entry : CacheEntry Page}
    (run : markGlobal (markInode tags (cache.setEntry slot entry) page inum pnum) slot = some cache') :
    ∃ mark gdl, gdl.Holds ((mark, slot) :: pending) ∧
      cache' = { cache with
        gdl, dirtyList := filedUnder tags cache.dirtyList page inum pnum }.setEntry slot
          { entry with gdlPos := some mark } := by
  have filed : markInode tags (cache.setEntry slot entry) page inum pnum =
      { cache with dirtyList := filedUnder tags cache.dirtyList page inum pnum }.setEntry slot
        entry := by
    unfold markInode filedUnder
    split
    · rfl
    · rfl
  rw [filed] at run
  obtain ⟨mark, gdl, stored, result⟩ := @markGlobal_some _
    ({ cache with dirtyList := filedUnder tags cache.dirtyList page inum pnum }.setEntry slot entry)
    _ _ _ marks run
  rw [Cache.setEntry_same] at result
  exact ⟨mark, gdl, stored, result.trans (Cache.setEntry_setEntry
    { cache with gdl, dirtyList := filedUnder tags cache.dirtyList page inum pnum } slot entry _)⟩

/-- The copy into a slot leaves it dirty and its block filed, with its latest node first on the
global dirty list and every older node kept. -/
theorem writeSlot_some (marks : cache.gdl.Holds pending) {buf : Page} {inum pnum : Nat}
    (run : writeSlot tags cache buf inum pnum slot = some cache') :
    ∃ mark marked gdl, gdl.Holds ((mark, slot) :: marked) ∧
      (∀ entry ∈ pending, entry ∈ marked) ∧
      (∀ entry ∈ marked, entry ∈ pending ∨ entry.2 = slot) ∧
      (∃ first, marked = if (cache.entries slot).dirtyBit then pending else (first, slot) :: pending) ∧
      cache' = { cache with
        gdl, dirtyList := filedUnder tags cache.dirtyList buf inum pnum }.setEntry slot
          { cache.entries slot with
            pageData := some buf, dirtyBit := true, gdlPos := some mark } := by
  rw [writeSlot] at run
  cases dirtyBit : (cache.entries slot).dirtyBit with
  | true =>
    rw [dirtyBit] at run
    obtain ⟨mark, gdl, stored, result⟩ := mark_some marks run
    exact ⟨mark, pending, gdl, stored, fun _ listed => listed, fun _ listed => Or.inl listed,
      ⟨mark, rfl⟩, result⟩
  | false =>
    rw [dirtyBit] at run
    obtain ⟨listed, first, run⟩ := Option.bind_eq_some_iff.mp run
    obtain ⟨mark, gdl, stored, rfl⟩ := mark_some marks first
    obtain ⟨mark', gdl', stored', result⟩ := @mark_some _ tags
      { cache with gdl, dirtyList := filedUnder tags cache.dirtyList buf inum pnum }
      _ _ _ stored _ _ _ _ run
    have once : filedUnder tags (filedUnder tags cache.dirtyList buf inum pnum) buf inum pnum =
        filedUnder tags cache.dirtyList buf inum pnum := by
      unfold filedUnder
      split
      · exact dlInsert_twice _ _ _
      · rfl
    refine ⟨mark', (mark, slot) :: pending, gdl', stored',
      fun _ listed => List.mem_cons_of_mem _ listed, ?_, ⟨mark, rfl⟩, ?_⟩
    · intro entry listed
      rcases List.mem_cons.mp listed with new | before
      · right
        rw [new]
      · exact Or.inl before
    · rw [result]
      dsimp only
      rw [once]

end Writes

section Sync

variable {tags : PageTags Page} {machine after : Machine Page} {recent pending : List (Nat × Nat)}

/-- The machine after a slot was written back by `cache_sync` or `cache_fsync`. -/
def Machine.cleaned (machine : Machine Page) (slot : Nat) (gdl : CircularList Nat) (dirtyList : DlHm)
    (image : Image Page) : Machine Page :=
  { cache := { machine.cache with gdl, dirtyList }.setEntry slot
      { machine.cache.entries slot with dirtyBit := false, gdlPos := none }
    image }

/-- A slot that was written back is kept. -/
theorem Tidy.cleaned (tidy : Tidy machine recent pending) {slot : Nat} {gdl : CircularList Nat}
    {pending' : List (Nat × Nat)} (marks : gdl.Holds pending') (dirtyList : DlHm)
    {image : Image Page} (total : image.totalBlocks = machine.image.totalBlocks)
    (kept : ∀ mark other, other ≠ slot → (mark, other) ∈ pending → (mark, other) ∈ pending')
    (old : ∀ entry ∈ pending', entry ∈ pending) (bound : slot < machine.cache.cacheSize) :
    Tidy (machine.cleaned slot gdl dirtyList image) recent pending' := by
  apply tidy.update { machine.cache.entries slot with dirtyBit := false, gdlPos := none } image
    dirtyList marks total kept (fun entry listed => Or.inl (old entry listed)) bound rfl
  intro node inside
  have here := tidy.kept node slot inside
  obtain ⟨place, located⟩ := here.located
  refine ⟨here.position, here.found, ⟨place, ?_⟩, here.page, nofun⟩
  unfold Image.locate at located ⊢
  rw [total]
  exact located

/-- The loop of `cache_sync` writes back the slot of the oldest node and goes on. -/
theorem Tidy.syncRound {marks : List (Nat × Nat)} {mark slot : Nat}
    (tidy : Tidy machine recent (marks ++ [(mark, slot)])) {fuel : Nat}
    (run : cacheSyncLoop tags (fuel + 1) machine = some after) :
    ∃ gdl page image, (machine.cache.entries slot).pageData = some page ∧
      diskWriteBlock machine.image (machine.cache.entries slot).blockNumber page = some image ∧
      cacheSyncLoop tags fuel (machine.cleaned slot gdl
        (if tags.isData page then
          dlRemoveBlock machine.cache.dirtyList (machine.cache.entries slot).inodeNumber
            (machine.cache.entries slot).blockNumber
        else machine.cache.dirtyList) image) = some after ∧
      ∀ dirtyList, Tidy (machine.cleaned slot gdl dirtyList image) recent marks := by
  have bound : slot < machine.cache.cacheSize := tidy.marked (mark, slot) (by simp)
  obtain ⟨first, head⟩ : ∃ first, machine.cache.gdl.head = some first := by
    rw [tidy.gdl.head]
    cases marks with
    | nil => exact ⟨mark, rfl⟩
    | cons entry rest => exact ⟨entry.1, rfl⟩
  obtain ⟨headNode, headFound, headPrev⟩ := tidy.gdl.head_prev head
  rw [CircularList.lastOr_append, CircularList.lastOr_cons, CircularList.lastOr_nil] at headPrev
  obtain ⟨gdl, pop, stored⟩ := gdlPop_holds tidy.gdl
  rw [List.append_nil] at stored
  have running : 0 < machine.cache.gdl.size ∧ machine.cache.gdl.head ≠ none := by
    rw [head, tidy.gdl.size, List.length_append, List.length_singleton]
    exact ⟨Nat.succ_pos _, Option.some_ne_none first⟩
  rw [cacheSyncLoop, if_pos running] at run
  simp only [head, Option.bind_eq_bind, Option.bind_some, headFound, headPrev, pop,
    if_neg (Nat.not_le.mpr bound)] at run
  obtain ⟨page, held, run⟩ := Option.bind_eq_some_iff.mp run
  obtain ⟨image, store, run⟩ := Option.bind_eq_some_iff.mp run
  have total : image.totalBlocks = machine.image.totalBlocks := by
    obtain ⟨place, -, rfl⟩ := Option.map_eq_some_iff.mp store
    rfl
  refine ⟨gdl, page, image, held, store, run, fun dirtyList => ?_⟩
  apply tidy.cleaned stored dirtyList total ?_ (fun _ => List.mem_append_left _) bound
  intro other at_ differs listed
  rcases List.mem_append.mp listed with before | last
  · exact before
  · exact absurd (Prod.mk.inj (List.mem_singleton.mp last)).2 differs

end Sync

end Nbtrfs
