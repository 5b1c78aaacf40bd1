import Nbtrfs.Cache.Coherence

/-!
# The operations keep the cache coherent

Each operation of `cache.c` runs to its end from a coherent machine that permits it, answers
as the array of blocks does, and leaves a coherent machine. A run does so call by call.
-/

namespace Nbtrfs

variable {Page : Type} (tags : PageTags Page) {machine : Machine Page} {latest : Nat → Page}
  {recent pending : List (Nat × Nat)}

/-- A hit returns the latest content and moves the slot's node to the front. -/
theorem getBlock_hit (coherent : Coherent machine latest recent pending []) (inum : Nat)
    {pnum slot : Nat} (present : pciLookup machine.cache.pci pnum = some slot) :
    ∃ after recent', getBlock tags machine inum pnum = some (latest pnum, after) ∧
      Coherent after latest recent' pending [] := by
  obtain ⟨node, inside, block⟩ := coherent.hit present
  have here := coherent.resident node slot inside
  obtain ⟨left, right, rfl⟩ := List.append_of_mem inside
  obtain ⟨popped, pop, -, poppedHolds⟩ := lruPop_holds coherent.lru
  have room : (left ++ right).length < intMax := by
    have length := coherent.length
    have fits := coherent.fits
    rw [List.length_append, List.length_cons] at length
    rw [List.length_append]
    omega
  obtain ⟨pushed, push, -, pushedHolds⟩ := lruPush_holds poppedHolds room slot
  have page := here.page
  rw [block] at page
  refine ⟨{ machine with
      cache := { machine.cache with lru := pushed }.setEntry slot
        { machine.cache.entries slot with lruPos := some popped.fresh } },
    (popped.fresh, slot) :: (left ++ right), ?_, ?_⟩
  · simp [getBlock, present, here.position, pop, push, page]
  have slots : ((((popped.fresh, slot) :: (left ++ right)).map Prod.snd)).Perm
      ((left ++ (node, slot) :: right).map Prod.snd) := by
    simp only [List.map_cons, List.map_append]
    exact List.perm_middle.symm
  have older : ∀ other at_, (other, at_) ∈ left ++ right →
      (other, at_) ∈ left ++ (node, slot) :: right ∧ at_ ≠ slot := by
    intro other at_ also
    have nodup := (List.nodup_append.mp coherent.nodup).1
    have fresh := (List.nodup_cons.mp (slots.nodup_iff.mpr nodup)).1
    have used : at_ ∈ (left ++ right).map Prod.snd := List.mem_map.mpr ⟨_, also, rfl⟩
    refine ⟨?_, fun same => fresh (same ▸ used)⟩
    simp only [List.mem_append, List.mem_cons] at also ⊢
    tauto
  refine ⟨pushedHolds, coherent.gdl, ?_, coherent.fits, coherent.chained, ?_, ?_,
    coherent.absent, ?_, ?_⟩
  · exact (slots.append_right _).trans coherent.slots
  · intro other at_ also
    rcases List.mem_cons.mp also with new | old
    · obtain ⟨rfl, rfl⟩ := Prod.mk.inj new
      rw [Cache.setEntry_same]
      exact ⟨rfl, here.found, here.reaches, here.page, here.clean, here.dirty⟩
    · obtain ⟨before, differs⟩ := older other at_ old
      rw [Cache.setEntry_other _ _ _ _ differs]
      exact coherent.resident other at_ before
  · intro other at_ found
    have indexed := coherent.indexed other at_ found
    refine ⟨slots.mem_iff.mpr indexed.1, ?_⟩
    by_cases same : at_ = slot
    · subst same
      rw [Cache.setEntry_same]
      exact indexed.2
    · rw [Cache.setEntry_other _ _ _ _ same]
      exact indexed.2
  · intro mark other listed
    have used := coherent.listed mark other listed
    rw [slots.mem_iff]
    exact used
  · intro other free
    have differs : other ≠ slot := by
      intro same
      exact coherent.not_free (List.mem_map_of_mem inside) (same ▸ free)
    rw [Cache.setEntry_other _ _ _ _ differs]
    exact coherent.idle other free

/-- Loading an absent block into a free slot returns the latest content. -/
theorem load_coherent {spare : List Nat} (coherent : Coherent machine latest recent pending spare)
    (inum : Nat) {pnum slot : Nat} {free : List Nat}
    (reaches : machine.image.Reaches pnum) (missing : pciLookup machine.cache.pci pnum = none)
    (ready : machine.cache.freeList = slot :: free) (only : ∀ other ∈ spare, other = slot) :
    ∃ after recent', load machine inum pnum = some (latest pnum, after) ∧
      Coherent after latest recent' pending [] ∧ pciLookup after.cache.pci pnum = some slot ∧
      (after.cache.entries slot).pinCount = 0 ∧ after.image = machine.image := by
  have room : recent.length < intMax := by
    have length := coherent.length
    have fits := coherent.fits
    rw [ready, List.length_cons] at length
    omega
  obtain ⟨pushed, push, -, pushedHolds⟩ := lruPush_holds coherent.lru room slot
  have content : machine.image.block pnum = latest pnum := coherent.absent pnum missing
  have inserted := Chains.lookup_insert hashmapBucket machine.cache.pci pnum
  have unused : slot ∉ recent.map Prod.snd := by
    intro used
    apply coherent.not_free used
    rw [ready]
    exact List.mem_cons_self
  refine ⟨{ machine with
      cache := { machine.cache with
        lru := pushed, freeList := free, pci := pciInsert machine.cache.pci pnum slot }.setEntry slot
          { machine.cache.entries slot with
            dirtyBit := false, pinCount := 0, blockNumber := pnum, inodeNumber := inum,
            pageData := some (latest pnum), lruPos := some machine.cache.lru.fresh } },
    (machine.cache.lru.fresh, slot) :: recent, ?_, ?_, ?_, ?_, rfl⟩
  · simp [load, ready, flPop, diskReadBlock_eq reaches, push, content]
  · refine ⟨pushedHolds, coherent.gdl, ?_, coherent.fits,
      Chains.chained_insert _ coherent.chained pnum slot missing, ?_, ?_, ?_, ?_, ?_⟩
    · refine List.Perm.trans ?_ coherent.slots
      rw [ready]
      exact List.perm_middle.symm
    · intro other at_ also
      rcases List.mem_cons.mp also with new | old
      · obtain ⟨rfl, rfl⟩ := Prod.mk.inj new
        rw [Cache.setEntry_same]
        have found := inserted pnum at_
        rw [if_pos rfl] at found
        refine ⟨rfl, found, reaches, rfl, fun _ => content, fun dirty => ?_⟩
        cases dirty
      · have differs : at_ ≠ slot := fun same => unused (same ▸ List.mem_map_of_mem old)
        rw [Cache.setEntry_other _ _ _ _ differs]
        have resident := coherent.resident other at_ old
        apply resident.frame rfl rfl (Or.inl rfl)
        · have lookup := inserted (machine.cache.entries at_).blockNumber slot
          have fresh : (machine.cache.entries at_).blockNumber ≠ pnum := by
            intro same
            have found := resident.found
            rw [same, missing] at found
            cases found
          rw [if_neg fresh] at lookup
          exact lookup
        · intro mark listed _ _
          exact listed
    · intro other at_ found
      have lookup : (if other = pnum then some slot else pciLookup machine.cache.pci other) =
          some at_ := (inserted other slot).symm.trans found
      by_cases same : other = pnum
      · rw [if_pos same] at lookup
        obtain rfl := Option.some.inj lookup
        rw [Cache.setEntry_same]
        exact ⟨by simp, same.symm⟩
      · rw [if_neg same] at lookup
        have indexed := coherent.indexed other at_ lookup
        have differs : at_ ≠ slot := fun equal => unused (equal ▸ indexed.1)
        rw [Cache.setEntry_other _ _ _ _ differs]
        exact ⟨List.mem_cons_of_mem _ indexed.1, indexed.2⟩
    · intro other absent
      have lookup : (if other = pnum then some slot else pciLookup machine.cache.pci other) =
          none := (inserted other slot).symm.trans absent
      by_cases same : other = pnum
      · rw [if_pos same] at lookup
        cases lookup
      · rw [if_neg same] at lookup
        exact coherent.absent other lookup
    · intro mark other listed
      left
      rcases coherent.listed mark other listed with used | evicted
      · exact List.mem_cons_of_mem _ used
      · rw [only other evicted]
        exact List.mem_cons_self
    · intro other inFree
      right
      have older : other ∈ machine.cache.freeList := by
        rw [ready]
        exact List.mem_cons_of_mem _ inFree
      have nodup := (List.nodup_append.mp coherent.nodup).2.1
      rw [ready] at nodup
      have differs : other ≠ slot := fun same => (List.nodup_cons.mp nodup).1 (same ▸ inFree)
      rw [Cache.setEntry_other _ _ _ _ differs]
      rcases coherent.idle other older with evicted | clean
      · exact absurd (only other evicted) differs
      · exact clean
  · have found := inserted pnum slot
    rw [if_pos rfl] at found
    exact found
  · simp

/-- A clean victim is left as it is. -/
theorem writeBackVictim_clean {slot : Nat}
    (clean : (machine.cache.entries slot).dirtyBit = false) :
    writeBackVictim tags machine slot = some machine := by
  simp [writeBackVictim, clean]

/-- A dirty victim is written back and its latest node leaves the global dirty list. -/
theorem writeBackVictim_dirty {slot mark : Nat} {page : Page} {before later : List (Nat × Nat)}
    (dirty : (machine.cache.entries slot).dirtyBit = true)
    (held : (machine.cache.entries slot).pageData = some page)
    (reaches : machine.image.Reaches (machine.cache.entries slot).blockNumber)
    (position : (machine.cache.entries slot).gdlPos = some mark)
    (marks : machine.cache.gdl.Holds (before ++ (mark, slot) :: later)) :
    ∃ gdl dirtyList, gdl.Holds (before ++ later) ∧ writeBackVictim tags machine slot = some
      { cache := { machine.cache with gdl, dirtyList }.setEntry slot
          { machine.cache.entries slot with gdlPos := none }
        image := machine.image.put (machine.cache.entries slot).blockNumber page } := by
  obtain ⟨popped, pop, rest⟩ := gdlPop_holds marks
  have store := diskWriteBlock_eq reaches page
  refine ⟨popped, if tags.freedIsData page then
      dlRemoveBlock machine.cache.dirtyList (machine.cache.entries slot).inodeNumber
        (machine.cache.entries slot).blockNumber
    else machine.cache.dirtyList, rest, ?_⟩
  unfold writeBackVictim
  simp only [dirty, if_true]
  rw [held, Option.bind_eq_bind, Option.bind_some, store]
  rw [position, Option.bind_eq_bind, Option.bind_some, pop]
  rfl

/-- Eviction frees one slot, brings its block up to date in the image and forgets nothing. -/
theorem evict_coherent (coherent : Coherent machine latest recent pending [])
    (full : machine.cache.freeList = [])
    (victim : ∃ slot, slot < machine.cache.cacheSize ∧ machine.cache.evictable slot = true) :
    ∃ after slot recent' pending', evict tags machine = some after ∧
      after.cache.freeList = [slot] ∧ Coherent after latest recent' pending' [slot] ∧
      after.image.totalBlocks = machine.image.totalBlocks ∧
      pending'.length ≤ pending.length ∧
      ∀ pnum, pciLookup machine.cache.pci pnum = none →
        pciLookup after.cache.pci pnum = none := by
  have evictable : ∃ entry ∈ recent, machine.cache.evictable entry.2 = true := by
    obtain ⟨slot, bound, accepted⟩ := victim
    have used : slot ∈ recent.map Prod.snd ++ machine.cache.freeList :=
      coherent.slots.mem_iff.mpr (List.mem_range.mpr bound)
    rw [full, List.append_nil] at used
    obtain ⟨entry, inside, rfl⟩ := List.mem_map.mp used
    exact ⟨entry, inside, accepted⟩
  obtain ⟨left, node, slot, right, rfl, accepted, rejected⟩ := CircularList.exists_last evictable
  obtain ⟨first, head⟩ : ∃ first, machine.cache.lru.head = some first := by
    rw [coherent.lru.head]
    cases left with
    | nil => exact ⟨node, rfl⟩
    | cons entry rest => exact ⟨entry.1, rfl⟩
  obtain ⟨tail, tailFound, tailPrev⟩ := coherent.lru.head_prev head
  have enough : right.length < machine.cache.lru.size := by
    rw [coherent.lru.size, List.length_append, List.length_cons]
    omega
  have scan := CircularList.findBack_last coherent.lru accepted rejected _ enough
  obtain ⟨popped, pop, -, recency⟩ := lruPop_holds coherent.lru
  have here := coherent.resident node slot (by simp)
  have delete := pciDelete_present here.found
  have absent : ∀ pnum, pciLookup machine.cache.pci pnum = none →
      pciLookup (Chains.erase hashmapBucket machine.cache.pci
        (machine.cache.entries slot).blockNumber) pnum = none := by
    intro pnum missing
    have lookup := Chains.lookup_erase hashmapBucket coherent.chained
      (machine.cache.entries slot).blockNumber pnum
    rw [pciLookup, lookup]
    split
    · rfl
    · exact missing
  have ready : flPush machine.cache.freeList slot = [slot] := by
    rw [full]
    rfl
  cases dirtyBit : (machine.cache.entries slot).dirtyBit with
  | false =>
    have written := writeBackVictim_clean tags
      (show (({ machine with cache := { machine.cache with lru := popped } } :
        Machine Page).cache.entries slot).dirtyBit = false from dirtyBit)
    have released := coherent.release machine.cache.entries machine.image machine.cache.dirtyList
      recency coherent.gdl rfl (fun _ _ => rfl) (here.clean dirtyBit) (fun _ _ _ listed => listed)
      (fun _ listed => listed) (fun _ _ => rfl)
    refine ⟨_, slot, left ++ right, pending, ?_, ready, released, rfl, Nat.le_refl _, absent⟩
    simp only [evict, head, tailFound, tailPrev, scan, pop, written, delete,
      Option.bind_eq_bind, Option.bind_some]
  | true =>
    obtain ⟨mark, position, listed⟩ := here.dirty dirtyBit
    obtain ⟨before, later, rfl⟩ := List.append_of_mem listed
    obtain ⟨gdl, dirtyList, marks, written⟩ := @writeBackVictim_dirty _ tags
      { machine with cache := { machine.cache with lru := popped } } slot mark _ before later
      dirtyBit here.page here.reaches position coherent.gdl
    have kept : ∀ other at_, at_ ≠ slot → (other, at_) ∈ before ++ (mark, slot) :: later →
        (other, at_) ∈ before ++ later := by
      intro other at_ differs inside
      rw [List.mem_append, List.mem_cons] at inside
      rw [List.mem_append]
      rcases inside with early | same | late
      · exact Or.inl early
      · exact absurd (Prod.mk.inj same).2 differs
      · exact Or.inr late
    have old : ∀ entry ∈ before ++ later, entry ∈ before ++ (mark, slot) :: later := by
      intro entry inside
      rcases List.mem_append.mp inside with early | late
      · exact List.mem_append_left _ early
      · exact List.mem_append_right _ (List.mem_cons_of_mem _ late)
    have released := coherent.release
      (machine.cache.setEntry slot { machine.cache.entries slot with gdlPos := none }).entries
      (machine.image.put (machine.cache.entries slot).blockNumber
        (latest (machine.cache.entries slot).blockNumber)) dirtyList
      recency marks rfl (fun pnum differs => Image.put_other _ _ _ _ differs)
      (Image.put_same _ _ _) kept old
      (fun other differs => Cache.setEntry_other _ _ _ _ differs)
    refine ⟨_, slot, left ++ right, before ++ later, ?_, ready, released, rfl, ?_, absent⟩
    · simp only [evict, head, tailFound, tailPrev, scan, pop, written, Cache.setEntry_same,
        Option.bind_eq_bind, Option.bind_some]
      simp only [Cache.setEntry, delete, Option.bind_some]
    · rw [List.length_append, List.length_append, List.length_cons]
      omega

/-- A miss returns the latest content, through an eviction if no slot is free. -/
theorem getBlock_miss (coherent : Coherent machine latest recent pending []) (inum : Nat)
    {pnum : Nat} (reaches : machine.image.Reaches pnum) (victim : machine.HasVictim pnum)
    (missing : pciLookup machine.cache.pci pnum = none) :
    ∃ after slot recent' pending', getBlock tags machine inum pnum = some (latest pnum, after) ∧
      Coherent after latest recent' pending' [] ∧ pciLookup after.cache.pci pnum = some slot ∧
      (after.cache.entries slot).pinCount = 0 ∧ pending'.length ≤ pending.length ∧
      after.image.totalBlocks = machine.image.totalBlocks := by
  by_cases full : machine.cache.freeList = []
  · obtain ⟨evicted, slot, recent', pending', run, ready, partly, total, fewer, absent⟩ :=
      evict_coherent tags coherent full (victim missing full)
    have reaches' : evicted.image.Reaches pnum := by
      unfold Image.Reaches at reaches ⊢
      rw [total]
      exact reaches
    obtain ⟨after, recent'', loaded, whole, found, unpinned, image⟩ :=
      load_coherent partly inum reaches' (absent pnum missing) ready (by simp)
    refine ⟨after, slot, recent'', pending', ?_, whole, found, unpinned, fewer, ?_⟩
    · simp [getBlock, missing, full, run, loaded]
    · rw [image, total]
  · obtain ⟨slot, free, ready⟩ := List.exists_cons_of_ne_nil full
    obtain ⟨after, recent', loaded, whole, found, unpinned, image⟩ :=
      load_coherent coherent inum reaches missing ready (by simp)
    refine ⟨after, slot, recent', pending, ?_, whole, found, unpinned, Nat.le_refl _, ?_⟩
    · simp [getBlock, missing, full, loaded]
    · rw [image]

/-- The slot of a block, on a hit and on a miss. -/
theorem residentSlot_coherent (coherent : Coherent machine latest recent pending []) (inum : Nat)
    {pnum : Nat} (reaches : machine.image.Reaches pnum) (victim : machine.HasVictim pnum) :
    ∃ after slot recent' pending', residentSlot tags machine inum pnum = some (slot, after) ∧
      Coherent after latest recent' pending' [] ∧ pciLookup after.cache.pci pnum = some slot ∧
      (after.cache.entries slot).pinCount = machine.pins pnum ∧
      pending'.length ≤ pending.length := by
  cases present : pciLookup machine.cache.pci pnum with
  | some slot =>
    refine ⟨machine, slot, recent, pending, ?_, coherent, present, ?_, Nat.le_refl _⟩
    · simp [residentSlot, present]
    · simp [Machine.pins, present]
  | none =>
    obtain ⟨after, slot, recent', pending', run, whole, found, unpinned, fewer, -⟩ :=
      getBlock_miss tags coherent inum reaches victim present
    refine ⟨after, slot, recent', pending', ?_, whole, found, ?_, fewer⟩
    · simp [residentSlot, present, run, found]
    · simp [Machine.pins, present, unpinned]

/-- Listing a slot puts a node of it first on the global dirty list. -/
theorem markGlobal_holds {cache : Cache Page} {pending : List (Nat × Nat)}
    (marks : cache.gdl.Holds pending) (room : pending.length < intMax) (slot : Nat) :
    ∃ mark gdl, gdl.Holds ((mark, slot) :: pending) ∧ markGlobal cache slot =
      some ({ cache with gdl }.setEntry slot
        { cache.entries slot with gdlPos := some mark }) := by
  obtain ⟨pushed, push, -, stored⟩ := lruPush_holds marks room slot
  refine ⟨cache.gdl.fresh, pushed, stored, ?_⟩
  rw [markGlobal, gdlPush, push]
  rfl

/-- Filing a block under an inode changes the per-inode lists only. -/
theorem markInode_eq (cache : Cache Page) (page : Page) (inum pnum : Nat) :
    ∃ dirtyList, markInode tags cache page inum pnum = { cache with dirtyList } := by
  unfold markInode
  split
  · exact ⟨_, rfl⟩
  · exact ⟨cache.dirtyList, rfl⟩

/-- Filing a slot's block and listing the slot, after the slot's entry was changed. -/
theorem mark_holds {cache : Cache Page} {pending : List (Nat × Nat)}
    (marks : cache.gdl.Holds pending) (room : pending.length < intMax) (page : Page)
    (inum pnum slot : Nat) (entry : CacheEntry Page) :
    ∃ mark gdl dirtyList, gdl.Holds ((mark, slot) :: pending) ∧
      markGlobal (markInode tags (cache.setEntry slot entry) page inum pnum) slot =
        some ({ cache with gdl, dirtyList }.setEntry slot { entry with gdlPos := some mark }) := by
  obtain ⟨dirtyList, filed⟩ := markInode_eq tags (cache.setEntry slot entry) page inum pnum
  obtain ⟨mark, gdl, stored, run⟩ :=
    @markGlobal_holds _ { cache.setEntry slot entry with dirtyList } pending marks room slot
  refine ⟨mark, gdl, dirtyList, stored, ?_⟩
  have same : ({ cache.setEntry slot entry with dirtyList } : Cache Page).entries slot = entry :=
    Cache.setEntry_same cache slot entry
  rw [filed, run, same]
  exact congrArg some (Cache.setEntry_setEntry { cache with gdl, dirtyList } slot entry _)

/-- The copy into a slot leaves it dirty, with its latest node first on the global dirty list
and every older node kept. -/
theorem writeSlot_holds {cache : Cache Page} (marks : cache.gdl.Holds pending)
    (room : pending.length + 2 ≤ intMax) (buf : Page) (inum pnum slot : Nat) :
    ∃ mark marked gdl dirtyList, gdl.Holds ((mark, slot) :: marked) ∧
      (∀ entry ∈ pending, entry ∈ marked) ∧
      (∀ entry ∈ marked, entry ∈ pending ∨ entry.2 = slot) ∧
      writeSlot tags cache buf inum pnum slot =
        some ({ cache with gdl, dirtyList }.setEntry slot { cache.entries slot with
          pageData := some buf, dirtyBit := true, gdlPos := some mark }) := by
  obtain ⟨first, gdl, dirtyList, stored, run⟩ := mark_holds tags marks (by omega) buf inum pnum slot
    { cache.entries slot with pageData := some buf, dirtyBit := true }
  cases dirtyBit : (cache.entries slot).dirtyBit with
  | true =>
    refine ⟨first, pending, gdl, dirtyList, stored, fun _ listed => listed,
      fun _ listed => Or.inl listed, ?_⟩
    unfold writeSlot
    rw [dirtyBit]
    exact run
  | false =>
    obtain ⟨second, gdl', dirtyList', stored', run'⟩ :=
      @mark_holds _ tags { cache with gdl, dirtyList } _ stored (by rw [List.length_cons]; omega)
        buf inum pnum slot { cache.entries slot with
          pageData := some buf, dirtyBit := true, gdlPos := some first }
    refine ⟨second, (first, slot) :: pending, gdl', dirtyList', stored',
      fun _ listed => List.mem_cons_of_mem _ listed, ?_, ?_⟩
    · intro entry listed
      rcases List.mem_cons.mp listed with new | before
      · right
        rw [new]
      · exact Or.inl before
    · unfold writeSlot
      rw [dirtyBit]
      simp only [Bool.not_false, if_true, run, Option.bind_eq_bind, Option.bind_some]
      exact run'

/-- A write makes its page the latest content of its block. -/
theorem writeBlock_coherent (coherent : Coherent machine latest recent pending []) (buf : Page)
    (inum : Nat) {pnum : Nat} (reaches : machine.image.Reaches pnum)
    (victim : machine.HasVictim pnum) (room : pending.length + 2 ≤ intMax) :
    ∃ after recent' pending', writeBlock tags machine buf inum pnum = some after ∧
      Coherent after (fun other => if other = pnum then buf else latest other)
        recent' pending' [] := by
  obtain ⟨ready, slot, recent', pending', run, whole, found, -, fewer⟩ :=
    residentSlot_coherent tags coherent inum reaches victim
  obtain ⟨node, inside, block⟩ := whole.hit found
  have here := whole.resident node slot inside
  obtain ⟨mark, marked, gdl, dirtyList, stored, kept, old, copied⟩ :=
    writeSlot_holds tags whole.gdl (by omega) buf inum pnum slot
  have result : writeBlock tags machine buf inum pnum = some
      { ready with
        cache := { ready.cache with gdl, dirtyList }.setEntry slot
          { ready.cache.entries slot with
            pageData := some buf, dirtyBit := true, gdlPos := some mark } } := by
    rw [writeBlock, run]
    simp only [Option.bind_eq_bind, Option.bind_some, copied]
  refine ⟨_, recent', (mark, slot) :: marked, result, ?_⟩
  apply whole.update inside _ ready.image dirtyList stored rfl
  · intro other differs
    rw [block] at differs
    exact ⟨rfl, if_neg differs⟩
  · intro earlier other _ listed
    exact List.mem_cons_of_mem _ (kept _ listed)
  · intro earlier other listed
    rcases List.mem_cons.mp listed with new | before
    · exact Or.inr (Prod.mk.inj new).2
    · exact old _ before
  · rfl
  · refine ⟨here.position, here.found, here.reaches, ?_, fun clean => ?_, fun _ => ?_⟩
    · show some buf = some (if (ready.cache.entries slot).blockNumber = pnum then buf
        else latest (ready.cache.entries slot).blockNumber)
      rw [if_pos block]
    · cases clean
    · exact ⟨mark, rfl, List.mem_cons_self⟩

/-- A change of a slot's pins alone keeps the machine coherent. -/
theorem repin_coherent (coherent : Coherent machine latest recent pending []) {pnum slot : Nat}
    (found : pciLookup machine.cache.pci pnum = some slot) (pinCount : Nat) :
    Coherent
      { machine with
        cache := machine.cache.setEntry slot { machine.cache.entries slot with pinCount } }
      latest recent pending [] := by
  obtain ⟨node, inside, -⟩ := coherent.hit found
  have here := coherent.resident node slot inside
  exact coherent.update inside { machine.cache.entries slot with pinCount } machine.image
    machine.cache.dirtyList coherent.gdl rfl (fun _ _ => ⟨rfl, rfl⟩) (fun _ _ _ listed => listed)
    (fun _ _ listed => Or.inl listed) rfl
    ⟨here.position, here.found, here.reaches, here.page, here.clean, here.dirty⟩

/-- Pinning changes no content. -/
theorem increasePinCount_coherent (coherent : Coherent machine latest recent pending [])
    (inum : Nat) {pnum : Nat} (reaches : machine.image.Reaches pnum)
    (victim : machine.HasVictim pnum) (room : machine.pins pnum < intMax) :
    ∃ after recent' pending', increasePinCount tags machine inum pnum = some after ∧
      Coherent after latest recent' pending' [] := by
  obtain ⟨ready, slot, recent', pending', run, whole, found, pins, -⟩ :=
    residentSlot_coherent tags coherent inum reaches victim
  rw [← pins] at room
  have repinned := repin_coherent whole found ((ready.cache.entries slot).pinCount + 1)
  refine ⟨_, recent', pending', ?_, repinned⟩
  rw [increasePinCount, run]
  simp only [Option.bind_eq_bind, Option.bind_some, if_pos room]

/-- Unpinning changes no content. -/
theorem decreasePinCount_coherent (coherent : Coherent machine latest recent pending [])
    (inum : Nat) {pnum : Nat} (reaches : machine.image.Reaches pnum)
    (victim : machine.HasVictim pnum) :
    ∃ after recent' pending', decreasePinCount tags machine inum pnum = some after ∧
      Coherent after latest recent' pending' [] := by
  obtain ⟨ready, slot, recent', pending', run, whole, found, -, -⟩ :=
    residentSlot_coherent tags coherent inum reaches victim
  have repinned := repin_coherent whole found ((ready.cache.entries slot).pinCount - 1)
  refine ⟨_, recent', pending', ?_, repinned⟩
  rw [decreasePinCount, run]
  simp only [Option.bind_eq_bind, Option.bind_some]

/-- A write-back of a slot that is the oldest on the global dirty list. -/
theorem cacheSyncLoop_step {marks : List (Nat × Nat)} {mark slot : Nat}
    (coherent : Coherent machine latest recent (marks ++ [(mark, slot)]) []) (fuel : Nat) :
    ∃ after, cacheSyncLoop tags (fuel + 1) machine = cacheSyncLoop tags fuel after ∧
      Coherent after latest recent marks [] := by
  have used : slot ∈ recent.map Prod.snd := by
    rcases coherent.listed mark slot (by simp) with inUse | none
    · exact inUse
    · cases none
  have bound : slot < machine.cache.cacheSize := coherent.slot_lt (List.mem_append_left _ used)
  obtain ⟨⟨node, same⟩, inside, rfl⟩ := List.mem_map.mp used
  dsimp only at *
  have here := coherent.resident node same inside
  obtain ⟨first, head⟩ : ∃ first, machine.cache.gdl.head = some first := by
    rw [coherent.gdl.head]
    cases marks with
    | nil => exact ⟨mark, rfl⟩
    | cons entry rest => exact ⟨entry.1, rfl⟩
  obtain ⟨headNode, headFound, headPrev⟩ := coherent.gdl.head_prev head
  rw [CircularList.lastOr_append, CircularList.lastOr_cons, CircularList.lastOr_nil] at headPrev
  obtain ⟨gdl, pop, stored⟩ := gdlPop_holds coherent.gdl
  rw [List.append_nil] at stored
  have positive : 0 < machine.cache.gdl.size := by
    rw [coherent.gdl.size, List.length_append, List.length_singleton]
    omega
  have store := diskWriteBlock_eq here.reaches (latest (machine.cache.entries same).blockNumber)
  refine ⟨_, ?_, coherent.update inside { machine.cache.entries same with
      dirtyBit := false, gdlPos := none }
    (machine.image.put (machine.cache.entries same).blockNumber
      (latest (machine.cache.entries same).blockNumber))
    (if tags.isData (latest (machine.cache.entries same).blockNumber) then
        dlRemoveBlock machine.cache.dirtyList (machine.cache.entries same).inodeNumber
          (machine.cache.entries same).blockNumber
      else machine.cache.dirtyList) stored rfl
    (fun pnum differs => ⟨Image.put_other _ _ _ _ differs, rfl⟩) ?_ ?_ rfl ?_⟩
  · have running : 0 < machine.cache.gdl.size ∧ machine.cache.gdl.head ≠ none := by
      rw [head]
      exact ⟨positive, Option.some_ne_none first⟩
    rw [cacheSyncLoop, if_pos running]
    simp only [head, Option.bind_eq_bind, Option.bind_some, headFound, headPrev, pop,
      if_neg (Nat.not_le.mpr bound)]
    rw [here.page, Option.bind_some, store, Option.bind_some]
  · intro other at_ differs listed
    rcases List.mem_append.mp listed with kept | new
    · exact kept
    · exact absurd (Prod.mk.inj (List.mem_singleton.mp new)).2 differs
  · intro other at_ listed
    exact Or.inl (List.mem_append_left _ listed)
  · refine ⟨here.position, here.found, here.reaches, here.page, fun _ => ?_, fun dirty => ?_⟩
    · exact Image.put_same _ _ _
    · cases dirty

/-- The loop of `cache_sync` empties the global dirty list. -/
theorem cacheSyncLoop_coherent {marks : List (Nat × Nat)} (fuel : Nat)
    (coherent : Coherent machine latest recent marks []) (enough : marks.length < fuel) :
    ∃ after, cacheSyncLoop tags fuel machine = some after ∧
      Coherent after latest recent [] [] := by
  induction marks using List.reverseRecOn generalizing machine fuel with
  | nil =>
    obtain ⟨fuel, rfl⟩ := Nat.exists_eq_succ_of_ne_zero (by omega : fuel ≠ 0)
    refine ⟨machine, ?_, coherent⟩
    have empty : machine.cache.gdl.size = 0 := coherent.gdl.size
    rw [cacheSyncLoop, empty, if_neg (by omega)]
  | append_singleton marks entry ih =>
    obtain ⟨mark, slot⟩ := entry
    obtain ⟨fuel, rfl⟩ := Nat.exists_eq_succ_of_ne_zero (by omega : fuel ≠ 0)
    obtain ⟨next, step, whole⟩ := cacheSyncLoop_step tags coherent fuel
    have shorter : marks.length < fuel := by
      rw [List.length_append, List.length_singleton] at enough
      omega
    obtain ⟨after, run, final⟩ := ih fuel whole shorter
    exact ⟨after, step.trans run, final⟩

/-- `cache_sync` ends with an empty global dirty list. -/
theorem cacheSync_coherent (coherent : Coherent machine latest recent pending []) :
    ∃ after, cacheSync tags machine = some after ∧ Coherent after latest recent [] [] := by
  apply cacheSyncLoop_coherent tags _ coherent
  rw [coherent.gdl.size]
  omega

/-- With an empty global dirty list every block is up to date in the image. -/
theorem Coherent.image_latest (coherent : Coherent machine latest recent [] []) (pnum : Nat) :
    machine.image.block pnum = latest pnum := by
  cases present : pciLookup machine.cache.pci pnum with
  | none => exact coherent.absent pnum present
  | some slot =>
    obtain ⟨node, inside, rfl⟩ := coherent.hit present
    have here := coherent.resident node slot inside
    apply here.clean
    cases dirtyBit : (machine.cache.entries slot).dirtyBit with
    | false => rfl
    | true =>
      obtain ⟨mark, -, listed⟩ := here.dirty dirtyBit
      cases listed

/-- With an empty global dirty list no slot is dirty. -/
theorem Coherent.all_clean (coherent : Coherent machine latest recent [] []) (slot : Nat)
    (bound : slot < machine.cache.cacheSize) :
    (machine.cache.entries slot).dirtyBit = false := by
  have inside := coherent.slots.mem_iff.mpr (List.mem_range.mpr bound)
  rcases List.mem_append.mp inside with used | free
  · obtain ⟨entry, listed, rfl⟩ := List.mem_map.mp used
    cases dirtyBit : (machine.cache.entries entry.2).dirtyBit with
    | false => rfl
    | true =>
      obtain ⟨mark, -, marked⟩ := (coherent.resident entry.1 entry.2 listed).dirty dirtyBit
      cases marked
  · rcases coherent.idle slot free with none | clean
    · cases none
    · exact clean

/-- One permitted call answers as the array does and keeps the machine coherent. After a sync
the global dirty list is empty. -/
theorem cacheStep_coherent (coherent : Coherent machine latest recent pending [])
    (call : CacheCall Page) (permits : Permits machine call) :
    ∃ after recent' pending',
      cacheStep tags machine call = some ((arrayStep latest call).1, after) ∧
        Coherent after (arrayStep latest call).2 recent' pending' [] ∧
        (call = .sync → after.cache.gdl.size = 0) := by
  cases call with
  | get inum pnum =>
    obtain ⟨reaches, victim⟩ := permits
    cases present : pciLookup machine.cache.pci pnum with
    | some slot =>
      obtain ⟨after, recent', run, whole⟩ := getBlock_hit tags coherent inum present
      refine ⟨after, recent', pending, ?_, whole, fun sync => by cases sync⟩
      rw [cacheStep, run]
      rfl
    | none =>
      obtain ⟨after, -, recent', pending', run, whole, -⟩ :=
        getBlock_miss tags coherent inum reaches victim present
      refine ⟨after, recent', pending', ?_, whole, fun sync => by cases sync⟩
      rw [cacheStep, run]
      rfl
  | write buf inum pnum =>
    obtain ⟨reaches, victim, room⟩ := permits
    rw [coherent.gdl.size] at room
    obtain ⟨after, recent', pending', run, whole⟩ :=
      writeBlock_coherent tags coherent buf inum reaches victim room
    refine ⟨after, recent', pending', ?_, whole, fun sync => by cases sync⟩
    rw [cacheStep, run]
    rfl
  | pin inum pnum =>
    obtain ⟨reaches, victim, room⟩ := permits
    obtain ⟨after, recent', pending', run, whole⟩ :=
      increasePinCount_coherent tags coherent inum reaches victim room
    refine ⟨after, recent', pending', ?_, whole, fun sync => by cases sync⟩
    rw [cacheStep, run]
    rfl
  | unpin inum pnum =>
    obtain ⟨reaches, victim⟩ := permits
    obtain ⟨after, recent', pending', run, whole⟩ :=
      decreasePinCount_coherent tags coherent inum reaches victim
    refine ⟨after, recent', pending', ?_, whole, fun sync => by cases sync⟩
    rw [cacheStep, run]
    rfl
  | sync =>
    obtain ⟨after, run, whole⟩ := cacheSync_coherent tags coherent
    refine ⟨after, recent, [], ?_, whole, fun _ => whole.gdl.size⟩
    rw [cacheStep, run]
    rfl

/-- A permitted run answers as the array does and keeps the machine coherent. -/
theorem cacheRun_coherent (calls : List (CacheCall Page)) (latest : Nat → Page)
    (coherent : Coherent machine latest recent pending [])
    (permits : RunPermits tags machine calls) :
    ∃ after recent' pending',
      cacheRun tags machine calls = some ((arrayRun latest calls).1, after) ∧
        Coherent after (arrayRun latest calls).2 recent' pending' [] ∧
        (calls.getLast? = some .sync → after.cache.gdl.size = 0) := by
  induction calls generalizing machine latest recent pending with
  | nil => exact ⟨machine, recent, pending, rfl, coherent, fun sync => by cases sync⟩
  | cons call calls ih =>
    obtain ⟨now, later⟩ := permits
    obtain ⟨next, recent', pending', step, whole, synced⟩ :=
      cacheStep_coherent tags coherent call now
    rw [step] at later
    obtain ⟨after, recent'', pending'', run, final, emptied⟩ :=
      ih (arrayStep latest call).2 whole later
    refine ⟨after, recent'', pending'', ?_, final, ?_⟩
    · rw [cacheRun, step, Option.bind_eq_bind, Option.bind_some]
      simp only [run, Option.bind_eq_bind, Option.bind_some]
      rfl
    · intro last
      cases calls with
      | nil =>
        rw [List.getLast?_singleton] at last
        obtain rfl : next = after := (Prod.mk.inj (Option.some.inj run)).2
        exact synced (Option.some.inj last)
      | cons second rest =>
        rw [List.getLast?_cons_cons] at last
        exact emptied last

/-- The initial cache is coherent with the initial image. -/
theorem allocCache_coherent (image : Image Page) (cacheSize : Nat) (fits : cacheSize ≤ intMax)
    (uninitialised : Nat → CacheEntry Page) :
    Coherent ⟨allocCache cacheSize uninitialised, image⟩ image.block [] [] [] := by
  have free : (List.range cacheSize).foldl flPush [] = (List.range cacheSize).reverse := by
    have push : flPush = fun list index => index :: list := rfl
    rw [push, List.foldl_flip_cons_eq_append', List.append_nil]
  refine ⟨CircularList.empty_holds, CircularList.empty_holds, ?_, fits,
    Chains.chained_empty _, ?_, ?_, fun _ _ => rfl, ?_, fun _ _ => Or.inr rfl⟩
  · show ((List.range cacheSize).foldl flPush []).Perm (List.range cacheSize)
    rw [free]
    exact List.reverse_perm _
  · intro node slot inside
    cases inside
  · intro pnum slot found
    cases found
  · intro node slot inside
    cases inside

/-- Every permitted run from the initial cache answers as the array of the image's blocks
does, and right after a sync the image is that array and no slot is dirty. -/
theorem cacheRun_array (image : Image Page) (cacheSize : Nat) (fits : cacheSize ≤ intMax)
    (uninitialised : Nat → CacheEntry Page) (calls : List (CacheCall Page))
    (permits : RunPermits tags ⟨allocCache cacheSize uninitialised, image⟩ calls) :
    ∃ after, cacheRun tags ⟨allocCache cacheSize uninitialised, image⟩ calls =
        some ((arrayRun image.block calls).1, after) ∧
      (calls.getLast? = some .sync →
        (∀ pnum, after.image.block pnum = (arrayRun image.block calls).2 pnum) ∧
          ∀ slot < after.cache.cacheSize, (after.cache.entries slot).dirtyBit = false) := by
  have initial := allocCache_coherent image cacheSize fits uninitialised
  obtain ⟨after, recent, pending, run, whole, synced⟩ :=
    cacheRun_coherent tags calls image.block initial permits
  refine ⟨after, run, fun last => ?_⟩
  have empty : pending = [] := by
    apply List.length_eq_zero_iff.mp
    rw [← whole.gdl.size]
    exact synced last
  subst empty
  exact ⟨whole.image_latest, whole.all_clean⟩

/-- A slot as `malloc` may return it. -/
def wildEntry : CacheEntry Nat := ⟨true, 3, 9, 9, some 9, some 9, some 9⟩

/-- A run through one slot with two evictions, one of them of a dirty slot with a node left. -/
theorem cacheRun_array_one_slot :
    ∃ after, cacheRun ⟨fun _ => true, fun _ => true⟩
        ⟨allocCache 1 fun _ => wildEntry, ⟨3, fun pnum => pnum⟩⟩
        [.write 7 5 1, .get 5 2, .get 5 1, .pin 5 1, .unpin 5 1, .sync] =
        some ([none, some 2, some 7, none, none, none], after) ∧
      (∀ pnum, after.image.block pnum = if pnum = 1 then 7 else pnum) := by
  obtain ⟨after, run, synced⟩ := cacheRun_array ⟨fun _ => true, fun _ => true⟩
    ⟨3, fun pnum => pnum⟩ 1 (by decide) (fun _ => wildEntry)
    [.write 7 5 1, .get 5 2, .get 5 1, .pin 5 1, .unpin 5 1, .sync] (by decide +kernel)
  exact ⟨after, run, (synced rfl).1⟩

/-- Block 2^20 of a larger image is read through one free slot, and the content of block 0
is returned. -/
theorem cacheRun_array_false :
    2 ^ 20 < 2 ^ 20 + 1 ∧
      Machine.HasVictim ⟨allocCache 1 fun _ => wildEntry, ⟨2 ^ 20 + 1, fun pnum => pnum⟩⟩ (2 ^ 20) ∧
      (cacheRun ⟨fun _ => true, fun _ => true⟩
        ⟨allocCache 1 fun _ => wildEntry, ⟨2 ^ 20 + 1, fun pnum => pnum⟩⟩
        [.get 5 (2 ^ 20)]).map Prod.fst = some [some 0] ∧
      (arrayRun (fun pnum => pnum) [.get 5 (2 ^ 20)]).1 = [some (2 ^ 20)] := by
  decide +kernel

end Nbtrfs
