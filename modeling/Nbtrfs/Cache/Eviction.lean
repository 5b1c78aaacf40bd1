import Nbtrfs.Cache.Bookkeeping

/-!
# Recency and pins over whole runs

The recency list holds the slots that `get_block` has returned, the last returned first. A block
keeps its pins as long as it has any, since a pinned slot is not evicted, so the pins of a block are
what the calls so far make of them.
-/

namespace Nbtrfs

variable {Page : Type}

section Calls

variable (tags : PageTags Page)

/-- The slot whose page `get_block` returns: the one that the index names, or else the first free
one after an eviction has made room. -/
def slotOf (machine : Machine Page) (pnum : Nat) : Option Nat :=
  match pciLookup machine.cache.pci pnum with
  | some slot => some slot
  | none => do
    let ready ← if machine.cache.freeList = [] then evict tags machine else some machine
    ready.cache.freeList.head?

/-- The slot whose page the `get_block` of a call returns. The calls that take a block number make
one if the block is absent. -/
def slotReturned (machine : Machine Page) : CacheCall Page → Option Nat
  | .get _ pnum => slotOf tags machine pnum
  | .write _ _ pnum | .pin _ pnum | .unpin _ pnum =>
    if pciLookup machine.cache.pci pnum = none then slotOf tags machine pnum else none
  | .sync => none

/-- The slots whose pages the `get_block`s of a run return, the last one first. -/
def slotsReturned : Machine Page → List (CacheCall Page) → List Nat
  | _, [] => []
  | machine, call :: calls =>
    match cacheStep tags machine call with
    | none => []
    | some (_, after) => slotsReturned after calls ++ (slotReturned tags machine call).toList

end Calls

/-- The recency list after a slot was returned. -/
def recencyAfter (order : List Nat) : Option Nat → List Nat
  | none => order
  | some slot => Recency.touch order slot

/-- The pins of a block after a call. -/
def pinsAfter (pins : Nat) (block : Nat) : CacheCall Page → Nat
  | .pin _ pnum => if block = pnum then pins + 1 else pins
  | .unpin _ pnum => if block = pnum then pins - 1 else pins
  | .get _ _ | .write _ _ _ | .sync => pins

section Step

variable {tags : PageTags Page} {machine after ready : Machine Page}
  {recent pending : List (Nat × Nat)} {inum pnum slot : Nat} {page : Page}

/-- The pins of a block in a slot. -/
theorem Machine.pins_of_lookup (present : pciLookup machine.cache.pci pnum = some slot) :
    machine.pins pnum = (machine.cache.entries slot).pinCount := by
  rw [Machine.pins, present]
  rfl

/-- An absent block has no pins. -/
theorem Machine.pins_of_missing (missing : pciLookup machine.cache.pci pnum = none) :
    machine.pins pnum = 0 := by
  rw [Machine.pins, missing]
  rfl

/-- Pins are kept with the index and the counts. -/
theorem Machine.pins_congr (index : after.cache.pci = machine.cache.pci)
    (counts : ∀ slot, (after.cache.entries slot).pinCount = (machine.cache.entries slot).pinCount)
    (block : Nat) : after.pins block = machine.pins block := by
  unfold Machine.pins
  rw [index]
  cases pciLookup machine.cache.pci block with
  | none => rfl
  | some slot => exact counts slot

/-- A change of one slot that leaves its count alone. -/
theorem pinCount_setEntry (cache : Cache Page) (slot : Nat) (entry : CacheEntry Page)
    (same : entry.pinCount = (cache.entries slot).pinCount) (other : Nat) :
    ((cache.setEntry slot entry).entries other).pinCount = (cache.entries other).pinCount := by
  by_cases here : other = slot
  · rw [here, Cache.setEntry_same, same]
  · rw [Cache.setEntry_other _ _ _ _ here]

/-- An eviction takes no pins. -/
theorem Evicted.pins (tidy : Tidy machine recent pending) {node : Nat}
    (inside : (node, slot) ∈ recent) (evicted : Evicted tags machine slot ready) (block : Nat) :
    ready.pins block = machine.pins block := by
  have here := tidy.kept node slot inside
  by_cases same : block = (machine.cache.entries slot).blockNumber
  · have forgotten := evicted.forgets block
    rw [if_pos same] at forgotten
    rw [Machine.pins_of_missing forgotten, same, Machine.pins_of_lookup here.found,
      evicted.unpinned]
  · have kept := evicted.forgets block
    rw [if_neg same] at kept
    cases present : pciLookup machine.cache.pci block with
    | none => rw [Machine.pins_of_missing (kept.trans present), Machine.pins_of_missing present]
    | some other =>
      have differs : other ≠ slot := by
        rintro rfl
        exact same (tidy.indexed block other present).2.symm
      rw [Machine.pins_of_lookup (kept.trans present), Machine.pins_of_lookup present,
        evicted.others other differs]

/-- A loaded block has no pins, and the others keep theirs. -/
theorem Machine.pins_loaded (tidy : Tidy ready recent pending)
    (missing : pciLookup ready.cache.pci pnum = none) (unused : slot ∉ recent.map Prod.snd)
    (freeList : List Nat) (lru : CircularList Nat) (node : Nat) (block : Nat) :
    (ready.loaded slot inum pnum page freeList lru node).pins block = ready.pins block := by
  have inserted := Chains.lookup_insert hashmapBucket ready.cache.pci pnum block slot
  have lookup : pciLookup (ready.loaded slot inum pnum page freeList lru node).cache.pci block =
      if block = pnum then some slot else pciLookup ready.cache.pci block := inserted
  by_cases same : block = pnum
  · rw [if_pos same] at lookup
    rw [Machine.pins_of_lookup lookup, same, Machine.pins_of_missing missing, Machine.loaded_same]
  · rw [if_neg same] at lookup
    cases present : pciLookup ready.cache.pci block with
    | none => rw [Machine.pins_of_missing (lookup.trans present), Machine.pins_of_missing present]
    | some other =>
      have differs : other ≠ slot := by
        rintro rfl
        exact unused (tidy.indexed block other present).1
      rw [Machine.pins_of_lookup (lookup.trans present), Machine.pins_of_lookup present,
        Machine.loaded_other _ _ _ _ _ _ _ _ _ differs]

/-- What a call does to the records: the recency list moves the slot that was returned to the
front, and the pins of the blocks change by the call's own. -/
structure Stepped (recent : List (Nat × Nat)) (returned : Option Nat)
    (pins : Nat → Nat) (cacheSize : Nat) (after : Machine Page) (recent' pending' : List (Nat × Nat)) :
    Prop where
  /-- The records are in order. -/
  tidy : Tidy after recent' pending'
  /-- The slot that was returned is the most recent one. -/
  order : recent'.map Prod.snd = recencyAfter (recent.map Prod.snd) returned
  /-- The pins. -/
  pins : ∀ block, after.pins block = pins block
  /-- The cache has as many slots. -/
  cacheSize : after.cache.cacheSize = cacheSize

/-- `get_block` returns a slot and takes no pins. -/
theorem Tidy.get (tidy : Tidy machine recent pending)
    (run : getBlock tags machine inum pnum = some (page, after)) :
    ∃ slot recent' pending', slotOf tags machine pnum = some slot ∧
      pciLookup after.cache.pci pnum = some slot ∧
      Stepped recent (some slot) machine.pins machine.cache.cacheSize after recent' pending' := by
  cases present : pciLookup machine.cache.pci pnum with
  | some slot =>
    obtain ⟨left, former, right, lru, node, rfl, rfl, -, tidy'⟩ := tidy.touch present run
    refine ⟨slot, _, pending, by rw [slotOf, present], present, tidy', ?_, ?_, rfl⟩
    · rw [recencyAfter, Recency.touch, tidy.erase_slot]
      rfl
    · exact Machine.pins_congr rfl
        (pinCount_setEntry { machine.cache with lru } slot _ rfl)
  | none =>
    obtain ⟨slot, ready, rest, pending', free, lru, node, readied, tidy', -, rfl, tidy'', -⟩ :=
      tidy.miss present run
    obtain ⟨freed, head⟩ := readied.free
    have unused : slot ∉ rest.map Prod.snd := by
      intro used
      apply tidy'.not_free used
      rw [head]
      exact List.mem_cons_self
    have lookup := Chains.lookup_insert hashmapBucket ready.cache.pci pnum pnum slot
    rw [if_pos rfl] at lookup
    have before : slotOf tags machine pnum = some slot ∧
        pciLookup ready.cache.pci pnum = none ∧
        ready.cache.cacheSize = machine.cache.cacheSize ∧
        ∀ block, ready.pins block = machine.pins block := by
      rw [slotOf, present]
      by_cases full : machine.cache.freeList = []
      · obtain ⟨evicted, change, left, victim, right, rfl, -⟩ := readied.evicted full
        refine ⟨?_, ?_, change.cacheSize, change.pins tidy
          (show (victim, slot) ∈ left ++ (victim, slot) :: right by simp)⟩
        · dsimp only
          rw [if_pos full, evicted, Option.bind_eq_bind, Option.bind_some, head]
          rfl
        · rw [change.forgets]
          split
          · rfl
          · exact present
      · obtain ⟨rfl, rfl⟩ := readied.untouched full
        refine ⟨?_, present, rfl, fun _ => rfl⟩
        dsimp only
        rw [if_neg full, Option.bind_eq_bind, Option.bind_some, head]
        rfl
    obtain ⟨returned, missing, size, pins⟩ := before
    refine ⟨slot, _, pending', returned, lookup, tidy'', ?_, ?_, size⟩
    · rw [recencyAfter, Recency.touch, List.map_cons, readied.slots]
    · intro block
      rw [Machine.pins_loaded tidy' missing unused, pins]

/-- The slot of a block, on a hit and on a miss. -/
theorem Tidy.resident (tidy : Tidy machine recent pending)
    (run : residentSlot tags machine inum pnum = some (slot, ready)) :
    ∃ recent' pending', pciLookup ready.cache.pci pnum = some slot ∧
      Stepped recent
        (if pciLookup machine.cache.pci pnum = none then slotOf tags machine pnum else none)
        machine.pins machine.cache.cacheSize ready recent' pending' := by
  rw [residentSlot] at run
  cases present : pciLookup machine.cache.pci pnum with
  | some index =>
    rw [present] at run
    obtain ⟨rfl, rfl⟩ := Prod.mk.inj (Option.some.inj run)
    rw [if_neg (Option.some_ne_none index)]
    exact ⟨recent, pending, present, tidy, rfl, fun _ => rfl, rfl⟩
  | none =>
    rw [present] at run
    obtain ⟨⟨page, loaded⟩, get, run⟩ := Option.bind_eq_some_iff.mp run
    obtain ⟨index, found, run⟩ := Option.bind_eq_some_iff.mp run
    obtain ⟨rfl, rfl⟩ := Prod.mk.inj (Option.some.inj run)
    obtain ⟨returned, recent', pending', slot_eq, found', stepped⟩ := tidy.get get
    refine ⟨recent', pending', found, ?_⟩
    rw [if_pos rfl, slot_eq]
    exact stepped

/-- A write-back takes no pins. -/
theorem Machine.pins_cleaned (machine : Machine Page) (slot : Nat) (gdl : CircularList Nat)
    (dirtyList : DlHm) (image : Image Page) (block : Nat) :
    (machine.cleaned slot gdl dirtyList image).pins block = machine.pins block := by
  apply Machine.pins_congr
  · rfl
  · exact pinCount_setEntry { machine.cache with gdl, dirtyList } slot
      { machine.cache.entries slot with dirtyBit := false, gdlPos := none } rfl

/-- The loop of `cache_sync` takes no pins and moves no slot. -/
theorem Tidy.syncLoop {fuel : Nat} (tidy : Tidy machine recent pending)
    (run : cacheSyncLoop tags fuel machine = some after) :
    Stepped recent none machine.pins machine.cache.cacheSize after recent [] := by
  induction fuel generalizing machine pending with
  | zero => cases run
  | succ fuel ih =>
    rcases List.eq_nil_or_concat pending with rfl | ⟨marks, ⟨mark, slot⟩, rfl⟩
    · have empty : machine.cache.gdl.size = 0 := tidy.gdl.size
      rw [cacheSyncLoop, empty, if_neg (by omega)] at run
      obtain rfl := Option.some.inj run
      exact ⟨tidy, rfl, fun _ => rfl, rfl⟩
    · rw [List.concat_eq_append] at tidy
      obtain ⟨gdl, page, image, -, -, run, tidy'⟩ := tidy.syncRound run
      have rest := ih (tidy' _) run
      refine ⟨rest.tidy, rest.order, fun block => ?_, rest.cacheSize⟩
      rw [rest.pins, Machine.pins_cleaned]

/-- Changing the pins of the slot of a block. -/
theorem Tidy.repin (tidy : Tidy machine recent pending)
    (present : pciLookup machine.cache.pci pnum = some slot) (pinCount : Nat) :
    let after := { machine with
      cache := machine.cache.setEntry slot { machine.cache.entries slot with pinCount } }
    Tidy after recent pending ∧
      ∀ block, after.pins block = if block = pnum then pinCount else machine.pins block := by
  intro after
  obtain ⟨node, inside, held⟩ := tidy.hit present
  have used : slot ∈ recent.map Prod.snd := List.mem_map_of_mem inside
  have bound : slot < machine.cache.cacheSize :=
    List.mem_range.mp (tidy.slots.mem_iff.mp (List.mem_append_left _ used))
  constructor
  · apply tidy.update { machine.cache.entries slot with pinCount } machine.image
      machine.cache.dirtyList tidy.gdl rfl (fun _ _ _ listed => listed)
      (fun _ listed => Or.inl listed) bound rfl
    intro at_ also
    have here := tidy.kept at_ slot also
    exact ⟨here.position, here.found, here.located, here.page, here.dirty⟩
  · intro block
    by_cases same : block = pnum
    · rw [if_pos same, same]
      have found : pciLookup after.cache.pci pnum = some slot := present
      rw [Machine.pins_of_lookup found]
      exact congrArg CacheEntry.pinCount (Cache.setEntry_same _ _ _)
    · rw [if_neg same]
      cases lookup : pciLookup machine.cache.pci block with
      | none =>
        have missing : pciLookup after.cache.pci block = none := lookup
        rw [Machine.pins_of_missing missing, Machine.pins_of_missing lookup]
      | some other =>
        have found : pciLookup after.cache.pci block = some other := lookup
        have differs : other ≠ slot := by
          rintro rfl
          exact same ((tidy.indexed block other lookup).2.symm.trans held)
        rw [Machine.pins_of_lookup found, Machine.pins_of_lookup lookup]
        exact congrArg CacheEntry.pinCount (Cache.setEntry_other _ _ _ _ differs)

/-- A slot that was written to is in order, with its latest node first on the global dirty list. -/
theorem Tidy.written (tidy : Tidy machine recent pending)
    (found : pciLookup machine.cache.pci pnum = some slot) {mark : Nat} {marked : List (Nat × Nat)}
    {gdl : CircularList Nat} {dirtyList : DlHm} {buf : Page} (stored : gdl.Holds ((mark, slot) :: marked))
    (kept : ∀ entry ∈ pending, entry ∈ marked)
    (old : ∀ entry ∈ marked, entry ∈ pending ∨ entry.2 = slot) :
    Tidy { machine with
      cache := { machine.cache with gdl, dirtyList }.setEntry slot { machine.cache.entries slot with
        pageData := some buf, dirtyBit := true, gdlPos := some mark } }
      recent ((mark, slot) :: marked) := by
  obtain ⟨used, -⟩ := tidy.indexed pnum slot found
  have bound : slot < machine.cache.cacheSize :=
    List.mem_range.mp (tidy.slots.mem_iff.mp (List.mem_append_left _ used))
  apply tidy.update { machine.cache.entries slot with
      pageData := some buf, dirtyBit := true, gdlPos := some mark } machine.image dirtyList stored rfl
    (fun at_ other _ listed => List.mem_cons_of_mem _ (kept _ listed)) ?_ bound rfl
  · intro node inside
    have here := tidy.kept node slot inside
    exact ⟨here.position, here.found, here.located, ⟨buf, rfl⟩,
      fun _ => ⟨mark, rfl, List.mem_cons_self⟩⟩
  · intro entry listed
    rcases List.mem_cons.mp listed with rfl | before
    · exact Or.inr rfl
    · exact old entry before

/-- One call moves the slot that its `get_block` returns to the front, and changes the pins of its
own block. -/
theorem Tidy.step (tidy : Tidy machine recent pending) {call : CacheCall Page}
    {result : Option Page} (run : cacheStep tags machine call = some (result, after)) :
    ∃ recent' pending', Stepped recent (slotReturned tags machine call)
      (fun block => pinsAfter (machine.pins block) block call) machine.cache.cacheSize after
      recent' pending' := by
  cases call with
  | get inum pnum =>
    obtain ⟨⟨page, after'⟩, get, result⟩ := Option.map_eq_some_iff.mp run
    obtain ⟨rfl, rfl⟩ := Prod.mk.inj result
    obtain ⟨slot, recent', pending', returned, -, stepped⟩ := tidy.get get
    rw [slotReturned, returned]
    exact ⟨recent', pending', stepped⟩
  | write buf inum pnum =>
    obtain ⟨after', write, result⟩ := Option.map_eq_some_iff.mp run
    obtain ⟨rfl, rfl⟩ := Prod.mk.inj result
    obtain ⟨⟨slot, ready⟩, resident, write⟩ := Option.bind_eq_some_iff.mp write
    obtain ⟨cache, copied, write⟩ := Option.bind_eq_some_iff.mp write
    obtain rfl := Option.some.inj write
    obtain ⟨recent', pending', found, stepped⟩ := tidy.resident resident
    obtain ⟨mark, marked, gdl, stored, kept, old, -, rfl⟩ := writeSlot_some stepped.tidy.gdl copied
    refine ⟨recent', (mark, slot) :: marked, stepped.tidy.written found stored kept old,
      stepped.order, fun block => ?_, stepped.cacheSize⟩
    show _ = machine.pins block
    rw [← stepped.pins]
    apply Machine.pins_congr
    · rfl
    · exact pinCount_setEntry
        { ready.cache with
          gdl, dirtyList := filedUnder tags ready.cache.dirtyList buf inum pnum } slot
        { ready.cache.entries slot with
          pageData := some buf, dirtyBit := true, gdlPos := some mark } rfl
  | pin inum pnum =>
    obtain ⟨after', pin, result⟩ := Option.map_eq_some_iff.mp run
    obtain ⟨rfl, rfl⟩ := Prod.mk.inj result
    obtain ⟨⟨slot, ready⟩, resident, pin⟩ := Option.bind_eq_some_iff.mp pin
    obtain ⟨recent', pending', found, stepped⟩ := tidy.resident resident
    obtain ⟨-, pin⟩ := Option.ite_none_right_eq_some.mp pin
    obtain rfl := Option.some.inj pin
    obtain ⟨tidy', pins⟩ := stepped.tidy.repin found ((ready.cache.entries slot).pinCount + 1)
    refine ⟨recent', pending', tidy', stepped.order, fun block => ?_, stepped.cacheSize⟩
    rw [pins, ← Machine.pins_of_lookup found, stepped.pins, stepped.pins]
    by_cases same : block = pnum
    · rw [if_pos same, pinsAfter, if_pos same, same]
    · rw [if_neg same, pinsAfter, if_neg same]
  | unpin inum pnum =>
    obtain ⟨after', unpin, result⟩ := Option.map_eq_some_iff.mp run
    obtain ⟨rfl, rfl⟩ := Prod.mk.inj result
    obtain ⟨⟨slot, ready⟩, resident, unpin⟩ := Option.bind_eq_some_iff.mp unpin
    obtain ⟨recent', pending', found, stepped⟩ := tidy.resident resident
    obtain rfl := Option.some.inj unpin
    obtain ⟨tidy', pins⟩ := stepped.tidy.repin found ((ready.cache.entries slot).pinCount - 1)
    refine ⟨recent', pending', tidy', stepped.order, fun block => ?_, stepped.cacheSize⟩
    rw [pins, ← Machine.pins_of_lookup found, stepped.pins, stepped.pins]
    by_cases same : block = pnum
    · rw [if_pos same, pinsAfter, if_pos same, same]
    · rw [if_neg same, pinsAfter, if_neg same]
  | sync =>
    obtain ⟨after', sync, result⟩ := Option.map_eq_some_iff.mp run
    obtain ⟨rfl, rfl⟩ := Prod.mk.inj result
    exact ⟨recent, [], tidy.syncLoop sync⟩

end Step

/-- The pins of a block after calls. -/
def pinsAfterRun (pins : Nat) (block : Nat) (calls : List (CacheCall Page)) : Nat :=
  calls.foldl (fun pins call => pinsAfter pins block call) pins

section Runs

variable (tags : PageTags Page) {machine after : Machine Page} {recent pending : List (Nat × Nat)}

/-- After a run the recency list is in the order of the slots returned, and the pins of every block
are what the calls make of them. -/
theorem Tidy.run (tidy : Tidy machine recent pending) {returned : List Nat}
    (ordered : Recency.Ordered returned (recent.map Prod.snd)) {calls : List (CacheCall Page)}
    {pages : List (Option Page)} (run : cacheRun tags machine calls = some (pages, after)) :
    ∃ recent' pending', Tidy after recent' pending' ∧
      Recency.Ordered (slotsReturned tags machine calls ++ returned) (recent'.map Prod.snd) ∧
      (∀ block, after.pins block = pinsAfterRun (machine.pins block) block calls) ∧
      after.cache.cacheSize = machine.cache.cacheSize := by
  induction calls generalizing machine recent pending returned pages with
  | nil =>
    obtain ⟨-, rfl⟩ := Prod.mk.inj (Option.some.inj run)
    exact ⟨recent, pending, tidy, ordered, fun _ => rfl, rfl⟩
  | cons call calls ih =>
    obtain ⟨⟨page, next⟩, step, run⟩ := Option.bind_eq_some_iff.mp run
    obtain ⟨⟨later, last⟩, rest, run⟩ := Option.bind_eq_some_iff.mp run
    obtain ⟨-, rfl⟩ := Prod.mk.inj (Option.some.inj run)
    obtain ⟨recent', pending', stepped⟩ := tidy.step step
    have ordered' : Recency.Ordered ((slotReturned tags machine call).toList ++ returned)
        (recent'.map Prod.snd) := by
      rw [stepped.order]
      cases slotReturned tags machine call with
      | none => exact ordered
      | some slot => exact ordered.touch slot
    obtain ⟨recent'', pending'', final, order, pins, size⟩ := ih stepped.tidy ordered' rest
    refine ⟨recent'', pending'', final, ?_, fun block => ?_, size.trans stepped.cacheSize⟩
    · rw [slotsReturned, step]
      dsimp only
      rw [List.append_assoc]
      exact order
    · rw [pins, stepped.pins]
      rfl

/-- The records of a cache that `get_block` has returned slots of, the last one first. -/
structure Bookkept (tags : PageTags Page) (machine : Machine Page) (returned : List Nat)
    (recent : List (Nat × Nat)) : Prop where
  /-- The recency list in memory. -/
  stored : machine.cache.lru.Holds recent
  /-- `lru_size` is its length. -/
  size : machine.cache.lru.size = recent.length
  /-- The recency list and the free list hold every slot once. -/
  slots : (recent.map Prod.snd ++ machine.cache.freeList).Perm (List.range machine.cache.cacheSize)
  /-- The index names a slot if and only if the slot is in use and holds the block. -/
  indexed : ∀ pnum slot, pciLookup machine.cache.pci pnum = some slot ↔
    slot ∈ recent.map Prod.snd ∧ (machine.cache.entries slot).blockNumber = pnum
  /-- The slots in use are those that `get_block` has returned. -/
  used : ∀ slot, slot ∈ recent.map Prod.snd ↔ slot ∈ returned
  /-- The recency list is in the order of their last returns. -/
  order : (recent.map Prod.snd).Pairwise fun newer older => returned.idxOf newer < returned.idxOf older
  /-- A miss with no free slot evicts the unpinned slot that was returned least recently. -/
  evicts : ∀ pnum, pciLookup machine.cache.pci pnum = none → machine.cache.freeList = [] →
    (∃ slot < machine.cache.cacheSize, (machine.cache.entries slot).pinCount = 0) →
    ∃ victim < machine.cache.cacheSize, (machine.cache.entries victim).pinCount = 0 ∧
      (∀ other < machine.cache.cacheSize, (machine.cache.entries other).pinCount = 0 →
        returned.idxOf other ≤ returned.idxOf victim) ∧
      slotOf tags machine pnum = some victim ∧
      ∀ inum page after, getBlock tags machine inum pnum = some (page, after) →
        pciLookup after.cache.pci pnum = some victim ∧
        pciLookup after.cache.pci (machine.cache.entries victim).blockNumber = none ∧
        ∀ other, other ≠ victim → after.cache.entries other = machine.cache.entries other

/-- Records in order evict the unpinned slot that was returned least recently. -/
theorem Tidy.bookkept (tidy : Tidy machine recent pending) {returned : List Nat}
    (ordered : Recency.Ordered returned (recent.map Prod.snd)) :
    Bookkept tags machine returned recent where
  stored := tidy.lru
  size := tidy.lru.size
  slots := tidy.slots
  indexed := tidy.lookup_iff
  used := ordered.mem
  order := ordered.sorted
  evicts pnum missing full unpinned := by
    have victim : ∃ slot < machine.cache.cacheSize, machine.cache.evictable slot = true := by
      obtain ⟨slot, bound, zero⟩ := unpinned
      exact ⟨slot, bound, beq_iff_eq.mpr zero⟩
    obtain ⟨left, node, slot, right, ready, pending', rfl, rejected, run, evicted, tidy', -⟩ :=
      @Tidy.evicts _ tags _ _ _ tidy full victim
    have inUse : ∀ other, other < machine.cache.cacheSize →
        other ∈ (left ++ (node, slot) :: right).map Prod.snd := by
      intro other bound
      have inside := tidy.slots.mem_iff.mpr (List.mem_range.mpr bound)
      rw [full, List.append_nil] at inside
      exact inside
    have here : slot ∈ (left ++ (node, slot) :: right).map Prod.snd := by simp
    have bound : slot < machine.cache.cacheSize :=
      List.mem_range.mp (tidy.slots.mem_iff.mp (List.mem_append_left _ here))
    have returns : slotOf tags machine pnum = some slot := by
      rw [slotOf, missing]
      dsimp only
      rw [if_pos full, run, Option.bind_eq_bind, Option.bind_some, evicted.free]
      rfl
    refine ⟨slot, bound, evicted.unpinned, ?_, returns, ?_⟩
    · intro other below zero
      rw [List.map_append, List.map_cons] at ordered inUse
      apply ordered.last (fun held inside => ?_) (inUse other below)
        (show machine.cache.evictable other = true from beq_iff_eq.mpr zero)
      obtain ⟨entry, behind, rfl⟩ := List.mem_map.mp inside
      exact rejected entry behind
    · intro inum page after get
      obtain ⟨index, ready', rest, pending'', free, lru, front, readied, tidy'', -, rfl, whole, -⟩ :=
        tidy.miss missing get
      obtain ⟨run', -⟩ := readied.evicted full
      obtain rfl := Option.some.inj (run.symm.trans run')
      obtain ⟨freed, head⟩ := readied.free
      obtain ⟨rfl, -⟩ := List.cons.inj (evicted.free.symm.trans head)
      have lookup := fun block =>
        Chains.lookup_insert hashmapBucket ready.cache.pci pnum block slot
      refine ⟨(lookup pnum).trans (if_pos rfl), ?_, fun other differs => ?_⟩
      · have fresh : (machine.cache.entries slot).blockNumber ≠ pnum := by
          intro same
          have found := (tidy.lookup_iff pnum slot).mpr ⟨here, same⟩
          rw [missing] at found
          cases found
        have forgotten := evicted.forgets (machine.cache.entries slot).blockNumber
        rw [if_pos rfl] at forgotten
        exact ((lookup _).trans (if_neg fresh)).trans forgotten
      · rw [Machine.loaded_other _ _ _ _ _ _ _ _ _ differs]
        exact evicted.others other differs

/-- A new cache is tidy. -/
theorem allocCache_tidy (image : Image Page) (cacheSize : Nat)
    (uninitialised : Nat → CacheEntry Page) :
    Tidy ⟨allocCache cacheSize uninitialised, image⟩ [] [] := by
  have free : (List.range cacheSize).foldl flPush [] = (List.range cacheSize).reverse := by
    have push : flPush = fun list index => index :: list := rfl
    rw [push, List.foldl_flip_cons_eq_append', List.append_nil]
  refine ⟨CircularList.empty_holds, CircularList.empty_holds, ?_, Chains.chained_empty _, nofun, ?_,
    nofun⟩
  · show ((List.range cacheSize).foldl flPush []).Perm (List.range cacheSize)
    rw [free]
    exact List.reverse_perm _
  · intro pnum slot found
    cases found

/-- After every run of calls of the cache's interface its records agree: the free list and the
recency list partition the slots, the index names a slot exactly if the slot is in use and holds the
block, the recency list is ordered by the last `get_block`s, and an eviction takes the unpinned slot
least recently returned. -/
theorem cacheRun_bookkept (image : Image Page) (cacheSize : Nat)
    (uninitialised : Nat → CacheEntry Page) {calls : List (CacheCall Page)}
    {pages : List (Option Page)}
    (run : cacheRun tags ⟨allocCache cacheSize uninitialised, image⟩ calls = some (pages, after)) :
    after.cache.cacheSize = cacheSize ∧ ∃ recent, Bookkept tags after
      (slotsReturned tags ⟨allocCache cacheSize uninitialised, image⟩ calls) recent := by
  have initial := allocCache_tidy image cacheSize uninitialised
  obtain ⟨recent, pending, tidy, ordered, -, size⟩ := initial.run tags Recency.Ordered.nil run
  rw [List.append_nil] at ordered
  exact ⟨size, recent, tidy.bookkept tags ordered⟩

end Runs

/-- Through two slots, with block 1 pinned, so that block 2 is evicted for block 0. -/
theorem cacheRun_bookkept_two_slots :
    ∃ pages after, cacheRun ⟨fun _ => true, fun _ => true⟩
        ⟨allocCache 2 fun _ => ⟨true, 3, 9, 9, some 9, some 9, some 9⟩, ⟨3, fun pnum => pnum⟩⟩
        [.get 5 1, .pin 5 1, .write 7 5 2, .get 5 0, .sync] = some (pages, after) ∧
      after.cache.cacheSize = 2 ∧ ∃ recent, Bookkept ⟨fun _ => true, fun _ => true⟩ after
        (slotsReturned ⟨fun _ => true, fun _ => true⟩
          ⟨allocCache 2 fun _ => ⟨true, 3, 9, 9, some 9, some 9, some 9⟩, ⟨3, fun pnum => pnum⟩⟩
          [.get 5 1, .pin 5 1, .write 7 5 2, .get 5 0, .sync]) recent := by
  have ends : (cacheRun ⟨fun _ => true, fun _ => true⟩
      ⟨allocCache 2 fun _ => ⟨true, 3, 9, 9, some 9, some 9, some 9⟩, ⟨3, fun pnum => pnum⟩⟩
      [.get 5 1, .pin 5 1, .write 7 5 2, .get 5 0, .sync]).isSome = true := by
    decide +kernel
  obtain ⟨⟨pages, after⟩, run⟩ := Option.isSome_iff_exists.mp ends
  exact ⟨pages, after, run, cacheRun_bookkept ⟨fun _ => true, fun _ => true⟩
    ⟨3, fun pnum => pnum⟩ 2 (fun _ => ⟨true, 3, 9, 9, some 9, some 9, some 9⟩) run⟩

end Nbtrfs
