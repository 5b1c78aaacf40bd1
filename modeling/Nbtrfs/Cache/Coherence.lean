import Nbtrfs.Cache.Model

/-!
# The cache as an array of blocks

A run is a list of calls of the cache's interface. Its meaning is an array of blocks, in which
a write replaces one block and nothing else changes anything. `Coherent` ties a machine to the
latest content of every block: a resident page is the latest one, a clean or absent block is up
to date in the image, and a dirty slot points at a node of the global dirty list. Nodes that
outlive an eviction name a slot that holds another block by then; `listed` keeps them on slots
in use, where a sync writes the content that the block has anyway.
-/

namespace Nbtrfs

variable {Page : Type}

/-- One call of the cache's interface. -/
inductive CacheCall (Page : Type) where
  /-- `get_block`. -/
  | get (inum pnum : Nat)
  /-- `write_block`. -/
  | write (buf : Page) (inum pnum : Nat)
  /-- `increase_pin_count`. -/
  | pin (inum pnum : Nat)
  /-- `decrease_pin_count`. -/
  | unpin (inum pnum : Nat)
  /-- `cache_sync`. -/
  | sync

/-- Perform one call: the page it returns, if it returns one, and the machine after it. -/
def cacheStep (tags : PageTags Page) (machine : Machine Page) :
    CacheCall Page → Option (Option Page × Machine Page)
  | .get inum pnum => (getBlock tags machine inum pnum).map fun (page, after) => (some page, after)
  | .write buf inum pnum => (writeBlock tags machine buf inum pnum).map (none, ·)
  | .pin inum pnum => (increasePinCount tags machine inum pnum).map (none, ·)
  | .unpin inum pnum => (decreasePinCount tags machine inum pnum).map (none, ·)
  | .sync => (cacheSync tags machine).map (none, ·)

/-- Perform calls in order. -/
def cacheRun (tags : PageTags Page) :
    Machine Page → List (CacheCall Page) → Option (List (Option Page) × Machine Page)
  | machine, [] => some ([], machine)
  | machine, call :: calls => do
    let (page, machine) ← cacheStep tags machine call
    let (pages, machine) ← cacheRun tags machine calls
    some (page :: pages, machine)

/-- One call on a plain array of blocks. -/
def arrayStep (blocks : Nat → Page) : CacheCall Page → Option Page × (Nat → Page)
  | .get _ pnum => (some (blocks pnum), blocks)
  | .write buf _ pnum => (none, fun other => if other = pnum then buf else blocks other)
  | .pin _ _ | .unpin _ _ | .sync => (none, blocks)

/-- Calls in order on a plain array of blocks. -/
def arrayRun : (Nat → Page) → List (CacheCall Page) → List (Option Page) × (Nat → Page)
  | blocks, [] => ([], blocks)
  | blocks, call :: calls =>
    let rest := arrayRun (arrayStep blocks call).2 calls
    ((arrayStep blocks call).1 :: rest.1, rest.2)

/-- If the block is absent and no slot is free, some slot is unpinned. -/
def Machine.HasVictim (machine : Machine Page) (pnum : Nat) : Prop :=
  pciLookup machine.cache.pci pnum = none → machine.cache.freeList = [] →
    ∃ slot, slot < machine.cache.cacheSize ∧ machine.cache.evictable slot = true

/-- The pins of a block's slot, none if the block is absent. -/
def Machine.pins (machine : Machine Page) (pnum : Nat) : Nat :=
  (pciLookup machine.cache.pci pnum).elim 0 fun slot => (machine.cache.entries slot).pinCount

/-- What a call asks of the state before it: a block that the image holds and the addressing
finds, a victim where one is needed, and no counter at the end of its range. -/
def Permits (machine : Machine Page) : CacheCall Page → Prop
  | .get _ pnum | .unpin _ pnum => machine.image.Reaches pnum ∧ machine.HasVictim pnum
  | .write _ _ pnum =>
    machine.image.Reaches pnum ∧ machine.HasVictim pnum ∧ machine.cache.gdl.size + 2 ≤ intMax
  | .pin _ pnum =>
    machine.image.Reaches pnum ∧ machine.HasVictim pnum ∧ machine.pins pnum < intMax
  | .sync => True

/-- Every call of a run finds what it asks for. -/
def RunPermits (tags : PageTags Page) : Machine Page → List (CacheCall Page) → Prop
  | _, [] => True
  | machine, call :: calls =>
    Permits machine call ∧
      match cacheStep tags machine call with
      | none => True
      | some (_, after) => RunPermits tags after calls

/-- Whether an image reaches a block is decidable. -/
instance (image : Image Page) (pnum : Nat) : Decidable (image.Reaches pnum) :=
  inferInstanceAs (Decidable (_ ∧ _))

/-- Whether there is a victim for a block is decidable. -/
instance (machine : Machine Page) (pnum : Nat) : Decidable (machine.HasVictim pnum) :=
  inferInstanceAs (Decidable (_ → _ → _))

/-- Whether a call is permitted is decidable. -/
instance (machine : Machine Page) (call : CacheCall Page) : Decidable (Permits machine call) :=
  match call with
  | .get _ _ | .unpin _ _ => inferInstanceAs (Decidable (_ ∧ _))
  | .write _ _ _ | .pin _ _ => inferInstanceAs (Decidable (_ ∧ _ ∧ _))
  | .sync => isTrue trivial

/-- A run's permission is decided by running it. -/
instance RunPermits.decidable (tags : PageTags Page) (machine : Machine Page) :
    (calls : List (CacheCall Page)) → Decidable (RunPermits tags machine calls)
  | [] => isTrue trivial
  | call :: calls =>
    match step : cacheStep tags machine call with
    | none =>
      decidable_of_iff (Permits machine call) (by simp [RunPermits, step])
    | some (_, after) =>
      have := RunPermits.decidable tags after calls
      decidable_of_iff (Permits machine call ∧ RunPermits tags after calls)
        (by simp [RunPermits, step])

/-- A slot in use: its node, its index entry and its page, against the latest content. -/
structure Resident (image : Image Page) (latest : Nat → Page) (pci : PciHm)
    (pending : List (Nat × Nat)) (entry : CacheEntry Page) (node slot : Nat) : Prop where
  /-- `lru_pos` is the slot's node. -/
  position : entry.lruPos = some node
  /-- The index finds the slot under its block. -/
  found : pciLookup pci entry.blockNumber = some slot
  /-- The block is one that the addressing finds. -/
  reaches : image.Reaches entry.blockNumber
  /-- The page is the latest content. -/
  page : entry.pageData = some (latest entry.blockNumber)
  /-- A clean slot's block is up to date in the image. -/
  clean : entry.dirtyBit = false → image.block entry.blockNumber = latest entry.blockNumber
  /-- A dirty slot points at one of its nodes on the global dirty list. -/
  dirty : entry.dirtyBit = true → ∃ mark, entry.gdlPos = some mark ∧ (mark, slot) ∈ pending

/-- A machine holds the latest content of every block. `recent` and `pending` are the recency
list and the global dirty list; `spare` holds a slot that was just evicted. -/
structure Coherent (machine : Machine Page) (latest : Nat → Page) (recent pending : List (Nat × Nat))
    (spare : List Nat) : Prop where
  /-- The recency list in memory. -/
  lru : machine.cache.lru.Holds recent
  /-- The global dirty list in memory. -/
  gdl : machine.cache.gdl.Holds pending
  /-- Every slot is in use or free, once. -/
  slots : (recent.map Prod.snd ++ machine.cache.freeList).Perm
    (List.range machine.cache.cacheSize)
  /-- The number of slots is an `int`. -/
  fits : machine.cache.cacheSize ≤ intMax
  /-- The index is well chained. -/
  chained : Chains.Chained hashmapBucket machine.cache.pci
  /-- Every slot in use is resident. -/
  resident : ∀ node slot, (node, slot) ∈ recent →
    Resident machine.image latest machine.cache.pci pending (machine.cache.entries slot) node slot
  /-- The index names slots in use, under their blocks. -/
  indexed : ∀ pnum slot, pciLookup machine.cache.pci pnum = some slot →
    slot ∈ recent.map Prod.snd ∧ (machine.cache.entries slot).blockNumber = pnum
  /-- An absent block is up to date in the image. -/
  absent : ∀ pnum, pciLookup machine.cache.pci pnum = none →
    machine.image.block pnum = latest pnum
  /-- Every node of the global dirty list names a slot in use. -/
  listed : ∀ node slot, (node, slot) ∈ pending → slot ∈ recent.map Prod.snd ∨ slot ∈ spare
  /-- A free slot is clean. -/
  idle : ∀ slot ∈ machine.cache.freeList, slot ∈ spare ∨
    (machine.cache.entries slot).dirtyBit = false

/-- A slot stays resident when its block's content, its index entry and its mark are kept. -/
theorem Resident.frame {image image' : Image Page} {latest latest' : Nat → Page}
    {pci pci' : PciHm} {pending pending' : List (Nat × Nat)} {entry : CacheEntry Page}
    {node slot : Nat} (resident : Resident image latest pci pending entry node slot)
    (total : image'.totalBlocks = image.totalBlocks)
    (content : latest' entry.blockNumber = latest entry.blockNumber)
    (block : image'.block entry.blockNumber = image.block entry.blockNumber ∨
      image'.block entry.blockNumber = latest entry.blockNumber)
    (index : pciLookup pci' entry.blockNumber = pciLookup pci entry.blockNumber)
    (kept : ∀ mark, (mark, slot) ∈ pending → entry.dirtyBit = true →
      entry.gdlPos = some mark → (mark, slot) ∈ pending') :
    Resident image' latest' pci' pending' entry node slot := by
  refine ⟨resident.position, index.trans resident.found, ?_, ?_, ?_, ?_⟩
  · have reaches := resident.reaches
    unfold Image.Reaches at reaches ⊢
    rw [total]
    exact reaches
  · rw [content]
    exact resident.page
  · intro isClean
    rw [content]
    cases block with
    | inl same => rw [same, resident.clean isClean]
    | inr updated => exact updated
  · intro isDirty
    obtain ⟨mark, position, inside⟩ := resident.dirty isDirty
    exact ⟨mark, position, kept mark inside isDirty position⟩

section Facts

variable {machine : Machine Page} {latest : Nat → Page} {recent pending : List (Nat × Nat)}
  {spare : List Nat}

/-- The slots in use and the free slots are all different. -/
theorem Coherent.nodup (coherent : Coherent machine latest recent pending spare) :
    (recent.map Prod.snd ++ machine.cache.freeList).Nodup :=
  coherent.slots.nodup_iff.mpr List.nodup_range

/-- A slot in use is not free. -/
theorem Coherent.not_free (coherent : Coherent machine latest recent pending spare) {slot : Nat}
    (used : slot ∈ recent.map Prod.snd) : slot ∉ machine.cache.freeList := by
  have apart := (List.nodup_append.mp coherent.nodup).2.2
  intro free
  exact apart slot used slot free rfl

/-- A slot has one node in the recency list. -/
theorem Coherent.node_unique (coherent : Coherent machine latest recent pending spare)
    {node other slot : Nat} (inside : (node, slot) ∈ recent) (also : (other, slot) ∈ recent) :
    node = other := by
  have first := (coherent.resident node slot inside).position
  have second := (coherent.resident other slot also).position
  rw [first] at second
  exact Option.some.inj second

/-- Two slots in use hold different blocks. -/
theorem Coherent.block_unique (coherent : Coherent machine latest recent pending spare)
    {node node' slot slot' : Nat} (inside : (node, slot) ∈ recent) (also : (node', slot') ∈ recent)
    (same : (machine.cache.entries slot').blockNumber = (machine.cache.entries slot).blockNumber) :
    slot' = slot := by
  have first := (coherent.resident node slot inside).found
  have second := (coherent.resident node' slot' also).found
  rw [same, first] at second
  exact (Option.some.inj second).symm

/-- A slot in use or a free slot is a slot of the array. -/
theorem Coherent.slot_lt (coherent : Coherent machine latest recent pending spare) {slot : Nat}
    (inside : slot ∈ recent.map Prod.snd ++ machine.cache.freeList) :
    slot < machine.cache.cacheSize :=
  List.mem_range.mp (coherent.slots.mem_iff.mp inside)

/-- The number of slots in use and of free slots. -/
theorem Coherent.length (coherent : Coherent machine latest recent pending spare) :
    recent.length + machine.cache.freeList.length = machine.cache.cacheSize := by
  have same := coherent.slots.length_eq
  rw [List.length_append, List.length_map, List.length_range] at same
  exact same

/-- The slot that the index names, with its node. -/
theorem Coherent.hit (coherent : Coherent machine latest recent pending spare) {pnum slot : Nat}
    (present : pciLookup machine.cache.pci pnum = some slot) :
    ∃ node, (node, slot) ∈ recent ∧ (machine.cache.entries slot).blockNumber = pnum := by
  obtain ⟨used, block⟩ := coherent.indexed pnum slot present
  obtain ⟨entry, inside, rfl⟩ := List.mem_map.mp used
  exact ⟨entry.1, inside, block⟩

end Facts

section Changes

variable {machine : Machine Page} {latest latest' : Nat → Page}
  {recent left right pending pending' : List (Nat × Nat)} {spare : List Nat} {node slot : Nat}
  {lru gdl : CircularList Nat}

/-- A change of one slot in use, of the content of its block and of its dirty-list nodes. -/
theorem Coherent.update (coherent : Coherent machine latest recent pending spare)
    (inside : (node, slot) ∈ recent) (entry : CacheEntry Page) (image : Image Page)
    (dirtyList : DlHm)
    (marks : gdl.Holds pending')
    (total : image.totalBlocks = machine.image.totalBlocks)
    (others : ∀ pnum, pnum ≠ (machine.cache.entries slot).blockNumber →
      image.block pnum = machine.image.block pnum ∧ latest' pnum = latest pnum)
    (kept : ∀ mark other, other ≠ slot → (mark, other) ∈ pending → (mark, other) ∈ pending')
    (old : ∀ mark other, (mark, other) ∈ pending' → (mark, other) ∈ pending ∨ other = slot)
    (block : entry.blockNumber = (machine.cache.entries slot).blockNumber)
    (updated : Resident image latest' machine.cache.pci pending' entry node slot) :
    Coherent { cache := { machine.cache with gdl, dirtyList }.setEntry slot entry, image }
      latest' recent pending' spare := by
  have used : slot ∈ recent.map Prod.snd := List.mem_map_of_mem inside
  have here := coherent.resident node slot inside
  refine ⟨coherent.lru, marks, coherent.slots, coherent.fits, coherent.chained, ?_, ?_, ?_, ?_, ?_⟩
  · intro other at_ also
    by_cases same : at_ = slot
    · subst same
      have unique := coherent.node_unique inside also
      subst unique
      rw [Cache.setEntry_same]
      exact updated
    · rw [Cache.setEntry_other _ _ _ _ same]
      have differs : (machine.cache.entries at_).blockNumber ≠
          (machine.cache.entries slot).blockNumber :=
        fun equal => same (coherent.block_unique inside also equal)
      have frame := others _ differs
      apply (coherent.resident other at_ also).frame total frame.2 (Or.inl frame.1) rfl
      intro mark listed _ _
      exact kept mark at_ same listed
  · intro pnum at_ found
    have indexed := coherent.indexed pnum at_ found
    refine ⟨indexed.1, ?_⟩
    by_cases same : at_ = slot
    · subst same
      rw [Cache.setEntry_same, block]
      exact indexed.2
    · rw [Cache.setEntry_other _ _ _ _ same]
      exact indexed.2
  · intro pnum missing
    have differs : pnum ≠ (machine.cache.entries slot).blockNumber := by
      intro equal
      have found := here.found
      rw [← equal] at found
      have missing' : pciLookup machine.cache.pci pnum = none := missing
      rw [missing'] at found
      cases found
    have frame := others pnum differs
    show image.block pnum = latest' pnum
    rw [frame.1, frame.2]
    exact coherent.absent pnum missing
  · intro mark other listed
    cases old mark other listed with
    | inl before => exact coherent.listed mark other before
    | inr same => exact Or.inl (same ▸ used)
  · intro other free
    have differs : other ≠ slot := fun same => coherent.not_free used (same ▸ free)
    rw [Cache.setEntry_other _ _ _ _ differs]
    exact coherent.idle other free

/-- A slot whose block is up to date in the image leaves the lists and the index. -/
theorem Coherent.release
    (coherent : Coherent machine latest (left ++ (node, slot) :: right) pending [])
    (entries : Nat → CacheEntry Page) (image : Image Page) (dirtyList : DlHm)
    (recency : lru.Holds (left ++ right)) (marks : gdl.Holds pending')
    (total : image.totalBlocks = machine.image.totalBlocks)
    (others : ∀ pnum, pnum ≠ (machine.cache.entries slot).blockNumber →
      image.block pnum = machine.image.block pnum)
    (written : image.block (machine.cache.entries slot).blockNumber =
      latest (machine.cache.entries slot).blockNumber)
    (kept : ∀ mark other, other ≠ slot → (mark, other) ∈ pending → (mark, other) ∈ pending')
    (old : ∀ entry ∈ pending', entry ∈ pending)
    (frame : ∀ other, other ≠ slot → entries other = machine.cache.entries other) :
    Coherent
      { cache := { machine.cache with
          lru, gdl, dirtyList, entries,
          pci := Chains.erase hashmapBucket machine.cache.pci
            (machine.cache.entries slot).blockNumber,
          freeList := flPush machine.cache.freeList slot }
        image }
      latest (left ++ right) pending' [slot] := by
  have inside : (node, slot) ∈ left ++ (node, slot) :: right := by simp
  have erased := Chains.lookup_erase hashmapBucket coherent.chained
    (machine.cache.entries slot).blockNumber
  have distinct : ∀ other ∈ (left ++ right).map Prod.snd, other ≠ slot := by
    have nodup := (List.nodup_append.mp coherent.nodup).1
    rw [List.map_append, List.map_cons] at nodup
    have apart := (List.nodup_cons.mp (List.nodup_middle.mp nodup)).1
    intro other also same
    rw [List.map_append, same] at also
    exact apart also
  have sublist : ∀ entry ∈ left ++ right, entry ∈ left ++ (node, slot) :: right := by
    intro entry also
    rcases List.mem_append.mp also with before | after
    · exact List.mem_append_left _ before
    · exact List.mem_append_right _ (List.mem_cons_of_mem _ after)
  refine ⟨recency, marks, ?_, coherent.fits, Chains.chained_erase _ coherent.chained _,
    ?_, ?_, ?_, ?_, ?_⟩
  · refine List.Perm.trans ?_ coherent.slots
    show ((left ++ right).map Prod.snd ++ slot :: machine.cache.freeList).Perm _
    simp only [List.map_append, List.map_cons, List.append_assoc, List.cons_append]
    exact List.Perm.append_left _ List.perm_middle
  · intro other at_ also
    have differs : at_ ≠ slot := distinct at_ (List.mem_map_of_mem also)
    have resident := coherent.resident other at_ (sublist _ also)
    have blocks : (machine.cache.entries at_).blockNumber ≠
        (machine.cache.entries slot).blockNumber :=
      fun equal => differs (coherent.block_unique inside (sublist _ also) equal)
    show Resident image latest _ pending' (entries at_) other at_
    rw [frame at_ differs]
    apply resident.frame total rfl (Or.inl (others _ blocks))
    · have lookup := erased (machine.cache.entries at_).blockNumber
      rw [if_neg blocks] at lookup
      exact lookup
    · intro mark listed _ _
      exact kept mark at_ differs listed
  · intro pnum at_ found
    have lookup : (if pnum = (machine.cache.entries slot).blockNumber then none
        else pciLookup machine.cache.pci pnum) = some at_ := (erased pnum).symm.trans found
    by_cases same : pnum = (machine.cache.entries slot).blockNumber
    · rw [if_pos same] at lookup
      cases lookup
    · rw [if_neg same] at lookup
      have indexed := coherent.indexed pnum at_ lookup
      have differs : at_ ≠ slot := by
        intro equal
        rw [equal] at indexed
        exact same indexed.2.symm
      refine ⟨?_, ?_⟩
      · have used := indexed.1
        simp only [List.map_append, List.map_cons, List.mem_append, List.mem_cons] at used ⊢
        tauto
      · show (entries at_).blockNumber = pnum
        rw [frame at_ differs]
        exact indexed.2
  · intro pnum missing
    have lookup : (if pnum = (machine.cache.entries slot).blockNumber then none
        else pciLookup machine.cache.pci pnum) = none := (erased pnum).symm.trans missing
    show image.block pnum = latest pnum
    by_cases same : pnum = (machine.cache.entries slot).blockNumber
    · rw [same]
      exact written
    · rw [if_neg same] at lookup
      rw [others pnum same]
      exact coherent.absent pnum lookup
  · intro mark other listed
    have used := coherent.listed mark other (old _ listed)
    simp only [List.map_append, List.map_cons, List.mem_append, List.mem_cons,
      List.not_mem_nil, or_false] at used ⊢
    tauto
  · intro other free
    by_cases same : other = slot
    · exact Or.inl (by simp [same])
    · right
      show (entries other).dirtyBit = false
      rw [frame other same]
      have older : other ∈ machine.cache.freeList := by
        rcases List.mem_cons.mp free with equal | later
        · exact absurd equal same
        · exact later
      rcases coherent.idle other older with none | clean
      · cases none
      · exact clean

end Changes

end Nbtrfs
