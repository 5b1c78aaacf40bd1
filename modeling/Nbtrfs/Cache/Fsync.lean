import Nbtrfs.Cache.DirtyList
import Nbtrfs.Cache.Eviction
import Nbtrfs.Cache.Refinement

/-!
# Flushing one inode

`cache_fsync`, and the per-inode dirty lists over runs in which every block belongs to one inode and
a data block stays a data block. Each list holds the dirty data blocks of its inode, whichever of
`write_block`, `cache_sync`, `cache_fsync` and the evictions came before.
-/

namespace Nbtrfs

variable {Page : Type}

/-- The loop of `cache_fsync` through the dirty list of an inode. `dl_pop` goes on to the next node
if the index is above 1. -/
def cacheFsyncLoop : List DlNode → Machine Page → Option (Machine Page)
  | [], machine => some machine
  | (dlIndex, blockNumber) :: rest, machine => do
    let cache := machine.cache
    let index ← pciLookup cache.pci blockNumber
    let entry := cache.entries index
    let page ← entry.pageData
    let image ← diskWriteBlock machine.image entry.blockNumber page
    let (_, gdl) ← gdlPop cache.gdl entry.gdlPos
    let machine := machine.cleaned index gdl cache.dirtyList image
    if 1 < dlIndex then cacheFsyncLoop rest machine else some machine

/-- `cache_fsync`. -/
def cacheFsync (machine : Machine Page) (inum : Nat) : Option (Machine Page) :=
  match dlLookup machine.cache.dirtyList inum with
  | none => some machine
  | some list => do
    let machine ← cacheFsyncLoop list machine
    some { machine with
      cache := { machine.cache with dirtyList := dlDelete machine.cache.dirtyList inum } }

/-- A call of a run. -/
inductive FileCall (Page : Type) where
  /-- `get_block`. -/
  | get (inum pnum : Nat)
  /-- `write_block`. -/
  | write (buf : Page) (inum pnum : Nat)
  /-- `cache_sync`. -/
  | sync
  /-- `cache_fsync`. -/
  | fsync (inum : Nat)

/-- The machine after a call. -/
def fileStep (tags : PageTags Page) (machine : Machine Page) : FileCall Page → Option (Machine Page)
  | .get inum pnum => (cacheStep tags machine (.get inum pnum)).map Prod.snd
  | .write buf inum pnum => (cacheStep tags machine (.write buf inum pnum)).map Prod.snd
  | .sync => (cacheStep tags machine .sync).map Prod.snd
  | .fsync inum => cacheFsync machine inum

/-- The machine after calls in order. -/
def fileRun (tags : PageTags Page) : Machine Page → List (FileCall Page) → Option (Machine Page)
  | machine, [] => some machine
  | machine, call :: calls => do
    let machine ← fileStep tags machine call
    fileRun tags machine calls

/-- The latest content of the blocks after a call. -/
def contentAfter (latest : Nat → Page) : FileCall Page → Nat → Page
  | .write buf _ pnum => fun other => if other = pnum then buf else latest other
  | .get _ _ | .sync | .fsync _ => latest

/-- What a call asks for: a block is passed with its own inode, a data block is written as one, the
addressing finds the block, and the number of nodes has room in its `int`. -/
def FilePermits (tags : PageTags Page) (owner : Nat → Nat) (latest : Nat → Page)
    (machine : Machine Page) : FileCall Page → Prop
  | .get inum pnum => inum = owner pnum ∧ machine.image.Reaches pnum
  | .write buf inum pnum =>
    inum = owner pnum ∧ (tags.isData (latest pnum) = true → tags.isData buf = true) ∧
      machine.image.Reaches pnum ∧ machine.cache.gdl.size + 2 ≤ intMax
  | .sync | .fsync _ => True

/-- Every call of a run finds what it asks for. -/
def FileRunPermits (tags : PageTags Page) (owner : Nat → Nat) :
    (Nat → Page) → Machine Page → List (FileCall Page) → Prop
  | _, _, [] => True
  | latest, machine, call :: calls =>
    FilePermits tags owner latest machine call ∧
      match fileStep tags machine call with
      | none => True
      | some after => FileRunPermits tags owner (contentAfter latest call) after calls

/-- A dirty data block. -/
def DirtyData (tags : PageTags Page) (machine : Machine Page) (block : Nat) : Prop :=
  ∃ slot page, pciLookup machine.cache.pci block = some slot ∧
    (machine.cache.entries slot).dirtyBit = true ∧
    (machine.cache.entries slot).pageData = some page ∧ tags.isData page = true

/-- The dirty lists hold the dirty data blocks, under their inodes. -/
structure Filed (tags : PageTags Page) (owner : Nat → Nat) (machine : Machine Page) : Prop where
  /-- The lists are well formed. -/
  tidy : DlTidy machine.cache.dirtyList
  /-- A list holds the dirty data blocks of its inode. -/
  blocks : ∀ inum block, block ∈ blocksOf machine.cache.dirtyList inum ↔
    owner block = inum ∧ DirtyData tags machine block
  /-- A slot knows the inode of its block. -/
  owned : ∀ block slot, pciLookup machine.cache.pci block = some slot →
    (machine.cache.entries slot).inodeNumber = owner block
  /-- No block is pinned. -/
  unpinned : ∀ block, machine.pins block = 0

section Steps

variable {tags : PageTags Page} {owner : Nat → Nat} {machine after ready : Machine Page}
  {latest : Nat → Page} {recent pending : List (Nat × Nat)} {slot pnum : Nat} {page : Page}

/-- Dirty data blocks are the same for the same index, flags and pages. -/
theorem dirtyData_congr (index : after.cache.pci = machine.cache.pci)
    (flags : ∀ slot, (after.cache.entries slot).dirtyBit = (machine.cache.entries slot).dirtyBit)
    (pages : ∀ slot, (after.cache.entries slot).pageData = (machine.cache.entries slot).pageData)
    (block : Nat) : DirtyData tags after block ↔ DirtyData tags machine block := by
  unfold DirtyData
  rw [index]
  simp only [flags, pages]

/-- A slot's block is dirty data if the slot is dirty and its page is a data page. -/
theorem dirtyData_iff (present : pciLookup machine.cache.pci pnum = some slot)
    (held : (machine.cache.entries slot).pageData = some page) :
    DirtyData tags machine pnum ↔
      (machine.cache.entries slot).dirtyBit = true ∧ tags.isData page = true := by
  constructor
  · rintro ⟨other, content, found, dirty, same, isData⟩
    obtain rfl := Option.some.inj (found.symm.trans present)
    obtain rfl := Option.some.inj (same.symm.trans held)
    exact ⟨dirty, isData⟩
  · rintro ⟨dirty, isData⟩
    exact ⟨slot, page, present, dirty, held, isData⟩

/-- A block that stops being dirty leaves the list of its inode. Where the list is not changed the
block was not dirty data. -/
theorem Filed.drop (filed : Filed tags owner machine) {block : Nat}
    (dirty : ∀ other, DirtyData tags after other ↔ other ≠ block ∧ DirtyData tags machine other)
    (lists : after.cache.dirtyList = dlRemoveBlock machine.cache.dirtyList (owner block) block ∨
      after.cache.dirtyList = machine.cache.dirtyList ∧ ¬ DirtyData tags machine block) :
    DlTidy after.cache.dirtyList ∧ ∀ inum other,
      other ∈ blocksOf after.cache.dirtyList inum ↔ owner other = inum ∧ DirtyData tags after other := by
  rcases lists with removed | ⟨same, clean⟩
  · obtain ⟨tidy, blocks⟩ := filed.tidy.removeBlock (owner block) block
    rw [removed]
    refine ⟨tidy, fun inum other => ?_⟩
    rw [blocks, dirty]
    by_cases here : inum = owner block
    · rw [if_pos here, (filed.tidy.distinct _).mem_erase_iff, filed.blocks, ← here]
      tauto
    · rw [if_neg here, filed.blocks]
      have apart : owner other = inum → other ≠ block := by
        rintro rfl rfl
        exact here rfl
      tauto
  · rw [same]
    refine ⟨filed.tidy, fun inum other => ?_⟩
    rw [filed.blocks, dirty]
    have apart : DirtyData tags machine other → other ≠ block := by
      rintro isDirty rfl
      exact clean isDirty
    tauto

/-- The loaded block is clean. -/
theorem dirtyData_loaded (tidy : Tidy ready recent pending)
    (missing : pciLookup ready.cache.pci pnum = none) (unused : slot ∉ recent.map Prod.snd)
    (inum : Nat) (freeList : List Nat) (lru : CircularList Nat) (node block : Nat) :
    DirtyData tags (ready.loaded slot inum pnum page freeList lru node) block ↔
      DirtyData tags ready block := by
  have inserted := Chains.lookup_insert hashmapBucket ready.cache.pci pnum block slot
  have lookup : pciLookup (ready.loaded slot inum pnum page freeList lru node).cache.pci block =
      if block = pnum then some slot else pciLookup ready.cache.pci block := inserted
  by_cases same : block = pnum
  · rw [if_pos same] at lookup
    constructor
    · rintro ⟨other, content, found, dirty, -⟩
      obtain rfl := Option.some.inj (found.symm.trans lookup)
      rw [Machine.loaded_same] at dirty
      cases dirty
    · rintro ⟨other, content, found, -⟩
      rw [same, missing] at found
      cases found
  · rw [if_neg same] at lookup
    unfold DirtyData
    rw [lookup]
    apply exists_congr
    intro other
    apply exists_congr
    intro content
    apply and_congr_right
    intro found
    have differs : other ≠ slot := by
      rintro rfl
      exact unused (tidy.indexed block other found).1
    rw [Machine.loaded_other _ _ _ _ _ _ _ _ _ differs]

/-- An evicted block is not dirty. -/
theorem Evicted.dirtyData (tidy : Tidy machine recent pending)
    (evicted : Evicted tags machine slot ready) (block : Nat) :
    DirtyData tags ready block ↔
      block ≠ (machine.cache.entries slot).blockNumber ∧ DirtyData tags machine block := by
  have forgets := evicted.forgets block
  by_cases same : block = (machine.cache.entries slot).blockNumber
  · rw [if_pos same] at forgets
    constructor
    · rintro ⟨other, content, found, -⟩
      rw [forgets] at found
      cases found
    · rintro ⟨differs, -⟩
      exact absurd same differs
  · rw [if_neg same] at forgets
    unfold DirtyData
    rw [forgets, and_iff_right same]
    apply exists_congr
    intro other
    apply exists_congr
    intro content
    apply and_congr_right
    intro found
    have differs : other ≠ slot := by
      rintro rfl
      exact same (tidy.indexed block other found).2.symm
    rw [evicted.others other differs]

/-- An eviction takes its block off the list of its inode. -/
theorem Filed.evicted (filed : Filed tags owner machine) (freed : tags.freedIsData = tags.isData)
    (tidy : Tidy machine recent pending) {node : Nat} (inside : (node, slot) ∈ recent)
    (evicted : Evicted tags machine slot ready) : Filed tags owner ready := by
  have here := tidy.kept node slot inside
  have owned := filed.owned _ slot here.found
  obtain ⟨content, held⟩ := here.page
  have dirty := evicted.dirtyData tidy
  have lists : ready.cache.dirtyList = dlRemoveBlock machine.cache.dirtyList
        (owner (machine.cache.entries slot).blockNumber) (machine.cache.entries slot).blockNumber ∨
      ready.cache.dirtyList = machine.cache.dirtyList ∧
        ¬ DirtyData tags machine (machine.cache.entries slot).blockNumber := by
    rw [dirtyData_iff here.found held]
    cases dirtyBit : (machine.cache.entries slot).dirtyBit with
    | false => exact Or.inr ⟨(evicted.clean dirtyBit).2.1, fun both => by cases both.1⟩
    | true =>
      obtain ⟨page, held', -, changed⟩ := evicted.dirty dirtyBit
      obtain rfl := Option.some.inj (held'.symm.trans held)
      rw [freed] at changed
      cases isData : tags.isData page with
      | true =>
        rw [isData, if_pos rfl, owned] at changed
        exact Or.inl changed
      | false =>
        rw [isData, if_neg Bool.false_ne_true] at changed
        exact Or.inr ⟨changed, fun both => by cases both.2⟩
  obtain ⟨lists_tidy, blocks⟩ := filed.drop dirty lists
  refine ⟨lists_tidy, blocks, ?_, ?_⟩
  · intro block other found
    have forgets := evicted.forgets block
    rw [found] at forgets
    by_cases same : block = (machine.cache.entries slot).blockNumber
    · rw [if_pos same] at forgets
      cases forgets
    · rw [if_neg same] at forgets
      have differs : other ≠ slot := by
        rintro rfl
        exact same (tidy.indexed block other forgets.symm).2.symm
      rw [evicted.others other differs]
      exact filed.owned block other forgets.symm
  · intro block
    rw [evicted.pins tidy inside]
    exact filed.unpinned block

/-- A loaded block changes no list. -/
theorem Filed.loaded (filed : Filed tags owner ready) (tidy : Tidy ready recent pending)
    (missing : pciLookup ready.cache.pci pnum = none) (unused : slot ∉ recent.map Prod.snd)
    (freeList : List Nat) (lru : CircularList Nat) (node : Nat) :
    Filed tags owner (ready.loaded slot (owner pnum) pnum page freeList lru node) := by
  refine ⟨filed.tidy, ?_, ?_, ?_⟩
  · intro inum block
    rw [dirtyData_loaded tidy missing unused]
    exact filed.blocks inum block
  · intro block other found
    have inserted := Chains.lookup_insert hashmapBucket ready.cache.pci pnum block slot
    have lookup := inserted.symm.trans found
    by_cases same : block = pnum
    · rw [if_pos same] at lookup
      obtain rfl := Option.some.inj lookup
      rw [Machine.loaded_same, same]
    · rw [if_neg same] at lookup
      have differs : other ≠ slot := by
        rintro rfl
        exact unused (tidy.indexed block other lookup).1
      rw [Machine.loaded_other _ _ _ _ _ _ _ _ _ differs]
      exact filed.owned block other lookup
  · intro block
    rw [Machine.pins_loaded tidy missing unused]
    exact filed.unpinned block

/-- `get_block` keeps the dirty lists. -/
theorem Filed.get (filed : Filed tags owner machine) (freed : tags.freedIsData = tags.isData)
    (tidy : Tidy machine recent pending)
    (run : getBlock tags machine (owner pnum) pnum = some (page, after)) :
    Filed tags owner after := by
  cases present : pciLookup machine.cache.pci pnum with
  | some slot =>
    obtain ⟨left, former, right, lru, node, rfl, rfl, -, tidy'⟩ := tidy.touch present run
    have entries : ∀ other, ∃ lruPos, (machine.touched slot lru node).cache.entries other =
        { machine.cache.entries other with lruPos } := by
      intro other
      by_cases same : other = slot
      · rw [same, Machine.touched_same]
        exact ⟨_, rfl⟩
      · rw [Machine.touched_other _ _ _ _ _ same]
        exact ⟨(machine.cache.entries other).lruPos, rfl⟩
    refine ⟨filed.tidy, fun inum block => ?_, fun block other found => ?_, fun block => ?_⟩
    · have same : DirtyData tags (machine.touched slot lru node) block ↔
          DirtyData tags machine block := by
        apply dirtyData_congr
        · rfl
        · intro other
          obtain ⟨lruPos, entry⟩ := entries other
          rw [entry]
        · intro other
          obtain ⟨lruPos, entry⟩ := entries other
          rw [entry]
      rw [same]
      exact filed.blocks inum block
    · obtain ⟨lruPos, entry⟩ := entries other
      rw [entry]
      exact filed.owned block other found
    · have same : (machine.touched slot lru node).pins block = machine.pins block := by
        apply Machine.pins_congr
        · rfl
        · intro other
          obtain ⟨lruPos, entry⟩ := entries other
          rw [entry]
      rw [same]
      exact filed.unpinned block
  | none =>
    obtain ⟨slot, ready, rest, pending', free, lru, node, readied, tidy', -, rfl, -⟩ :=
      tidy.miss present run
    obtain ⟨freeSlots, head⟩ := readied.free
    have unused : slot ∉ rest.map Prod.snd := by
      intro used
      apply tidy'.not_free used
      rw [head]
      exact List.mem_cons_self
    by_cases full : machine.cache.freeList = []
    · obtain ⟨-, evicted, left, victim, right, rfl, rfl, -⟩ := readied.evicted full
      have missing : pciLookup ready.cache.pci pnum = none := by
        rw [evicted.forgets]
        split
        · rfl
        · exact present
      have filed' := filed.evicted freed tidy
        (show (victim, slot) ∈ left ++ (victim, slot) :: right by simp) evicted
      exact filed'.loaded tidy' missing unused free lru node
    · obtain ⟨rfl, rfl⟩ := readied.untouched full
      exact filed.loaded tidy' present unused free lru node

/-- The slot of a block, on a hit and on a miss. -/
theorem Filed.resident (filed : Filed tags owner machine) (freed : tags.freedIsData = tags.isData)
    (tidy : Tidy machine recent pending)
    (run : residentSlot tags machine (owner pnum) pnum = some (slot, ready)) :
    Filed tags owner ready := by
  rw [residentSlot] at run
  cases present : pciLookup machine.cache.pci pnum with
  | some index =>
    rw [present] at run
    obtain ⟨rfl, rfl⟩ := Prod.mk.inj (Option.some.inj run)
    exact filed
  | none =>
    rw [present] at run
    obtain ⟨⟨page, loaded⟩, get, run⟩ := Option.bind_eq_some_iff.mp run
    obtain ⟨index, found, run⟩ := Option.bind_eq_some_iff.mp run
    obtain ⟨rfl, rfl⟩ := Prod.mk.inj (Option.some.inj run)
    exact filed.get freed tidy get

/-- `write_block` files its block if the page is a data page. Before, the block was no dirty data
block unless it is written as one. -/
theorem Filed.write (filed : Filed tags owner ready)
    (present : pciLookup ready.cache.pci pnum = some slot) {buf : Page}
    (stays : DirtyData tags ready pnum → tags.isData buf = true)
    (indexed : ∀ block other, pciLookup ready.cache.pci block = some other →
      (ready.cache.entries other).blockNumber = block)
    (gdl : CircularList Nat) (mark : Nat) :
    Filed tags owner { ready with
      cache := { ready.cache with
        gdl, dirtyList := filedUnder tags ready.cache.dirtyList buf (owner pnum) pnum }.setEntry slot
          { ready.cache.entries slot with
            pageData := some buf, dirtyBit := true, gdlPos := some mark } } := by
  let entry : CacheEntry Page := { ready.cache.entries slot with
    pageData := some buf, dirtyBit := true, gdlPos := some mark }
  let cache : Cache Page := { ready.cache with
    gdl, dirtyList := filedUnder tags ready.cache.dirtyList buf (owner pnum) pnum }
  let written : Machine Page := { ready with cache := cache.setEntry slot entry }
  change Filed tags owner written
  have here : written.cache.entries slot = entry := Cache.setEntry_same _ _ _
  have others : ∀ other, other ≠ slot →
      written.cache.entries other = ready.cache.entries other :=
    fun other differs => Cache.setEntry_other _ _ _ _ differs
  have dirty : ∀ block, DirtyData tags written block ↔
      if block = pnum then tags.isData buf = true else DirtyData tags ready block := by
    intro block
    by_cases same : block = pnum
    · have found : pciLookup written.cache.pci block = some slot := by
        rw [same]
        exact present
      rw [if_pos same, dirtyData_iff found (congrArg CacheEntry.pageData here), here]
      exact and_iff_right rfl
    · rw [if_neg same]
      unfold DirtyData
      apply exists_congr
      intro other
      apply exists_congr
      intro content
      apply and_congr_right
      intro found
      have differs : other ≠ slot := by
        rintro rfl
        exact same ((indexed block other found).symm.trans (indexed pnum other present))
      rw [others other differs]
  have lists : DlTidy written.cache.dirtyList ∧ ∀ inum block,
      block ∈ blocksOf written.cache.dirtyList inum ↔
        owner block = inum ∧ DirtyData tags written block := by
    have filedList : written.cache.dirtyList =
        filedUnder tags ready.cache.dirtyList buf (owner pnum) pnum := rfl
    rw [filedList, filedUnder]
    cases isData : tags.isData buf with
    | true =>
      rw [if_pos rfl]
      obtain ⟨tidy, blocks⟩ := filed.tidy.insert (owner pnum) pnum
      refine ⟨tidy, fun inum block => ?_⟩
      have member : block ∈ blocksOf (dlInsert ready.cache.dirtyList (owner pnum) pnum) inum ↔
          (inum = owner pnum ∧ block = pnum) ∨ block ∈ blocksOf ready.cache.dirtyList inum := by
        rw [blocks]
        by_cases mine : inum = owner pnum
        · rw [if_pos mine, mine]
          by_cases listed : pnum ∈ blocksOf ready.cache.dirtyList (owner pnum)
          · rw [if_pos listed]
            constructor
            · exact Or.inr
            · rintro (⟨-, rfl⟩ | before)
              · exact listed
              · exact before
          · rw [if_neg listed, List.mem_cons]
            tauto
        · rw [if_neg mine]
          tauto
      rw [member, filed.blocks, dirty, isData]
      by_cases same : block = pnum
      · rw [if_pos same, same]
        tauto
      · rw [if_neg same]
        tauto
    | false =>
      rw [if_neg Bool.false_ne_true]
      refine ⟨filed.tidy, fun inum block => ?_⟩
      rw [filed.blocks, dirty, isData]
      by_cases same : block = pnum
      · rw [if_pos same, same]
        have clean : ¬ DirtyData tags ready pnum := by
          intro isDirty
          have stillData := stays isDirty
          rw [isData] at stillData
          cases stillData
        simp [clean]
      · rw [if_neg same]
  refine ⟨lists.1, lists.2, ?_, ?_⟩
  · intro block other found
    have owned := filed.owned block other found
    by_cases same : other = slot
    · rw [same, here]
      rw [same] at owned
      exact owned
    · rw [others other same]
      exact owned
  · intro block
    have same : written.pins block = ready.pins block := by
      apply Machine.pins_congr
      · rfl
      · exact pinCount_setEntry cache slot entry rfl
    rw [same]
    exact filed.unpinned block

/-- A slot that is written back has no dirty block. -/
theorem dirtyData_cleaned (present : pciLookup machine.cache.pci pnum = some slot)
    (indexed : ∀ block other, pciLookup machine.cache.pci block = some other →
      (machine.cache.entries other).blockNumber = block)
    (gdl : CircularList Nat) (dirtyList : DlHm) (image : Image Page) (block : Nat) :
    DirtyData tags (machine.cleaned slot gdl dirtyList image) block ↔
      block ≠ pnum ∧ DirtyData tags machine block := by
  have here : (machine.cleaned slot gdl dirtyList image).cache.entries slot =
      { machine.cache.entries slot with dirtyBit := false, gdlPos := none } :=
    Cache.setEntry_same _ _ _
  by_cases same : block = pnum
  · have found : pciLookup (machine.cleaned slot gdl dirtyList image).cache.pci block = some slot := by
      rw [same]
      exact present
    constructor
    · rintro ⟨other, content, found', dirty, -⟩
      obtain rfl := Option.some.inj (found'.symm.trans found)
      rw [here] at dirty
      cases dirty
    · rintro ⟨differs, -⟩
      exact absurd same differs
  · rw [and_iff_right same]
    unfold DirtyData
    apply exists_congr
    intro other
    apply exists_congr
    intro content
    apply and_congr_right
    intro found
    have differs : other ≠ slot := by
      rintro rfl
      exact same ((indexed block other found).symm.trans (indexed pnum other present))
    have kept : (machine.cleaned slot gdl dirtyList image).cache.entries other =
        machine.cache.entries other := Cache.setEntry_other _ _ _ _ differs
    rw [kept]

/-- A write-back changes no owner and no pins. -/
theorem Filed.cleaned (filed : Filed tags owner machine) {slot : Nat} {gdl : CircularList Nat}
    {dirtyList : DlHm} {image : Image Page} (tidy : DlTidy dirtyList)
    (blocks : ∀ inum block, block ∈ blocksOf dirtyList inum ↔
      owner block = inum ∧ DirtyData tags (machine.cleaned slot gdl dirtyList image) block) :
    Filed tags owner (machine.cleaned slot gdl dirtyList image) := by
  refine ⟨tidy, blocks, ?_, ?_⟩
  · intro block other found
    have owned := filed.owned block other found
    by_cases same : other = slot
    · have here : (machine.cleaned slot gdl dirtyList image).cache.entries slot =
          { machine.cache.entries slot with dirtyBit := false, gdlPos := none } :=
        Cache.setEntry_same _ _ _
      rw [same] at owned ⊢
      rw [here]
      exact owned
    · have kept : (machine.cleaned slot gdl dirtyList image).cache.entries other =
          machine.cache.entries other := Cache.setEntry_other _ _ _ _ same
      rw [kept]
      exact owned
  · intro block
    rw [Machine.pins_cleaned]
    exact filed.unpinned block

/-- `cache_sync` empties the lists of the blocks it writes back. -/
theorem Filed.syncLoop {fuel : Nat} (filed : Filed tags owner machine)
    (tidy : Tidy machine recent pending) (listed : ∀ entry ∈ pending, entry.2 ∈ recent.map Prod.snd)
    (run : cacheSyncLoop tags fuel machine = some after) : Filed tags owner after := by
  induction fuel generalizing machine pending with
  | zero => cases run
  | succ fuel ih =>
    rcases List.eq_nil_or_concat pending with rfl | ⟨marks, ⟨mark, slot⟩, rfl⟩
    · have empty : machine.cache.gdl.size = 0 := tidy.gdl.size
      rw [cacheSyncLoop, empty, if_neg (by omega)] at run
      obtain rfl := Option.some.inj run
      exact filed
    · rw [List.concat_eq_append] at tidy listed
      obtain ⟨gdl, page, image, held, -, run, tidy'⟩ := tidy.syncRound run
      have used := listed (mark, slot) (by simp)
      have present := (tidy.lookup_iff _ slot).mpr ⟨used, rfl⟩
      have owned := filed.owned _ slot present
      refine ih ?_ (tidy' _) (fun entry inside => listed entry (List.mem_append_left _ inside)) run
      have dirty := @dirtyData_cleaned _ tags _ _ _ present
        (fun block other found => (tidy.indexed block other found).2) gdl
        (if tags.isData page then
          dlRemoveBlock machine.cache.dirtyList (machine.cache.entries slot).inodeNumber
            (machine.cache.entries slot).blockNumber
        else machine.cache.dirtyList) image
      rw [owned] at dirty ⊢
      obtain ⟨lists, blocks⟩ := filed.drop dirty (by
        rw [dirtyData_iff present held]
        cases isData : tags.isData page with
        | true => exact Or.inl rfl
        | false => exact Or.inr ⟨rfl, fun both => by cases both.2⟩)
      exact filed.cleaned lists blocks

/-- What a walk through a dirty list has written back: its blocks, and nothing else. -/
structure WrittenBack (blocks : List Nat) (latest : Nat → Page) (machine after : Machine Page) :
    Prop where
  /-- The blocks have reached the image. -/
  image : ∀ block ∈ blocks, after.image.block block = latest block
  /-- The other blocks of the image are left alone. -/
  others : ∀ block, block ∉ blocks → after.image.block block = machine.image.block block
  /-- The index is. -/
  pci : after.cache.pci = machine.cache.pci
  /-- The cache has as many slots. -/
  cacheSize : after.cache.cacheSize = machine.cache.cacheSize
  /-- The slots of the blocks are clean. -/
  clean : ∀ block ∈ blocks, ∀ slot, pciLookup machine.cache.pci block = some slot →
    (after.cache.entries slot).dirtyBit = false
  /-- A slot has its page, block, inode and count. -/
  entries : ∀ slot, ∃ dirtyBit gdlPos,
    after.cache.entries slot = { machine.cache.entries slot with dirtyBit, gdlPos }
  /-- The other slots are left alone. -/
  kept : ∀ slot, (∀ block ∈ blocks, pciLookup machine.cache.pci block ≠ some slot) →
    after.cache.entries slot = machine.cache.entries slot
  /-- The lists themselves are left alone. -/
  dirtyList : after.cache.dirtyList = machine.cache.dirtyList

/-- The walk through a list of dirty blocks ends, and writes them back. -/
theorem cacheFsyncLoop_coherent {list : List DlNode} (wellFormed : DlList list)
    (coherent : Coherent machine latest recent pending [])
    (dirty : ∀ block ∈ list.map Prod.snd, ∃ slot, pciLookup machine.cache.pci block = some slot ∧
      (machine.cache.entries slot).dirtyBit = true) :
    ∃ after pending', cacheFsyncLoop list machine = some after ∧
      Coherent after latest recent pending' [] ∧
      WrittenBack (list.map Prod.snd) latest machine after := by
  induction list generalizing machine pending with
  | nil =>
    exact ⟨machine, pending, rfl, coherent, nofun, fun _ _ => rfl, rfl, rfl, nofun,
      fun slot => ⟨_, _, rfl⟩, fun _ _ => rfl, rfl⟩
  | cons node rest ih =>
    obtain ⟨dlIndex, block⟩ := node
    obtain ⟨slot, present, dirtyBit⟩ := dirty block (by simp)
    obtain ⟨address, inside, held⟩ := coherent.hit present
    have here := coherent.resident address slot inside
    obtain ⟨mark, position, listed⟩ := here.dirty dirtyBit
    obtain ⟨before, later, rfl⟩ := List.append_of_mem listed
    obtain ⟨gdl, pop, marks⟩ := gdlPop_holds coherent.gdl
    have store := diskWriteBlock_eq here.reaches (latest (machine.cache.entries slot).blockNumber)
    let image := machine.image.put (machine.cache.entries slot).blockNumber
      (latest (machine.cache.entries slot).blockNumber)
    let cleaned := machine.cleaned slot gdl machine.cache.dirtyList image
    have entry : cleaned.cache.entries slot =
        { machine.cache.entries slot with dirtyBit := false, gdlPos := none } :=
      Cache.setEntry_same _ _ _
    have others : ∀ other, other ≠ slot →
        cleaned.cache.entries other = machine.cache.entries other :=
      fun other differs => Cache.setEntry_other _ _ _ _ differs
    have whole : Coherent cleaned latest recent (before ++ later) [] := by
      apply coherent.update inside { machine.cache.entries slot with
          dirtyBit := false, gdlPos := none } image machine.cache.dirtyList marks rfl
        (fun pnum differs => ⟨Image.put_other _ _ _ _ differs, rfl⟩) ?_ ?_ rfl ?_
      · intro at_ other differs inPending
        rw [List.mem_append, List.mem_cons] at inPending
        rw [List.mem_append]
        rcases inPending with early | same | late
        · exact Or.inl early
        · exact absurd (Prod.mk.inj same).2 differs
        · exact Or.inr late
      · intro at_ other inPending
        left
        rcases List.mem_append.mp inPending with early | late
        · exact List.mem_append_left _ early
        · exact List.mem_append_right _ (List.mem_cons_of_mem _ late)
      · exact ⟨here.position, here.found, here.reaches, here.page,
          fun _ => Image.put_same _ _ _, nofun⟩
    have loop : cacheFsyncLoop ((dlIndex, block) :: rest) machine =
        if 1 < dlIndex then cacheFsyncLoop rest cleaned else some cleaned := by
      rw [cacheFsyncLoop]
      simp only [present, Option.bind_eq_bind, Option.bind_some]
      rw [here.page, Option.bind_some, store, Option.bind_some, position, pop, Option.bind_some]
    have fresh : block ∉ rest.map Prod.snd := (List.nodup_cons.mp wellFormed.distinct).1
    have apart : ∀ other ∈ rest.map Prod.snd, ∀ index,
        pciLookup machine.cache.pci other = some index → index ≠ slot := by
      rintro other inRest index found rfl
      have same := (coherent.indexed other index found).2
      rw [held] at same
      exact fresh (same ▸ inRest)
    have dirty' : ∀ other ∈ rest.map Prod.snd, ∃ index,
        pciLookup cleaned.cache.pci other = some index ∧
          (cleaned.cache.entries index).dirtyBit = true := by
      intro other inRest
      obtain ⟨index, found, isDirty⟩ := dirty other (List.mem_cons_of_mem _ inRest)
      refine ⟨index, found, ?_⟩
      rw [others index (apart other inRest index found)]
      exact isDirty
    obtain ⟨after, pending', run, final, back⟩ := ih wellFormed.tail whole dirty'
    have run' : cacheFsyncLoop ((dlIndex, block) :: rest) machine = some after := by
      rw [loop]
      by_cases more : 1 < dlIndex
      · rw [if_pos more, run]
      · rw [if_neg more]
        obtain rfl := wellFormed.last more
        exact run
    refine ⟨after, pending', run', final, ?_, ?_, back.pci, back.cacheSize, ?_, ?_, ?_,
      back.dirtyList⟩
    · intro other inList
      by_cases inRest : other ∈ rest.map Prod.snd
      · exact back.image other inRest
      · have same : other = block := by
          rcases List.mem_cons.mp inList with same | later
          · exact same
          · exact absurd later inRest
        rw [back.others other inRest, same, ← held]
        exact Image.put_same _ _ _
    · intro other notInList
      have differs : other ≠ block := fun same => notInList (same ▸ List.mem_cons_self)
      rw [back.others other fun inRest => notInList (List.mem_cons_of_mem _ inRest)]
      apply Image.put_other
      rw [held]
      exact differs
    · intro other inList index found
      by_cases inRest : other ∈ rest.map Prod.snd
      · exact back.clean other inRest index found
      · have same : other = block := by
          rcases List.mem_cons.mp inList with same | later
          · exact same
          · exact absurd later inRest
        rw [same, present] at found
        obtain rfl := Option.some.inj found
        rw [back.kept slot fun third inRest found' => apart third inRest slot found' rfl, entry]
    · intro index
      obtain ⟨flag, gdlPos, changed⟩ := back.entries index
      by_cases same : index = slot
      · rw [changed, same, entry]
        exact ⟨flag, gdlPos, rfl⟩
      · rw [changed, others index same]
        exact ⟨flag, gdlPos, rfl⟩
    · intro index outside
      have differs : index ≠ slot := by
        rintro rfl
        exact outside block List.mem_cons_self present
      rw [back.kept index fun other inRest => outside other (List.mem_cons_of_mem _ inRest),
        others index differs]

/-- What `cache_fsync` of an inode does. -/
structure Flushed (machine : Machine Page) (inum : Nat) (after : Machine Page) : Prop where
  /-- The blocks on the inode's list have their pages in the image, and are clean. -/
  written : ∀ block ∈ blocksOf machine.cache.dirtyList inum, ∃ slot page,
    pciLookup machine.cache.pci block = some slot ∧
    (machine.cache.entries slot).pageData = some page ∧
    after.image.block block = page ∧ (after.cache.entries slot).dirtyBit = false
  /-- The other blocks of the image are left alone. -/
  others : ∀ block, block ∉ blocksOf machine.cache.dirtyList inum →
    after.image.block block = machine.image.block block
  /-- The dirty flags of the other slots are left alone. -/
  flags : ∀ slot,
    (∀ block ∈ blocksOf machine.cache.dirtyList inum, pciLookup machine.cache.pci block ≠ some slot) →
    (after.cache.entries slot).dirtyBit = (machine.cache.entries slot).dirtyBit
  /-- The list is empty. -/
  empty : blocksOf after.cache.dirtyList inum = []
  /-- The lists of the other inodes are left alone. -/
  lists : ∀ other, other ≠ inum →
    blocksOf after.cache.dirtyList other = blocksOf machine.cache.dirtyList other

/-- `cache_fsync` flushes the inode. -/
theorem cacheFsync_coherent (coherent : Coherent machine latest recent pending [])
    (filed : Filed tags owner machine) (inum : Nat) :
    ∃ after pending', cacheFsync machine inum = some after ∧
      Coherent after latest recent pending' [] ∧ Filed tags owner after ∧
      after.cache.cacheSize = machine.cache.cacheSize ∧ Flushed machine inum after := by
  cases found : dlLookup machine.cache.dirtyList inum with
  | none =>
    have empty : blocksOf machine.cache.dirtyList inum = [] := by
      unfold blocksOf
      rw [found]
      rfl
    refine ⟨machine, pending, ?_, coherent, filed, rfl, ?_, fun _ _ => rfl, fun _ _ => rfl, empty,
      fun _ _ => rfl⟩
    · rw [cacheFsync, found]
    · rw [empty]
      exact nofun
  | some list =>
    have listed : blocksOf machine.cache.dirtyList inum = list.map Prod.snd := by
      unfold blocksOf
      rw [found]
      rfl
    have wellFormed := filed.tidy.lists inum list found
    have dirty : ∀ block ∈ list.map Prod.snd, owner block = inum ∧ DirtyData tags machine block := by
      intro block inside
      rw [← listed] at inside
      exact (filed.blocks inum block).mp inside
    obtain ⟨walked, pending', run, whole, back⟩ := cacheFsyncLoop_coherent wellFormed coherent
      fun block inside => by
        obtain ⟨slot, page, present, isDirty, -⟩ := (dirty block inside).2
        exact ⟨slot, present, isDirty⟩
    obtain ⟨tidy, lookup⟩ := filed.tidy.delete inum
    let after : Machine Page := { walked with
      cache := { walked.cache with dirtyList := dlDelete walked.cache.dirtyList inum } }
    have lists : after.cache.dirtyList = dlDelete machine.cache.dirtyList inum :=
      congrArg (dlDelete · inum) back.dirtyList
    have blocks : ∀ other, blocksOf after.cache.dirtyList other =
        if other = inum then [] else blocksOf machine.cache.dirtyList other := by
      intro other
      unfold blocksOf
      rw [lists, lookup]
      split
      · rfl
      · rfl
    have stillDirty : ∀ block, DirtyData tags after block ↔
        block ∉ list.map Prod.snd ∧ DirtyData tags machine block := by
      intro block
      have index : pciLookup after.cache.pci block = pciLookup machine.cache.pci block :=
        congrArg (pciLookup · block) back.pci
      constructor
      · rintro ⟨slot, page, present, isDirty, held, isData⟩
        rw [index] at present
        have notListed : block ∉ list.map Prod.snd := by
          intro inside
          have clean : (after.cache.entries slot).dirtyBit = false :=
            back.clean block inside slot present
          rw [clean] at isDirty
          cases isDirty
        refine ⟨notListed, slot, page, present, ?_⟩
        have kept : after.cache.entries slot = machine.cache.entries slot := by
          apply back.kept
          intro other inside found'
          have first := (coherent.indexed other slot found').2
          have second := (coherent.indexed block slot present).2
          exact notListed (second.symm.trans first ▸ inside)
        rw [kept] at isDirty held
        exact ⟨isDirty, held, isData⟩
      · rintro ⟨notListed, slot, page, present, isDirty, held, isData⟩
        have kept : after.cache.entries slot = machine.cache.entries slot := by
          apply back.kept
          intro other inside found'
          have first := (coherent.indexed other slot found').2
          have second := (coherent.indexed block slot present).2
          exact notListed (second.symm.trans first ▸ inside)
        refine ⟨slot, page, index.trans present, ?_⟩
        rw [kept]
        exact ⟨isDirty, held, isData⟩
    refine ⟨after, pending', ?_, ?_, ⟨?_, ?_, ?_, ?_⟩, back.cacheSize, ?_, ?_, ?_, ?_, ?_⟩
    · rw [cacheFsync, found]
      dsimp only
      rw [run]
      rfl
    · exact ⟨whole.lru, whole.gdl, whole.slots, whole.fits, whole.chained, whole.resident,
        whole.indexed, whole.absent, whole.listed, whole.idle⟩
    · rw [lists]
      exact tidy
    · intro other block
      rw [blocks, stillDirty, ← listed]
      have member := filed.blocks inum block
      by_cases same : other = inum
      · rw [if_pos same, same]
        have none : block ∉ ([] : List Nat) := List.not_mem_nil
        tauto
      · rw [if_neg same, filed.blocks]
        have apart : owner block = other → owner block ≠ inum := fun mine yours =>
          same (mine.symm.trans yours)
        tauto
    · intro block slot present
      have present' : pciLookup machine.cache.pci block = some slot :=
        (congrArg (pciLookup · block) back.pci).symm.trans present
      obtain ⟨flag, gdlPos, entry⟩ := back.entries slot
      have owned := filed.owned block slot present'
      show (walked.cache.entries slot).inodeNumber = owner block
      rw [entry]
      exact owned
    · intro block
      have same : after.pins block = machine.pins block := by
        apply Machine.pins_congr
        · exact back.pci
        · intro slot
          obtain ⟨flag, gdlPos, entry⟩ := back.entries slot
          show (walked.cache.entries slot).pinCount = _
          rw [entry]
      rw [same]
      exact filed.unpinned block
    · rw [listed]
      intro block inside
      obtain ⟨slot, page, present, -, held, -⟩ := (dirty block inside).2
      obtain ⟨node, inUse, block_eq⟩ := coherent.hit present
      have page_eq := (coherent.resident node slot inUse).page
      rw [block_eq] at page_eq
      refine ⟨slot, latest block, present, page_eq, back.image block inside,
        back.clean block inside slot present⟩
    · rw [listed]
      exact back.others
    · rw [listed]
      intro slot outside
      exact congrArg CacheEntry.dirtyBit (back.kept slot outside)
    · rw [blocks, if_pos rfl]
    · intro other differs
      rw [blocks, if_neg differs]

/-- With no block pinned there is a victim. -/
theorem Filed.hasVictim (filed : Filed tags owner machine) (tidy : Tidy machine recent pending)
    (nonempty : 0 < machine.cache.cacheSize) (pnum : Nat) : machine.HasVictim pnum := by
  intro _ full
  refine ⟨0, nonempty, beq_iff_eq.mpr ?_⟩
  have used := tidy.slots.mem_iff.mpr (List.mem_range.mpr nonempty)
  rw [full, List.append_nil] at used
  have present := (tidy.lookup_iff _ 0).mpr ⟨used, rfl⟩
  rw [← Machine.pins_of_lookup present]
  exact filed.unpinned _

/-- A permitted call ends, and keeps the dirty lists. -/
theorem fileStep_coherent (freed : tags.freedIsData = tags.isData)
    (coherent : Coherent machine latest recent pending []) (filed : Filed tags owner machine)
    (nonempty : 0 < machine.cache.cacheSize) {call : FileCall Page}
    (permits : FilePermits tags owner latest machine call) :
    ∃ after recent' pending', fileStep tags machine call = some after ∧
      Coherent after (contentAfter latest call) recent' pending' [] ∧ Filed tags owner after ∧
      after.cache.cacheSize = machine.cache.cacheSize := by
  have tidy := coherent.tidy nofun
  cases call with
  | get inum pnum =>
    obtain ⟨rfl, reaches⟩ := permits
    obtain ⟨after, recent', pending', run, whole, -⟩ := cacheStep_coherent tags coherent
      (.get (owner pnum) pnum) ⟨reaches, filed.hasVictim tidy nonempty pnum⟩
    obtain ⟨_, _, stepped⟩ := tidy.step run
    obtain ⟨⟨page, after'⟩, get, result⟩ := Option.map_eq_some_iff.mp run
    obtain ⟨-, rfl⟩ := Prod.mk.inj result
    refine ⟨after', recent', pending', ?_, whole, filed.get freed tidy get, stepped.cacheSize⟩
    rw [fileStep, run]
    rfl
  | write buf inum pnum =>
    obtain ⟨rfl, staysData, reaches, room⟩ := permits
    have victim := filed.hasVictim tidy nonempty pnum
    obtain ⟨after, recent', pending', run, whole, -⟩ := cacheStep_coherent tags coherent
      (.write buf (owner pnum) pnum) ⟨reaches, victim, room⟩
    obtain ⟨_, _, stepped⟩ := tidy.step run
    obtain ⟨after', write, result⟩ := Option.map_eq_some_iff.mp run
    obtain ⟨-, rfl⟩ := Prod.mk.inj result
    obtain ⟨⟨slot, ready⟩, resident, write⟩ := Option.bind_eq_some_iff.mp write
    obtain ⟨cache, copied, write⟩ := Option.bind_eq_some_iff.mp write
    obtain rfl := Option.some.inj write
    obtain ⟨ready', slot', recent'', pending'', resident', whole', present, -⟩ :=
      residentSlot_coherent tags coherent (owner pnum) reaches victim
    obtain ⟨rfl, rfl⟩ := Prod.mk.inj (Option.some.inj (resident.symm.trans resident'))
    obtain ⟨mark, marked, gdl, -, -, -, -, rfl⟩ := writeSlot_some whole'.gdl copied
    have filed' := filed.resident freed tidy resident
    have indexed : ∀ block other, pciLookup ready.cache.pci block = some other →
        (ready.cache.entries other).blockNumber = block :=
      fun block other found => (whole'.indexed block other found).2
    refine ⟨_, recent', pending', ?_, whole, filed'.write present ?_ indexed gdl mark,
      stepped.cacheSize⟩
    · rw [fileStep, run]
      rfl
    · rintro ⟨other, page, found, -, held, isData⟩
      obtain rfl := Option.some.inj (found.symm.trans present)
      obtain ⟨node, inUse, block_eq⟩ := whole'.hit present
      have page_eq := (whole'.resident node other inUse).page
      rw [block_eq, held] at page_eq
      obtain rfl := Option.some.inj page_eq
      exact staysData isData
  | sync =>
    obtain ⟨after, recent', pending', run, whole, -⟩ := cacheStep_coherent tags coherent .sync trivial
    obtain ⟨_, _, stepped⟩ := tidy.step run
    obtain ⟨after', sync, result⟩ := Option.map_eq_some_iff.mp run
    obtain ⟨-, rfl⟩ := Prod.mk.inj result
    have listed : ∀ entry ∈ pending, entry.2 ∈ recent.map Prod.snd := by
      intro entry inside
      rcases coherent.listed entry.1 entry.2 inside with used | none
      · exact used
      · cases none
    refine ⟨after', recent', pending', ?_, whole, filed.syncLoop tidy listed sync,
      stepped.cacheSize⟩
    rw [fileStep, run]
    rfl
  | fsync inum =>
    obtain ⟨after, pending', run, whole, filed', size, -⟩ := cacheFsync_coherent coherent filed inum
    exact ⟨after, recent, pending', run, whole, filed', size⟩

/-- A permitted run ends, and keeps the dirty lists. -/
theorem fileRun_coherent (freed : tags.freedIsData = tags.isData) (calls : List (FileCall Page))
    (coherent : Coherent machine latest recent pending []) (filed : Filed tags owner machine)
    (nonempty : 0 < machine.cache.cacheSize)
    (permits : FileRunPermits tags owner latest machine calls) :
    ∃ after latest' recent' pending', fileRun tags machine calls = some after ∧
      Coherent after latest' recent' pending' [] ∧ Filed tags owner after := by
  induction calls generalizing machine latest recent pending with
  | nil => exact ⟨machine, latest, recent, pending, rfl, coherent, filed⟩
  | cons call calls ih =>
    obtain ⟨now, later⟩ := permits
    obtain ⟨next, recent', pending', step, whole, filed', size⟩ :=
      fileStep_coherent freed coherent filed nonempty now
    rw [step] at later
    obtain ⟨after, latest', recent'', pending'', run, final, filed''⟩ :=
      ih whole filed' (size ▸ nonempty) later
    refine ⟨after, latest', recent'', pending'', ?_, final, filed''⟩
    rw [fileRun, step, Option.bind_eq_bind, Option.bind_some]
    exact run

/-- No block of a new cache is dirty. -/
theorem allocCache_filed (image : Image Page) (cacheSize : Nat)
    (uninitialised : Nat → CacheEntry Page) :
    Filed tags owner ⟨allocCache cacheSize uninitialised, image⟩ := by
  refine ⟨DlTidy.empty, ?_, ?_, fun _ => rfl⟩
  · intro inum block
    constructor
    · exact nofun
    · rintro ⟨-, slot, page, found, -⟩
      cases found
  · intro block slot found
    cases found

end Steps

/-- The dirty lists are exact, and `cache_fsync` of any inode flushes it. -/
structure FsyncExact (tags : PageTags Page) (owner : Nat → Nat) (machine : Machine Page) : Prop where
  /-- No list has a block twice. -/
  once : ∀ inum, (blocksOf machine.cache.dirtyList inum).Nodup
  /-- A list holds the dirty data blocks of its inode. -/
  lists : ∀ inum block, block ∈ blocksOf machine.cache.dirtyList inum ↔
    owner block = inum ∧ DirtyData tags machine block
  /-- `cache_fsync` ends and flushes the inode. -/
  flushes : ∀ inum, ∃ after, cacheFsync machine inum = some after ∧ Flushed machine inum after

/-- In every run in which each block is passed with its own inode, data blocks stay data blocks and
the addressing finds the blocks, the dirty lists are exact and `cache_fsync` flushes exactly one
inode. -/
theorem fileRun_exact (tags : PageTags Page) (freed : tags.freedIsData = tags.isData)
    (owner : Nat → Nat) (image : Image Page) (cacheSize : Nat) (nonempty : 0 < cacheSize)
    (fits : cacheSize ≤ intMax) (uninitialised : Nat → CacheEntry Page)
    (calls : List (FileCall Page))
    (permits : FileRunPermits tags owner image.block ⟨allocCache cacheSize uninitialised, image⟩
      calls) :
    ∃ after, fileRun tags ⟨allocCache cacheSize uninitialised, image⟩ calls = some after ∧
      FsyncExact tags owner after := by
  have coherent := allocCache_coherent image cacheSize fits uninitialised
  obtain ⟨after, latest, recent, pending, run, whole, filed⟩ := fileRun_coherent freed calls coherent
    (allocCache_filed image cacheSize uninitialised) nonempty permits
  refine ⟨after, run, filed.tidy.distinct, filed.blocks, fun inum => ?_⟩
  obtain ⟨flushed, pending', fsync, -, -, -, exact⟩ := cacheFsync_coherent whole filed inum
  exact ⟨flushed, fsync, exact⟩

/-- Whether a call is permitted is decidable. -/
instance (tags : PageTags Page) (owner : Nat → Nat) (latest : Nat → Page) (machine : Machine Page)
    (call : FileCall Page) : Decidable (FilePermits tags owner latest machine call) :=
  match call with
  | .get _ _ => inferInstanceAs (Decidable (_ ∧ _))
  | .write _ _ _ => inferInstanceAs (Decidable (_ ∧ (_ → _) ∧ _ ∧ _))
  | .sync | .fsync _ => isTrue trivial

/-- A run's permission is decided by running it. -/
instance FileRunPermits.decidable (tags : PageTags Page) (owner : Nat → Nat) :
    (latest : Nat → Page) → (machine : Machine Page) → (calls : List (FileCall Page)) →
      Decidable (FileRunPermits tags owner latest machine calls)
  | _, _, [] => isTrue trivial
  | latest, machine, call :: calls =>
    match step : fileStep tags machine call with
    | none =>
      decidable_of_iff (FilePermits tags owner latest machine call) (by simp [FileRunPermits, step])
    | some after =>
      have := FileRunPermits.decidable tags owner (contentAfter latest call) after calls
      decidable_of_iff
        (FilePermits tags owner latest machine call ∧
          FileRunPermits tags owner (contentAfter latest call) after calls)
        (by simp [FileRunPermits, step])

/-- Data blocks of two inodes in one chain go through two slots, and one inode is flushed. -/
theorem fileRun_exact_two_inodes :
    ∃ after, fileRun ⟨fun _ => true, fun _ => true⟩
        ⟨allocCache 2 fun _ => wildEntry, ⟨4, fun pnum => pnum⟩⟩
        [.write 7 5 1, .write 8 (5 + hashmapSize) 2, .write 9 5 3, .fsync 5] = some after ∧
      FsyncExact ⟨fun _ => true, fun _ => true⟩
        (fun block => if block = 2 then 5 + hashmapSize else 5) after :=
  fileRun_exact ⟨fun _ => true, fun _ => true⟩ rfl
    (fun block => if block = 2 then 5 + hashmapSize else 5) ⟨4, fun pnum => pnum⟩ 2 (by decide)
    (by decide) (fun _ => wildEntry)
    [.write 7 5 1, .write 8 (5 + hashmapSize) 2, .write 9 5 3, .fsync 5] (by decide +kernel)

/-- Block 2^20 of a larger image is the dirty data block of inode 5, and `cache_fsync` of the inode
writes its page to block 0. -/
theorem fileRun_exact_false :
    2 ^ 20 < 2 ^ 20 + 1 ∧
      ((fileRun ⟨fun _ => true, fun _ => true⟩
        ⟨allocCache 1 fun _ => wildEntry, ⟨2 ^ 20 + 1, fun pnum => pnum⟩⟩
        [.write 7 5 (2 ^ 20)]).any fun (machine : Machine Nat) =>
          decide (blocksOf machine.cache.dirtyList 5 = [2 ^ 20] ∧ machine.image.block 0 = 0 ∧
            (cacheFsync machine 5).any (fun (after : Machine Nat) =>
              decide (after.image.block 0 = 7 ∧ after.image.block (2 ^ 20) = 2 ^ 20)) = true)) =
        true := by
  decide +kernel

end Nbtrfs
