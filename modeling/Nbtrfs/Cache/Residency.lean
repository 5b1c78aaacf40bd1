import Nbtrfs.Cache.Marks
import Nbtrfs.Cache.Program

/-!
# The blocks on the dirty lists and the cache

`cache_fsync` looks up the blocks of an inode's dirty list and takes what `pci_lookup` returns as
a slot. A block is filed under the inode number given to `write_block`; an eviction removes it from
the list of the number given to the `get_block` that loaded it, if the tag it reads then is that of
a data block. Here the calls come with any inode numbers, and pages change their tags.
-/

namespace Nbtrfs

variable {Page : Type}

/-- The blocks that the loop of `cache_fsync` looks up: it goes on behind a node whose index is
above 1. The loop changes neither the index nor the lists. -/
def fsyncBlocks : List DlNode → List Nat
  | [] => []
  | (dlIndex, blockNumber) :: rest =>
    blockNumber :: if 1 < dlIndex then fsyncBlocks rest else []

/-- Every `pci_lookup` of `cache_fsync` of an inode finds its block. -/
def FsyncFinds (machine : Machine Page) (inum : Nat) : Prop :=
  ∀ list, dlLookup machine.cache.dirtyList inum = some list →
    ∀ block ∈ fsyncBlocks list, pciLookup machine.cache.pci block ≠ none

/-- The loop looks up all blocks of a well-formed list. -/
theorem DlList.fsyncBlocks {list : List DlNode} (wellFormed : DlList list) :
    fsyncBlocks list = list.map Prod.snd := by
  induction list with
  | nil => rfl
  | cons node rest ih =>
    have tail := ih wellFormed.tail
    rw [List.map_cons, Nbtrfs.fsyncBlocks, tail]
    split
    · rfl
    case isFalse stop =>
      rw [wellFormed.last stop]
      rfl

/-- A call on the cache, or assignments through the pointer to a block's page. -/
inductive PageCall (Page : Type) where
  | call (made : FileCall Page)
  | assign (pnum : Nat) (page : Page)

section Model

variable (tags : PageTags Page)

/-- The machine after a call or an assignment. -/
def pageStep (machine : Machine Page) : PageCall Page → Option (Machine Page)
  | .call made => fileStep tags machine made
  | .assign pnum page => some (machine.assign pnum page)

/-- The machine after calls and assignments in order. -/
def pageRun (machine : Machine Page) (calls : List (PageCall Page)) : Option (Machine Page) :=
  calls.foldlM (pageStep tags) machine

/-- The slot that an eviction takes: the first one from the tail of the recency list that has no
pins. -/
def Cache.victim (cache : Cache Page) : Option Nat := do
  let first ← cache.lru.head
  let tail ← cache.lru.heap first
  let curr ← cache.lru.findBack cache.evictable cache.lru.size tail.prev
  let (index, _) ← lruPop cache.lru curr
  some index

/-- If a `get_block` of the block has to evict, the evicted block is on no dirty list but that of
the inode number its slot was loaded under, and it is on that one only if the slot is dirty and the
tag read from the released page is that of a data block. -/
def EvictsFiled (machine : Machine Page) (pnum : Nat) : Prop :=
  pciLookup machine.cache.pci pnum = none → machine.cache.freeList = [] →
    ∀ slot, machine.cache.victim = some slot →
      ∀ inum, (machine.cache.entries slot).blockNumber ∈ blocksOf machine.cache.dirtyList inum →
        inum = (machine.cache.entries slot).inodeNumber ∧
          (machine.cache.entries slot).dirtyBit = true ∧
            ∀ page, (machine.cache.entries slot).pageData = some page →
              tags.freedIsData page = true

/-- What a call asks of the machine. -/
def PageReady (machine : Machine Page) : PageCall Page → Prop
  | .call (.get _ pnum) | .call (.write _ _ pnum) => EvictsFiled tags machine pnum
  | .call .sync | .call (.fsync _) | .assign _ _ => True

/-- Every call of a run that has a result finds what it asks for. -/
def PageRunReady (machine : Machine Page) : List (PageCall Page) → Prop
  | [] => True
  | call :: calls =>
    ∀ after, pageStep tags machine call = some after →
      PageReady tags machine call ∧ PageRunReady after calls

end Model

/-- The blocks on the dirty lists are in slots, and `cache_fsync` does not go through a `gdl_pos`
that is not initialised. -/
structure Findable (machine : Machine Page) : Prop where
  /-- The lists are well formed. -/
  lists : DlTidy machine.cache.dirtyList
  /-- A block on a list is in a slot. -/
  found : ∀ inum, ∀ block ∈ blocksOf machine.cache.dirtyList inum, ∃ slot,
    pciLookup machine.cache.pci block = some slot ∧
      ((machine.cache.entries slot).dirtyBit = true ∨ (machine.cache.entries slot).gdlPos = none)

section Steps

variable {tags : PageTags Page} {machine after ready : Machine Page}
  {recent pending : List (Nat × Nat)} {written : Bool} {inum pnum slot : Nat} {page : Page}

/-- `cache_fsync` finds the blocks of every inode. -/
theorem Findable.finds (findable : Findable machine) (inum : Nat) : FsyncFinds machine inum := by
  intro list listed block inside
  have wellFormed := findable.lists.lists inum list listed
  rw [wellFormed.fsyncBlocks] at inside
  have onList : block ∈ blocksOf machine.cache.dirtyList inum := by
    rw [blocksOf, listed]
    exact inside
  obtain ⟨slot, present, -⟩ := findable.found inum block onList
  rw [present]
  exact Option.some_ne_none slot

/-- If `cache_fsync` finds the blocks of an inode, they are in slots. -/
theorem FsyncFinds.present (finds : FsyncFinds machine inum) (lists : DlTidy machine.cache.dirtyList) :
    ∀ block ∈ blocksOf machine.cache.dirtyList inum, pciLookup machine.cache.pci block ≠ none := by
  intro block inside
  unfold blocksOf at inside
  cases listed : dlLookup machine.cache.dirtyList inum with
  | none =>
    rw [listed] at inside
    cases inside
  | some list =>
    rw [listed] at inside
    apply finds list listed block
    rw [(lists.lists inum list listed).fsyncBlocks]
    exact inside

/-- `cache_fsync` reads the global dirty list through initialised pointers. -/
theorem Findable.fsyncReads (findable : Findable machine) (inum : Nat) :
    FsyncReads machine inum := by
  intro block inside slot present
  obtain ⟨other, found, reads⟩ := findable.found inum block inside
  have same : other = slot := Option.some.inj (found.symm.trans present)
  exact same ▸ reads

/-- A change that files no block and moves none. -/
theorem Findable.change (findable : Findable machine) (after : Machine Page)
    (lists : DlTidy after.cache.dirtyList)
    (blocks : ∀ inum, ∀ block ∈ blocksOf after.cache.dirtyList inum,
      block ∈ blocksOf machine.cache.dirtyList inum)
    (index : after.cache.pci = machine.cache.pci)
    (entries : ∀ slot, (after.cache.entries slot).gdlPos = none ∨
      (after.cache.entries slot).dirtyBit = (machine.cache.entries slot).dirtyBit ∧
        (after.cache.entries slot).gdlPos = (machine.cache.entries slot).gdlPos) :
    Findable after := by
  refine ⟨lists, ?_⟩
  intro inum block inside
  obtain ⟨slot, present, reads⟩ := findable.found inum block (blocks inum block inside)
  rw [← index] at present
  refine ⟨slot, present, ?_⟩
  rcases entries slot with empty | ⟨dirty, position⟩
  · exact Or.inr empty
  · rw [dirty, position]
    exact reads

/-- A load into an unused slot. -/
theorem Findable.loaded (findable : Findable ready) (tidy : Tidy ready recent pending)
    (missing : pciLookup ready.cache.pci pnum = none) (unused : slot ∉ recent.map Prod.snd)
    (freeList : List Nat) (lru : CircularList Nat) (node : Nat) :
    Findable (ready.loaded slot inum pnum page freeList lru node) := by
  refine ⟨findable.lists, ?_⟩
  intro other block inside
  obtain ⟨index, present, reads⟩ := findable.found other block inside
  have differs : block ≠ pnum := by
    rintro rfl
    rw [missing] at present
    cases present
  have apart : index ≠ slot := by
    rintro rfl
    exact unused (tidy.indexed block index present).1
  have lookup := Chains.lookup_insert hashmapBucket ready.cache.pci pnum block slot
  rw [if_neg differs] at lookup
  refine ⟨index, lookup.trans present, ?_⟩
  rw [Machine.loaded_other _ _ _ _ _ _ _ _ _ apart]
  exact reads

/-- The slot of an eviction is the victim. -/
theorem evict_victim (run : evict tags machine = some ready)
    (evicted : ready.cache.freeList = [slot]) : machine.cache.victim = some slot := by
  rw [evict] at run
  obtain ⟨first, head, run⟩ := Option.bind_eq_some_iff.mp run
  obtain ⟨tail, last, run⟩ := Option.bind_eq_some_iff.mp run
  obtain ⟨curr, scan, run⟩ := Option.bind_eq_some_iff.mp run
  obtain ⟨⟨index, lru⟩, pop, run⟩ := Option.bind_eq_some_iff.mp run
  obtain ⟨after, back, run⟩ := Option.bind_eq_some_iff.mp run
  obtain ⟨pci, -, run⟩ := Option.bind_eq_some_iff.mp run
  obtain rfl := Option.some.inj run
  have same : index = slot := (List.cons.inj evicted).1
  rw [Cache.victim, head]
  simp only [Option.bind_eq_bind, Option.bind_some, last, scan, pop, same]

/-- What an eviction leaves on the lists: each list, without the evicted block if the slot was
dirty, the list is its own and the released page reads as data. -/
theorem Evicted.blocks (evicted : Evicted tags machine slot ready)
    (lists : DlTidy machine.cache.dirtyList) (held : (machine.cache.entries slot).pageData = some page) :
    DlTidy ready.cache.dirtyList ∧ ∀ inum, blocksOf ready.cache.dirtyList inum =
      if inum = (machine.cache.entries slot).inodeNumber ∧
          (machine.cache.entries slot).dirtyBit = true ∧ tags.freedIsData page = true then
        (blocksOf machine.cache.dirtyList inum).erase (machine.cache.entries slot).blockNumber
      else blocksOf machine.cache.dirtyList inum := by
  cases dirtyBit : (machine.cache.entries slot).dirtyBit with
  | false =>
    have same := (evicted.clean dirtyBit).2.1
    rw [same]
    refine ⟨lists, fun inum => ?_⟩
    simp
  | true =>
    obtain ⟨content, same, -, changed⟩ := evicted.dirty dirtyBit
    obtain rfl := Option.some.inj (same.symm.trans held)
    cases isData : tags.freedIsData content with
    | false =>
      rw [isData, if_neg Bool.false_ne_true] at changed
      rw [changed]
      refine ⟨lists, fun inum => ?_⟩
      simp
    | true =>
      rw [isData, if_pos rfl] at changed
      have removed := lists.removeBlock (machine.cache.entries slot).inodeNumber
        (machine.cache.entries slot).blockNumber
      rw [changed]
      refine ⟨removed.1, fun inum => ?_⟩
      rw [removed.2]
      by_cases own : inum = (machine.cache.entries slot).inodeNumber
      · simp [own]
      · simp [own]

/-- The blocks left on the lists by an eviction that was ready are other ones. -/
theorem Findable.evicted (findable : Findable machine) (tidy : Tidy machine recent pending)
    {node : Nat} (inside : (node, slot) ∈ recent) (evicted : Evicted tags machine slot ready)
    (filed : ∀ inum,
      (machine.cache.entries slot).blockNumber ∈ blocksOf machine.cache.dirtyList inum →
        inum = (machine.cache.entries slot).inodeNumber ∧
          (machine.cache.entries slot).dirtyBit = true ∧
            ∀ page, (machine.cache.entries slot).pageData = some page →
              tags.freedIsData page = true) : Findable ready := by
  obtain ⟨page, held⟩ := (tidy.kept node slot inside).page
  obtain ⟨lists, blocks⟩ := evicted.blocks findable.lists held
  refine ⟨lists, ?_⟩
  intro inum block listed
  have before : block ∈ blocksOf machine.cache.dirtyList inum ∧
      block ≠ (machine.cache.entries slot).blockNumber := by
    rw [blocks] at listed
    split at listed
    · have removed := (findable.lists.distinct inum).mem_erase_iff.mp listed
      exact ⟨removed.2, removed.1⟩
    case isFalse kept =>
      refine ⟨listed, ?_⟩
      rintro rfl
      obtain ⟨own, dirty, freed⟩ := filed inum listed
      exact kept ⟨own, dirty, freed page held⟩
  obtain ⟨index, present, reads⟩ := findable.found inum block before.1
  have apart : index ≠ slot := by
    rintro rfl
    exact before.2 (tidy.indexed block index present).2.symm
  have lookup := evicted.forgets block
  rw [if_neg before.2] at lookup
  refine ⟨index, lookup.trans present, ?_⟩
  rw [evicted.others index apart]
  exact reads

/-- The condition of a call, for the slot that the eviction takes. -/
theorem EvictsFiled.at_slot (filed : EvictsFiled tags machine pnum)
    (missing : pciLookup machine.cache.pci pnum = none) (full : machine.cache.freeList = [])
    (run : evict tags machine = some ready) (evicted : Evicted tags machine slot ready) :
    ∀ inum, (machine.cache.entries slot).blockNumber ∈ blocksOf machine.cache.dirtyList inum →
      inum = (machine.cache.entries slot).inodeNumber ∧
        (machine.cache.entries slot).dirtyBit = true ∧
          ∀ page, (machine.cache.entries slot).pageData = some page →
            tags.freedIsData page = true :=
  filed missing full slot (evict_victim run evicted.free)

/-- `get_block` keeps the listed blocks in slots when the block it evicts is filed as its slot
says. -/
theorem Findable.get (findable : Findable machine) (tidy : Tidy machine recent pending)
    (filed : EvictsFiled tags machine pnum)
    (run : getBlock tags machine inum pnum = some (page, after)) : Findable after := by
  cases present : pciLookup machine.cache.pci pnum with
  | some slot =>
    obtain ⟨left, former, right, lru, node, -, rfl, -, -⟩ := tidy.touch present run
    apply findable.change (machine.touched slot lru node) findable.lists
      (fun _ _ listed => listed) rfl
    intro other
    right
    by_cases same : other = slot
    · rw [same, Machine.touched_same]
      exact ⟨rfl, rfl⟩
    · rw [Machine.touched_other _ _ _ _ _ same]
      exact ⟨rfl, rfl⟩
  | none =>
    obtain ⟨slot, ready, rest, pending', free, lru, node, readied, tidy', -, rfl, -, -⟩ :=
      tidy.miss present run
    obtain ⟨freeSlots, head⟩ := readied.free
    have unused : slot ∉ rest.map Prod.snd := by
      intro used
      apply tidy'.not_free used
      rw [head]
      exact List.mem_cons_self
    by_cases full : machine.cache.freeList = []
    · obtain ⟨evicts, evicted, left, victim, right, rfl, rfl, -⟩ := readied.evicted full
      have missing : pciLookup ready.cache.pci pnum = none := by
        rw [evicted.forgets]
        split
        · rfl
        · exact present
      have findable' := findable.evicted tidy
        (show (victim, slot) ∈ left ++ (victim, slot) :: right by simp) evicted
        (filed.at_slot present full evicts evicted)
      exact findable'.loaded tidy' missing unused free lru node
    · obtain ⟨rfl, rfl⟩ := readied.untouched full
      exact findable.loaded tidy' present unused free lru node

/-- `get_block` keeps the lists well formed. -/
theorem getBlock_lists (tidy : Tidy machine recent pending) (lists : DlTidy machine.cache.dirtyList)
    (run : getBlock tags machine inum pnum = some (page, after)) :
    DlTidy after.cache.dirtyList := by
  cases present : pciLookup machine.cache.pci pnum with
  | some slot =>
    obtain ⟨left, former, right, lru, node, -, rfl, -, -⟩ := tidy.touch present run
    exact lists
  | none =>
    obtain ⟨slot, ready, rest, pending', free, lru, node, readied, -, -, rfl, -, -⟩ :=
      tidy.miss present run
    by_cases full : machine.cache.freeList = []
    · obtain ⟨-, evicted, left, victim, right, rfl, rfl, -⟩ := readied.evicted full
      have here := tidy.kept victim slot (by simp)
      obtain ⟨content, held⟩ := here.page
      exact (evicted.blocks lists held).1
    · obtain ⟨rfl, rfl⟩ := readied.untouched full
      exact lists

/-- If the listed blocks are in slots after `get_block`, the evicted block was filed as its slot
said. -/
theorem Findable.get_filed (findable : Findable machine) (tidy : Tidy machine recent pending)
    (run : getBlock tags machine inum pnum = some (page, after))
    (resident : ∀ owner, ∀ block ∈ blocksOf after.cache.dirtyList owner,
      pciLookup after.cache.pci block ≠ none) : EvictsFiled tags machine pnum := by
  intro missing full slot victim
  obtain ⟨other, ready, rest, pending', free, lru, node, readied, -, -, rfl, -, -⟩ :=
    tidy.miss missing run
  obtain ⟨evicts, evicted, left, mark, right, rfl, rfl, -⟩ := readied.evicted full
  have same : other = slot :=
    Option.some.inj ((evict_victim evicts evicted.free).symm.trans victim)
  subst same
  have here := tidy.kept mark other (show (mark, other) ∈ left ++ (mark, other) :: right by simp)
  obtain ⟨content, held⟩ := here.page
  obtain ⟨lists, blocks⟩ := evicted.blocks findable.lists held
  intro owner listed
  by_contra unfiled
  have stays : (machine.cache.entries other).blockNumber ∈
      blocksOf ready.cache.dirtyList owner := by
    rw [blocks, if_neg]
    · exact listed
    · rintro ⟨own, dirty, freed⟩
      apply unfiled
      refine ⟨own, dirty, fun page same => ?_⟩
      have agree : content = page := Option.some.inj (held.symm.trans same)
      exact agree ▸ freed
  have differs : (machine.cache.entries other).blockNumber ≠ pnum := by
    intro equal
    have found := here.found
    rw [equal, missing] at found
    cases found
  have forgets := evicted.forgets (machine.cache.entries other).blockNumber
  rw [if_pos rfl] at forgets
  have lookup := Chains.lookup_insert hashmapBucket ready.cache.pci pnum
    (machine.cache.entries other).blockNumber other
  rw [if_neg differs] at lookup
  exact resident owner _ stays (lookup.trans forgets)

/-- The slot of a block, on a hit and on a miss. -/
theorem Findable.resident (findable : Findable machine) (tidy : Tidy machine recent pending)
    (filed : EvictsFiled tags machine pnum)
    (run : residentSlot tags machine inum pnum = some (slot, ready)) : Findable ready := by
  rw [residentSlot] at run
  cases present : pciLookup machine.cache.pci pnum with
  | some index =>
    rw [present] at run
    obtain ⟨rfl, rfl⟩ := Prod.mk.inj (Option.some.inj run)
    exact findable
  | none =>
    rw [present] at run
    obtain ⟨⟨page, loaded⟩, get, run⟩ := Option.bind_eq_some_iff.mp run
    obtain ⟨index, found, run⟩ := Option.bind_eq_some_iff.mp run
    obtain ⟨rfl, rfl⟩ := Prod.mk.inj (Option.some.inj run)
    exact findable.get tidy filed get

/-- `dl_insert` files one block more. -/
theorem mem_filedUnder (lists : DlTidy machine.cache.dirtyList) (buf : Page) (inum pnum : Nat) :
    DlTidy (filedUnder tags machine.cache.dirtyList buf inum pnum) ∧
      (∀ other block, block ∈ blocksOf machine.cache.dirtyList other →
        block ∈ blocksOf (filedUnder tags machine.cache.dirtyList buf inum pnum) other) ∧
      ∀ other block, block ∈ blocksOf (filedUnder tags machine.cache.dirtyList buf inum pnum) other →
        block = pnum ∨ block ∈ blocksOf machine.cache.dirtyList other := by
  unfold filedUnder
  split
  · obtain ⟨tidy, blocks⟩ := lists.insert inum pnum
    refine ⟨tidy, fun other block inside => ?_, fun other block inside => ?_⟩
    · rw [blocks]
      split
      case isTrue own =>
        rw [own] at inside
        split
        · exact inside
        · exact List.mem_cons_of_mem _ inside
      case isFalse => exact inside
    · rw [blocks] at inside
      split at inside
      case isTrue own =>
        rw [own]
        split at inside
        · exact Or.inr inside
        · exact List.mem_cons.mp inside
      case isFalse => exact Or.inr inside
  · exact ⟨lists, fun _ _ inside => inside, fun _ _ inside => Or.inr inside⟩

/-- The written block is in a slot. -/
theorem Findable.write (findable : Findable ready)
    (present : pciLookup ready.cache.pci pnum = some slot) (buf : Page) (inum : Nat)
    (gdl : CircularList Nat) (mark : Nat) :
    Findable { ready with
      cache := { ready.cache with
        gdl, dirtyList := filedUnder tags ready.cache.dirtyList buf inum pnum }.setEntry slot
          { ready.cache.entries slot with
            pageData := some buf, dirtyBit := true, gdlPos := some mark } } := by
  obtain ⟨lists, -, filed⟩ := @mem_filedUnder _ tags _ findable.lists buf inum pnum
  refine ⟨lists, ?_⟩
  intro other block inside
  rcases filed other block inside with rfl | before
  · refine ⟨slot, present, Or.inl ?_⟩
    exact congrArg CacheEntry.dirtyBit (Cache.setEntry_same _ _ _)
  · obtain ⟨index, found, reads⟩ := findable.found other block before
    refine ⟨index, found, ?_⟩
    by_cases same : index = slot
    · left
      rw [same]
      exact congrArg CacheEntry.dirtyBit (Cache.setEntry_same _ _ _)
    · dsimp only
      rw [Cache.setEntry_other _ _ _ _ same]
      exact reads

/-- A slot that is written back. -/
theorem Findable.cleaned (findable : Findable machine) {gdl : CircularList Nat} {dirtyList : DlHm}
    {image : Image Page} (lists : DlTidy dirtyList)
    (blocks : ∀ inum, ∀ block ∈ blocksOf dirtyList inum,
      block ∈ blocksOf machine.cache.dirtyList inum) :
    Findable (machine.cleaned slot gdl dirtyList image) := by
  apply findable.change (machine.cleaned slot gdl dirtyList image) lists blocks rfl
  intro other
  by_cases same : other = slot
  · left
    rw [same]
    exact congrArg CacheEntry.gdlPos (Cache.setEntry_same _ _ _)
  · right
    have kept : (machine.cleaned slot gdl dirtyList image).cache.entries other =
        machine.cache.entries other := Cache.setEntry_other _ _ _ _ same
    rw [kept]
    exact ⟨rfl, rfl⟩

/-- The loop of `cache_sync` takes blocks off the lists. -/
theorem Findable.syncLoop {fuel : Nat} (findable : Findable machine)
    (tidy : Tidy machine recent pending) (run : cacheSyncLoop tags fuel machine = some after) :
    Findable after := by
  induction fuel generalizing machine pending with
  | zero => cases run
  | succ fuel ih =>
    rcases List.eq_nil_or_concat pending with rfl | ⟨marks, ⟨mark, slot⟩, rfl⟩
    · have empty : machine.cache.gdl.size = 0 := tidy.gdl.size
      rw [cacheSyncLoop, empty, if_neg (by omega)] at run
      obtain rfl := Option.some.inj run
      exact findable
    · rw [List.concat_eq_append] at tidy
      obtain ⟨gdl, page, image, -, -, run, tidy'⟩ := tidy.syncRound run
      refine ih ?_ (tidy' _) run
      obtain ⟨lists, blocks⟩ := findable.lists.removeBlock (machine.cache.entries slot).inodeNumber
        (machine.cache.entries slot).blockNumber
      split
      · apply findable.cleaned lists
        intro inum block inside
        rw [blocks] at inside
        split at inside
        case isTrue own => exact own ▸ List.mem_of_mem_erase inside
        case isFalse => exact inside
      · exact findable.cleaned findable.lists fun _ _ inside => inside

/-- The loop of `cache_fsync` keeps the listed blocks in slots. -/
theorem Findable.fsyncLoop {list : List DlNode} (findable : Findable machine)
    (run : cacheFsyncLoop list machine = some after) : Findable after := by
  induction list generalizing machine with
  | nil =>
    obtain rfl := Option.some.inj run
    exact findable
  | cons node rest ih =>
    obtain ⟨dlIndex, block⟩ := node
    rw [cacheFsyncLoop] at run
    obtain ⟨slot, -, run⟩ := Option.bind_eq_some_iff.mp run
    obtain ⟨page, -, run⟩ := Option.bind_eq_some_iff.mp run
    obtain ⟨image, -, run⟩ := Option.bind_eq_some_iff.mp run
    obtain ⟨⟨popped, gdl⟩, -, run⟩ := Option.bind_eq_some_iff.mp run
    have cleaned : Findable (machine.cleaned slot gdl machine.cache.dirtyList image) :=
      findable.cleaned findable.lists fun _ _ inside => inside
    dsimp only at run
    split at run
    · exact ih cleaned run
    · obtain rfl := Option.some.inj run
      exact cleaned

/-- `cache_fsync` empties one list. -/
theorem Findable.fsync (findable : Findable machine) (run : cacheFsync machine inum = some after) :
    Findable after := by
  rw [cacheFsync] at run
  cases found : dlLookup machine.cache.dirtyList inum with
  | none =>
    rw [found] at run
    obtain rfl := Option.some.inj run
    exact findable
  | some list =>
    rw [found] at run
    obtain ⟨walked, walk, run⟩ := Option.bind_eq_some_iff.mp run
    obtain rfl := Option.some.inj run
    have findable' := findable.fsyncLoop walk
    obtain ⟨lists, lookup⟩ := findable'.lists.delete inum
    refine findable'.change { walked with
      cache := { walked.cache with dirtyList := dlDelete walked.cache.dirtyList inum } }
      lists ?_ rfl fun _ => Or.inr ⟨rfl, rfl⟩
    intro other block inside
    dsimp only [blocksOf] at inside ⊢
    rw [lookup] at inside
    split at inside
    · cases inside
    · exact inside

/-- An assigned page leaves the index, the lists and the flags alone. -/
theorem Machine.assign_frame (machine : Machine Page) (pnum : Nat) (page : Page) :
    (machine.assign pnum page).cache.pci = machine.cache.pci ∧
      (machine.assign pnum page).cache.dirtyList = machine.cache.dirtyList ∧
      (machine.assign pnum page).cache.freeList = machine.cache.freeList ∧
      ∀ other, ((machine.assign pnum page).cache.entries other).dirtyBit =
          (machine.cache.entries other).dirtyBit ∧
        ((machine.assign pnum page).cache.entries other).gdlPos =
          (machine.cache.entries other).gdlPos := by
  rw [Machine.assign]
  split
  case h_1 slot _ =>
    refine ⟨rfl, rfl, rfl, fun other => ?_⟩
    dsimp only
    by_cases same : other = slot
    · rw [same, Cache.setEntry_same]
      exact ⟨rfl, rfl⟩
    · rw [Cache.setEntry_other _ _ _ _ same]
      exact ⟨rfl, rfl⟩
  case h_2 => exact ⟨rfl, rfl, rfl, fun _ => ⟨rfl, rfl⟩⟩

/-- An assigned page files no block. -/
theorem Findable.assign (findable : Findable machine) (pnum : Nat) (page : Page) :
    Findable (machine.assign pnum page) := by
  obtain ⟨index, lists, -, flags⟩ := machine.assign_frame pnum page
  refine findable.change _ ?_ ?_ index fun other => Or.inr (flags other)
  · rw [lists]
    exact findable.lists
  · rw [lists]
    exact fun _ _ listed => listed

/-- An assigned page marks no slot. -/
theorem Marked.assign (marked : Marked machine recent pending written) (pnum : Nat) (page : Page) :
    Marked (machine.assign pnum page) recent pending written := by
  obtain ⟨-, -, free, flags⟩ := machine.assign_frame pnum page
  refine ⟨(marked.tidy.assign pnum page).tidy, ?_, ?_, marked.nodes⟩
  · intro other isFree
    rw [free] at isFree
    exact (flags other).1.trans (marked.idle other isFree)
  · intro other used dirty
    exact marked.twice other used ((flags other).1.symm.trans dirty)

end Steps

section Run

variable {tags : PageTags Page} {machine after : Machine Page}
  {recent pending : List (Nat × Nat)} {written : Bool}

/-- The records are in order, and the listed blocks are in slots. -/
def Residing (machine : Machine Page) : Prop :=
  Findable machine ∧ ∃ recent pending written, Marked machine recent pending written

/-- A call that finds what it asks for keeps the listed blocks in slots. -/
theorem Residing.step (residing : Residing machine) {call : PageCall Page}
    (filed : PageReady tags machine call) (run : pageStep tags machine call = some after) :
    Residing after := by
  obtain ⟨findable, recent, pending, written, marked⟩ := residing
  cases call with
  | assign pnum page =>
    obtain rfl := Option.some.inj run
    exact ⟨findable.assign pnum page, recent, pending, written, marked.assign pnum page⟩
  | call made =>
    obtain ⟨recent', pending', marked'⟩ := marked.step (fun inum _ => findable.fsyncReads inum) run
    refine ⟨?_, recent', pending', _, marked'⟩
    cases made with
    | get inum pnum =>
      obtain ⟨⟨result, after'⟩, step, same⟩ := Option.map_eq_some_iff.mp run
      obtain ⟨⟨page, after''⟩, get, same'⟩ := Option.map_eq_some_iff.mp step
      obtain ⟨-, rfl⟩ := Prod.mk.inj same'
      obtain rfl : after'' = after := same
      exact findable.get marked.tidy filed get
    | write buf inum pnum =>
      obtain ⟨⟨result, after'⟩, step, same⟩ := Option.map_eq_some_iff.mp run
      obtain ⟨after'', write, same'⟩ := Option.map_eq_some_iff.mp step
      obtain ⟨-, rfl⟩ := Prod.mk.inj same'
      obtain rfl : after'' = after := same
      obtain ⟨⟨slot, ready⟩, resident, write⟩ := Option.bind_eq_some_iff.mp write
      obtain ⟨cache, copied, write⟩ := Option.bind_eq_some_iff.mp write
      obtain rfl := Option.some.inj write
      obtain ⟨recent'', pending'', marked'', present⟩ := marked.resident resident
      obtain ⟨mark, listed, gdl, -, -, -, -, rfl⟩ := writeSlot_some marked''.tidy.gdl copied
      exact (findable.resident marked.tidy filed resident).write present buf inum gdl mark
    | sync =>
      obtain ⟨⟨result, after'⟩, step, same⟩ := Option.map_eq_some_iff.mp run
      obtain ⟨after'', sync, same'⟩ := Option.map_eq_some_iff.mp step
      obtain ⟨-, rfl⟩ := Prod.mk.inj same'
      obtain rfl : after'' = after := same
      exact findable.syncLoop marked.tidy sync
    | fsync inum => exact findable.fsync run

/-- If every lookup finds its block after a call, the call found what it asks for. -/
theorem Residing.ready (residing : Residing machine) {call : PageCall Page}
    (run : pageStep tags machine call = some after) (finds : ∀ inum, FsyncFinds after inum) :
    PageReady tags machine call := by
  obtain ⟨findable, recent, pending, written, marked⟩ := residing
  cases call with
  | assign pnum page => exact True.intro
  | call made =>
    cases made with
    | get inum pnum =>
      obtain ⟨⟨result, after'⟩, step, same⟩ := Option.map_eq_some_iff.mp run
      obtain ⟨⟨page, after''⟩, get, same'⟩ := Option.map_eq_some_iff.mp step
      obtain ⟨-, rfl⟩ := Prod.mk.inj same'
      obtain rfl : after'' = after := same
      have lists := getBlock_lists marked.tidy findable.lists get
      exact findable.get_filed marked.tidy get fun owner => (finds owner).present lists
    | write buf inum pnum =>
      obtain ⟨⟨result, after'⟩, step, same⟩ := Option.map_eq_some_iff.mp run
      obtain ⟨after'', write, same'⟩ := Option.map_eq_some_iff.mp step
      obtain ⟨-, rfl⟩ := Prod.mk.inj same'
      obtain rfl : after'' = after := same
      obtain ⟨⟨slot, ready⟩, resident, write⟩ := Option.bind_eq_some_iff.mp write
      obtain ⟨cache, copied, write⟩ := Option.bind_eq_some_iff.mp write
      obtain rfl := Option.some.inj write
      intro missing
      obtain ⟨loaded, get⟩ : ∃ page, getBlock tags machine inum pnum = some (page, ready) := by
        rw [residentSlot, missing] at resident
        obtain ⟨⟨page, loaded⟩, get, resident⟩ := Option.bind_eq_some_iff.mp resident
        obtain ⟨index, -, resident⟩ := Option.bind_eq_some_iff.mp resident
        obtain ⟨-, rfl⟩ := Prod.mk.inj (Option.some.inj resident)
        exact ⟨page, get⟩
      obtain ⟨recent'', pending'', marked'', present⟩ := marked.resident resident
      obtain ⟨mark, listed, gdl, -, -, -, -, rfl⟩ := writeSlot_some marked''.tidy.gdl copied
      have lists := getBlock_lists marked.tidy findable.lists get
      obtain ⟨filed, more, -⟩ := @mem_filedUnder _ tags _ lists buf inum pnum
      apply findable.get_filed marked.tidy get _ missing
      intro owner block inside
      exact (finds owner).present filed block (more owner block inside)
    | sync => exact True.intro
    | fsync inum => exact True.intro

/-- Along every prefix of the calls that has a result, every lookup of `cache_fsync` of any inode
finds its block. -/
def AlwaysFinds (tags : PageTags Page) (machine : Machine Page) (calls : List (PageCall Page)) :
    Prop :=
  ∀ count after, pageRun tags machine (calls.take count) = some after →
    ∀ inum, FsyncFinds after inum

/-- A run with a first call. -/
theorem alwaysFinds_cons {call : PageCall Page} {calls : List (PageCall Page)} :
    AlwaysFinds tags machine (call :: calls) ↔ (∀ inum, FsyncFinds machine inum) ∧
      ∀ after, pageStep tags machine call = some after → AlwaysFinds tags after calls := by
  constructor
  · intro finds
    refine ⟨finds 0 machine rfl, fun after step count last run => ?_⟩
    apply finds (count + 1) last
    simpa [pageRun, step] using run
  · rintro ⟨now, later⟩ count last run
    cases count with
    | zero =>
      obtain rfl := Option.some.inj run
      exact now
    | succ count =>
      rw [List.take_succ_cons, pageRun, List.foldlM_cons] at run
      obtain ⟨after, step, run⟩ := Option.bind_eq_some_iff.mp run
      exact later after step count last run

/-- From records in order, every lookup of a run finds its block if and only if every call finds
what it asks for. -/
theorem Residing.finds_iff (residing : Residing machine) (calls : List (PageCall Page)) :
    AlwaysFinds tags machine calls ↔ PageRunReady tags machine calls := by
  induction calls generalizing machine with
  | nil =>
    constructor
    · intro _
      exact True.intro
    · intro _ count after run
      rw [List.take_nil] at run
      obtain rfl := Option.some.inj run
      exact residing.1.finds
  | cons call calls ih =>
    rw [alwaysFinds_cons]
    constructor
    · rintro ⟨-, later⟩ after step
      have filed := residing.ready step (later after step 0 after rfl)
      exact ⟨filed, (ih (residing.step filed step)).mp (later after step)⟩
    · intro ready
      refine ⟨residing.1.finds, fun after step => ?_⟩
      obtain ⟨filed, rest⟩ := ready after step
      exact (ih (residing.step filed step)).mpr rest

/-- A new cache has nothing on its lists. -/
theorem allocCache_residing (image : Image Page) (cacheSize : Nat)
    (uninitialised : Nat → CacheEntry Page) :
    Residing ⟨allocCache cacheSize uninitialised, image⟩ :=
  ⟨⟨DlTidy.empty, nofun⟩, [], [], false, allocCache_marked image cacheSize uninitialised⟩

end Run

/-- In every run from a new cache, with any inode numbers and any changes of the pages, every lookup
of `cache_fsync` finds its block at every point of the run if and only if every evicted block was
on no dirty list but its slot's own, and was taken off that one. -/
theorem pageRun_finds_iff (tags : PageTags Page) (image : Image Page) (cacheSize : Nat)
    (uninitialised : Nat → CacheEntry Page) (calls : List (PageCall Page)) :
    AlwaysFinds tags ⟨allocCache cacheSize uninitialised, image⟩ calls ↔
      PageRunReady tags ⟨allocCache cacheSize uninitialised, image⟩ calls :=
  (allocCache_residing image cacheSize uninitialised).finds_iff calls

/-- A block that is read under inode 7 and written under inode 0 is on the list of inode 0 after its
eviction. -/
theorem pageRun_finds_false :
    ¬ ∀ (tags : PageTags Nat) (image : Image Nat) (cacheSize : Nat)
      (uninitialised : Nat → CacheEntry Nat) (calls : List (PageCall Nat)), 1 ≤ cacheSize →
        AlwaysFinds tags ⟨allocCache cacheSize uninitialised, image⟩ calls := by
  intro all
  have finds := all ⟨fun _ => true, fun _ => true⟩ ⟨4, fun pnum => pnum⟩ 1 (fun _ => wildEntry)
    [.call (.get 7 1), .call (.write 9 0 1), .call (.get 7 2)] (by decide) 3
  have lost : ((pageRun ⟨fun _ => true, fun _ => true⟩
      ⟨allocCache 1 fun _ => wildEntry, ⟨4, fun pnum => pnum⟩⟩
      [.call (.get 7 1), .call (.write 9 0 1), .call (.get 7 2)]).any
        fun (after : Machine Nat) => decide (dlLookup after.cache.dirtyList 0 = some [(1, 1)] ∧
          pciLookup after.cache.pci 1 = none)) = true := by
    decide +kernel
  obtain ⟨after, run, both⟩ := (Option.any_eq_true _ _).mp lost
  obtain ⟨listed, missing⟩ := of_decide_eq_true both
  exact finds after run 0 [(1, 1)] listed 1 (by simp [fsyncBlocks]) missing

end Nbtrfs
