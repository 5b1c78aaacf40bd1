import Nbtrfs.Cache.Lists
import Nbtrfs.Disk.Address

/-!
# The write-back block cache

`cache.c` with its slot array, and the mapped image under it. Content is a value of any page
type. The image is reached through the offset that `disk_get_block` computes: an access
outside the mapped bytes has no result. Every operation is a function on the machine, with no
result where the C code dereferences NULL, follows a released node or never returns.

When a dirty slot is evicted, its page is released before its tag is read; `freedIsData` is
whatever that read finds, as a function of the released page.
-/

namespace Nbtrfs

/-- The mapped image, block by block. -/
structure Image (Page : Type) where
  /-- Number of blocks in the image file. -/
  totalBlocks : Nat
  /-- Content of each block. -/
  block : Nat → Page

/-- `cache_entry_t`. -/
structure CacheEntry (Page : Type) where
  /-- The slot was modified and needs write-back. -/
  dirtyBit : Bool
  /-- Number of pins. -/
  pinCount : Nat
  /-- The block the slot holds. -/
  blockNumber : Nat
  /-- The inode given when the block was loaded. -/
  inodeNumber : Nat
  /-- The page, `none` for NULL. -/
  pageData : Option Page
  /-- The slot's node in the recency list. -/
  lruPos : Option Nat
  /-- The slot's latest node in the global dirty list. -/
  gdlPos : Option Nat

/-- `cache`. The list heads and sizes are in the lists. -/
structure Cache (Page : Type) where
  /-- Number of slots. -/
  cacheSize : Nat
  /-- The slot array. -/
  entries : Nat → CacheEntry Page
  /-- The primary cache index. -/
  pci : PciHm
  /-- The recency list. -/
  lru : CircularList Nat
  /-- The unused slots. -/
  freeList : List Nat
  /-- The per-inode dirty lists. -/
  dirtyList : DlHm
  /-- The global dirty list. -/
  gdl : CircularList Nat

/-- The cache and the image under it. -/
structure Machine (Page : Type) where
  /-- The block cache. -/
  cache : Cache Page
  /-- The mapped image. -/
  image : Image Page

/-- What the cache reads in a page: whether its tag is `BLOCK_TYPE_DATA`, and whether the
same read finds that tag after the page was released. -/
structure PageTags (Page : Type) where
  /-- The tag of a live page is `BLOCK_TYPE_DATA`. -/
  isData : Page → Bool
  /-- The word read from a released page equals `BLOCK_TYPE_DATA`. -/
  freedIsData : Page → Bool

variable {Page : Type}

/-- Change one slot. -/
def Cache.setEntry (cache : Cache Page) (index : Nat) (entry : CacheEntry Page) : Cache Page :=
  { cache with entries := fun other => if other = index then entry else cache.entries other }

/-- The slot that is set. -/
@[simp] theorem Cache.setEntry_same (cache : Cache Page) (index : Nat) (entry : CacheEntry Page) :
    (cache.setEntry index entry).entries index = entry := by simp [Cache.setEntry]

/-- The other slots are kept. -/
@[simp] theorem Cache.setEntry_other (cache : Cache Page) (index other : Nat)
    (entry : CacheEntry Page) (distinct : other ≠ index) :
    (cache.setEntry index entry).entries other = cache.entries other := by
  simp [Cache.setEntry, distinct]

/-- The last setting of a slot counts. -/
@[simp] theorem Cache.setEntry_setEntry (cache : Cache Page) (index : Nat)
    (entry entry' : CacheEntry Page) :
    (cache.setEntry index entry).setEntry index entry' = cache.setEntry index entry' := by
  unfold Cache.setEntry
  congr 1
  funext other
  by_cases same : other = index
  · rw [if_pos same, if_pos same]
  · rw [if_neg same, if_neg same]
    exact if_neg same

/-- The block at a byte offset of the mapped image. Offsets are multiples of the block size. -/
def Image.locate (image : Image Page) (offset : Int) : Option Nat :=
  if 0 ≤ offset ∧ offset < blockSize * image.totalBlocks then some (offset.toNat / blockSize)
  else none

/-- `disk_read_block`. -/
def diskReadBlock (image : Image Page) (blockNum : Nat) : Option Page :=
  (image.locate (diskGetBlock blockNum)).map image.block

/-- Replace one block. -/
def Image.put (image : Image Page) (pnum : Nat) (page : Page) : Image Page :=
  { image with block := fun other => if other = pnum then page else image.block other }

/-- The block that is put. -/
@[simp] theorem Image.put_same (image : Image Page) (pnum : Nat) (page : Page) :
    (image.put pnum page).block pnum = page := by simp [Image.put]

/-- The other blocks are kept. -/
@[simp] theorem Image.put_other (image : Image Page) (pnum other : Nat) (page : Page)
    (distinct : other ≠ pnum) : (image.put pnum page).block other = image.block other := by
  simp [Image.put, distinct]

/-- `disk_write_block`. -/
def diskWriteBlock (image : Image Page) (blockNum : Nat) (page : Page) : Option (Image Page) :=
  (image.locate (diskGetBlock blockNum)).map fun place => image.put place page

/-- The block numbers that the image holds and `disk_get_block` finds. -/
def Image.Reaches (image : Image Page) (pnum : Nat) : Prop :=
  pnum < image.totalBlocks ∧ pnum < addressable

/-- A reachable block is located at its own place. -/
theorem Image.locate_eq {image : Image Page} {pnum : Nat} (reaches : image.Reaches pnum) :
    image.locate (diskGetBlock pnum) = some pnum := by
  obtain ⟨inside, small⟩ := reaches
  rw [diskGetBlock_exact pnum small]
  unfold Image.locate blockSize
  have upper : (4096 : Nat) * (pnum : Int) < (4096 : Nat) * (image.totalBlocks : Int) := by omega
  rw [if_pos ⟨by omega, upper⟩]
  simp only [Option.some.injEq]
  omega

/-- Reading a reachable block returns its content. -/
theorem diskReadBlock_eq {image : Image Page} {pnum : Nat} (reaches : image.Reaches pnum) :
    diskReadBlock image pnum = some (image.block pnum) := by
  simp [diskReadBlock, Image.locate_eq reaches]

/-- Writing a reachable block replaces its content. -/
theorem diskWriteBlock_eq {image : Image Page} {pnum : Nat} (reaches : image.Reaches pnum)
    (page : Page) : diskWriteBlock image pnum page = some (image.put pnum page) := by
  simp [diskWriteBlock, Image.locate_eq reaches]

/-- A slot whose pins allow its eviction. -/
def Cache.evictable (cache : Cache Page) (index : Nat) : Bool :=
  (cache.entries index).pinCount == 0

section Operations

variable (tags : PageTags Page)

/-- The write-back of a dirty victim in `get_block`: its page goes to disk and its latest node
leaves the global dirty list. A clean victim is left as it is. -/
def writeBackVictim (machine : Machine Page) (index : Nat) : Option (Machine Page) :=
  let cache := machine.cache
  let entry := cache.entries index
  if entry.dirtyBit then do
    let page ← entry.pageData
    let image ← diskWriteBlock machine.image entry.blockNumber page
    let dirtyList :=
      if tags.freedIsData page then
        dlRemoveBlock cache.dirtyList entry.inodeNumber entry.blockNumber
      else cache.dirtyList
    let (_, gdl) ← gdlPop cache.gdl entry.gdlPos
    some { cache := { cache with gdl, dirtyList }.setEntry index { entry with gdlPos := none }
           image }
  else some machine

/-- The eviction branch of `get_block`: the least recently used slot without pins leaves the
recency list, goes back to disk if it is dirty, and becomes the free slot. The scan gives up
after one lap, where the C loop would go round for ever. -/
def evict (machine : Machine Page) : Option (Machine Page) := do
  let cache := machine.cache
  let first ← cache.lru.head
  let tail ← cache.lru.heap first
  let curr ← cache.lru.findBack cache.evictable cache.lru.size tail.prev
  let (index, lru) ← lruPop cache.lru curr
  let written ← writeBackVictim tags { machine with cache := { cache with lru } } index
  let pci ← pciDelete false written.cache.pci (written.cache.entries index).blockNumber
  some { written with
    cache := { written.cache with pci, freeList := flPush written.cache.freeList index } }

/-- The miss branch of `get_block` after a slot is free: load the block into the first free
slot, which becomes the most recently used one. -/
def load (machine : Machine Page) (inum pnum : Nat) : Option (Page × Machine Page) := do
  let cache := machine.cache
  let (index, freeList) ← flPop cache.freeList
  let page ← diskReadBlock machine.image pnum
  let (node, lru) ← lruPush cache.lru index
  let entry := { cache.entries index with
    dirtyBit := false, pinCount := 0, blockNumber := pnum, inodeNumber := inum,
    pageData := some page, lruPos := some node }
  some (page, { machine with
    cache := { cache with freeList, lru, pci := pciInsert cache.pci pnum index }.setEntry index entry })

/-- `get_block`: the page and the machine after the access. -/
def getBlock (machine : Machine Page) (inum pnum : Nat) : Option (Page × Machine Page) :=
  match pciLookup machine.cache.pci pnum with
  | none => do
    let ready ← if machine.cache.freeList = [] then evict tags machine else some machine
    load ready inum pnum
  | some slot => do
    let cache := machine.cache
    let node ← (cache.entries slot).lruPos
    let (index, lru) ← lruPop cache.lru node
    let (node, lru) ← lruPush lru index
    let entry := { cache.entries slot with lruPos := some node }
    let page ← entry.pageData
    some (page, { machine with cache := { cache with lru }.setEntry slot entry })

/-- The slot of a block, loading it on a miss: the first lines of `write_block`,
`increase_pin_count` and `decrease_pin_count`. -/
def residentSlot (machine : Machine Page) (inum pnum : Nat) : Option (Nat × Machine Page) :=
  match pciLookup machine.cache.pci pnum with
  | some index => some (index, machine)
  | none => do
    let (_, machine) ← getBlock tags machine inum pnum
    let index ← pciLookup machine.cache.pci pnum
    some (index, machine)

/-- Put a slot on the global dirty list and point its `gdl_pos` at the new node. -/
def markGlobal (cache : Cache Page) (index : Nat) : Option (Cache Page) := do
  let (node, gdl) ← gdlPush cache.gdl index
  some ({ cache with gdl }.setEntry index { cache.entries index with gdlPos := some node })

/-- File a block under an inode's dirty list if its page is a data page. -/
def markInode (cache : Cache Page) (page : Page) (inum pnum : Nat) : Cache Page :=
  if tags.isData page then { cache with dirtyList := dlInsert cache.dirtyList inum pnum } else cache

/-- The part of `write_block` after the slot is known: copy the page and list the slot. A clean
slot is filed and listed before the unconditional filing and listing that follow, so it gets
two nodes. -/
def writeSlot (cache : Cache Page) (buf : Page) (inum pnum index : Nat) : Option (Cache Page) := do
  let clean := !(cache.entries index).dirtyBit
  let copied := cache.setEntry index
    { cache.entries index with pageData := some buf, dirtyBit := true }
  let listed ←
    if clean then markGlobal (markInode tags copied buf inum pnum) index else some copied
  markGlobal (markInode tags listed buf inum pnum) index

/-- `write_block`. -/
def writeBlock (machine : Machine Page) (buf : Page) (inum pnum : Nat) : Option (Machine Page) := do
  let (index, machine) ← residentSlot tags machine inum pnum
  let cache ← writeSlot tags machine.cache buf inum pnum index
  some { machine with cache }

/-- `increase_pin_count`. The count is an `int`. -/
def increasePinCount (machine : Machine Page) (inum pnum : Nat) : Option (Machine Page) := do
  let (index, machine) ← residentSlot tags machine inum pnum
  let entry := machine.cache.entries index
  if entry.pinCount < intMax then
    some { machine with
      cache := machine.cache.setEntry index { entry with pinCount := entry.pinCount + 1 } }
  else none

/-- `decrease_pin_count`. -/
def decreasePinCount (machine : Machine Page) (inum pnum : Nat) : Option (Machine Page) := do
  let (index, machine) ← residentSlot tags machine inum pnum
  let entry := machine.cache.entries index
  some { machine with
    cache := machine.cache.setEntry index { entry with pinCount := entry.pinCount - 1 } }

/-- The loop of `cache_sync`, which takes one node of the global dirty list off its tail in
each round; the fuel is one more than the number of nodes. -/
def cacheSyncLoop : Nat → Machine Page → Option (Machine Page)
  | 0, _ => none
  | fuel + 1, machine =>
    if 0 < machine.cache.gdl.size ∧ machine.cache.gdl.head ≠ none then do
      let cache := machine.cache
      let first ← cache.gdl.head
      let head ← cache.gdl.heap first
      let (popped, gdl) ← gdlPop cache.gdl (some head.prev)
      let index ← popped
      if cache.cacheSize ≤ index then some { machine with cache := { cache with gdl } }
      else do
        let entry := cache.entries index
        let page ← entry.pageData
        let image ← diskWriteBlock machine.image entry.blockNumber page
        let dirtyList :=
          if tags.isData page then
            dlRemoveBlock cache.dirtyList entry.inodeNumber entry.blockNumber
          else cache.dirtyList
        cacheSyncLoop fuel
          { cache := { cache with gdl, dirtyList }.setEntry index
              { entry with dirtyBit := false, gdlPos := none }
            image }
    else some machine

/-- `cache_sync`. -/
def cacheSync (machine : Machine Page) : Option (Machine Page) :=
  cacheSyncLoop tags (machine.cache.gdl.size + 1) machine

end Operations

/-- `alloc_cache` for a number of slots: empty lists and maps, and every slot on the free
list. It clears `dirty_bit`, `page_data` and `lru_pos`; the other fields of a slot hold
whatever `malloc` returned. -/
def allocCache (cacheSize : Nat) (uninitialised : Nat → CacheEntry Page) : Cache Page where
  cacheSize
  entries index := { uninitialised index with dirtyBit := false, pageData := none, lruPos := none }
  pci _ := []
  lru := .empty
  freeList := (List.range cacheSize).foldl flPush []
  dirtyList _ := []
  gdl := .empty

end Nbtrfs
