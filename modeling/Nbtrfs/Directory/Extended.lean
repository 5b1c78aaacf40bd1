import Nbtrfs.Directory.Readers
import Nbtrfs.Directory.Frames

/-!
# A new block of a directory

`directory_add_entry` maps a new block where the blocks of a directory have no entry to use. It
tags the block and, as the first block of a directory, clears `entry_count`. The entries keep what
the block held, and the readers go by its `active` flags.
-/

namespace Nbtrfs

/-- Some blocks of a file with the bytes that they hold. -/
structure Holding (s : Store) (node : Inode) (blocks : Nat) (bytes : Nat → Nat → UInt8) : Prop where
  /-- The blocks are mapped. -/
  view : ∃ superblock, FileView s superblock node blocks
  /-- They hold the bytes. -/
  data : ∀ i < blocks, s.mem (blockPointer s node i) = .data (bytes i)

/-- A directory without an entry to use: the slots that `directory_add_entry` looks at are active,
and none is at the place of `entry_count`. -/
structure Crowded (blocks : Nat) (bytes : Nat → Nat → UInt8) : Prop where
  /-- The slots are active. -/
  active : ∀ i < blocks, ∀ j < scanSlots, entryActive (bytes i) (entryOffset i j) = true
  /-- `entry_count` is not behind them. -/
  count : 0 < blocks → scanSlots * blocks ≤ entryCount (bytes 0)

section

variable {s s' : Store} {node : Inode} {blocks : Nat} {bytes : Nat → Nat → UInt8} {name : CString}

/-- `directory_add_entry` looks at as many slots as the scans. -/
theorem addSlots_eq (i : Nat) : addSlots i = scanSlots := by
  unfold addSlots
  split
  · decide
  · decide

/-- `entry_count` is a `uint16_t`. -/
theorem entryCount_lt (block : Nat → UInt8) : entryCount block < 2 ^ 16 := by
  have bound := LittleEndian.load_lt block 0 directoryBlockSize
  exact bound

/-- The getter finds nothing at the first index behind the single indirect part. -/
theorem inodeGetBlock_beyond {found : Bool} {mapped : Option Nat}
    (get : inodeGetBlock s node pointersPerPage = some (found, mapped)) : assigned 0 mapped = 0 := by
  have far : ¬ pointersPerPage < directPointers := by decide
  rw [inodeGetBlock, if_neg far, if_neg (lt_irrefl _)] at get
  split at get
  case isTrue =>
    obtain ⟨-, rfl⟩ := Prod.mk.inj (Option.some.inj get)
    rfl
  case isFalse =>
    -- the index is negative and converts to a huge one
    have page : doublePage pointersPerPage = some 268960769 := by decide +kernel
    rw [page, Option.bind_eq_bind, Option.bind_some] at get
    obtain ⟨lower, pointer, get⟩ := Option.bind_eq_some_iff.mp get
    unfold readPointer at pointer
    obtain ⟨content, -, pointer⟩ := Option.bind_eq_some_iff.mp pointer
    have outside : ¬ 268960769 < pointersPerPage := by decide
    rw [if_neg outside] at pointer
    cases pointer

/-- A block of a holding is looked up. -/
theorem Holding.get (holding : Holding s node blocks bytes) {i : Nat} (inside : i < blocks) :
    ∃ mapped, inodeGetBlock s node i = some (true, mapped) ∧ assigned 0 mapped ≠ 0 ∧
      s.get (assigned 0 mapped) = some (.data (bytes i)) := by
  obtain ⟨superblock, view⟩ := holding.view
  obtain ⟨mapped, run, same⟩ := view.get inside
  refine ⟨mapped, run, ?_, ?_⟩
  · rw [same]
    exact view.nonzero i inside
  · rw [same, Store.get_of_lt (view.inside i inside), holding.data i inside]

/-- No block is found behind a holding. -/
theorem Holding.behind (holding : Holding s node blocks bytes) {found : Bool} {mapped : Option Nat}
    (get : inodeGetBlock s node blocks = some (found, mapped)) : assigned 0 mapped = 0 := by
  obtain ⟨superblock, view⟩ := holding.view
  rcases Nat.lt_or_eq_of_le view.bound with small | whole
  · obtain ⟨flag, block, run, same, -⟩ := @inodeGetBlock_pointer s node view.indirect blocks small
    obtain ⟨-, rfl⟩ := Prod.mk.inj (Option.some.inj (run.symm.trans get))
    rw [same]
    exact view.unmapped blocks le_rfl small
  · rw [whole] at get
    exact inodeGetBlock_beyond get

/-- What `directory_exists_entry` looks for in a slot. -/
def slotHas (block : Nat → UInt8) (name : CString) (offset : Nat) : Bool :=
  nameMatches block offset name && entryActive block offset

/-- The scan of a block counts no more than its slots. -/
theorem scanSlot_few (accept : Nat → Bool) (block : Nat → UInt8) (i count : Nat) :
    (scanSlot accept block i scanSlots 0 count).2 ≤ count + scanSlots := by
  have counted := scanSlot_counted accept block i scanSlots 0 count
  have few := List.length_filter_le (fun j => entryActive block (entryOffset i j))
    (List.range' (0 + 1) scanSlots)
  rw [List.length_range'] at few
  omega

/-- The loop of `directory_exists_entry` finds an entry if a slot has the name and `entry_count` is
not reached in front of it. -/
theorem existsEntryFrom_found (holding : Holding s node blocks bytes) {target j : Nat}
    (inside : target < blocks) (slot : j < scanSlots)
    (has : slotHas (bytes target) name (entryOffset target j) = true)
    (more : scanSlots * target < entryCount (bytes 0)) {left i number count : Nat}
    (before : i ≤ target) (enough : target < i + left)
    (total : 0 < i → number = entryCount (bytes 0)) (few : count ≤ scanSlots * i) :
    ∃ entry, existsEntryFrom s node name left i number count = some (some entry) := by
  induction left generalizing i number count with
  | zero => omega
  | succ left ih =>
    obtain ⟨mapped, get, nonzero, held⟩ := holding.get (Nat.lt_of_le_of_lt before inside)
    have counted : (if i = 0 then entryCount (bytes i) else number) = entryCount (bytes 0) := by
      split
      case isTrue first => rw [first]
      case isFalse later => exact total (Nat.pos_of_ne_zero later)
    have below : scanSlots * i ≤ scanSlots * target := Nat.mul_le_mul_left _ before
    have open_count : ¬ countReached (entryCount (bytes 0)) count = true := by
      unfold countReached
      simp only [Bool.and_eq_true, decide_eq_true_eq, not_and]
      omega
    rw [existsEntryFrom, get, Option.bind_eq_bind, Option.bind_some]
    dsimp only
    rw [if_neg nonzero, held, Option.bind_eq_bind, Option.bind_some]
    dsimp only
    rw [counted, if_neg open_count]
    have found := scanSlot_found (slotHas (bytes i) name) (bytes i) i scanSlots 0 count
    have later := scanSlot_few (slotHas (bytes i) name) (bytes i) i count
    unfold slotHas at found later
    rcases scan : scanSlot (fun offset => nameMatches (bytes i) offset name &&
      entryActive (bytes i) offset) (bytes i) i scanSlots 0 count with ⟨hit, count'⟩
    rw [scan] at found later
    cases hit with
    | some hit => exact ⟨_, rfl⟩
    | none =>
      have here : i ≠ target := by
        rintro rfl
        have none_has := List.find?_eq_none.mp found.symm j
          (List.mem_range'_1.mpr ⟨Nat.zero_le _, by omega⟩)
        exact none_has has
      have next : scanSlots * (i + 1) = scanSlots * i + scanSlots := Nat.mul_succ _ _
      exact ih (by omega) (by omega) (fun _ => rfl) (by dsimp only at later; omega)

/-- It finds no entry if no slot has the name. -/
theorem existsEntryFrom_absent (holding : Holding s node blocks bytes)
    (absent : ∀ i < blocks, ∀ j < scanSlots, slotHas (bytes i) name (entryOffset i j) = false)
    {left i number count : Nat} (within : i ≤ blocks) (entry : DirEntry) :
    existsEntryFrom s node name left i number count ≠ some (some entry) := by
  induction left generalizing i number count with
  | zero => exact nofun
  | succ left ih =>
    intro run
    rw [existsEntryFrom] at run
    obtain ⟨⟨found, mapped⟩, get, run⟩ := Option.bind_eq_some_iff.mp run
    dsimp only at run
    rcases Nat.lt_or_eq_of_le within with inside | rfl
    · obtain ⟨mapped', get', nonzero, held⟩ := holding.get inside
      obtain ⟨-, rfl⟩ := Prod.mk.inj (Option.some.inj (get'.symm.trans get))
      rw [if_neg nonzero, held, Option.bind_eq_bind, Option.bind_some] at run
      dsimp only at run
      generalize (if i = 0 then entryCount (bytes i) else number) = total at run
      split at run
      case isTrue => cases run
      case isFalse =>
        have found := scanSlot_found (slotHas (bytes i) name) (bytes i) i scanSlots 0 count
        unfold slotHas at found
        split at run
        case h_1 hit later scan =>
          rw [scan] at found
          have accepted := List.find?_some found.symm
          have place := List.mem_range'_1.mp (List.mem_of_find?_eq_some found.symm)
          have none_has := absent i inside hit (by omega)
          unfold slotHas at none_has
          rw [none_has] at accepted
          cases accepted
        case h_2 => exact ih inside run
    · rw [if_pos (holding.behind get)] at run
      cases run

/-- A change of the image under the cache keeps a holding. -/
theorem Holding.keeps (holding : Holding s node blocks bytes) (same : KeepsPages s s') :
    Holding s' node blocks bytes ∧ ∀ i, blockPointer s' node i = blockPointer s node i := by
  obtain ⟨superblock, view⟩ := holding.view
  have only : JournalOnly superblock s s' := by
    constructor
    · refine ⟨superblock.freeBlocks, superblock.journalHead, superblockRead_of_page ?_⟩
      rw [same.mem]
      exact superblockRead_page view.read
    · intro block _
      rw [same.mem]
      exact Or.inl rfl
    · exact same.totalBlocks
    · exact same.residue
  obtain ⟨⟨freeBlocks, journalHead, view'⟩, pointer, kept⟩ :=
    view.undisturbed (only.undisturbed view.formatted view.read).1 (fun _ _ => id) (fun _ => id) id
  refine ⟨⟨⟨_, view'⟩, fun i inside => ?_⟩, pointer⟩
  rw [pointer i, kept i inside]
  exact holding.data i inside

/-- An insertion keeps a holding. -/
theorem Holding.steps (holding : Holding s node blocks bytes) (steps : NodeSteps s s') :
    Holding s' node blocks bytes ∧ ∀ i, blockPointer s' node i = blockPointer s node i := by
  obtain ⟨superblock, view⟩ := holding.view
  obtain ⟨⟨freeBlocks, journalHead, view'⟩, pointer, kept⟩ := view.steps steps
  refine ⟨⟨⟨_, view'⟩, fun i inside => ?_⟩, pointer⟩
  rw [pointer i, kept i inside]
  exact holding.data i inside

/-- Assigning a data block other than the single indirect one. -/
theorem Holding.put (holding : Holding s node blocks bytes) {page : Nat} {former : Nat → UInt8}
    (tag : s.mem page = .data former)
    (apart : node.indirectBlock ≠ 0 → page ≠ node.indirectBlock) (content : Nat → UInt8) :
    Holding (s.put page (.data content)) node blocks
        (fun i => if blockPointer s node i = page then content else bytes i) ∧
      ∀ i, blockPointer (s.put page (.data content)) node i = blockPointer s node i := by
  obtain ⟨superblock, view⟩ := holding.view
  have isContent : (s.mem page).isContent := by
    rw [tag]
    trivial
  have put : (∃ superblock', FileView (s.put page (.data content)) superblock' node blocks) ∧
      ∀ i, blockPointer (s.put page (.data content)) node i = blockPointer s node i := by
    by_cases own : ∃ i < blocks, blockPointer s node i = page
    · obtain ⟨i, inside, rfl⟩ := own
      obtain ⟨view', pointer, -⟩ := view.put inside content
      exact ⟨⟨_, view'⟩, pointer⟩
    · have change : ∀ table slot, Undisturbed (· = page) table slot s (s.put page (.data content)) :=
        fun table slot => undisturbed_put view.formatted (content_ne_zero view.read isContent)
          (view.formatted.content_not_page isContent) _
      obtain ⟨⟨freeBlocks, journalHead, view'⟩, pointer, -⟩ := view.undisturbed change
        (fun i inside same => own ⟨i, inside, same⟩)
        (fun linked same => apart linked same.symm)
        (fun same => by
          obtain ⟨slots, table, -⟩ := view.slot
          rw [same, tag] at table
          cases table)
      exact ⟨⟨_, view'⟩, pointer⟩
  refine ⟨⟨put.1, fun i inside => ?_⟩, put.2⟩
  rw [put.2 i]
  split
  case isTrue same => rw [same, Store.put_same]
  case isFalse other =>
    rw [Store.put_other _ _ _ _ other]
    exact holding.data i inside

/-- Assigning `entry_count` of a holding and writing it through. -/
theorem Holding.storeEntryCount (holding : Holding s node blocks bytes) (positive : 0 < blocks)
    {former count : Nat} (run : storeEntryCount s node former count true = some s') :
    (∃ bytes', Holding s' node blocks bytes' ∧ entryCount (bytes' 0) = count % 2 ^ 16 ∧
      ∀ i < blocks, ∀ position, entryOffset i 0 ≤ position → bytes' i position = bytes i position) ∧
      ∀ i, blockPointer s' node i = blockPointer s node i := by
  obtain ⟨superblock, view⟩ := holding.view
  unfold Nbtrfs.storeEntryCount firstBlock at run
  obtain ⟨block, first, run⟩ := Option.bind_eq_some_iff.mp run
  obtain ⟨s1, set, run⟩ := Option.bind_eq_some_iff.mp run
  have here : block = blockPointer s node 0 := by
    obtain ⟨mapped, get, same⟩ := view.get positive
    rw [get, Option.bind_eq_bind, Option.bind_some] at first
    rw [← Option.some.inj first, ← same]
    cases mapped with
    | none =>
      have nonzero := view.nonzero 0 positive
      rw [← same] at nonzero
      exact absurd rfl nonzero
    | some mapped => rfl
  obtain ⟨old, tag, rfl⟩ := setEntryCount_cases set
  rw [here] at tag run
  obtain rfl : bytes 0 = old := Block.data.inj ((holding.data 0 positive).symm.trans tag)
  obtain ⟨holding1, pointer1⟩ := holding.put tag (fun _ => view.apart 0 positive)
    (LittleEndian.store (bytes 0) 0 directoryBlockSize count)
  rw [if_pos rfl] at run
  obtain ⟨holding', pointer'⟩ := holding1.keeps (diskWriteBlockAs_keeps run)
  refine ⟨⟨_, holding', ?_, ?_⟩, fun i => (pointer' i).trans (pointer1 i)⟩
  · rw [if_pos rfl, entryCount, LittleEndian.load_digits 0 directoryBlockSize count]
    · rfl
    · intro i small
      rw [LittleEndian.store, if_pos ⟨Nat.zero_le _, by omega⟩, Nat.zero_add, Nat.sub_zero]
  · intro i inside position behind
    split
    case isTrue same =>
      obtain rfl := view.distinct i inside 0 positive same
      have header : directoryBlockSize ≤ position := behind
      rw [LittleEndian.store, if_neg (by omega)]
    case isFalse => rfl

/-- Filling in an entry of a block of a holding, or of another block, changes its 280 bytes and
`entry_count`. -/
theorem Holding.placeEntry (holding : Holding s node blocks bytes) (positive : 0 < blocks)
    {locals : Locals} {pair : InodeBtreePair} {block offset count targetInode type : Nat}
    (apart : node.indirectBlock ≠ 0 → block ≠ node.indirectBlock)
    (run : placeEntry locals s pair node block offset count name targetInode type = some s') :
    ∃ bytes', Holding s' node blocks bytes' ∧ entryCount (bytes' 0) = count % 2 ^ 16 ∧
      ∀ i < blocks, ∀ position, entryOffset i 0 ≤ position →
        (blockPointer s node i = block → position < offset ∨ offset + dirEntrySize ≤ position) →
        bytes' i position = bytes i position := by
  unfold Nbtrfs.placeEntry at run
  obtain ⟨⟨btreeBlock, s1⟩, insert, run⟩ := Option.bind_eq_some_iff.mp run
  obtain ⟨s2, write, run⟩ := Option.bind_eq_some_iff.mp run
  obtain ⟨s3, through, run⟩ := Option.bind_eq_some_iff.mp run
  obtain ⟨s4, store, written⟩ := Option.bind_eq_some_iff.mp run
  obtain ⟨holding1, pointer1⟩ := holding.steps (insertName_steps insert)
  obtain ⟨former, tag, rfl⟩ := writeBytes_cases write
  obtain ⟨holding2, pointer2⟩ := holding1.put tag apart _
  obtain ⟨holding3, pointer3⟩ := holding2.keeps (diskWriteBlockAs_keeps through)
  obtain ⟨⟨bytes', holding4, counted, kept⟩, pointer4⟩ := holding3.storeEntryCount positive store
  obtain ⟨holding', -⟩ := holding4.keeps (btreeWrite_keeps written)
  refine ⟨bytes', holding', counted, ?_⟩
  intro i inside position behind outside
  rw [kept i inside position behind]
  split
  case isTrue same =>
    have old : former = bytes i := by
      have data := holding1.data i inside
      rw [same, tag] at data
      exact Block.data.inj data
    rw [overlay_outside, old]
    rw [segment_length]
    rw [pointer1 i] at same
    exact outside same
  case isFalse => rfl

/-- Assigning a page what it holds changes nothing. -/
theorem Store.put_self {page : Nat} {content : Block} (tag : s.mem page = content) :
    s.put page content = s := by
  unfold Store.put
  congr 1
  funext other
  split
  case isTrue same => rw [same, tag]
  case isFalse => rfl

variable {superblock : Superblock} {locals : Locals} {node' : Inode} {i m block : Nat}
  {content : Nat → UInt8} {writeThrough : Bool} {s1 : Store}

/-- A data block is recorded by storing the inode and an append, which leaves the files alone. -/
theorem recordBlock_cases (formatted : s.Formatted) (read : superblockRead s = some superblock)
    (table : inodePage superblock node.inodeNumber < s.totalBlocks)
    (tag : s.mem block = .data content)
    (run : recordBlock quietAppend locals s node i block writeThrough = some s') :
    ∃ s4 s5, inodeStore s node writeThrough = some s4 ∧
      SlotWritten s (inodePage superblock node.inodeNumber) node s4 ∧
      (∀ page slot, Undisturbed (fun _ => False) page slot s4 s5) ∧ SamePages s4 s5 ∧
      (if i = 0 then setEntryCount s5 block 0 else some s5) = some s' := by
  unfold recordBlock at run
  obtain ⟨s3, tagged, run⟩ := Option.bind_eq_some_iff.mp run
  obtain ⟨s4, stored, run⟩ := Option.bind_eq_some_iff.mp run
  obtain ⟨s5, logged, count⟩ := Option.bind_eq_some_iff.mp run
  obtain rfl : s3 = s := by
    unfold tagData at tagged
    obtain ⟨page, get, tagged⟩ := Option.bind_eq_some_iff.mp tagged
    obtain ⟨-, held⟩ := Store.get_eq_some get
    rw [← held, tag] at tagged
    rw [← Option.some.inj tagged]
    exact Store.put_self tag
  obtain ⟨after, stored', written⟩ := inodeStore_spec read node table writeThrough
  obtain rfl : after = s4 := Option.some.inj (stored'.symm.trans stored)
  have read4 := written.superblockRead read
  have formatted4 := (written.samePages formatted.bitmapped).formatted formatted
  obtain ⟨logging, samePages⟩ :=
    (quietAppend_only read4 rfl logged).undisturbed formatted4 read4
  exact ⟨after, s5, stored, written, logging, samePages, count⟩

/-- A directory with a new block. -/
structure Extended (s : Store) (node : Inode) (m : Nat) (bytes : Nat → Nat → UInt8) (block : Nat)
    (content : Nat → UInt8) (node' : Inode) (s' : Store) : Prop where
  /-- The blocks that the getter sees hold bytes, those before as before. -/
  holding : ∃ bytes', Holding s' node' (min (m + 1) pointersPerPage) bytes' ∧
    ∀ i < m, bytes' i = bytes i
  /-- The new block is at the next index. -/
  pointer : m < pointersPerPage → blockPointer s' node' m = block
  /-- The blocks before are other ones. -/
  distinct : ∀ i < m, blockPointer s' node' i ≠ block
  /-- The block is not the single indirect one. -/
  apart : node'.indirectBlock ≠ 0 → block ≠ node'.indirectBlock
  /-- Its entries keep what it held. -/
  filled : ∃ filled, s'.mem block = .data filled ∧ (m = 0 → entryCount filled = 0) ∧
    ∀ position, entryOffset m 0 ≤ position → filled position = content position
  /-- The inode keeps its number. -/
  number : node'.inodeNumber = node.inodeNumber

/-- With room for a pointer block a new block is mapped. -/
theorem Holding.extended (holding : Holding s node m bytes)
    (alloc : allocPage s = some (block, s1)) (nonzero : block ≠ 0)
    (held : s.mem block = .data content) (room : pointerBlocks node m ≤ s1.freeCount)
    {set : Bool} {s2 : Store} (link : inodeSetBlock s1 node m block = some (set, node', s2))
    (tail : recordBlock quietAppend locals s2 node' m block writeThrough = some s') :
    Extended s node m bytes block content node' s' := by
  obtain ⟨superblock, view⟩ := holding.view
  rcases allocPage_cases view.formatted alloc with ⟨zero, -, -⟩ | allocated
  · exact absurd zero nonzero
  have held1 : s1.mem block = .data content := by
    have noPage := view.formatted.not_page allocated.free block allocated.inside
    rw [allocated.change.mem block nonzero (Ne.symm noPage), held]
  have same1 : s1.put block (.data content) = s1 := Store.put_self held1
  have ready := view.mapReady allocated content
  obtain ⟨inode', after, mapRun, mapped⟩ := inodeSetBlock_mapped ready view.bound
    (by rw [same1]; exact room)
  rw [same1] at mapRun
  obtain ⟨-, same⟩ := Prod.mk.inj (Option.some.inj (mapRun.symm.trans link))
  obtain ⟨rfl, rfl⟩ := Prod.mk.inj same
  have entering := mapped.frame
  obtain ⟨freeBlocks, journalHead, read2⟩ := entering.superblock _ ready.read
  have number : inode'.inodeNumber = node.inodeNumber := by
    obtain ⟨_, _, same⟩ := mapped.fields
    rw [same]
  have table2 : inodePage (superblock.decrementFree.withCounters freeBlocks journalHead)
      inode'.inodeNumber < after.totalBlocks := by
    rw [inodePage_withCounters, number, entering.totalBlocks]
    exact ready.table
  have held2 : after.mem block = .data content := mapped.page.trans (Store.put_same _ _ _)
  obtain ⟨s4, s5, stored, -, logging, samePages, count⟩ :=
    recordBlock_cases entering.formatted read2 table2 held2 tail
  have entered := view.entered allocated mapped stored logging samePages
  obtain ⟨freeBlocks', journalHead', view5⟩ := entered.view
  have apart : inode'.indirectBlock ≠ 0 → block ≠ inode'.indirectBlock := by
    intro linked same
    rcases mapped.indirect with former | ⟨-, free⟩
    · exact ready.apart (same.trans former)
    · rw [← same] at free
      have taken := ready.set
      rw [free] at taken
      cases taken
  have distinct : ∀ i < m, blockPointer s5 inode' i ≠ block := by
    intro i inside same
    rw [entered.pointer i (by have bound := view.bound; omega), if_neg (by omega)] at same
    exact allocated.notTaken (view.set i inside) same
  have pointer : m < pointersPerPage → blockPointer s5 inode' m = block := by
    intro small
    rw [entered.pointer m small, if_pos rfl]
  let bytes5 := fun i => if i = m then content else bytes i
  have holding5 : Holding s5 inode' (min (m + 1) pointersPerPage) bytes5 := by
    refine ⟨⟨_, view5⟩, fun i inside => ?_⟩
    dsimp only [bytes5]
    split
    case isTrue here =>
      rw [here, pointer (by omega), entered.filled]
    case isFalse other =>
      rw [entered.pointer i (by omega), if_neg other, entered.kept i (by omega),
        holding.data i (by omega)]
  split at count
  case isTrue zero =>
    obtain ⟨former, tag, rfl⟩ := setEntryCount_cases count
    obtain rfl : content = former := Block.data.inj (entered.filled.symm.trans tag)
    obtain ⟨holding', pointer'⟩ := holding5.put tag apart
      (LittleEndian.store content 0 directoryBlockSize 0)
    constructor
    · exact ⟨_, holding', fun i inside => absurd inside (by omega)⟩
    · intro small
      rw [pointer' m, pointer small]
    · exact fun i inside => absurd inside (by omega)
    · exact apart
    · refine ⟨_, Store.put_same _ _ _, fun _ => ?_, ?_⟩
      · rw [entryCount, LittleEndian.load_digits 0 directoryBlockSize 0]
        · rfl
        · intro i small
          rw [LittleEndian.store, if_pos ⟨Nat.zero_le _, by omega⟩, Nat.zero_add, Nat.sub_zero]
      · intro position behind
        have header : directoryBlockSize ≤ position := by
          rw [zero] at behind
          exact behind
        rw [LittleEndian.store, if_neg (by omega)]
    · exact number
  case isFalse later =>
    obtain rfl := Option.some.inj count
    constructor
    · exact ⟨bytes5, holding5, fun i inside => if_neg (by omega)⟩
    · exact pointer
    · exact distinct
    · exact apart
    · exact ⟨content, entered.filled, fun zero => absurd zero later, fun _ _ => rfl⟩
    · exact number

/-- Without it the image is full behind the recording. -/
theorem Holding.exhausted (holding : Holding s node m bytes)
    (alloc : allocPage s = some (block, s1)) (nonzero : block ≠ 0)
    (held : s.mem block = .data content) (roomless : ¬ pointerBlocks node m ≤ s1.freeCount)
    {set : Bool} {s2 : Store} (link : inodeSetBlock s1 node m block = some (set, node', s2))
    (tail : recordBlock quietAppend locals s2 node' m block writeThrough = some s') :
    s'.Formatted ∧ s'.freeCount = 0 ∧ s'.mem block = .data content := by
  obtain ⟨superblock, view⟩ := holding.view
  rcases allocPage_cases view.formatted alloc with ⟨zero, -, -⟩ | allocated
  · exact absurd zero nonzero
  have held1 : s1.mem block = .data content := by
    have noPage := view.formatted.not_page allocated.free block allocated.inside
    rw [allocated.change.mem block nonzero (Ne.symm noPage), held]
  have same1 : s1.put block (.data content) = s1 := Store.put_self held1
  have ready := view.mapReady allocated content
  rw [same1] at ready
  have missing : directPointers ≤ m ∧ node.indirectBlock = 0 ∧ s1.freeCount = 0 := by
    unfold pointerBlocks at roomless
    split at roomless
    case isTrue behind => exact ⟨behind.1, behind.2, by omega⟩
    case isFalse => omega
  obtain ⟨behind, unlinked, full⟩ := missing
  rw [inodeSetBlock_full allocated.formatted full unlinked behind view.bound nonzero] at link
  obtain ⟨-, same⟩ := Prod.mk.inj (Option.some.inj link)
  obtain ⟨rfl, rfl⟩ := Prod.mk.inj same
  obtain ⟨s4, s5, stored, written, logging, samePages, count⟩ :=
    recordBlock_cases allocated.formatted ready.read ready.table held1 tail
  have later : m ≠ 0 := by
    rintro rfl
    exact absurd behind (by decide)
  rw [if_neg later] at count
  obtain rfl := Option.some.inj count
  have storing := written.undisturbed allocated.formatted
  have whole := storing.trans (logging _ _) (fun _ _ _ absurd => absurd)
  refine ⟨whole.formatted, ?_, ?_⟩
  · rw [samePages.freeCount, (written.samePages allocated.formatted.bitmapped).freeCount, full]
  · rw [whole.mem block ready.inside ready.set id (by rw [held1]; trivial), held1]

/-- Active slots that are not at the place of `entry_count` are passed over. -/
theorem addSlot_crowded {former : Nat → UInt8} {number left j count : Nat}
    (active : ∀ slot, j ≤ slot → slot < j + left →
      entryActive former (entryOffset i slot) = true)
    (few : count + left ≤ number) (width : number < 2 ^ 16) :
    addSlot former i number left j count = (none, count + left) := by
  induction left generalizing j count with
  | zero => rfl
  | succ left ih =>
    have open_slot : ¬ (!entryActive former (entryOffset i j) || decide (count = number)) = true := by
      rw [active j le_rfl (by omega)]
      simp
      omega
    rw [addSlot, if_neg open_slot, Nat.mod_eq_of_lt (by omega),
      ih (fun slot after before => active slot (by omega) (by omega)) (by omega)]
    congr 1
    omega

/-- A first slot that is not active is used. -/
theorem addSlot_first {former : Nat → UInt8} {number count : Nat}
    (free : entryActive former (entryOffset i 0) = false) :
    addSlot former i number scanSlots 0 count = (some 0, count) := by
  rw [show scanSlots = 12 + 1 from rfl, addSlot, free]
  rfl

/-- A mapped block of a directory is taken as it is. -/
theorem directoryBlockAt_mapped {append : Append} (holding : Holding s node m bytes) (inside : i < m) :
    ∃ page, directoryBlockAt append locals s node i writeThrough = some (page, node, s) ∧
      page ≠ 0 ∧ s.get page = some (.data (bytes i)) := by
  obtain ⟨mapped, get, nonzero, held⟩ := holding.get inside
  refine ⟨_, ?_, nonzero, held⟩
  rw [directoryBlockAt, get, Option.bind_eq_bind, Option.bind_some]
  dsimp only
  rw [if_pos nonzero]

/-- The loop of `directory_add_entry` over the blocks of a crowded directory goes on behind them. -/
theorem addEntryFrom_crowded {append : Append} (holding : Holding s node m bytes)
    (crowded : Crowded m bytes) {pair : InodeBtreePair} {targetInode type : Nat}
    {behind left number : Nat} (last : i + behind = m)
    (total : 0 < i → number = entryCount (bytes 0)) :
    addEntryFrom append locals pair name targetInode type writeThrough (left + behind) i node number
        (scanSlots * i) s =
      addEntryFrom append locals pair name targetInode type writeThrough left m node
        (if m = 0 then number else entryCount (bytes 0)) (scanSlots * m) s := by
  induction behind generalizing i number with
  | zero =>
    obtain rfl : i = m := last
    split
    case isTrue => rfl
    case isFalse later => rw [total (Nat.pos_of_ne_zero later), Nat.add_zero]
  | succ behind ih =>
    obtain ⟨page, enter, nonzero, held⟩ :=
      @directoryBlockAt_mapped s node bytes locals i m writeThrough append holding (by omega)
    have counted : (if i = 0 then entryCount (bytes i) else number) = entryCount (bytes 0) := by
      split
      case isTrue first => rw [first]
      case isFalse later => exact total (Nat.pos_of_ne_zero later)
    have most := crowded.count (by omega)
    have below : scanSlots * (i + 1) ≤ scanSlots * m := Nat.mul_le_mul_left _ (by omega)
    have next : scanSlots * (i + 1) = scanSlots * i + scanSlots := Nat.mul_succ _ _
    rw [← Nat.add_assoc, addEntryFrom, enter, Option.bind_eq_bind, Option.bind_some]
    dsimp only
    rw [if_neg nonzero, held, Option.bind_eq_bind, Option.bind_some]
    dsimp only
    rw [counted, addSlots_eq, addSlot_crowded (fun slot _ small => crowded.active i (by omega) slot
      (by omega)) (by omega) (entryCount_lt _)]
    dsimp only
    rw [← next, ih (by omega) (fun _ => rfl)]
    have later : m ≠ 0 := by omega
    rw [if_neg later, if_neg later]

/-- On a full image no node is created. -/
theorem btreeNodeNew_full (formatted : s.Formatted) (full : s.freeCount = 0) (isLeaf : Bool) :
    btreeNodeNew s isLeaf = none := by
  rw [btreeNodeNew, btreeNodeCreate, allocPage_full formatted full]
  rfl

/-- And no name is entered. -/
theorem insertName_full (formatted : s.Formatted) (full : s.freeCount = 0)
    (btreeBlock targetInode type : Nat) : insertName s btreeBlock name targetInode type = none := by
  unfold insertName
  split
  · rw [btreeNodeNew_full formatted full]
    rfl
  · rw [btreeInsert, btreeNodeNew_full formatted full]
    rfl

/-- Adding a name to a crowded directory fills in the first slot of the new block if it is free.
The other slots of the block keep what it held. -/
theorem directoryAddEntry_extended {path : CString} {pair : InodeBtreePair} {targetInode type : Nat}
    (search : itemSearch s path = some pair) (isDirectory : pair.isDirectory path = true)
    (read : inodeReload s pair.inodeNumber zeroInode = some node)
    (holding : Holding s node m bytes) (crowded : Crowded m bytes)
    (alloc : allocPage s = some (block, s1)) (nonzero : block ≠ 0)
    (held : s.mem block = .data content) (free : entryActive content (entryOffset m 0) = false)
    (run : directoryAddEntry quietAppend locals s path name targetInode type writeThrough =
      some (true, s')) :
    ∃ node' bytes', node'.inodeNumber = node.inodeNumber ∧
      Holding s' node' (min (m + 1) pointersPerPage) bytes' ∧
      entryCount (bytes' 0) = ((if m = 0 then 0 else entryCount (bytes 0)) + 1) % 2 ^ 16 ∧
      (∀ i < m, ∀ position, entryOffset i 0 ≤ position → bytes' i position = bytes i position) ∧
      (m < pointersPerPage → ∀ position, entryOffset m 1 ≤ position →
        bytes' m position = content position) := by
  have few : m ≤ pointersPerPage := by
    obtain ⟨_, view⟩ := holding.view
    exact view.bound
  have bound : pointersPerPage + 1 < scanBlocks := by decide
  obtain ⟨left, rounds⟩ : ∃ left, scanBlocks = left + 1 + m := ⟨scanBlocks - (m + 1), by omega⟩
  unfold directoryAddEntry at run
  have short : ¬ nameMax ≤ name.length := by
    intro long
    rw [search, Option.bind_eq_bind, Option.bind_some, if_pos long] at run
    cases run
  rw [search, Option.bind_eq_bind, Option.bind_some, if_neg short, if_pos isDirectory, read, Option.bind_eq_bind, Option.bind_some, rounds] at run
  have walked : addEntryFrom quietAppend locals pair name targetInode type writeThrough
      (left + 1 + m) 0 node 0 (scanSlots * 0) s = some (true, s') := run
  rw [addEntryFrom_crowded holding crowded (Nat.zero_add m)
    (fun wrong => absurd wrong (lt_irrefl 0)), addEntryFrom] at walked
  obtain ⟨⟨page, node', s5⟩, enter, walked⟩ := Option.bind_eq_some_iff.mp walked
  dsimp only at walked
  rcases directoryBlockAt_cases enter with ⟨found, mapped, get, wrong, -⟩ | ⟨-, -, failed⟩ |
    ⟨taken, set, s2, alloc', nonzero', link, tail⟩
  · exact absurd (holding.behind get) wrong
  · rw [alloc] at failed
    exact absurd (Prod.mk.inj (Option.some.inj failed)).1 nonzero
  obtain ⟨rfl, rfl⟩ := Prod.mk.inj (Option.some.inj (alloc.symm.trans alloc'))
  have reached : ∀ filled, s5.mem block = .data filled →
      (∀ position, entryOffset m 0 ≤ position → filled position = content position) →
      ∃ s6, placeEntry locals s5 pair node' block (entryOffset m 0)
        (((if m = 0 then entryCount filled
          else if m = 0 then 0 else entryCount (bytes 0)) + 1) % 2 ^ 16) name targetInode type =
            some s6 ∧ s6 = s' := by
    intro filled tag same
    rw [if_neg nonzero] at walked
    obtain ⟨inside, get, walked⟩ := Option.bind_eq_some_iff.mp walked
    obtain ⟨-, got⟩ := Store.get_eq_some get
    rw [← got, tag] at walked
    dsimp only at walked
    have unused : entryActive filled (entryOffset m 0) = false := by
      have flag : filled (entryOffset m 0 + activeOffset) = content (entryOffset m 0 + activeOffset) :=
        same _ (Nat.le_add_right _ _)
      rw [← free, entryActive, entryActive, flag]
    rw [addSlots_eq, addSlot_first unused] at walked
    dsimp only at walked
    obtain ⟨s6, place, ended⟩ := Option.bind_eq_some_iff.mp walked
    exact ⟨s6, place, (Prod.mk.inj (Option.some.inj ended)).2⟩
  by_cases room : pointerBlocks node m ≤ s1.freeCount
  · have extended := holding.extended alloc nonzero held room link tail
    obtain ⟨bytes5, holding5, former⟩ := extended.holding
    obtain ⟨filled, tag, cleared, same⟩ := extended.filled
    obtain ⟨s6, place, rfl⟩ := reached filled tag same
    obtain ⟨bytes', holding', counted, kept⟩ := holding5.placeEntry
      (by have positive : 0 < pointersPerPage := by decide
          omega) extended.apart place
    refine ⟨node', bytes', extended.number, holding', ?_, ?_, ?_⟩
    · rw [counted, Nat.mod_mod]
      split
      case isTrue zero => rw [cleared zero]
      case isFalse => rfl
    · intro i inside position behind
      rw [kept i (by omega) position behind (fun same => absurd same (extended.distinct i inside)),
        former i inside]
    · intro small position behind
      have first : entryOffset m 0 + dirEntrySize = entryOffset m 1 := rfl
      rw [kept m (by omega) position (by omega) (fun _ => Or.inr (by omega))]
      have data := holding5.data m (by omega)
      rw [extended.pointer small, tag] at data
      rw [← Block.data.inj data, same position (by omega)]
  · obtain ⟨formatted, full, tag⟩ := holding.exhausted alloc nonzero held room link tail
    obtain ⟨s6, place, -⟩ := reached content tag (fun _ _ => rfl)
    unfold placeEntry at place
    rw [insertName_full formatted full] at place
    cases place

end

end Nbtrfs
