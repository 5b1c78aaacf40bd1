import Nbtrfs.Journal.Quiet
import Nbtrfs.Journal.Absorb
import Nbtrfs.Store.AllocatorRun

/-!
# Directories under a guard

`directory_add_entry` maps blocks, looks for an entry in them and fills it in. Up to the insertion
into the B-tree it keeps every guard, and so does what follows the insertion. A directory may run
through its single indirect part into the double one; by then its single indirect block is in place,
or no block is free and the loop ends.
-/

namespace Nbtrfs

/-- The guard that also keeps every block allocated. -/
def Guard.full (guard : Guard) : Guard :=
  { guard with bits := fun block => if block < guard.layout.totalBlocks then some true else none }

/-- What `directory_add_entry` does with a new block that it has mapped. -/
def recordBlock (append : Append) (locals : Locals) (s : Store) (node : Inode) (i block : Nat)
    (writeThrough : Bool) : Option Store := do
  let s ← tagData s block
  let s ← inodeStore s node writeThrough
  let s ← append
    { blockNumber := 0
      synced := locals.synced s
      transaction := .write node.inodeNumber i block (locals.size s) } s
  if i = 0 then setEntryCount s block 0 else some s

section

variable {guard : Guard} {s s' : Store} {node node' : Inode} {locals : Locals}

/-- A full guard has no free block. -/
theorem Guard.full_allocates (guard : Guard) : guard.full.Allocates := by
  intro block wrong
  unfold Guard.full at wrong
  dsimp only at wrong
  split at wrong
  · cases wrong
  · cases wrong

/-- What is spare stays spare. -/
theorem Guard.Spare.full {block : Nat} (spare : guard.Spare block) : guard.full.Spare block :=
  ⟨spare.nonzero, spare.noPage, spare.free⟩

/-- Where `alloc_page` fails every block is allocated. -/
theorem Guard.Holds.full (holds : guard.Holds s) (failed : Nbtrfs.allocPage s = some (0, s')) :
    guard.full.Holds s := by
  have set : ∀ pnum < s.totalBlocks, s.bit pnum = some true := by
    rcases allocPage_cases holds.formatted failed with ⟨-, -, full⟩ | allocated
    · exact fun pnum inside => holds.formatted.bit_of_full full inside
    · exact absurd rfl allocated.nonzero
  constructor
  · exact holds.formatted
  · exact holds.superblock
  · exact holds.total
  · exact holds.apart
  · exact holds.node
  · intro block node wanted
    have inside := (holds.bit block true (holds.taken block node wanted)).1
    rw [holds.total] at inside
    exact if_pos inside
  · intro block value wanted
    unfold Guard.full at wanted
    dsimp only at wanted
    split at wanted
    case isTrue inside =>
      obtain rfl := Option.some.inj wanted
      rw [← holds.total] at inside
      exact ⟨inside, set block inside⟩
    case isFalse => cases wanted
  · exact holds.slots

/-- On a full image `alloc_page` fails. -/
theorem Guard.Holds.full_fails (holds : guard.full.Holds s) {page : Nat}
    (run : Nbtrfs.allocPage s = some (page, s')) : page = 0 := by
  rcases allocPage_cases holds.formatted run with ⟨zero, -, -⟩ | allocated
  · exact zero
  · have wanted : guard.full.bits page = some true := by
      have within := allocated.inside
      rw [holds.total] at within
      exact if_pos within
    exact absurd rfl (allocated.notTaken (holds.bit page true wanted).2)

/-- Assigning bytes of a data page. -/
theorem writeBytes_cases {page offset : Nat} {piece : List UInt8}
    (run : writeBytes s page offset piece = some s') :
    ∃ former, s.mem page = .data former ∧
      s' = s.put page (.data (overlay former offset piece)) := by
  unfold writeBytes at run
  obtain ⟨content, get, run⟩ := Option.bind_eq_some_iff.mp run
  obtain ⟨-, tag⟩ := Store.get_eq_some get
  cases content with
  | data former => exact ⟨former, tag, (Option.some.inj run).symm⟩
  | super | bitmap | inode | btreeNode | journal | untagged => cases run

/-- Assigning `entry_count`. -/
theorem setEntryCount_cases {page count : Nat} (run : setEntryCount s page count = some s') :
    ∃ former, s.mem page = .data former ∧
      s' = s.put page (.data (LittleEndian.store former 0 directoryBlockSize count)) := by
  unfold setEntryCount at run
  obtain ⟨content, get, run⟩ := Option.bind_eq_some_iff.mp run
  obtain ⟨-, tag⟩ := Store.get_eq_some get
  cases content with
  | data former => exact ⟨former, tag, (Option.some.inj run).symm⟩
  | super | bitmap | inode | btreeNode | journal | untagged => cases run

/-- Assigning `entry_count`. -/
theorem Guard.Holds.setEntryCount (holds : guard.Holds s) {page count : Nat}
    (run : setEntryCount s page count = some s') : guard.Holds s' := by
  obtain ⟨former, tag, rfl⟩ := setEntryCount_cases run
  exact holds.putPlain (holds.spare (by rw [tag]; rfl)) (noTable_data _)

/-- Assigning bytes of a data block. -/
theorem Guard.Holds.writeBytes (holds : guard.Holds s) {page offset : Nat} {piece : List UInt8}
    (run : writeBytes s page offset piece = some s') : guard.Holds s' := by
  obtain ⟨former, tag, rfl⟩ := writeBytes_cases run
  exact holds.putPlain (holds.spare (by rw [tag]; rfl)) (noTable_data _)

/-- Assigning `entry_count` of a directory. -/
theorem Guard.Holds.storeEntryCount (holds : guard.Holds s) {former count : Nat}
    {writeThrough : Bool} (run : storeEntryCount s node former count writeThrough = some s') :
    guard.Holds s' := by
  unfold Nbtrfs.storeEntryCount at run
  obtain ⟨block, -, run⟩ := Option.bind_eq_some_iff.mp run
  obtain ⟨s1, set, run⟩ := Option.bind_eq_some_iff.mp run
  have holds1 := holds.setEntryCount set
  split at run
  · exact holds1.diskWriteAs run
  · obtain rfl := Option.some.inj run
    exact holds1

/-- `btree_write` writes to the image. -/
theorem Guard.Holds.btreeWrite (holds : guard.Holds s) {block : Nat}
    (run : btreeWrite s block = some s') : guard.Holds s' :=
  holds.same (btreeWrite_keeps run).mem (btreeWrite_keeps run).totalBlocks

/-- Where index 12 is mapped, the single indirect block is a data block. -/
theorem Guard.Holds.indirect_spare (holds : guard.Holds s) {done : Bool} {mapped : Option Nat}
    (get : inodeGetBlock s node directPointers = some (done, mapped))
    (found : assigned 0 mapped ≠ 0) : guard.Spare node.indirectBlock := by
  unfold inodeGetBlock at get
  rw [if_neg (Nat.lt_irrefl _), if_pos (by decide)] at get
  split at get
  case isTrue =>
    obtain ⟨-, rfl⟩ := Prod.mk.inj (Option.some.inj get)
    exact absurd rfl found
  case isFalse =>
    obtain ⟨content, page, get⟩ := Option.bind_eq_some_iff.mp get
    obtain ⟨-, tag⟩ := Store.get_eq_some page
    cases content with
    | data bytes =>
      apply holds.spare
      rw [tag]
      rfl
    | super | bitmap | inode | btreeNode | journal | untagged =>
      obtain ⟨-, rfl⟩ := Prod.mk.inj (Option.some.inj get)
      exact absurd rfl found

/-- What the loop of `directory_add_entry` keeps in front of a block. -/
structure Guard.Walks (guard : Guard) (i : Nat) (node : Inode) (s : Store) : Prop where
  /-- The guard holds. -/
  holds : guard.Holds s
  /-- The inode of the directory may be written. -/
  accepts : guard.Accepts node
  /-- Behind index 12 the single indirect block is in place or no block is free. -/
  single : directPointers < i → guard.Spare node.indirectBlock ∨ guard.full.Holds s

/-- What follows the mapping of a new directory block. -/
theorem Guard.Holds.recorded (holds : guard.Holds s) (accepts : guard.Accepts node)
    {block i : Nat} (spare : guard.Spare block) {writeThrough : Bool}
    (run : recordBlock Nbtrfs.quietAppend locals s node i block writeThrough = some s') :
    guard.Holds s' := by
  unfold recordBlock at run
  obtain ⟨s1, tag, run⟩ := Option.bind_eq_some_iff.mp run
  have holds1 := (holds.tagData spare tag).1
  obtain ⟨s2, store, run⟩ := Option.bind_eq_some_iff.mp run
  have holds2 := holds1.inodeStore (accepts _ (Inode.Repointed.refl node)) store
  obtain ⟨s3, append, run⟩ := Option.bind_eq_some_iff.mp run
  have holds3 := holds2.appendPlain (by rfl) append
  split at run
  · exact holds3.setEntryCount run
  · obtain rfl := Option.some.inj run
    exact holds3

/-- A round of the loop finds the block of an index, fails to allocate one, or makes one. -/
theorem directoryBlockAt_cases {append : Append} {i block : Nat} {writeThrough : Bool}
    (run : directoryBlockAt append locals s node i writeThrough = some (block, node', s')) :
    (∃ done mapped, inodeGetBlock s node i = some (done, mapped) ∧ assigned 0 mapped ≠ 0 ∧
      block = assigned 0 mapped ∧ node' = node ∧ s' = s) ∨
    (block = 0 ∧ node' = node ∧ Nbtrfs.allocPage s = some (0, s')) ∨
    ∃ s1 set s2, Nbtrfs.allocPage s = some (block, s1) ∧ block ≠ 0 ∧
      inodeSetBlock s1 node i block = some (set, node', s2) ∧
      recordBlock append locals s2 node' i block writeThrough = some s' := by
  unfold Nbtrfs.directoryBlockAt at run
  obtain ⟨⟨done, mapped⟩, get, run⟩ := Option.bind_eq_some_iff.mp run
  dsimp only at run
  split at run
  case isTrue found =>
    obtain ⟨rfl, rest⟩ := Prod.mk.inj (Option.some.inj run)
    obtain ⟨rfl, rfl⟩ := Prod.mk.inj rest
    exact Or.inl ⟨done, mapped, get, found, rfl, rfl, rfl⟩
  case isFalse =>
    right
    obtain ⟨⟨page, s1⟩, alloc, run⟩ := Option.bind_eq_some_iff.mp run
    dsimp only at run
    split at run
    case isTrue zero =>
      obtain ⟨rfl, rest⟩ := Prod.mk.inj (Option.some.inj run)
      obtain ⟨rfl, rfl⟩ := Prod.mk.inj rest
      rw [zero] at alloc
      exact Or.inl ⟨rfl, rfl, alloc⟩
    case isFalse nonzero =>
      right
      obtain ⟨⟨set, changed, s2⟩, link, run⟩ := Option.bind_eq_some_iff.mp run
      have tail : ∃ s3, recordBlock append locals s2 changed i page writeThrough = some s3 ∧
          (block, node', s') = (page, changed, s3) := by
        obtain ⟨s3, tag, run⟩ := Option.bind_eq_some_iff.mp run
        obtain ⟨s4, store, run⟩ := Option.bind_eq_some_iff.mp run
        obtain ⟨s5, append, run⟩ := Option.bind_eq_some_iff.mp run
        simp only [recordBlock, Option.bind_eq_bind, tag, store, append, Option.bind_some]
        split at run
        case isTrue zero =>
          obtain ⟨s6, count, run⟩ := Option.bind_eq_some_iff.mp run
          rw [if_pos zero]
          exact ⟨s6, count, (Option.some.inj run).symm⟩
        case isFalse behind =>
          rw [if_neg behind]
          exact ⟨s5, rfl, (Option.some.inj run).symm⟩
      obtain ⟨s3, tail, same⟩ := tail
      obtain ⟨rfl, rest⟩ := Prod.mk.inj same
      obtain ⟨rfl, rfl⟩ := Prod.mk.inj rest
      exact ⟨s1, set, s2, alloc, nonzero, link, tail⟩

/-- Mapping and recording a new block keeps the guard. -/
theorem Guard.Holds.mapped (holds : guard.Holds s) (allocates : guard.Allocates)
    (accepts : guard.Accepts node) {i block : Nat} (spare : guard.Spare block)
    (single : directPointers < i → guard.Spare node.indirectBlock) {s2 : Store} {set : Bool}
    (link : Nbtrfs.inodeSetBlock s node i block = some (set, node', s2)) {writeThrough : Bool}
    (tail : recordBlock Nbtrfs.quietAppend locals s2 node' i block writeThrough = some s') :
    guard.Walks (i + 1) node' s' := by
  have early : pointersPerPage + directPointers < i → guard.Spare node.indirectBlock :=
    fun behind => single (by unfold pointersPerPage at behind; omega)
  obtain ⟨holds2, same, placed⟩ := holds.inodeSetBlock allocates accepts spare early link
  have accepts' := accepts.repointed same
  have holds' := holds2.recorded accepts' spare tail
  refine ⟨holds', accepts', fun behind => ?_⟩
  rcases placed (by omega) with ready | ⟨taken, failed⟩
  · exact Or.inl ready
  · have full := holds.full failed
    have full2 := (full.inodeSetBlock guard.full_allocates accepts spare.full
      (fun behind => (early behind).full) link).1
    exact Or.inr (full2.recorded accepts' spare.full tail)

/-- Where a block is free, the single indirect block is in place behind index 12. -/
theorem Guard.Walks.single_of_alloc {i block : Nat} {s1 : Store} (walks : guard.Walks i node s)
    (alloc : Nbtrfs.allocPage s = some (block, s1)) (nonzero : block ≠ 0)
    (behind : directPointers < i) : guard.Spare node.indirectBlock := by
  rcases walks.single behind with ready | full
  · exact ready
  · exact absurd (full.full_fails alloc) nonzero

/-- The walk goes on behind a block that is mapped already. -/
theorem Guard.Walks.found {i : Nat} {done : Bool} {mapped : Option Nat}
    (walks : guard.Walks i node s) (get : inodeGetBlock s node i = some (done, mapped))
    (found : assigned 0 mapped ≠ 0) : guard.Walks (i + 1) node s := by
  refine ⟨walks.holds, walks.accepts, fun behind => ?_⟩
  by_cases first : i = directPointers
  · rw [first] at get
    exact Or.inl (walks.holds.indirect_spare get found)
  · exact walks.single (by omega)

/-- A round of the loop keeps the guard. -/
theorem Guard.Walks.directoryBlockAt {i : Nat} (walks : guard.Walks i node s)
    (allocates : guard.Allocates) {block : Nat} {writeThrough : Bool}
    (run : directoryBlockAt quietAppend locals s node i writeThrough = some (block, node', s')) :
    guard.Holds s' ∧ (block ≠ 0 → guard.Walks (i + 1) node' s') := by
  rcases directoryBlockAt_cases run with ⟨done, mapped, get, found, rfl, rfl, rfl⟩ |
    ⟨rfl, rfl, alloc⟩ | ⟨s1, set, s2, alloc, nonzero, link, tail⟩
  · exact ⟨walks.holds, fun _ => walks.found get found⟩
  · exact ⟨(walks.holds.allocPage allocates alloc).1, fun nonzero => absurd rfl nonzero⟩
  · obtain ⟨holds1, fresh⟩ := walks.holds.allocPage allocates alloc
    have next := holds1.mapped allocates walks.accepts (fresh nonzero)
      (walks.single_of_alloc alloc nonzero) link tail
    exact ⟨next.holds, fun _ => next⟩

/-- The loop of `directory_add_entry` ends without an entry, or fills one in. -/
theorem Guard.Walks.addEntryFrom {pair : InodeBtreePair} {name : CString}
    {targetInode type left i numberOfEntries count : Nat} {writeThrough done : Bool}
    (walks : guard.Walks i node s) (allocates : guard.Allocates)
    (run : addEntryFrom quietAppend locals pair name targetInode type writeThrough left i node
      numberOfEntries count s = some (done, s')) :
    done = false ∧ guard.Holds s' ∨
      done = true ∧ ∃ s1 node1 block offset entries, guard.Holds s1 ∧
        placeEntry locals s1 pair node1 block offset entries name targetInode type = some s' := by
  induction left generalizing i node numberOfEntries count s with
  | zero =>
    obtain ⟨rfl, rfl⟩ := Prod.mk.inj (Option.some.inj run)
    exact Or.inl ⟨rfl, walks.holds⟩
  | succ left ih =>
    rw [Nbtrfs.addEntryFrom] at run
    obtain ⟨⟨block, node1, s1⟩, enter, run⟩ := Option.bind_eq_some_iff.mp run
    obtain ⟨holds1, next⟩ := walks.directoryBlockAt allocates enter
    dsimp only at run
    split at run
    case isTrue =>
      obtain ⟨rfl, rfl⟩ := Prod.mk.inj (Option.some.inj run)
      exact Or.inl ⟨rfl, holds1⟩
    case isFalse nonzero =>
      obtain ⟨content, get, run⟩ := Option.bind_eq_some_iff.mp run
      cases content with
      | data bytes =>
        dsimp only at run
        split at run
        case h_1 j counted found =>
          obtain ⟨s2, place, run⟩ := Option.bind_eq_some_iff.mp run
          obtain ⟨rfl, rfl⟩ := Prod.mk.inj (Option.some.inj run)
          exact Or.inr ⟨rfl, s1, node1, block, _, _, holds1, place⟩
        case h_2 => exact ih (next nonzero) run
      | super | bitmap | inode | btreeNode | journal | untagged =>
        obtain ⟨rfl, rfl⟩ := Prod.mk.inj (Option.some.inj run)
        exact Or.inl ⟨rfl, holds1⟩

/-- A page of the inode bitmap is spare. -/
theorem Guard.Holds.spare_bitmap (holds : guard.Holds s) {block : Nat} {words : Nat → BitVec 64}
    (behind : guard.layout.inodeBitmap ≤ block) (tag : s.mem block = .bitmap words) :
    guard.Spare block := by
  constructor
  · rintro rfl
    obtain ⟨superblock, read, -⟩ := holds.superblock
    rw [superblockRead_page read] at tag
    cases tag
  · intro pnum inside same
    rw [← holds.total] at inside
    have before := holds.apart pnum inside
    omega
  · cases wanted : guard.nodes block with
    | none => rfl
    | some node =>
      rw [holds.node block node wanted] at tag
      cases tag

/-- Changing a bit of the inode bitmap. -/
theorem Guard.Holds.putInodeBit (holds : guard.Holds s) {block ii : Nat} {value : Bool}
    {changed : Block} (behind : guard.layout.inodeBitmap ≤ block)
    (put : bitmapPut (s.mem block) ii value = some changed) :
    guard.Holds (s.put block changed) := by
  cases tag : s.mem block with
  | bitmap words =>
    rw [tag] at put
    obtain rfl := Option.some.inj put
    exact holds.putPlain (holds.spare_bitmap behind tag) (by rintro slots ⟨⟩)
  | super | inode | btreeNode | journal | data | untagged =>
    rw [tag] at put
    cases put

/-- The inode that `inode_allocate` makes of what is in the slot. -/
def Host.takes (host : Host) (mode inodeNumber : Nat) (inode : Inode) : Inode :=
  { inode with
    inodeNumber
    mode
    ownerId := host.userId
    groupId := host.groupId
    referenceCount := 1 }

/-- An inode that is read is one that its slot may hold. -/
theorem Guard.Holds.slot_read (holds : guard.Holds s) {inodeNumber : Nat} {inode : Inode}
    (run : inodeRead s inodeNumber = some (some inode)) : guard.slot inodeNumber inode := by
  unfold Nbtrfs.inodeRead at run
  obtain ⟨superblock, read, run⟩ := Option.bind_eq_some_iff.mp run
  rw [holds.inodePage read] at run
  obtain ⟨content, get, run⟩ := Option.bind_eq_some_iff.mp run
  obtain ⟨-, tag⟩ := Store.get_eq_some get
  cases content with
  | inode slots =>
    obtain rfl := Option.some.inj (Option.some.inj run)
    exact holds.slots inodeNumber slots tag
  | super | bitmap | btreeNode | journal | data | untagged => cases Option.some.inj run

/-- `inode_allocate` keeps the guard. -/
theorem Guard.Holds.inodeAllocateFrom {host : Host} {superblock : Superblock} {mode left ii : Nat}
    {writeThrough : Bool} {result : Option Nat} (holds : guard.Holds s)
    (read : superblockRead s = some superblock)
    (accepts : ∀ inodeNumber inode, guard.slot inodeNumber inode →
      guard.slot inodeNumber (host.takes mode inodeNumber inode))
    (run : inodeAllocateFrom host s superblock mode writeThrough left ii = some (result, s')) :
    guard.Holds s' := by
  induction left generalizing ii with
  | zero => cases run
  | succ left ih =>
    rw [Nbtrfs.inodeAllocateFrom] at run
    obtain ⟨ibm, get, run⟩ := Option.bind_eq_some_iff.mp run
    obtain ⟨-, rfl⟩ := Store.get_eq_some get
    have behind : guard.layout.inodeBitmap ≤ superblock.inodeBitmap + ii / usableBlockSize := by
      obtain ⟨other, readOther, same⟩ := holds.superblock
      obtain rfl := Option.some.inj (read.symm.trans readOther)
      rw [same.inodeBitmap]
      exact Nat.le_add_right _ _
    split at run
    case h_1 changed clear put =>
      have holds1 := holds.putInodeBit behind put
      obtain ⟨found, load, run⟩ := Option.bind_eq_some_iff.mp run
      cases found with
      | none =>
        obtain ⟨-, rfl⟩ := Prod.mk.inj (Option.some.inj run)
        exact holds1
      | some inode =>
        obtain ⟨⟨written, s2⟩, write, run⟩ := Option.bind_eq_some_iff.mp run
        have holds2 := holds1.inodeWrite (accepts ii inode (holds1.slot_read load)) write
        dsimp only at run
        split at run
        · obtain ⟨-, rfl⟩ := Prod.mk.inj (Option.some.inj run)
          split
          · exact holds2.flush _
          · exact holds2
        · obtain ⟨-, rfl⟩ := Prod.mk.inj (Option.some.inj run)
          exact holds2
    case h_2 => exact ih run
    case h_3 =>
      obtain ⟨-, rfl⟩ := Prod.mk.inj (Option.some.inj run)
      exact holds

/-- So does the whole call. -/
theorem Guard.Holds.inodeAllocate {host : Host} {mode : Nat} {writeThrough : Bool}
    {result : Option Nat} (holds : guard.Holds s)
    (accepts : ∀ inodeNumber inode, guard.slot inodeNumber inode →
      guard.slot inodeNumber (host.takes mode inodeNumber inode))
    (run : inodeAllocate host s mode writeThrough = some (result, s')) : guard.Holds s' := by
  unfold Nbtrfs.inodeAllocate at run
  obtain ⟨superblock, read, run⟩ := Option.bind_eq_some_iff.mp run
  exact holds.inodeAllocateFrom read accepts run

/-- `inode_free` keeps the guard. -/
theorem Guard.Holds.inodeFree {inodeNumber : Nat} {writeThrough : Bool} (holds : guard.Holds s)
    (accepts : guard.slot inodeNumber zeroInode)
    (run : inodeFree s inodeNumber writeThrough = some s') : guard.Holds s' := by
  unfold Nbtrfs.inodeFree at run
  obtain ⟨superblock, read, run⟩ := Option.bind_eq_some_iff.mp run
  rw [holds.inodePage read] at run
  obtain ⟨ibm, get, run⟩ := Option.bind_eq_some_iff.mp run
  obtain ⟨-, rfl⟩ := Store.get_eq_some get
  have behind : guard.layout.inodeBitmap ≤
      superblock.inodeBitmap + inodeNumber / usableBlockSize := by
    obtain ⟨other, readOther, same⟩ := holds.superblock
    obtain rfl := Option.some.inj (read.symm.trans readOther)
    rw [same.inodeBitmap]
    exact Nat.le_add_right _ _
  split at run
  case h_1 =>
    obtain rfl := Option.some.inj run
    exact holds
  case h_2 changed put =>
    have holds1 := holds.putInodeBit behind put
    obtain ⟨content, get1, run⟩ := Option.bind_eq_some_iff.mp run
    obtain ⟨-, tag⟩ := Store.get_eq_some get1
    cases content with
    | inode slots =>
      obtain rfl := Option.some.inj run
      have holds2 := holds1.putSlot tag accepts
      split
      · exact (holds2.flush _).flush _
      · exact holds2
    | super | bitmap | btreeNode | journal | data | untagged =>
      obtain rfl := Option.some.inj run
      exact holds1

end

end Nbtrfs
