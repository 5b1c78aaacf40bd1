import Nbtrfs.Mkfs.Counter
import Nbtrfs.Library.FirstFit

/-!
# Runs of the inode allocator

`inode_allocate`, `inode_free` and `inode_write` on a formatted image. The inode bitmap may have
bits for more inodes than the table has slots, and its last bit may be the table's last slot. In
both cases the search goes on past the table, and ends at the tag of a block. A failed search
leaves a bit behind the table set in the page.
-/

namespace Nbtrfs

open FirstFit (update)

/-- The inodes that the table has slots for. -/
def inodeCapacity (totalBlocks : Nat) : Nat := inodesPerPage * inodeTableBlocks totalBlocks

/-- The page of the inode bitmap with the bit of an inode. -/
def inodeBitPage (totalBlocks inodeNumber : Nat) : Nat :=
  1 + bitmapBlocks totalBlocks + inodeNumber / usableBlockSize

/-- The bit of an inode. -/
def Store.inodeBit (s : Store) (totalBlocks inodeNumber : Nat) : Option Bool :=
  bitmapGet (s.mem (inodeBitPage totalBlocks inodeNumber)) (inodeNumber % usableBlockSize)

/-- The pages of the inodes below the capacity lie in the regions. -/
theorem inodePages_inside {totalBlocks inodeNumber : Nat}
    (inside : inodeNumber < inodeCapacity totalBlocks) :
    inodeBitPage totalBlocks inodeNumber < tableStart totalBlocks ∧
      tableStart totalBlocks + inodeNumber / inodesPerPage < journalStart totalBlocks := by
  have perPage : inodesPerPage = 22 := by decide
  unfold inodeCapacity inodeTableBlocks at inside
  unfold inodeBitPage journalStart tableStart inodeBitmapBlocks inodeTableBlocks usableBlockSize
  rw [perPage] at inside ⊢
  constructor
  · omega
  · omega

/-- The inode bitmap follows the block bitmap. -/
theorem inodeBitPage_behind (totalBlocks inodeNumber : Nat) :
    bitmapBlocks totalBlocks < inodeBitPage totalBlocks inodeNumber :=
  Nat.lt_of_lt_of_le (Nat.lt_add_of_pos_left Nat.one_pos) (Nat.le_add_right _ _)

/-- The slots of the inodes from the capacity on would lie behind the table. -/
theorem inodePage_behind {totalBlocks inodeNumber : Nat}
    (outside : inodeCapacity totalBlocks ≤ inodeNumber) :
    journalStart totalBlocks ≤ tableStart totalBlocks + inodeNumber / inodesPerPage := by
  have perPage : inodesPerPage = 22 := by decide
  unfold inodeCapacity at outside
  unfold journalStart
  rw [perPage] at outside ⊢
  omega

/-- The page of an inode's slot in a formatted image. -/
theorem Initial.inodePage_eq {totalBlocks : Nat} {superblock : Superblock}
    (initial : Initial totalBlocks superblock) (inodeNumber : Nat) :
    Nbtrfs.inodePage superblock inodeNumber =
      tableStart totalBlocks + inodeNumber / inodesPerPage := by
  have bitmap := initial.ends.1
  unfold bitmapEnd at bitmap
  rw [Nbtrfs.inodePage, bitmap]

/-- The inode table reads as before. -/
structure SameInodes (s s' : Store) : Prop where
  /-- The image keeps its size. -/
  totalBlocks : s'.totalBlocks = s.totalBlocks
  /-- The superblock is as before. -/
  superblock : superblockRead s' = superblockRead s
  /-- The blocks of the table are as before. -/
  tables : ∀ block slots, s'.mem block = .inode slots ↔ s.mem block = .inode slots
  /-- Every inode reads as before. -/
  read : ∀ inodeNumber, inodeRead s' inodeNumber = inodeRead s inodeNumber

/-- One inode of the table is changed. -/
structure InodeChange (s : Store) (inodeNumber : Nat) (inode : Inode) (s' : Store) : Prop where
  /-- The image keeps its size. -/
  totalBlocks : s'.totalBlocks = s.totalBlocks
  /-- The superblock is as before. -/
  superblock : superblockRead s' = superblockRead s
  /-- The blocks of the table stay blocks of the table. -/
  tables : ∀ block, (∃ slots, s'.mem block = .inode slots) ↔ ∃ slots, s.mem block = .inode slots
  /-- The inode reads as changed. -/
  read : inodeRead s' inodeNumber = some (some inode)
  /-- Every other inode reads as before. -/
  other : ∀ other, other ≠ inodeNumber → inodeRead s' other = inodeRead s other

section

variable {s s' s'' : Store}

/-- `inode_read` by the page. -/
theorem inodeRead_eq {superblock : Superblock} (read : superblockRead s = some superblock)
    (inodeNumber : Nat) :
    inodeRead s inodeNumber = (s.get (inodePage superblock inodeNumber)).map fun block =>
      match block with
      | .inode slots => some (slots (inodeNumber % inodesPerPage))
      | _ => none := by
  rw [inodeRead, read, Option.bind_eq_bind, Option.bind_some]
  change (s.get (inodePage superblock inodeNumber)).bind _ = _
  cases s.get (inodePage superblock inodeNumber) with
  | none => rfl
  | some block => cases block <;> rfl

/-- Pages that are the same up to the image under them hold the same table. -/
theorem SameInodes.of_mem (mem : s'.mem = s.mem) (total : s'.totalBlocks = s.totalBlocks) :
    SameInodes s s' := by
  have superblock : superblockRead s' = superblockRead s := by
    unfold superblockRead
    rw [mem]
  refine ⟨total, superblock, fun block slots => by rw [mem], fun inodeNumber => ?_⟩
  unfold inodeRead Store.get
  rw [superblock, mem, total]

/-- A page of a bitmap may change. -/
theorem SameInodes.putBitmap {page : Nat} {words : Nat → BitVec 64} {changed : Block}
    {position : Nat} {value : Bool} (bitmap : s.mem page = .bitmap words)
    (put : bitmapPut (s.mem page) position value = some changed) :
    SameInodes s (s.put page changed) := by
  obtain ⟨words', rfl⟩ : ∃ words', changed = .bitmap words' := by
    rw [bitmap] at put
    exact ⟨_, (Option.some.inj put).symm⟩
  have tables : ∀ block slots,
      (s.put page (.bitmap words')).mem block = .inode slots ↔ s.mem block = .inode slots := by
    intro block slots
    by_cases same : block = page
    · rw [same, Store.put_same, bitmap]
      constructor
      · exact nofun
      · exact nofun
    · rw [Store.put_other _ _ _ _ same]
  have superblock : superblockRead (s.put page (.bitmap words')) = superblockRead s := by
    unfold superblockRead
    by_cases same : page = 0
    · rw [← same, Store.put_same, bitmap]
    · rw [Store.put_other _ _ _ _ (Ne.symm same)]
  refine ⟨rfl, superblock, tables, fun inodeNumber => ?_⟩
  cases read : superblockRead s with
  | none =>
    rw [inodeRead, inodeRead, superblock, read]
    rfl
  | some content =>
    rw [inodeRead_eq read, inodeRead_eq (superblock.trans read)]
    by_cases same : inodePage content inodeNumber = page
    · unfold Store.get
      rw [same, Store.put_totalBlocks, Store.put_same, bitmap]
      split
      · rfl
      · rfl
    · unfold Store.get
      rw [Store.put_totalBlocks, Store.put_other _ _ _ _ same]

/-- A change of an inode after changes elsewhere. -/
theorem SameInodes.change {inodeNumber : Nat} {inode : Inode} (same : SameInodes s s')
    (change : InodeChange s' inodeNumber inode s'') : InodeChange s inodeNumber inode s'' := by
  refine ⟨change.totalBlocks.trans same.totalBlocks, change.superblock.trans same.superblock,
    fun block => ?_, change.read, fun other distinct => ?_⟩
  · rw [change.tables]
    exact exists_congr (same.tables block)
  · rw [change.other other distinct, same.read]

/-- A change of an inode before changes elsewhere. -/
theorem InodeChange.same {inodeNumber : Nat} {inode : Inode}
    (change : InodeChange s inodeNumber inode s') (same : SameInodes s' s'') :
    InodeChange s inodeNumber inode s'' := by
  refine ⟨same.totalBlocks.trans change.totalBlocks, same.superblock.trans change.superblock,
    fun block => ?_, (same.read inodeNumber).trans change.read, fun other distinct => ?_⟩
  · rw [← change.tables]
    exact exists_congr (same.tables block)
  · rw [same.read, change.other other distinct]

/-- Writing a slot of the table changes that inode. -/
theorem InodeChange.putSlot {superblock : Superblock} (read : superblockRead s = some superblock)
    {inodeNumber : Nat} {slots : Nat → Inode}
    (table : s.get (inodePage superblock inodeNumber) = some (.inode slots)) (inode : Inode) :
    InodeChange s inodeNumber inode (s.put (inodePage superblock inodeNumber)
      (.inode (setSlot slots (inodeNumber % inodesPerPage) inode))) := by
  obtain ⟨inside, content⟩ := Store.get_eq_some table
  have notSuper : 0 ≠ inodePage superblock inodeNumber := by
    intro same
    have page := superblockRead_page read
    rw [same, content] at page
    cases page
  have superblock' : superblockRead (s.put (inodePage superblock inodeNumber)
      (.inode (setSlot slots (inodeNumber % inodesPerPage) inode))) = superblockRead s := by
    unfold superblockRead
    rw [Store.put_other _ _ _ _ notSuper]
  have get : (s.put (inodePage superblock inodeNumber)
      (.inode (setSlot slots (inodeNumber % inodesPerPage) inode))).get
        (inodePage superblock inodeNumber) =
      some (.inode (setSlot slots (inodeNumber % inodesPerPage) inode)) := by
    rw [Store.get, Store.put_totalBlocks, if_pos inside, Store.put_same]
  refine ⟨rfl, superblock', fun block => ?_, ?_, fun other distinct => ?_⟩
  · by_cases same : block = inodePage superblock inodeNumber
    · rw [same, Store.put_same, content]
      exact ⟨fun _ => ⟨_, rfl⟩, fun _ => ⟨_, rfl⟩⟩
    · rw [Store.put_other _ _ _ _ same]
  · rw [inodeRead_eq (superblock'.trans read), get]
    exact congrArg (fun slot => some (some slot)) (if_pos rfl)
  · rw [inodeRead_eq read, inodeRead_eq (superblock'.trans read)]
    by_cases same : inodePage superblock other = inodePage superblock inodeNumber
    · have slot : other % inodesPerPage ≠ inodeNumber % inodesPerPage := by
        intro equal
        have pages : other / inodesPerPage = inodeNumber / inodesPerPage :=
          Nat.add_left_cancel same
        apply distinct
        rw [← Nat.div_add_mod other inodesPerPage, ← Nat.div_add_mod inodeNumber inodesPerPage,
          pages, equal]
      rw [same, get, table]
      exact congrArg (fun slot => some (some slot)) (if_neg slot)
    · unfold Store.get
      rw [Store.put_totalBlocks, Store.put_other _ _ _ _ same]

/-- The inode bitmap and the inode table of an image, by the inodes in use. -/
structure InodesUsed (totalBlocks : Nat) (used : Nat → Bool) (s : Store) : Prop where
  /-- The size of the image. -/
  size : s.totalBlocks = totalBlocks
  /-- The table is in the image. -/
  room : journalStart totalBlocks ≤ totalBlocks
  /-- The superblock knows where it is. -/
  superblock : ∃ superblock, superblockRead s = some superblock ∧ Initial totalBlocks superblock
  /-- The bits of the table's inodes are the inodes in use. -/
  bits : ∀ inodeNumber < inodeCapacity totalBlocks,
    s.inodeBit totalBlocks inodeNumber = some (used inodeNumber)
  /-- The blocks of the table are tagged. -/
  table : ∀ block, tableStart totalBlocks ≤ block → block < journalStart totalBlocks →
    ∃ slots, s.mem block = .inode slots
  /-- The blocks behind it have other tags. -/
  behind : ∀ block, journalStart totalBlocks ≤ block → ∀ slots, s.mem block ≠ .inode slots
  /-- A free slot is zeroed. -/
  zeroed : ∀ inodeNumber < inodeCapacity totalBlocks, used inodeNumber = false →
    inodeRead s inodeNumber = some (some zeroInode)
  /-- The inodes in use are inodes of the table. -/
  inside : ∀ inodeNumber, used inodeNumber = true → inodeNumber < inodeCapacity totalBlocks

variable {totalBlocks : Nat} {used used' : Nat → Bool}

/-- Changes elsewhere that keep the bits keep the inodes in use. -/
theorem InodesUsed.same (inodes : InodesUsed totalBlocks used s) (same : SameInodes s s')
    (bits : ∀ inodeNumber < inodeCapacity totalBlocks,
      s'.inodeBit totalBlocks inodeNumber = s.inodeBit totalBlocks inodeNumber) :
    InodesUsed totalBlocks used s' := by
  obtain ⟨superblock, read, initial⟩ := inodes.superblock
  refine ⟨same.totalBlocks.trans inodes.size, inodes.room,
    ⟨superblock, same.superblock.trans read, initial⟩, ?_, ?_, ?_, ?_, inodes.inside⟩
  · intro inodeNumber inside
    rw [bits inodeNumber inside, inodes.bits inodeNumber inside]
  · intro block after before
    obtain ⟨slots, page⟩ := inodes.table block after before
    exact ⟨slots, (same.tables block slots).mpr page⟩
  · intro block after slots page
    exact inodes.behind block after slots ((same.tables block slots).mp page)
  · intro inodeNumber inside free
    rw [same.read]
    exact inodes.zeroed inodeNumber inside free

/-- A changed inode, with its bit. A slot that becomes free is zeroed. -/
theorem InodesUsed.change (inodes : InodesUsed totalBlocks used s) {inodeNumber : Nat}
    {inode : Inode} {value : Bool} (inside : inodeNumber < inodeCapacity totalBlocks)
    (change : InodeChange s inodeNumber inode s')
    (bits : ∀ other < inodeCapacity totalBlocks, s'.inodeBit totalBlocks other =
      if other = inodeNumber then some value else s.inodeBit totalBlocks other)
    (zeroed : value = false → inode = zeroInode) :
    InodesUsed totalBlocks (update used inodeNumber value) s' := by
  obtain ⟨superblock, read, initial⟩ := inodes.superblock
  refine ⟨change.totalBlocks.trans inodes.size, inodes.room,
    ⟨superblock, change.superblock.trans read, initial⟩, ?_, ?_, ?_, ?_, ?_⟩
  · intro other below
    rw [bits other below, update, inodes.bits other below]
    split
    · rfl
    · rfl
  · intro block after before
    exact (change.tables block).mpr (inodes.table block after before)
  · intro block after slots page
    obtain ⟨former, table⟩ := (change.tables block).mp ⟨slots, page⟩
    exact inodes.behind block after former table
  · intro other below free
    by_cases same : other = inodeNumber
    · have cleared : value = false := by
        rw [update, if_pos same] at free
        exact free
      rw [same, change.read, zeroed cleared]
    · rw [update, if_neg same] at free
      rw [change.other other same]
      exact inodes.zeroed other below free
  · intro other inUse
    by_cases same : other = inodeNumber
    · rw [same]
      exact inside
    · rw [update, if_neg same] at inUse
      exact inodes.inside other inUse

/-- The slot of an inode of the table. -/
theorem InodesUsed.slots (inodes : InodesUsed totalBlocks used s) {superblock : Superblock}
    (initial : Initial totalBlocks superblock) {inodeNumber : Nat}
    (inside : inodeNumber < inodeCapacity totalBlocks) :
    ∃ slots, s.get (inodePage superblock inodeNumber) = some (.inode slots) := by
  obtain ⟨-, before⟩ := inodePages_inside inside
  have room := inodes.room
  obtain ⟨slots, page⟩ := inodes.table _ (Nat.le_add_right _ _) before
  refine ⟨slots, ?_⟩
  rw [initial.inodePage_eq, Store.get_of_lt (by rw [inodes.size]; omega), page]

/-- The page with the bit of an inode of the table. -/
theorem InodesUsed.bitPage (inodes : InodesUsed totalBlocks used s) {inodeNumber : Nat}
    (inside : inodeNumber < inodeCapacity totalBlocks) :
    s.get (inodeBitPage totalBlocks inodeNumber) =
        some (s.mem (inodeBitPage totalBlocks inodeNumber)) ∧
      ∃ words, s.mem (inodeBitPage totalBlocks inodeNumber) = .bitmap words := by
  obtain ⟨before, slot⟩ := inodePages_inside inside
  have start := Nat.lt_of_le_of_lt (Nat.le_add_right _ _) slot
  have room := inodes.room
  refine ⟨Store.get_of_lt (by rw [inodes.size]; omega), ?_⟩
  have bit := inodes.bits inodeNumber inside
  unfold Store.inodeBit at bit
  cases page : s.mem (inodeBitPage totalBlocks inodeNumber) with
  | bitmap words => exact ⟨words, rfl⟩
  | super | inode | btreeNode | journal | data | untagged =>
    rw [page] at bit
    cases bit

/-- Changing a bit of the inode bitmap changes that bit only. -/
theorem inodeBit_put {inodeNumber : Nat} {value : Bool} {changed : Block}
    (put : bitmapPut (s.mem (inodeBitPage totalBlocks inodeNumber))
      (inodeNumber % usableBlockSize) value = some changed) (other : Nat) :
    (s.put (inodeBitPage totalBlocks inodeNumber) changed).inodeBit totalBlocks other =
      if other = inodeNumber then some value else s.inodeBit totalBlocks other := by
  unfold Store.inodeBit
  by_cases page : inodeBitPage totalBlocks other = inodeBitPage totalBlocks inodeNumber
  · rw [page, Store.put_same, bitmapGet_bitmapPut put]
    have quotient : other / usableBlockSize = inodeNumber / usableBlockSize :=
      Nat.add_left_cancel page
    by_cases position : other % usableBlockSize = inodeNumber % usableBlockSize
    · have same : other = inodeNumber := by
        rw [← Nat.div_add_mod other usableBlockSize, ← Nat.div_add_mod inodeNumber usableBlockSize,
          quotient, position]
      rw [if_pos position, if_pos same]
    · have distinct : other ≠ inodeNumber := fun same => position (by rw [same])
      rw [if_neg position, if_neg distinct]
  · have distinct : other ≠ inodeNumber := fun same => page (by rw [same])
    rw [Store.put_other _ _ _ _ page, if_neg distinct]

/-- A block of the table is no page of the bitmap. -/
theorem inodeBit_putSlot {page : Nat} (table : tableStart totalBlocks ≤ page) (block : Block)
    {inodeNumber : Nat} (inside : inodeNumber < inodeCapacity totalBlocks) :
    (s.put page block).inodeBit totalBlocks inodeNumber = s.inodeBit totalBlocks inodeNumber := by
  have before := (inodePages_inside inside).1
  unfold Store.inodeBit
  rw [Store.put_other _ _ _ _ (by omega)]

/-- A bit of the bitmap and the slot of its inode are changed together by `inode_allocate` and by
`inode_free`. -/
theorem InodesUsed.putBoth (inodes : InodesUsed totalBlocks used s) {superblock : Superblock}
    (read : superblockRead s = some superblock) (initial : Initial totalBlocks superblock)
    {inodeNumber : Nat} (inside : inodeNumber < inodeCapacity totalBlocks) {value : Bool}
    {changed : Block} (put : bitmapPut (s.mem (inodeBitPage totalBlocks inodeNumber))
      (inodeNumber % usableBlockSize) value = some changed) :
    ∃ slots, (s.put (inodeBitPage totalBlocks inodeNumber) changed).get
        (inodePage superblock inodeNumber) = some (.inode slots) ∧
      ∀ inode, (value = false → inode = zeroInode) → ∀ s',
        s'.mem = ((s.put (inodeBitPage totalBlocks inodeNumber) changed).put
          (inodePage superblock inodeNumber)
          (.inode (setSlot slots (inodeNumber % inodesPerPage) inode))).mem →
        s'.totalBlocks = s.totalBlocks →
        InodeChange s inodeNumber inode s' ∧
          InodesUsed totalBlocks (update used inodeNumber value) s' := by
  obtain ⟨-, words, bitmap⟩ := inodes.bitPage inside
  have kept := SameInodes.putBitmap bitmap put
  have read' := kept.superblock.trans read
  obtain ⟨slots, table⟩ := inodes.slots initial inside
  obtain ⟨within, page⟩ := Store.get_eq_some table
  have table' : (s.put (inodeBitPage totalBlocks inodeNumber) changed).get
      (inodePage superblock inodeNumber) = some (.inode slots) := by
    rw [Store.get, Store.put_totalBlocks, if_pos within, (kept.tables _ _).mpr page]
  refine ⟨slots, table', fun inode zeroed s' mem total => ?_⟩
  have change := (kept.change (InodeChange.putSlot read' table' inode)).same
    (SameInodes.of_mem mem total)
  refine ⟨change, inodes.change inside change (fun other below => ?_) zeroed⟩
  have position : tableStart totalBlocks ≤ inodePage superblock inodeNumber := by
    rw [initial.inodePage_eq]
    exact Nat.le_add_right _ _
  have bit := @inodeBit_putSlot (s.put (inodeBitPage totalBlocks inodeNumber) changed) totalBlocks _
    position (.inode (setSlot slots (inodeNumber % inodesPerPage) inode)) other below
  unfold Store.inodeBit at bit ⊢
  rw [mem, bit]
  exact inodeBit_put put other

/-- The page of a bit, as the calls compute it. -/
theorem Initial.bitPage {superblock : Superblock} (initial : Initial totalBlocks superblock)
    (inodeNumber : Nat) : superblock.inodeBitmap + inodeNumber / usableBlockSize =
      inodeBitPage totalBlocks inodeNumber := by
  rw [initial.start, inodeBitPage]

/-- `inode_free` of an inode in use clears its bit and its slot, and changes no other inode. -/
theorem inodeFree_used (inodes : InodesUsed totalBlocks used s) {inodeNumber : Nat}
    (inUse : used inodeNumber = true) (writeThrough : Bool) :
    ∃ s', inodeFree s inodeNumber writeThrough = some s' ∧
      InodeChange s inodeNumber zeroInode s' ∧
      InodesUsed totalBlocks (update used inodeNumber false) s' := by
  obtain ⟨superblock, read, initial⟩ := inodes.superblock
  have inside := inodes.inside inodeNumber inUse
  obtain ⟨bitmap, words, tag⟩ := inodes.bitPage inside
  obtain ⟨changed, put⟩ := exists_bitmapPut tag (inodeNumber % usableBlockSize) false
  obtain ⟨slots, table, both⟩ := inodes.putBoth read initial inside put
  let s1 := s.put (inodeBitPage totalBlocks inodeNumber) changed
  let s2 := s1.put (inodePage superblock inodeNumber)
    (.inode (setSlot slots (inodeNumber % inodesPerPage) zeroInode))
  let s3 := if writeThrough
    then (s2.flush (inodePage superblock inodeNumber)).flush (inodeBitPage totalBlocks inodeNumber)
    else s2
  have run : inodeFree s inodeNumber writeThrough = some s3 := by
    rw [inodeFree, read, Option.bind_eq_bind, Option.bind_some]
    dsimp only
    rw [initial.bitPage, bitmap, Option.bind_eq_bind, Option.bind_some, put]
    change (s1.get (inodePage superblock inodeNumber)).bind _ = _
    rw [table]
    rfl
  have mem : s3.mem = s2.mem ∧ s3.totalBlocks = s.totalBlocks := by
    cases writeThrough with
    | false => exact ⟨rfl, rfl⟩
    | true => exact ⟨rfl, rfl⟩
  exact ⟨s3, run, both zeroInode (fun _ => rfl) s3 mem.1 mem.2⟩

/-- `inode_write` of an inode in use changes that inode only. -/
theorem inodeWrite_used (inodes : InodesUsed totalBlocks used s) {inode : Inode}
    (inUse : used inode.inodeNumber = true) (writeThrough : Bool) :
    ∃ s', inodeWrite s inode writeThrough = some (true, s') ∧
      InodeChange s inode.inodeNumber inode s' ∧ InodesUsed totalBlocks used s' := by
  obtain ⟨superblock, read, initial⟩ := inodes.superblock
  have inside := inodes.inside inode.inodeNumber inUse
  obtain ⟨slots, table⟩ := inodes.slots initial inside
  let page := inodePage superblock inode.inodeNumber
  let s1 := s.put page (.inode (setSlot slots (inode.inodeNumber % inodesPerPage) inode))
  let s2 := if writeThrough then s1.flush page else s1
  have run : inodeWrite s inode writeThrough = some (true, s2) := by
    rw [inodeWrite, read, Option.bind_eq_bind, Option.bind_some]
    change (s.get page).bind _ = _
    rw [table]
    rfl
  have same : SameInodes s1 s2 := by
    cases writeThrough with
    | false => exact SameInodes.of_mem rfl rfl
    | true => exact SameInodes.of_mem rfl rfl
  have change := (InodeChange.putSlot read table inode).same same
  have position : tableStart totalBlocks ≤ page := by
    change tableStart totalBlocks ≤ inodePage superblock inode.inodeNumber
    rw [initial.inodePage_eq]
    exact Nat.le_add_right _ _
  have bits : ∀ other < inodeCapacity totalBlocks, s2.inodeBit totalBlocks other =
      if other = inode.inodeNumber then some true else s.inodeBit totalBlocks other := by
    intro other below
    have bit : s2.inodeBit totalBlocks other = s.inodeBit totalBlocks other := by
      have written := @inodeBit_putSlot s totalBlocks page position
        (.inode (setSlot slots (inode.inodeNumber % inodesPerPage) inode)) other below
      cases writeThrough with
      | false => exact written
      | true => exact written
    rw [bit]
    split
    case isTrue this => rw [this, inodes.bits _ inside, inUse]
    case isFalse => rfl
  have kept := inodes.change inside change bits (by simp)
  have unchanged : update used inode.inodeNumber true = used := by
    funext other
    unfold update
    split
    case isTrue this => rw [this, inUse]
    case isFalse => rfl
  rw [unchanged] at kept
  exact ⟨s2, run, change, kept⟩

/-- The search of `inode_allocate` comes to the first inode that is not in use. -/
theorem inodeAllocateFrom_used (host : Host) (inodes : InodesUsed totalBlocks used s)
    {superblock : Superblock} (read : superblockRead s = some superblock)
    (initial : Initial totalBlocks superblock) (mode : Nat) (writeThrough : Bool)
    {inodeNumber : Nat} (inside : inodeNumber < inodeCapacity totalBlocks)
    (free : used inodeNumber = false) (left ii : Nat) (before : ii ≤ inodeNumber)
    (enough : inodeNumber - ii < left)
    (inUse : ∀ earlier, ii ≤ earlier → earlier < inodeNumber → used earlier = true) :
    ∃ s', inodeAllocateFrom host s superblock mode writeThrough left ii =
        some (some inodeNumber, s') ∧
      InodeChange s inodeNumber (freshInode host inodeNumber mode) s' ∧
      InodesUsed totalBlocks (update used inodeNumber true) s' := by
  induction left generalizing ii with
  | zero => omega
  | succ left ih =>
    obtain ⟨bitmap, words, tag⟩ := inodes.bitPage (show ii < _ by omega)
    have bit := inodes.bits ii (by omega)
    unfold Store.inodeBit at bit
    rw [inodeAllocateFrom]
    dsimp only
    rw [initial.bitPage, bitmap, Option.bind_eq_bind, Option.bind_some]
    by_cases found : ii = inodeNumber
    · subst found
      obtain ⟨changed, put⟩ := exists_bitmapPut tag (ii % usableBlockSize) true
      obtain ⟨slots, table, both⟩ := inodes.putBoth read initial inside put
      have kept := SameInodes.putBitmap tag put
      let s1 := s.put (inodeBitPage totalBlocks ii) changed
      let s2 := s1.put (inodePage superblock ii)
        (.inode (setSlot slots (ii % inodesPerPage) (freshInode host ii mode)))
      let s3 := if writeThrough then s2.flush (inodePage superblock ii) else s2
      let s4 := if writeThrough then s3.flush (inodeBitPage totalBlocks ii) else s3
      have load : inodeRead s1 ii = some (some zeroInode) :=
        (kept.read ii).trans (inodes.zeroed ii inside free)
      have write : inodeWrite s1 (freshInode host ii mode) writeThrough = some (true, s3) := by
        rw [inodeWrite, kept.superblock.trans read, Option.bind_eq_bind, Option.bind_some]
        change (s1.get (inodePage superblock ii)).bind _ = _
        rw [table]
        rfl
      have mem : s4.mem = s2.mem ∧ s4.totalBlocks = s.totalBlocks := by
        cases writeThrough with
        | false => exact ⟨rfl, rfl⟩
        | true => exact ⟨rfl, rfl⟩
      refine ⟨s4, ?_, both _ (by simp) s4 mem.1 mem.2⟩
      rw [bit, free, put]
      change (inodeRead s1 ii).bind _ = _
      rw [load, Option.bind_some]
      change (inodeWrite s1 (freshInode host ii mode) writeThrough).bind _ = _
      rw [write]
      rfl
    · rw [bit, inUse ii (Nat.le_refl _) (by omega)]
      exact ih (ii + 1) (by omega) (by omega)
        fun earlier after below => inUse earlier (by omega) below

/-- A search that has passed the table finds no inode. It may set a bit for which the table has no
slot. -/
theorem inodeAllocateFrom_full {host : Host} (inodes : InodesUsed totalBlocks used s)
    {superblock : Superblock} (read : superblockRead s = some superblock)
    (initial : Initial totalBlocks superblock) {mode : Nat} {writeThrough : Bool}
    {left ii : Nat} (inUse : ∀ other < inodeCapacity totalBlocks, ii ≤ other → used other = true)
    {result : Option Nat}
    (run : inodeAllocateFrom host s superblock mode writeThrough left ii = some (result, s')) :
    result = none ∧ SameInodes s s' ∧ InodesUsed totalBlocks used s' := by
  induction left generalizing ii with
  | zero => cases run
  | succ left ih =>
    rw [inodeAllocateFrom] at run
    dsimp only at run
    rw [initial.bitPage] at run
    cases page : s.get (inodeBitPage totalBlocks ii) with
    | none =>
      rw [page] at run
      cases run
    | some ibm =>
      rw [page, Option.bind_eq_bind, Option.bind_some] at run
      have content := (Store.get_eq_some page).2
      have unchanged : SameInodes s s ∧ InodesUsed totalBlocks used s :=
        ⟨SameInodes.of_mem rfl rfl, inodes⟩
      cases ibm with
      | super | inode | btreeNode | journal | data | untagged =>
        obtain ⟨rfl, rfl⟩ := Prod.mk.inj (Option.some.inj run)
        exact ⟨rfl, unchanged⟩
      | bitmap words =>
        cases bit : bitmapGet (.bitmap words) (ii % usableBlockSize) with
        | none => cases bit
        | some taken =>
          rw [bit] at run
          cases taken with
          | true =>
            exact ih (fun other below after => inUse other below (by omega)) run
          | false =>
            have outside : inodeCapacity totalBlocks ≤ ii := by
              by_contra inside
              have set := inodes.bits ii (by omega)
              unfold Store.inodeBit at set
              rw [content, bit, inUse ii (by omega) (Nat.le_refl _)] at set
              cases set
            obtain ⟨changed, put⟩ := exists_bitmapPut content (ii % usableBlockSize) true
            have kept := SameInodes.putBitmap content put
            have put' : bitmapPut (.bitmap words) (ii % usableBlockSize) true = some changed := by
              rw [← content]
              exact put
            rw [put'] at run
            let s1 := s.put (inodeBitPage totalBlocks ii) changed
            have kept1 : InodesUsed totalBlocks used s1 := by
              apply inodes.same kept
              intro other below
              rw [inodeBit_put put, if_neg (by omega)]
            have noTable : ∀ inode, inodeRead s1 ii ≠ some (some inode) := by
              intro inode load
              have behind := inodePage_behind outside
              rw [← initial.inodePage_eq] at behind
              rw [inodeRead_eq (kept.superblock.trans read)] at load
              obtain ⟨block, get, slot⟩ := Option.map_eq_some_iff.mp load
              have tag := (Store.get_eq_some get).2
              cases block with
              | inode slots => exact kept1.behind _ behind slots tag
              | super | bitmap | btreeNode | journal | data | untagged => cases slot
            change (inodeRead s1 ii).bind _ = _ at run
            cases load : inodeRead s1 ii with
            | none =>
              rw [load] at run
              cases run
            | some inode =>
              cases inode with
              | some inode => exact absurd load (noTable inode)
              | none =>
                rw [load] at run
                obtain ⟨rfl, rfl⟩ := Prod.mk.inj (Option.some.inj run)
                exact ⟨rfl, kept, kept1⟩

/-- `inode_allocate` returns the first inode that is not in use, whose slot then reads as a new
inode. -/
theorem inodeAllocate_used (host : Host) (inodes : InodesUsed totalBlocks used s) (mode : Nat)
    (writeThrough : Bool) {inodeNumber : Nat} (inside : inodeNumber < inodeCapacity totalBlocks)
    (free : used inodeNumber = false) (inUse : ∀ earlier < inodeNumber, used earlier = true) :
    ∃ s', inodeAllocate host s mode writeThrough = some (some inodeNumber, s') ∧
      InodeChange s inodeNumber (freshInode host inodeNumber mode) s' ∧
      InodesUsed totalBlocks (update used inodeNumber true) s' := by
  obtain ⟨superblock, read, initial⟩ := inodes.superblock
  have enough : inodeNumber < (s.totalBlocks + 1) * usableBlockSize := by
    have before := (inodePages_inside inside).1
    have room := inodes.room
    have start : tableStart totalBlocks ≤ journalStart totalBlocks := Nat.le_add_right _ _
    unfold inodeBitPage usableBlockSize at before
    rw [inodes.size]
    unfold usableBlockSize
    omega
  rw [inodeAllocate, read, Option.bind_eq_bind, Option.bind_some]
  exact inodeAllocateFrom_used host inodes read initial mode writeThrough inside free _ 0
    (Nat.zero_le _) (by omega) fun earlier _ below => inUse earlier below

/-- With all inodes of the table in use `inode_allocate` returns -1, and no inode changes. -/
theorem inodeAllocate_full {host : Host} (inodes : InodesUsed totalBlocks used s) {mode : Nat}
    {writeThrough : Bool} (full : ∀ inodeNumber < inodeCapacity totalBlocks, used inodeNumber = true)
    {result : Option Nat} (run : inodeAllocate host s mode writeThrough = some (result, s')) :
    result = none ∧ SameInodes s s' ∧ InodesUsed totalBlocks used s' := by
  obtain ⟨superblock, read, initial⟩ := inodes.superblock
  rw [inodeAllocate, read, Option.bind_eq_bind, Option.bind_some] at run
  exact inodeAllocateFrom_full inodes read initial (fun other below _ => full other below) run

/-- There is a first inode that is not in use, or all are. -/
theorem first_free_or_full (used : Nat → Bool) (capacity : Nat) :
    (∃ inodeNumber < capacity, used inodeNumber = false ∧
      ∀ earlier < inodeNumber, used earlier = true) ∨
    ∀ inodeNumber < capacity, used inodeNumber = true := by
  cases found : FirstFit.first used capacity with
  | none => exact Or.inr (FirstFit.first_eq_none.mp found)
  | some inodeNumber => exact Or.inl ⟨inodeNumber, FirstFit.first_eq_some.mp found⟩

/-- A zeroed inode bitmap and a zeroed table have no inode in use. -/
theorem InodesUsed.empty (size : s.totalBlocks = totalBlocks)
    (room : journalStart totalBlocks ≤ totalBlocks) {superblock : Superblock}
    (read : superblockRead s = some superblock) (initial : Initial totalBlocks superblock)
    (bitmaps : ∀ block, bitmapBlocks totalBlocks < block → block < tableStart totalBlocks →
      s.mem block = .bitmap fun _ => 0)
    (table : ∀ block, tableStart totalBlocks ≤ block → block < journalStart totalBlocks →
      s.mem block = .inode fun _ => zeroInode)
    (behind : ∀ block, journalStart totalBlocks ≤ block → ∀ slots, s.mem block ≠ .inode slots) :
    InodesUsed totalBlocks (fun _ => false) s := by
  refine ⟨size, room, ⟨superblock, read, initial⟩, ?_, ?_, behind, ?_, nofun⟩
  · intro inodeNumber inside
    have before := (inodePages_inside inside).1
    unfold Store.inodeBit
    rw [bitmaps _ (inodeBitPage_behind _ _) before, bitmapGet_empty]
  · intro block after before
    exact ⟨_, table block after before⟩
  · intro inodeNumber inside _
    have before := (inodePages_inside inside).2
    rw [inodeRead_eq read, initial.inodePage_eq, Store.get_of_lt (by rw [size]; omega),
      table _ (Nat.le_add_right _ _) before]
    rfl

/-- A page elsewhere may change, and the superblock as long as the regions stay where they are. -/
theorem InodesUsed.putOther (inodes : InodesUsed totalBlocks used s) {page : Nat} {block : Block}
    (former : ∀ slots, s.mem page ≠ .inode slots) (noTable : ∀ slots, block ≠ .inode slots)
    (noBit : ∀ inodeNumber < inodeCapacity totalBlocks, inodeBitPage totalBlocks inodeNumber ≠ page)
    (super : page = 0 → ∃ superblock, block = .super superblock ∧ Initial totalBlocks superblock) :
    InodesUsed totalBlocks used (s.put page block) := by
  obtain ⟨superblock, read, initial⟩ := inodes.superblock
  obtain ⟨superblock', read', initial'⟩ : ∃ superblock',
      superblockRead (s.put page block) = some superblock' ∧ Initial totalBlocks superblock' := by
    by_cases zero : page = 0
    · obtain ⟨superblock', tag, initial'⟩ := super zero
      refine ⟨superblock', superblockRead_of_page ?_, initial'⟩
      rw [zero, Store.put_same, tag]
    · refine ⟨superblock, ?_, initial⟩
      unfold superblockRead at read ⊢
      rw [Store.put_other _ _ _ _ (Ne.symm zero)]
      exact read
  have tables : ∀ other slots,
      (s.put page block).mem other = .inode slots ↔ s.mem other = .inode slots := by
    intro other slots
    by_cases same : other = page
    · rw [same, Store.put_same]
      exact ⟨fun tag => absurd tag (noTable slots), fun tag => absurd tag (former slots)⟩
    · rw [Store.put_other _ _ _ _ same]
  refine ⟨inodes.size, inodes.room, ⟨superblock', read', initial'⟩, ?_, ?_, ?_, ?_, inodes.inside⟩
  · intro inodeNumber inside
    have bit := inodes.bits inodeNumber inside
    unfold Store.inodeBit at bit ⊢
    rw [Store.put_other _ _ _ _ (noBit inodeNumber inside), bit]
  · intro other after before
    obtain ⟨slots, tag⟩ := inodes.table other after before
    exact ⟨slots, (tables other slots).mpr tag⟩
  · intro other after slots tag
    exact inodes.behind other after slots ((tables other slots).mp tag)
  · intro inodeNumber inside free
    obtain ⟨slots, get⟩ := inodes.slots initial inside
    obtain ⟨within, tag⟩ := Store.get_eq_some get
    have zero := inodes.zeroed inodeNumber inside free
    rw [inodeRead_eq read, get] at zero
    rw [inodeRead_eq read', initial'.inodePage_eq, ← initial.inodePage_eq, Store.get,
      Store.put_totalBlocks, if_pos within, (tables _ _).mpr tag]
    exact zero

/-- A formatted image with an inode table has the root inode in use and no other. -/
theorem diskFormat_inodes {host : Host} {residue : Residue} {volumeName : CString}
    (format : diskFormat host (zeroImage totalBlocks residue) volumeName = some (true, s))
    (table : 1 ≤ inodeTableBlocks totalBlocks) :
    InodesUsed totalBlocks (fun inodeNumber => decide (inodeNumber = 0)) s := by
  obtain ⟨-, tagged, ready, superblock, state, run⟩ := diskFormat_root format
  obtain ⟨inside, s1, node, number, s2, root, -, kept1, allocate, rfl⟩ := state.steps run
  have kept := state.kept.trans kept1
  have total1 : s1.totalBlocks = totalBlocks := kept.totalBlocks.trans state.regions.totalBlocks
  have order : bitmapBlocks totalBlocks < tableStart totalBlocks ∧
      tableStart totalBlocks ≤ journalStart totalBlocks ∧
      journalStart totalBlocks < rootPage totalBlocks := by
    unfold rootPage journalStart tableStart
    omega
  have behindRoot : rootBlock totalBlocks ≤ rootPage totalBlocks := by
    unfold rootBlock rootPage
    omega
  have positive : rootPage totalBlocks ≠ 0 := by omega
  have page1 : ∀ block, bitmapBlocks totalBlocks < block → s1.mem block = tagged.mem block := by
    intro block behind
    exact kept.mem block (by rw [state.regions.totalBlocks]; exact behind)
  have noTable1 : ∀ block, journalStart totalBlocks ≤ block → ∀ slots,
      s1.mem block ≠ .inode slots := by
    intro block after slots tag
    rw [page1 block (by omega)] at tag
    by_cases journal : block < rootBlock totalBlocks
    · rw [state.regions.journal block after journal] at tag
      cases tag
    · rw [state.behind block (by omega)] at tag
      cases tag
  obtain ⟨former, read, initial⟩ := state.former
  obtain ⟨former1, read1, size1, start1⟩ := kept1.superblock former read
  have initial1 : Initial totalBlocks former1 :=
    ⟨size1.trans initial.size, start1.trans initial.start⟩
  have bitmaps : ∀ block, bitmapBlocks totalBlocks < block → block < tableStart totalBlocks →
      s1.mem block = .bitmap fun _ => 0 := by
    intro block after before
    rw [page1 block after]
    exact state.regions.bitmaps block (by omega) before
  have tables : ∀ block, tableStart totalBlocks ≤ block → block < journalStart totalBlocks →
      s1.mem block = .inode fun _ => zeroInode := by
    intro block after before
    rw [page1 block (by omega)]
    exact state.regions.table block after before
  have bitsBefore : ∀ inodeNumber < inodeCapacity totalBlocks,
      bitmapBlocks totalBlocks < inodeBitPage totalBlocks inodeNumber ∧
        inodeBitPage totalBlocks inodeNumber < tableStart totalBlocks :=
    fun inodeNumber below => ⟨inodeBitPage_behind _ _, (inodePages_inside below).1⟩
  have empty := InodesUsed.empty total1 (by omega) read1 initial1 bitmaps tables noTable1
  have rooted := empty.putOther (noTable1 (rootPage totalBlocks) (by omega))
    (show ∀ slots, Block.btreeNode node ≠ .inode slots from nofun)
    (fun inodeNumber below => by have := bitsBefore inodeNumber below; omega)
    (fun zero => absurd zero positive)
  have capacity : 0 < inodeCapacity totalBlocks := Nat.mul_pos (by decide) table
  obtain ⟨s2', allocated, -, entered⟩ := inodeAllocate_used host rooted rootMode true capacity rfl
    nofun
  obtain ⟨-, rfl⟩ := Prod.mk.inj (Option.some.inj (allocated.symm.trans allocate))
  have rooted' := entered.putOther (entered.behind (rootPage totalBlocks) (by omega))
    (show ∀ slots, Block.btreeNode root ≠ .inode slots from nofun)
    (fun inodeNumber below => by have := bitsBefore inodeNumber below; omega)
    (fun zero => absurd zero positive)
  obtain ⟨former2, read2, -⟩ := rooted'.superblock
  have page2 := superblockRead_page read2
  let final : Superblock := { superblock with
    rootInode := number.getD (2 ^ 64 - 1), btreeRoot := rootPage totalBlocks }
  have written := rooted'.putOther (fun slots tag => by rw [page2] at tag; cases tag)
    (show ∀ slots, Block.super final ≠ .inode slots from nofun)
    (fun inodeNumber below => by have := bitsBefore inodeNumber below; omega)
    (fun _ => ⟨final, rfl, state.initial.size, state.initial.start⟩)
  have same := written.same (SameInodes.of_mem (superblockWrite_mem page2 final true)
    (superblockWrite_totalBlocks _ final true)) fun inodeNumber _ => by
      unfold Store.inodeBit
      rw [superblockWrite_mem page2]
  have root : update (fun _ => false) 0 true = fun inodeNumber => decide (inodeNumber = 0) := by
    funext inodeNumber
    unfold update
    split
    case isTrue this => rw [decide_eq_true this]
    case isFalse this => rw [decide_eq_false this]
  rw [root] at same
  exact same

/-- A run of calls on a store, with the inodes in use: those handed out and not freed since, and at
first the root inode. -/
inductive InodeRun (start : Store) : Store → (Nat → Bool) → Prop where
  /-- No call. -/
  | start : InodeRun start start fun inodeNumber => decide (inodeNumber = 0)
  /-- `inode_allocate` returns an inode. -/
  | allocated {s s' : Store} {used : Nat → Bool} {host : Host} {mode inodeNumber : Nat}
      {writeThrough : Bool} (run : InodeRun start s used)
      (call : inodeAllocate host s mode writeThrough = some (some inodeNumber, s')) :
      InodeRun start s' (update used inodeNumber true)
  /-- `inode_allocate` returns -1. -/
  | failed {s s' : Store} {used : Nat → Bool} {host : Host} {mode : Nat} {writeThrough : Bool}
      (run : InodeRun start s used)
      (call : inodeAllocate host s mode writeThrough = some (none, s')) : InodeRun start s' used
  /-- `inode_free` of an inode in use. -/
  | freed {s s' : Store} {used : Nat → Bool} {inodeNumber : Nat} {writeThrough : Bool}
      (run : InodeRun start s used) (inUse : used inodeNumber = true)
      (call : inodeFree s inodeNumber writeThrough = some s') :
      InodeRun start s' (update used inodeNumber false)
  /-- `inode_write` of an inode in use. -/
  | written {s s' : Store} {used : Nat → Bool} {inode : Inode} {writeThrough succeeds : Bool}
      (run : InodeRun start s used) (inUse : used inode.inodeNumber = true)
      (call : inodeWrite s inode writeThrough = some (succeeds, s')) : InodeRun start s' used

/-- What the next call does. -/
structure InodesExact (totalBlocks : Nat) (used : Nat → Bool) (s : Store) : Prop where
  /-- The inodes in use are inodes of the table. -/
  inside : ∀ inodeNumber, used inodeNumber = true → inodeNumber < inodeCapacity totalBlocks
  /-- `inode_allocate` returns the first inode that is not in use, which reads as a new inode. -/
  smallest : ∀ (host : Host) (mode : Nat) (writeThrough : Bool),
    ∀ inodeNumber < inodeCapacity totalBlocks, used inodeNumber = false →
      (∀ earlier < inodeNumber, used earlier = true) →
      ∃ s', inodeAllocate host s mode writeThrough = some (some inodeNumber, s') ∧
        inodeRead s' inodeNumber = some (some (freshInode host inodeNumber mode)) ∧
        ∀ other, other ≠ inodeNumber → inodeRead s' other = inodeRead s other
  /-- With all in use it returns no inode. -/
  full : (∀ inodeNumber < inodeCapacity totalBlocks, used inodeNumber = true) →
    ∀ (host : Host) (mode : Nat) (writeThrough : Bool) (result : Option Nat) (s' : Store),
      inodeAllocate host s mode writeThrough = some (result, s') →
      result = none ∧ ∀ other, inodeRead s' other = inodeRead s other
  /-- It returns -1 only then. -/
  exhausted : ∀ (host : Host) (mode : Nat) (writeThrough : Bool) (s' : Store),
    inodeAllocate host s mode writeThrough = some (none, s') →
      ∀ inodeNumber < inodeCapacity totalBlocks, used inodeNumber = true
  /-- `inode_free` zeroes its inode and changes no other. -/
  free : ∀ inodeNumber, used inodeNumber = true → ∀ writeThrough : Bool,
    ∃ s', inodeFree s inodeNumber writeThrough = some s' ∧
      inodeRead s' inodeNumber = some (some zeroInode) ∧
      ∀ other, other ≠ inodeNumber → inodeRead s' other = inodeRead s other
  /-- `inode_write` changes its inode and no other. -/
  write : ∀ inode : Inode, used inode.inodeNumber = true → ∀ writeThrough : Bool,
    ∃ s', inodeWrite s inode writeThrough = some (true, s') ∧
      inodeRead s' inode.inodeNumber = some (some inode) ∧
      ∀ other, other ≠ inode.inodeNumber → inodeRead s' other = inodeRead s other

/-- The inodes in use decide what the next call does. -/
theorem InodesUsed.exact (inodes : InodesUsed totalBlocks used s) :
    InodesExact totalBlocks used s where
  inside := inodes.inside
  smallest host mode writeThrough inodeNumber inside free inUse := by
    obtain ⟨s', run, change, -⟩ :=
      inodeAllocate_used host inodes mode writeThrough inside free inUse
    exact ⟨s', run, change.read, change.other⟩
  full all host mode writeThrough result s' run := by
    obtain ⟨failed, same, -⟩ := inodeAllocate_full inodes all run
    exact ⟨failed, same.read⟩
  exhausted host mode writeThrough s' run := by
    rcases first_free_or_full used (inodeCapacity totalBlocks) with
      ⟨inodeNumber, inside, free, inUse⟩ | all
    · obtain ⟨other, run', -⟩ :=
        inodeAllocate_used host inodes mode writeThrough inside free inUse
      cases run.symm.trans run'
    · exact all
  free inodeNumber inUse writeThrough := by
    obtain ⟨s', run, change, -⟩ := inodeFree_used inodes inUse writeThrough
    exact ⟨s', run, change.read, change.other⟩
  write inode inUse writeThrough := by
    obtain ⟨s', run, change, -⟩ := inodeWrite_used inodes inUse writeThrough
    exact ⟨s', run, change.read, change.other⟩

/-- Every call of a run keeps the bits and the table in step with the inodes in use. -/
theorem InodeRun.inodesUsed {start : Store}
    (initial : InodesUsed totalBlocks (fun inodeNumber => decide (inodeNumber = 0)) start)
    (run : InodeRun start s used) : InodesUsed totalBlocks used s := by
  induction run with
  | start => exact initial
  | @allocated s s' used host mode inodeNumber writeThrough _ call ih =>
    rcases first_free_or_full used (inodeCapacity totalBlocks) with ⟨first, inside, free, inUse⟩ | all
    · obtain ⟨other, call', -, inodes⟩ :=
        inodeAllocate_used host ih mode writeThrough inside free inUse
      obtain ⟨same, rfl⟩ := Prod.mk.inj (Option.some.inj (call'.symm.trans call))
      rw [← Option.some.inj same]
      exact inodes
    · cases (inodeAllocate_full ih all call).1
  | @failed s s' used host mode writeThrough _ call ih =>
    rcases first_free_or_full used (inodeCapacity totalBlocks) with ⟨first, inside, free, inUse⟩ | all
    · obtain ⟨other, call', -⟩ := inodeAllocate_used host ih mode writeThrough inside free inUse
      cases call'.symm.trans call
    · exact (inodeAllocate_full ih all call).2.2
  | freed _ inUse call ih =>
    obtain ⟨other, call', -, inodes⟩ := inodeFree_used ih inUse _
    obtain rfl := Option.some.inj (call'.symm.trans call)
    exact inodes
  | written _ inUse call ih =>
    obtain ⟨other, call', -, inodes⟩ := inodeWrite_used ih inUse _
    obtain ⟨-, rfl⟩ := Prod.mk.inj (Option.some.inj (call'.symm.trans call))
    exact inodes

/-- On a formatted image with an inode table the inode allocator and the table are exact after every
run: `inode_allocate` returns the first inode of the table that is not in use, and -1 only if there
is none; a new inode reads as zeros but for its number, mode, owner, group and count; and freeing or
writing an inode changes how that inode reads only. -/
theorem inodeRun_exact {host : Host} {residue : Residue} {volumeName : CString} {start : Store}
    (format : diskFormat host (zeroImage totalBlocks residue) volumeName = some (true, start))
    (table : 1 ≤ inodeTableBlocks totalBlocks) (run : InodeRun start s used) :
    InodesExact totalBlocks used s :=
  (run.inodesUsed (diskFormat_inodes format table)).exact

end

/-- After inode 1 was handed out and freed on an image of 200 blocks. -/
theorem inodeRun_exact_freed :
    ∃ start s used, diskFormat ⟨1000, 1000, 0⟩ (zeroImage 200 ⟨fun _ => 0, fun _ _ => 0⟩) [] =
        some (true, start) ∧ 1 ≤ inodeTableBlocks 200 ∧ InodeRun start s used ∧
      InodesExact 200 used s := by
  obtain ⟨start, format, -⟩ := diskFormat_phases ⟨1000, 1000, 0⟩ ⟨fun _ => 0, fun _ _ => 0⟩
    (⟨by decide, by decide, by decide⟩ : Formattable 200) (show [].length ≤ 31 by decide)
  have inodes := diskFormat_inodes format (by decide)
  obtain ⟨s1, call1, -, inodes1⟩ := inodeAllocate_used ⟨1000, 1000, 0⟩ inodes 0o100644 false
    (show 1 < inodeCapacity 200 by decide) (by decide) (by decide)
  obtain ⟨s2, call2, -⟩ := inodeFree_used inodes1 (show update _ 1 true 1 = true by decide) true
  have run : InodeRun start s2 _ :=
    ((InodeRun.start).allocated call1).freed (show update _ 1 true 1 = true by decide) call2
  exact ⟨start, s2, _, format, by decide, run, inodeRun_exact format (by decide) run⟩

end Nbtrfs
