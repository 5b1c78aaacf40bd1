import Nbtrfs.Cache.Plain
import Nbtrfs.Fuse.Listing
import Nbtrfs.Fuse.Utimens

/-!
# Serving calls through the cache

The callbacks that log nothing, with every access to the cache in its place: `nbtrfs_access`,
`nbtrfs_getattr`, `nbtrfs_read`, `nbtrfs_utimens`, and `nbtrfs_write` over blocks that the file has.
What they return on the block store they return through the write-back cache. Each `inode_write` keeps
a pin, so the cache needs more slots than the inode table has blocks, and one more for the block that
is being written.
-/

namespace Nbtrfs

namespace Cached

/-- Read a block number through a pointer into a page, whatever its tag. -/
def readPointer (residue : Residue) (inum page index : Nat) : CacheProgram Block Nat := do
  let block ← getBlock inum page
  if index < pointersPerPage then pure (pointerAt (residue.payload block) index) else .undefined

/-- `inode_get_block`: whether it succeeds, and what it assigns to `*physical_block`. -/
def inodeGetBlock (residue : Residue) (inode : Inode) (blockIndex : Nat) :
    CacheProgram Block (Bool × Option Nat) :=
  if blockIndex < directPointers then
    pure (inode.directBlocks blockIndex ≠ 0, some (inode.directBlocks blockIndex))
  else if blockIndex < pointersPerPage then
    if inode.indirectBlock = 0 then pure (false, none)
    else do
      match ← getBlock inode.inodeNumber inode.indirectBlock with
      | .data bytes => pure (true, some (pointerAt bytes (blockIndex - directPointers)))
      | _ => pure (false, none)
  else
    if inode.doubleIndirectBlock = 0 then pure (false, none)
    else
      match doublePage blockIndex with
      | none => .undefined
      | some page => do
        let lower ← readPointer residue inode.inodeNumber inode.doubleIndirectBlock page
        let pointer ← readPointer residue inode.inodeNumber lower (doublePosition blockIndex).2
        if pointer = 0 then pure (false, none) else pure (true, some pointer)

/-- `nbtrfs_access`: whether it returns 0. -/
def nbtrfsAccess (depth : Nat) (path : CString) : CacheProgram Block Bool := do
  let pair ← itemSearch depth path
  pure pair.found

/-- `nbtrfs_getattr`; `none` stands for `-ENOENT`. -/
def nbtrfsGetattr (depth : Nat) (path : CString) : CacheProgram Block (Option Stat) := do
  let pair ← itemSearch depth path
  if pair.found then do
    match ← inodeRead pair.inodeNumber with
    | none => .undefined
    | some node => pure (some (node.stat pair.inodeNumber))
  else pure none

/-- The loop of `nbtrfs_read`, with the bytes read so far. -/
def readLoop (residue : Residue) (node : Inode) :
    Nat → Nat → Nat → List UInt8 → CacheProgram Block (Int × List UInt8)
  | 0, _, _, _ => .undefined
  | fuel + 1, remaining, offset, buffer =>
    if remaining = 0 then pure (buffer.length, buffer)
    else do
      let (mapped, block) ← inodeGetBlock residue node (offset / usableBlockSize)
      let pnum := assigned 0 block
      if !mapped then pure (-1, buffer)
      else if pnum = 0 then pure (buffer.length, buffer)
      else do
        let page ← getBlock node.inodeNumber pnum
        let bytes := min (usableBlockSize - offset % usableBlockSize) remaining
        readLoop residue node fuel (remaining - bytes) (offset + bytes)
          (buffer ++ segment (residue.payload page) (offset % usableBlockSize) bytes)

/-- `nbtrfs_read`: the result, and the bytes it copied to the buffer. -/
def nbtrfsRead (residue : Residue) (depth : Nat) (path : CString) (size offset : Nat) :
    CacheProgram Block (Int × List UInt8) := do
  let pair ← itemSearch depth path
  if pair.inodeNumber = 0 ∧ pair.btreeBlock = 0 then pure (enoent, [])
  else if pair.btreeBlock ≠ 0 then pure (eisdir, [])
  else do
    match ← inodeRead pair.inodeNumber with
    | none => pure (-1, [])
    | some node =>
      if node.size ≤ offset then pure (0, [])
      else
        let size := if node.size < (offset + size) % 2 ^ 64 then node.size - offset else size
        let remaining := (Int.bmod size (2 ^ 32)).toNat
        readLoop residue node (remaining + 1) remaining offset []

/-- What `nbtrfs_write` does where it allocates. -/
structure Allocating where
  /-- `nbtrfs_mknod` of a file that is missing. -/
  create : CString → CacheProgram Block Unit
  /-- The new block at an index that has none, 0 if there is none left, and the inode with it. -/
  fresh : Inode → Nat → CacheProgram Block (Nat × Inode)

section

variable (residue : Residue) (allocating : Allocating)

/-- `memcpy` to the bytes after the tag of a page, with the pins and `write_block` around it. -/
def writePayload (inum pinned pnum offset : Nat) (piece : List UInt8) : CacheProgram Block Unit := do
  let page ← getBlock inum pnum
  increasePinCount pinned pnum
  match page with
  | .data bytes => do
    let written := Block.data (overlay bytes offset piece)
    assignPage pnum written
    writeBlock written inum pnum
    decreasePinCount pinned pnum
  | .untagged bytes => do
    let written := Block.untagged (overlay bytes offset piece)
    assignPage pnum written
    writeBlock written inum pnum
    decreasePinCount pinned pnum
  | _ => .undefined

/-- The block at an index of a file that is written. -/
def fileBlockAt (node : Inode) (pageIndex : Nat) : CacheProgram Block (Nat × Inode) := do
  let (_, mapped) ← inodeGetBlock residue node pageIndex
  if assigned 0 mapped ≠ 0 then pure (assigned 0 mapped, node)
  else allocating.fresh node pageIndex

/-- The loop of `nbtrfs_write`, with the bytes written so far: whether every block was found, the
bytes written, and the inode. -/
def writeLoop (pinned : Nat) :
    Nat → List UInt8 → Nat → Nat → Inode → CacheProgram Block (Bool × Nat × Inode)
  | 0, _, _, _, _ => .undefined
  | fuel + 1, buffer, offset, bytesWritten, node =>
    if buffer = [] then pure (true, bytesWritten, node)
    else do
      let (pnum, node) ← fileBlockAt residue allocating node (offset / usableBlockSize)
      if pnum = 0 then pure (false, bytesWritten, node)
      else do
        let pageOffset := offset % usableBlockSize
        let bytes := min (usableBlockSize - pageOffset) buffer.length
        writePayload node.inodeNumber pinned pnum pageOffset (buffer.take bytes)
        writeLoop pinned fuel (buffer.drop bytes) (offset + bytes) (bytesWritten + bytes) node

/-- `nbtrfs_write` of an inode that was read. -/
def writeInode (pinned : Nat) (node : Inode) (buffer : List UInt8) (offset : Nat) :
    CacheProgram Block Int := do
  let (completed, bytesWritten, node) ←
    writeLoop residue allocating pinned (buffer.length + 1) buffer offset 0 node
  if completed ∧ node.size < offset + bytesWritten then do
    let _ ← inodeWrite { node with size := offset + bytesWritten } false
    pure bytesWritten
  else pure bytesWritten

/-- `nbtrfs_write`. -/
def nbtrfsWrite (depth : Nat) (path : CString) (buffer : List UInt8) (offset : Nat) :
    CacheProgram Block Int := do
  let pair ← itemSearch depth path
  if pair.inodeNumber ≠ 0 ∨ pair.btreeBlock ≠ 0 then
    if pair.btreeBlock ≠ 0 then pure eisdir
    else do
      match ← inodeRead pair.inodeNumber with
      | none => pure 0
      | some node => writeInode residue allocating pair.inodeNumber node buffer offset
  else do
    allocating.create path
    let pair ← itemSearch depth path
    match ← inodeRead pair.inodeNumber with
    | none => pure 0
    | some node => writeInode residue allocating pair.inodeNumber node buffer offset

end

end Cached

/-- An array holds the blocks of a store, with pins on blocks of a list that has all of the inode table,
and a number of pins and calls of `write_block` to spare. -/
structure Ready (tables : List Nat) (budget : Nat) (s : Store) (array : BlockArray Block) : Prop where
  /-- The blocks. -/
  blocks : array.blocks = s.mem
  /-- The blocks of the inode table are in the list. -/
  covers : ∀ block slots, s.mem block = .inode slots → block ∈ tables
  /-- The pins. -/
  held : ∀ block ∈ array.held, block ∈ tables
  /-- Pins to spare. -/
  pins : array.held.length + budget ≤ intMax
  /-- Calls of `write_block` to spare. -/
  writes : 2 * (array.unsynced + budget) ≤ intMax

/-- On the blocks of a store code ends with a value and leaves the blocks of another store, at a cost of
pins and calls of `write_block`. -/
structure Does {α : Type} (slots : Nat) (tables : List Nat) (s : Store)
    (program : CacheProgram Block α) (cost : Nat) (value : α) (s' : Store) : Prop where
  /-- The image has the same size. -/
  total : s'.totalBlocks = s.totalBlocks
  /-- Former content reads the same. -/
  residue : s'.residue = s.residue
  /-- The run. -/
  runs : ∀ {array budget}, Ready tables (cost + budget) s array →
    ∃ array', program.Plain s.totalBlocks slots array value array' ∧ Ready tables budget s' array'

section

variable {α β : Type} {slots cost cost' budget : Nat} {tables : List Nat} {s s' s'' : Store}
  {array : BlockArray Block} {value : α}

/-- Pins on blocks of a short list leave slots over. -/
theorem Ready.allows (ready : Ready tables budget s array) (fits : tables.length + 1 < slots) :
    array.Allows slots := by
  have inside : array.held.dedup.length ≤ tables.length :=
    ((List.nodup_dedup array.held).subperm fun block member =>
      ready.held block (List.mem_dedup.mp member)).length_le
  have pins := ready.pins
  have writes := ready.writes
  exact ⟨by omega, by omega, by omega⟩

/-- A page is replaced in the array and in the store. -/
theorem Ready.put (ready : Ready tables budget s array) {pnum : Nat} {page : Block}
    (kind : ∀ slots, page = .inode slots → pnum ∈ tables) :
    Ready tables budget (s.put pnum page) (array.put pnum page) where
  blocks := by
    rw [BlockArray.put, ready.blocks]
    rfl
  covers block slots tag := by
    by_cases equal : block = pnum
    · rw [equal]
      rw [equal, Store.put_same] at tag
      exact kind slots tag
    · rw [Store.put_other _ _ _ _ equal] at tag
      exact ready.covers block slots tag
  held := ready.held
  pins := ready.pins
  writes := ready.writes

/-- With more to spare there is less to spare. -/
theorem Ready.mono (ready : Ready tables cost s array) (fewer : budget ≤ cost) :
    Ready tables budget s array where
  blocks := ready.blocks
  covers := ready.covers
  held := ready.held
  pins := by
    have pins := ready.pins
    omega
  writes := by
    have writes := ready.writes
    omega

/-- `write_block`. -/
theorem Ready.write (ready : Ready tables (1 + budget) s array) {pnum : Nat} {page : Block}
    (kind : ∀ slots, page = .inode slots → pnum ∈ tables) (inum : Nat) :
    Ready tables budget (s.put pnum page) (array.after (.write page inum pnum)) where
  blocks := (ready.put kind).blocks
  covers := (ready.put kind).covers
  held := ready.held
  pins := (ready.mono (Nat.le_add_left budget 1)).pins
  writes := by
    have writes := ready.writes
    show 2 * (array.unsynced + 1 + budget) ≤ intMax
    omega

/-- `increase_pin_count` on a block of the list. -/
theorem Ready.pin (ready : Ready tables (1 + budget) s array) {pnum : Nat} (inside : pnum ∈ tables)
    (inum : Nat) : Ready tables budget s (array.after (.pin inum pnum)) where
  blocks := ready.blocks
  covers := ready.covers
  held block member := by
    rcases List.mem_cons.mp member with rfl | before
    · exact inside
    · exact ready.held block before
  pins := by
    have pins := ready.pins
    show (pnum :: array.held).length + budget ≤ intMax
    rw [List.length_cons]
    omega
  writes := (ready.mono (Nat.le_add_left budget 1)).writes

/-- Code that has ended. -/
theorem Does.pure (value : α) : Does slots tables s (.done value) 0 value s where
  total := rfl
  residue := rfl
  runs ready := ⟨_, .done, by rwa [Nat.zero_add] at ready⟩

/-- Code that is put together from two parts. -/
theorem Does.bind {program : CacheProgram Block α} {next : α → CacheProgram Block β} {result : β}
    (first : Does slots tables s program cost value s')
    (second : Does slots tables s' (next value) cost' result s'') :
    Does slots tables s (program >>= next) (cost + cost') result s'' where
  total := second.total.trans first.total
  residue := second.residue.trans first.residue
  runs ready := by
    rw [Nat.add_assoc] at ready
    obtain ⟨mid, plain, ready'⟩ := first.runs ready
    obtain ⟨after, plain', ready''⟩ := second.runs ready'
    rw [first.total] at plain'
    exact ⟨after, plain.bind plain', ready''⟩

/-- Code behind one that reads. -/
theorem Does.after {program : CacheProgram Block α} {next : α → CacheProgram Block β} {result : β}
    (first : Does slots tables s program 0 value s)
    (second : Does slots tables s (next value) cost result s') :
    Does slots tables s (program >>= next) cost result s' := by
  have both := first.bind second
  rwa [Nat.zero_add] at both

/-- Code in front of one that reads. -/
theorem Does.before {program : CacheProgram Block α} {next : α → CacheProgram Block β} {result : β}
    (first : Does slots tables s program cost value s')
    (second : Does slots tables s' (next value) 0 result s'') :
    Does slots tables s (program >>= next) cost result s'' := first.bind second

/-- A cost may be taken as higher. -/
theorem Does.mono {program : CacheProgram Block α} (does : Does slots tables s program cost value s')
    (more : cost ≤ cost') : Does slots tables s program cost' value s' where
  total := does.total
  residue := does.residue
  runs ready := does.runs (ready.mono (Nat.add_le_add_right more _))

/-- `get_block`. -/
theorem Does.get (fits : tables.length + 1 < slots) {pnum : Nat} {page : Block}
    (get : s.get pnum = some page) (inum : Nat) :
    Does slots tables s (Cached.getBlock inum pnum) 0 page s where
  total := rfl
  residue := rfl
  runs {array budget} ready := by
    rw [Nat.zero_add] at ready
    obtain ⟨below, rfl⟩ := Store.get_eq_some get
    refine ⟨array, .call below (ready.allows fits) ?_, ready⟩
    rw [← ready.blocks]
    exact .done

/-- `superblock_read`. -/
theorem Does.superblockRead (fits : tables.length + 1 < slots) (nonempty : 0 < s.totalBlocks)
    {superblock : Superblock} (read : superblockRead s = some superblock) :
    Does slots tables s Cached.superblockRead 0 superblock s := by
  refine (Does.get fits (Store.get_of_lt nonempty) 0).after ?_
  rw [superblockRead_page read]
  exact .pure superblock

/-- `btree_node_read`. -/
theorem Does.btreeNodeRead (fits : tables.length + 1 < slots) {block : Nat}
    {node : Option BTreeNode} (read : btreeNodeRead s block = some node) :
    Does slots tables s (Cached.btreeNodeRead block) 0 node s := by
  obtain ⟨page, get, rfl⟩ := Option.map_eq_some_iff.mp read
  exact (Does.get fits get 0).after (.pure page.node?)

/-- The recursion of `btree_search`. -/
theorem Does.btreeSearchFrom (fits : tables.length + 1 < slots) {key fuel block found : Nat}
    (run : btreeSearchFrom s key fuel block = some found) :
    Does slots tables s (Cached.btreeSearchFrom key fuel block) 0 found s := by
  induction fuel generalizing block with
  | zero => cases run
  | succ fuel ih =>
    rw [Nbtrfs.btreeSearchFrom] at run
    obtain ⟨read, node, run⟩ := Option.bind_eq_some_iff.mp run
    refine (Does.btreeNodeRead fits node).after ?_
    cases read with
    | none =>
      obtain rfl := Option.some.inj run
      exact .pure 0
    | some node =>
      dsimp only at run ⊢
      split at run
      case isTrue leaf =>
        obtain rfl := Option.some.inj run
        rw [if_pos leaf]
        exact .pure _
      case isFalse inner =>
        rw [if_neg inner]
        split at run
        case isTrue child =>
          rw [if_pos child]
          exact ih run
        case isFalse none =>
          obtain rfl := Option.some.inj run
          rw [if_neg none]
          exact .pure 0

/-- The node that a component leads to. -/
theorem Does.enterNode (fits : tables.length + 1 < slots) {block : Nat} {node : BTreeNode}
    {entered : Option BTreeNode} (run : enterNode s block node = some entered) :
    Does slots tables s (Cached.enterNode block node) 0 entered s := by
  rw [Nbtrfs.enterNode] at run
  obtain ⟨reloaded, reload, run⟩ := Option.bind_eq_some_iff.mp run
  obtain ⟨read, found, rfl⟩ := Option.map_eq_some_iff.mp reload
  refine (Does.btreeNodeRead fits found).after ?_
  dsimp only at run ⊢
  split at run
  case isTrue directory =>
    rw [if_pos directory]
    exact .btreeNodeRead fits run
  case isFalse file =>
    obtain rfl := Option.some.inj run
    rw [if_neg file]
    exact .pure _

/-- The loop of `item_search`. -/
theorem Does.itemSearchFrom (fits : tables.length + 1 < slots) {path currPath : CString}
    {left i : Nat} {node : BTreeNode} {pair : InodeBtreePair}
    (run : itemSearchFrom s path left i node currPath = some pair) :
    Does slots tables s (Cached.itemSearchFrom s.walkFuel path left i node currPath) 0 pair s := by
  induction left generalizing i node currPath with
  | zero =>
    obtain rfl := Option.some.inj run
    exact .pure noPair
  | succ left ih =>
    rw [Nbtrfs.itemSearchFrom] at run
    obtain ⟨token, component, run⟩ := Option.bind_eq_some_iff.mp run
    obtain ⟨block, search, run⟩ := Option.bind_eq_some_iff.mp run
    rw [Cached.itemSearchFrom, component]
    refine (Does.btreeSearchFrom fits search).after ?_
    dsimp only at run ⊢
    split at run
    case isTrue missing =>
      obtain rfl := Option.some.inj run
      rw [if_pos missing]
      exact .pure noPair
    case isFalse found =>
      rw [if_neg found]
      obtain ⟨entered, enter, run⟩ := Option.bind_eq_some_iff.mp run
      refine (Does.enterNode fits enter).after ?_
      cases entered with
      | none =>
        obtain rfl := Option.some.inj run
        exact .pure noPair
      | some next =>
        dsimp only at run ⊢
        split at run
        case isTrue whole =>
          obtain rfl := Option.some.inj run
          rw [if_pos whole]
          exact .pure _
        case isFalse further =>
          rw [if_neg further]
          exact ih run

/-- `item_search`. -/
theorem Does.itemSearch (fits : tables.length + 1 < slots) (nonempty : 0 < s.totalBlocks)
    {path : CString} {pair : InodeBtreePair} (run : itemSearch s path = some pair) :
    Does slots tables s (Cached.itemSearch s.walkFuel path) 0 pair s := by
  rw [Nbtrfs.itemSearch] at run
  obtain ⟨superblock, read, run⟩ := Option.bind_eq_some_iff.mp run
  obtain ⟨node, load, run⟩ := Option.bind_eq_some_iff.mp run
  refine (Does.superblockRead fits nonempty read).after ?_
  refine (Does.btreeNodeRead fits (Option.join_eq_some_iff.mp load)).after ?_
  dsimp only at run ⊢
  split at run
  case isTrue top =>
    obtain rfl := Option.some.inj run
    rw [if_pos top]
    exact .pure _
  case isFalse below =>
    rw [if_neg below]
    exact .itemSearchFrom fits run

/-- `inode_read`. -/
theorem Does.inodeRead (fits : tables.length + 1 < slots) (nonempty : 0 < s.totalBlocks)
    {inodeNumber : Nat} {node : Option Inode} (run : inodeRead s inodeNumber = some node) :
    Does slots tables s (Cached.inodeRead inodeNumber) 0 node s := by
  rw [Nbtrfs.inodeRead] at run
  obtain ⟨superblock, read, run⟩ := Option.bind_eq_some_iff.mp run
  obtain ⟨page, get, run⟩ := Option.bind_eq_some_iff.mp run
  refine (Does.superblockRead fits nonempty read).after ?_
  refine (Does.get fits get 0).after ?_
  cases page with
  | inode | super | bitmap | btreeNode | journal | data | untagged =>
    obtain rfl := Option.some.inj run
    exact .pure _

/-- `inode_write` without write-through keeps a pin. -/
theorem Does.inodeWrite (fits : tables.length + 1 < slots) (nonempty : 0 < s.totalBlocks)
    {inode : Inode} {written : Bool} (run : inodeWrite s inode false = some (written, s')) :
    Does slots tables s (Cached.inodeWrite inode false) 2 written s' := by
  rw [Nbtrfs.inodeWrite] at run
  obtain ⟨superblock, read, run⟩ := Option.bind_eq_some_iff.mp run
  obtain ⟨page, get, run⟩ := Option.bind_eq_some_iff.mp run
  refine (Does.superblockRead fits nonempty read).after ?_
  refine (Does.get fits get 0).after ?_
  cases page with
  | inode inodes =>
    obtain ⟨rfl, rfl⟩ := Prod.mk.inj (Option.some.inj run)
    obtain ⟨below, tag⟩ := Store.get_eq_some get
    refine ⟨rfl, rfl, fun {array budget} ready => ?_⟩
    rw [Nat.add_assoc 1 1 budget] at ready
    have inside := ready.covers _ _ tag
    have written := @Ready.write _ _ _ _ ready _
      (.inode (setSlot inodes (inode.inodeNumber % inodesPerPage) inode)) (fun _ _ => inside) 0
    have pinned := written.pin inside 0
    exact ⟨_, .behind below (written.allows fits) (.call below (pinned.allows fits) .done), pinned⟩
  | super | bitmap | btreeNode | journal | data | untagged =>
    obtain ⟨rfl, rfl⟩ := Prod.mk.inj (Option.some.inj run)
    exact ⟨rfl, rfl, fun {array budget} ready => ⟨array, .done, ready.mono (Nat.le_add_left budget 2)⟩⟩

/-- A block number read through a pointer. -/
theorem Does.readPointer (fits : tables.length + 1 < slots) {page index pointer : Nat}
    (run : readPointer s page index = some pointer) (inum : Nat) :
    Does slots tables s (Cached.readPointer s.residue inum page index) 0 pointer s := by
  rw [Nbtrfs.readPointer] at run
  obtain ⟨block, get, run⟩ := Option.bind_eq_some_iff.mp run
  refine (Does.get fits get inum).after ?_
  split at run
  case isTrue small =>
    obtain rfl := Option.some.inj run
    rw [if_pos small]
    exact .pure _
  case isFalse => cases run

/-- `inode_get_block`. -/
theorem Does.inodeGetBlock (fits : tables.length + 1 < slots) {inode : Inode} {blockIndex : Nat}
    {result : Bool × Option Nat} (run : inodeGetBlock s inode blockIndex = some result) :
    Does slots tables s (Cached.inodeGetBlock s.residue inode blockIndex) 0 result s := by
  rw [Nbtrfs.inodeGetBlock] at run
  rw [Cached.inodeGetBlock]
  split at run
  case isTrue direct =>
    obtain rfl := Option.some.inj run
    rw [if_pos direct]
    exact .pure _
  case isFalse direct =>
    rw [if_neg direct]
    split at run
    case isTrue indirect =>
      rw [if_pos indirect]
      split at run
      case isTrue none =>
        obtain rfl := Option.some.inj run
        rw [if_pos none]
        exact .pure _
      case isFalse mapped =>
        obtain ⟨page, get, run⟩ := Option.bind_eq_some_iff.mp run
        rw [if_neg mapped]
        refine (Does.get fits get inode.inodeNumber).after ?_
        cases page with
        | data | super | bitmap | inode | btreeNode | journal | untagged =>
          obtain rfl := Option.some.inj run
          exact .pure _
    case isFalse indirect =>
      rw [if_neg indirect]
      split at run
      case isTrue none =>
        obtain rfl := Option.some.inj run
        rw [if_pos none]
        exact .pure _
      case isFalse mapped =>
        obtain ⟨page, entry, run⟩ := Option.bind_eq_some_iff.mp run
        obtain ⟨lower, read, run⟩ := Option.bind_eq_some_iff.mp run
        obtain ⟨pointer, read', run⟩ := Option.bind_eq_some_iff.mp run
        rw [if_neg mapped, entry]
        refine (Does.readPointer fits read inode.inodeNumber).after ?_
        refine (Does.readPointer fits read' inode.inodeNumber).after ?_
        split at run
        case isTrue zero =>
          obtain rfl := Option.some.inj run
          rw [if_pos zero]
          exact .pure _
        case isFalse found =>
          obtain rfl := Option.some.inj run
          rw [if_neg found]
          exact .pure _

/-- `nbtrfs_access`. -/
theorem Does.nbtrfsAccess (fits : tables.length + 1 < slots) (nonempty : 0 < s.totalBlocks)
    {path : CString} {found : Bool} (run : nbtrfsAccess s path = some found) :
    Does slots tables s (Cached.nbtrfsAccess s.walkFuel path) 0 found s := by
  obtain ⟨pair, search, rfl⟩ := Option.map_eq_some_iff.mp run
  exact (Does.itemSearch fits nonempty search).after (.pure _)

/-- `nbtrfs_getattr`. -/
theorem Does.nbtrfsGetattr (fits : tables.length + 1 < slots) (nonempty : 0 < s.totalBlocks)
    {path : CString} {stat : Option Stat} (run : nbtrfsGetattr s path = some stat) :
    Does slots tables s (Cached.nbtrfsGetattr s.walkFuel path) 0 stat s := by
  rw [Nbtrfs.nbtrfsGetattr] at run
  obtain ⟨pair, search, run⟩ := Option.bind_eq_some_iff.mp run
  refine (Does.itemSearch fits nonempty search).after ?_
  split at run
  case isTrue found =>
    obtain ⟨node, load, run⟩ := Option.bind_eq_some_iff.mp run
    obtain rfl := Option.some.inj run
    rw [if_pos found]
    exact (Does.inodeRead fits nonempty (Option.join_eq_some_iff.mp load)).after (.pure _)
  case isFalse missing =>
    obtain rfl := Option.some.inj run
    rw [if_neg missing]
    exact .pure _

/-- The loop of `nbtrfs_read`. -/
theorem Does.readLoop (fits : tables.length + 1 < slots) {node : Inode}
    {fuel remaining offset : Nat} {buffer : List UInt8} {result : Int × List UInt8}
    (run : readLoop s node fuel remaining offset buffer = some result) :
    Does slots tables s (Cached.readLoop s.residue node fuel remaining offset buffer) 0 result s := by
  induction fuel generalizing remaining offset buffer with
  | zero => cases run
  | succ fuel ih =>
    rw [Nbtrfs.readLoop] at run
    rw [Cached.readLoop]
    split at run
    case isTrue ended =>
      obtain rfl := Option.some.inj run
      rw [if_pos ended]
      exact .pure _
    case isFalse further =>
      rw [if_neg further]
      obtain ⟨⟨mapped, block⟩, get, run⟩ := Option.bind_eq_some_iff.mp run
      refine (Does.inodeGetBlock fits get).after ?_
      dsimp only at run ⊢
      split at run
      case isTrue fails =>
        obtain rfl := Option.some.inj run
        rw [if_pos fails]
        exact .pure _
      case isFalse succeeds =>
        rw [if_neg succeeds]
        split at run
        case isTrue hole =>
          obtain rfl := Option.some.inj run
          rw [if_pos hole]
          exact .pure _
        case isFalse filled =>
          rw [if_neg filled]
          obtain ⟨page, get', run⟩ := Option.bind_eq_some_iff.mp run
          exact (Does.get fits get' node.inodeNumber).after (ih run)

/-- `nbtrfs_read`. -/
theorem Does.nbtrfsRead (fits : tables.length + 1 < slots) (nonempty : 0 < s.totalBlocks)
    {path : CString} {size offset : Nat} {result : Int × List UInt8}
    (run : nbtrfsRead s path size offset = some result) :
    Does slots tables s (Cached.nbtrfsRead s.residue s.walkFuel path size offset) 0 result s := by
  rw [Nbtrfs.nbtrfsRead] at run
  obtain ⟨pair, search, run⟩ := Option.bind_eq_some_iff.mp run
  refine (Does.itemSearch fits nonempty search).after ?_
  split at run
  case isTrue missing =>
    obtain rfl := Option.some.inj run
    rw [if_pos missing]
    exact .pure _
  case isFalse found =>
    rw [if_neg found]
    split at run
    case isTrue directory =>
      obtain rfl := Option.some.inj run
      rw [if_pos directory]
      exact .pure _
    case isFalse file =>
      rw [if_neg file]
      obtain ⟨node, read, run⟩ := Option.bind_eq_some_iff.mp run
      refine (Does.inodeRead fits nonempty read).after ?_
      cases node with
      | none =>
        obtain rfl := Option.some.inj run
        exact .pure _
      | some node =>
        dsimp only at run ⊢
        split at run
        case isTrue behind =>
          obtain rfl := Option.some.inj run
          rw [if_pos behind]
          exact .pure _
        case isFalse inside =>
          rw [if_neg inside]
          exact .readLoop fits run

/-- `nbtrfs_utimens` on the block store: whether it returns 0. -/
def nbtrfsUtimens (s : Store) (path : CString) (access modification : Cached.Timespec) :
    Option (Bool × Store) := do
  let pair ← itemSearch s path
  match ← inodeRead s pair.inodeNumber with
  | none => some (false, s)
  | some node =>
    inodeWrite s
      { node with accessTime := access.stamp, modificationTime := modification.stamp } false

/-- `nbtrfs_utimens` through the cache. -/
theorem Does.nbtrfsUtimens (fits : tables.length + 1 < slots) (nonempty : 0 < s.totalBlocks)
    {path : CString} {access modification : Cached.Timespec} {done : Bool}
    (run : nbtrfsUtimens s path access modification = some (done, s')) :
    Does slots tables s (Cached.nbtrfsUtimens s.walkFuel path access modification) 2 done s' := by
  rw [Nbtrfs.nbtrfsUtimens] at run
  obtain ⟨pair, search, run⟩ := Option.bind_eq_some_iff.mp run
  refine (Does.itemSearch fits nonempty search).after ?_
  obtain ⟨node, read, run⟩ := Option.bind_eq_some_iff.mp run
  refine (Does.inodeRead fits nonempty read).after ?_
  cases node with
  | none =>
    obtain ⟨rfl, rfl⟩ := Prod.mk.inj (Option.some.inj run)
    exact (Does.pure false).mono (Nat.zero_le 2)
  | some node => exact .inodeWrite fits nonempty run

/-- Bytes of a page are replaced while the page is pinned. -/
theorem Does.writePayload (fits : tables.length + 1 < slots) {pnum offset : Nat}
    {piece : List UInt8} (run : writePayload s pnum offset piece = some s') (inum pinned : Nat) :
    Does slots tables s (Cached.writePayload inum pinned pnum offset piece) 1 () s' := by
  obtain ⟨page, get, run⟩ := Option.bind_eq_some_iff.mp run
  refine (Does.get fits get inum).after ?_
  obtain ⟨below, -⟩ := Store.get_eq_some get
  have replaced : ∀ {new : Block}, (∀ slots, new ≠ .inode slots) →
      Does slots tables s (.call (.pin pinned pnum) fun _ => .assign pnum new <|
        .call (.write new inum pnum) fun _ => .call (.unpin pinned pnum) fun _ => .done ()) 1 ()
        (s.put pnum new) := by
    intro new kind
    refine ⟨rfl, rfl, fun {array budget} ready => ?_⟩
    have written := @Ready.write _ _ _ _ ready pnum new (fun slots wrong => absurd wrong (kind slots))
      inum
    have allows := written.allows fits
    have pinnedBlocks : (pnum :: array.held).dedup.length ≤ tables.length + 1 := by
      have inside : (pnum :: array.held).dedup ⊆ pnum :: tables := by
        intro block member
        rcases List.mem_cons.mp (List.mem_dedup.mp member) with rfl | before
        · exact List.mem_cons_self
        · exact List.mem_cons_of_mem _ (ready.held block before)
      exact ((List.nodup_dedup _).subperm inside).length_le
    have pins := ready.pins
    have length : (pnum :: array.held).length ≤ intMax := by
      rw [List.length_cons]
      omega
    refine ⟨_, .call below ⟨lt_of_le_of_lt pinnedBlocks fits, length, (ready.allows fits).2.2⟩
      (.behind below ⟨lt_of_le_of_lt pinnedBlocks fits, length, allows.2.2⟩
        (.call below ?_ .done)), ?_⟩
    · show ((pnum :: array.held).erase pnum).dedup.length < slots ∧
        ((pnum :: array.held).erase pnum).length ≤ intMax ∧ _
      rw [List.erase_cons_head]
      exact allows
    · have same : (pnum :: array.held).erase pnum = array.held := List.erase_cons_head _ _
      refine ⟨written.blocks, written.covers, ?_, ?_, written.writes⟩
      · show ∀ block ∈ (pnum :: array.held).erase pnum, block ∈ tables
        rw [same]
        exact ready.held
      · show ((pnum :: array.held).erase pnum).length + budget ≤ intMax
        rw [same]
        exact written.pins
  cases page with
  | data bytes =>
    obtain rfl := Option.some.inj run
    exact replaced fun _ => nofun
  | untagged bytes =>
    obtain rfl := Option.some.inj run
    exact replaced fun _ => nofun
  | super | bitmap | inode | btreeNode | journal => cases run

/-- The loop of `nbtrfs_write` over blocks that the file has. -/
def overwriteLoop (node : Inode) : Nat → List UInt8 → Nat → Store → Option Store
  | 0, _, _, _ => none
  | fuel + 1, buffer, offset, s =>
    if buffer = [] then some s
    else do
      let (_, mapped) ← inodeGetBlock s node (offset / usableBlockSize)
      if assigned 0 mapped = 0 then none
      else do
        let bytes := min (usableBlockSize - offset % usableBlockSize) buffer.length
        let s ← writePayload s (assigned 0 mapped) (offset % usableBlockSize) (buffer.take bytes)
        overwriteLoop node fuel (buffer.drop bytes) (offset + bytes) s

/-- Over blocks that the file has `nbtrfs_write` writes the whole buffer. -/
theorem writeLoop_overwrite {append : Append} {locals : Locals} {node : Inode} {size fuel : Nat}
    {buffer : List UInt8} {offset done : Nat}
    (run : overwriteLoop node fuel buffer offset s = some s') :
    writeLoop append locals size fuel buffer offset done node s =
      some (true, done + buffer.length, node, s') := by
  induction fuel generalizing buffer offset done s with
  | zero => cases run
  | succ fuel ih =>
    rw [overwriteLoop] at run
    rw [writeLoop]
    split at run
    case isTrue ended =>
      obtain rfl := Option.some.inj run
      rw [if_pos ended, ended]
      rfl
    case isFalse further =>
      obtain ⟨⟨success, mapped⟩, get, run⟩ := Option.bind_eq_some_iff.mp run
      dsimp only at run
      split at run
      case isTrue => cases run
      case isFalse filled =>
        obtain ⟨next, write, run⟩ := Option.bind_eq_some_iff.mp run
        have block : fileBlockAt append locals s node (offset / usableBlockSize) size =
            some (assigned 0 mapped, node, s) := by
          rw [fileBlockAt, get, Option.bind_eq_bind, Option.bind_some]
          dsimp only
          rw [if_pos filled]
        rw [if_neg further, block, Option.bind_eq_bind, Option.bind_some]
        dsimp only
        rw [if_neg filled, write, Option.bind_eq_bind, Option.bind_some, ih run, List.length_drop]
        have whole : min (usableBlockSize - offset % usableBlockSize) buffer.length ≤ buffer.length :=
          Nat.min_le_right _ _
        have count : done + min (usableBlockSize - offset % usableBlockSize) buffer.length +
            (buffer.length - min (usableBlockSize - offset % usableBlockSize) buffer.length) =
              done + buffer.length := by omega
        rw [count]

/-- The pages that bytes from an offset on lie in. -/
def pagesTouched (offset length : Nat) : Nat :=
  if length = 0 then 0 else pagesFor (offset % usableBlockSize + length)

/-- The page of the first byte, and those behind it. -/
theorem pagesTouched_round {offset length : Nat} (further : length ≠ 0) :
    pagesTouched offset length =
      1 + pagesTouched (offset + min (usableBlockSize - offset % usableBlockSize) length)
        (length - min (usableBlockSize - offset % usableBlockSize) length) := by
  unfold pagesTouched pagesFor usableBlockSize
  rw [if_neg further]
  by_cases inside : length ≤ 4092 - offset % 4092
  · rw [Nat.min_eq_right inside, Nat.sub_self, if_pos rfl]
    omega
  · rw [Nat.min_eq_left (Nat.le_of_not_le inside), if_neg (by omega)]
    omega

/-- The loop through the cache, at the cost of a call of `write_block` for each page. -/
theorem Does.writeLoop (fits : tables.length + 1 < slots) {allocating : Cached.Allocating}
    {node : Inode} {fuel pinned offset done : Nat} {buffer : List UInt8}
    (run : overwriteLoop node fuel buffer offset s = some s') :
    Does slots tables s (Cached.writeLoop s.residue allocating pinned fuel buffer offset done node)
      (pagesTouched offset buffer.length) (true, done + buffer.length, node) s' := by
  induction fuel generalizing buffer offset done s with
  | zero => cases run
  | succ fuel ih =>
    rw [overwriteLoop] at run
    rw [Cached.writeLoop]
    split at run
    case isTrue ended =>
      obtain rfl := Option.some.inj run
      rw [if_pos ended, ended]
      exact (Does.pure _).mono (Nat.zero_le _)
    case isFalse further =>
      obtain ⟨⟨success, mapped⟩, get, run⟩ := Option.bind_eq_some_iff.mp run
      dsimp only at run
      split at run
      case isTrue => cases run
      case isFalse filled =>
        obtain ⟨next, write, run⟩ := Option.bind_eq_some_iff.mp run
        have block : Does slots tables s
            (Cached.fileBlockAt s.residue allocating node (offset / usableBlockSize)) 0
            (assigned 0 mapped, node) s := by
          refine (Does.inodeGetBlock fits get).after ?_
          dsimp only
          rw [if_pos filled]
          exact .pure _
        rw [if_neg further]
        refine block.after ?_
        dsimp only
        rw [if_neg filled, pagesTouched_round fun empty => further (List.length_eq_zero_iff.mp empty)]
        have first := Does.writePayload fits write node.inodeNumber pinned
        refine first.bind ?_
        have rest : Does slots tables next (Cached.writeLoop next.residue allocating pinned fuel
            (buffer.drop (min (usableBlockSize - offset % usableBlockSize) buffer.length))
            (offset + min (usableBlockSize - offset % usableBlockSize) buffer.length)
            (done + min (usableBlockSize - offset % usableBlockSize) buffer.length) node)
            (pagesTouched (offset + min (usableBlockSize - offset % usableBlockSize) buffer.length)
              (buffer.drop (min (usableBlockSize - offset % usableBlockSize) buffer.length)).length)
            (true, done + min (usableBlockSize - offset % usableBlockSize) buffer.length +
              (buffer.drop (min (usableBlockSize - offset % usableBlockSize) buffer.length)).length,
              node) s' := ih run
        rw [first.residue, List.length_drop] at rest
        have whole : min (usableBlockSize - offset % usableBlockSize) buffer.length ≤ buffer.length :=
          Nat.min_le_right _ _
        have count : done + min (usableBlockSize - offset % usableBlockSize) buffer.length +
            (buffer.length - min (usableBlockSize - offset % usableBlockSize) buffer.length) =
              done + buffer.length := by omega
        rw [count] at rest
        exact rest

end

end Nbtrfs
