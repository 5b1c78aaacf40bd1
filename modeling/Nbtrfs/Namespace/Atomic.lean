import Nbtrfs.Namespace.Created

/-!
# Creating a name on a full image

`_mknod` allocates an inode, blocks of its directory and their pointer blocks, the root node of a
new directory, the leaf of the name and the nodes of splits. Whether one of these allocations fails
is decided by following the call up to the first one that does. What went before is never undone,
and the B-tree code uses the node that it did not get.
-/

namespace Nbtrfs

/-- Whether `alloc_page` returns 0. -/
def Store.exhausted (s : Store) : Bool := (allocPage s).any fun allocated => allocated.1 = 0

/-- Whether an allocation fails in `inode_set_block` of a block that is not 0. -/
def setBlockExhausts (s : Store) (inode : Inode) (blockIndex : Nat) : Option Bool :=
  if blockIndex < directPointers then some false
  else if blockIndex ≤ pointersPerPage + directPointers then
    some (inode.indirectBlock = 0 && s.exhausted)
  else do
    let page ← doublePage blockIndex
    let (ready, inode, s) ←
      if inode.doubleIndirectBlock = 0 then newDoubleIndirectBlock s inode else some (true, inode, s)
    if !ready then some true
    else do
      let lower ← readPointer s inode.doubleIndirectBlock page
      some (lower = 0 && s.exhausted)

/-- Whether an allocation fails where `directory_add_entry` finds or makes a block. -/
def directoryBlockExhausts (s : Store) (node : Inode) (i : Nat) : Option Bool := do
  let (_, mapped) ← inodeGetBlock s node i
  if assigned 0 mapped ≠ 0 then some false
  else do
    let (block, s) ← allocPage s
    if block = 0 then some true else setBlockExhausts s node i

/-- Whether an allocation fails in `btree_split_root`. -/
def splitRootExhausts (s : Store) : Option Bool := do
  let (childA, s) ← btreeNodeCreate s false
  if childA = 0 then some true
  else do
    let (childB, _) ← btreeNodeCreate s false
    some (childB = 0)

/-- Whether an allocation fails in `btree_split_child`. -/
def splitChildExhausts : Nat → Store → BTreeNode → BTreeNode → Option Bool
  | 0, _, _, _ => none
  | fuel + 1, s, node, child => do
    let (childB, s) ← btreeNodeCreate s false
    if childB = 0 then some true
    else do
      let s ← btreeNodeModify s childB fun fresh => { fresh with
        parent := node.blockNumber
        leftSibling := child.blockNumber
        keys := copyFrom fresh.keys child.keys (minKeys + 1) (child.numKeys - (minKeys + 1))
        children := copyFrom fresh.children child.children (minKeys + 1) (child.numKeys - minKeys)
        numKeys := fresh.numKeys + (child.numKeys - (minKeys + 1)) }
      let s ← reparent s ((indices (minKeys + 1) (child.numKeys + 1)).map child.children) childB
      if node.numKeys < maxKeys then some false
      else if node.parent ≠ 0 then do
        let grandparent ← btreeNodeLoad s node.parent
        splitChildExhausts fuel s grandparent node
      else splitRootExhausts s

/-- Whether an allocation fails in `btree_insert`. -/
def insertExhausts (s : Store) (rootBlock key value type : Nat) : Option Bool := do
  let (page, s) ← btreeNodeCreate s true
  if page = 0 then some true
  else do
    let s ← btreeNodeModify s page fun node => { node with key, value, type }
    let targetBlock ← btreeInsertionSearch s rootBlock key
    let target ← btreeNodeLoad s targetBlock
    if target.numKeys = maxKeys then
      if target.keys (maxKeys - 1) < key ∧ target.children maxKeys = 0 then some false
      else if target.parent ≠ 0 then do
        let parent ← btreeNodeLoad s target.parent
        splitChildExhausts s.walkFuel s parent target
      else splitRootExhausts s
    else some false

/-- Whether an allocation fails where `directory_add_entry` enters a name into the B-tree. -/
def insertNameExhausts (s : Store) (btreeBlock : Nat) (name : CString) (targetInode type : Nat) :
    Option Bool :=
  if type = fileTypeDirectory then do
    let (dirRootPage, s) ← btreeNodeCreate s false
    if dirRootPage = 0 then some true
    else do
      let s ← btreeNodeModify s dirRootPage fun node =>
        { node with value := targetInode, type := fileTypeDirectory }
      insertExhausts s btreeBlock (pathHash name) dirRootPage type
  else insertExhausts s btreeBlock (pathHash name) targetInode type

section

variable (append : Append) (locals : Locals)

/-- Whether an allocation fails in the loop of `directory_add_entry`. -/
def addEntryExhaustsFrom (pair : InodeBtreePair) (name : CString) (targetInode type : Nat)
    (writeThrough : Bool) : Nat → Nat → Inode → Nat → Nat → Store → Option Bool
  | 0, _, _, _, _, _ => some false
  | left + 1, i, node, numberOfEntries, count, s => do
    if ← directoryBlockExhausts s node i then some true
    else do
      let (block, node, s) ← directoryBlockAt append locals s node i writeThrough
      match ← s.get block with
      | .data bytes =>
        let numberOfEntries := if i = 0 then entryCount bytes else numberOfEntries
        match addSlot bytes i numberOfEntries (addSlots i) 0 count with
        | (some _, _) => insertNameExhausts s pair.btreeBlock name targetInode type
        | (none, count) =>
          addEntryExhaustsFrom pair name targetInode type writeThrough left (i + 1) node
            numberOfEntries count s
      | _ => some false

/-- Whether an allocation fails in `directory_add_entry`. -/
def addEntryExhausts (s : Store) (path name : CString) (targetInode type : Nat)
    (writeThrough : Bool) : Option Bool := do
  let pair ← itemSearch s path
  if nameMax ≤ name.length then none
  else if pair.isDirectory path then do
    let node ← inodeReload s pair.inodeNumber zeroInode
    addEntryExhaustsFrom append locals pair name targetInode type writeThrough scanBlocks 0 node 0 0 s
  else some false

/-- Whether an allocation fails in `_mknod`, that of the inode included. -/
def mknodExhausts (host : Host) (assign : Nat → Store → Option Store) (s : Store) (path : CString)
    (mode : Nat) (writeThrough : Bool) : Option Bool := do
  match ← inodeAllocate host s mode true with
  | (none, _) => some true
  | (some allocated, s) =>
    match ← inodeRead s allocated with
    | none => some false
    | some node => do
      let s ← assign node.inodeNumber s
      let (written, s) ← inodeWrite s { node with creationTime := host.time, mode } writeThrough
      if written then
        addEntryExhausts append locals s (parentPath path (countL path)) (getName path)
          node.inodeNumber (mode &&& fileTypeMask) writeThrough
      else some false

end

/-- The bit of an inode in the bitmap of a layout. -/
def Superblock.inodeBit (layout : Superblock) (s : Store) (inodeNumber : Nat) : Option Bool :=
  bitmapGet (s.mem (layout.inodeBitmap + inodeNumber / usableBlockSize))
    (inodeNumber % usableBlockSize)

/-- The `entry_count` of a directory. -/
def directoryCount (s : Store) (path : CString) : Option Nat := do
  let pair ← itemSearch s path
  let node ← inodeReload s pair.inodeNumber zeroInode
  let block ← firstBlock s node 0
  match ← s.get block with
  | .data bytes => some (entryCount bytes)
  | _ => none

/-- Whether the B-tree of a directory has a key. -/
def directoryHasKey (s : Store) (path : CString) (key : Nat) : Option Bool := do
  let pair ← itemSearch s path
  let found ← btreeSearch s pair.btreeBlock key
  some (found ≠ 0)

/-- The bitmaps and a directory are as before. -/
structure Untouched (layout : Superblock) (path : CString) (s s' : Store) : Prop where
  /-- The inode bitmap is as before. -/
  inodes : ∀ inodeNumber, layout.inodeBit s' inodeNumber = layout.inodeBit s inodeNumber
  /-- The block bitmap is as before. -/
  blocks : ∀ block, s'.bit block = s.bit block
  /-- The entries are as before. -/
  entries : directoryList s' path = directoryList s path
  /-- Their number is as before. -/
  count : directoryCount s' path = directoryCount s path
  /-- The keys of the B-tree are as before. -/
  keys : ∀ key, directoryHasKey s' path key = directoryHasKey s path key

/-- A call of `_mknod` fails and leaves the bitmaps and the directory as they were. -/
def Refused (layout : Superblock) (path : CString) (s : Store)
    (result : Option (Option Nat × Bool × Store)) : Prop :=
  ∃ assigned s', result = some (assigned, false, s') ∧
    Untouched layout (parentPath path (countL path)) s s'

/-- Every bit of the inode bitmap is set. The bitmap ends in front of a block of another type. -/
def InodesFull (layout : Superblock) (s : Store) : Prop :=
  ∃ count, (∀ inodeNumber < count, layout.inodeBit s inodeNumber = some true) ∧
    layout.inodeBitmap + count / usableBlockSize < s.totalBlocks ∧
    ∀ words, s.mem (layout.inodeBitmap + count / usableBlockSize) ≠ .bitmap words

section

variable {s s' : Store}

variable {layout : Superblock}

/-- The guard of a layout that keeps some bits of the block bitmap. -/
def Superblock.keeping (layout : Superblock) (bits : Nat → Option Bool) : Guard where
  layout
  nodes _ := none
  bits
  slot _ _ := True

/-- The bits of an image are kept from now on. -/
theorem Guard.Holds.keeping {bits former : Nat → Option Bool}
    (holds : (layout.keeping former).Holds s)
    (given : ∀ block value, bits block = some value → block < s.totalBlocks ∧
      s.bit block = some value) : (layout.keeping bits).Holds s :=
  { holds with
    node := nofun
    taken := nofun
    bit := given }

/-- The bit of an inode stays as it is where the bitmap pages do. -/
theorem inodeBit_same {words : Nat → BitVec 64} {inodeNumber : Nat}
    (page : s.mem (layout.inodeBitmap + inodeNumber / usableBlockSize) = .bitmap words)
    (kept : ∀ block words, s.mem block = .bitmap words → s'.mem block = .bitmap words) :
    layout.inodeBit s' inodeNumber = layout.inodeBit s inodeNumber := by
  unfold Superblock.inodeBit
  rw [kept _ _ page, page]

/-- A bit that is read lies in a page of the bitmap. -/
theorem inodeBit_page {inodeNumber : Nat} {value : Bool}
    (bit : layout.inodeBit s inodeNumber = some value) :
    ∃ words, s.mem (layout.inodeBitmap + inodeNumber / usableBlockSize) = .bitmap words := by
  unfold Superblock.inodeBit at bit
  cases page : s.mem (layout.inodeBitmap + inodeNumber / usableBlockSize) with
  | bitmap words => exact ⟨words, rfl⟩
  | super | inode | btreeNode | journal | data | untagged =>
    rw [page] at bit
    cases bit

/-- `inode_write` changes no bitmap page. -/
theorem inodeWrite_bitmaps {inode : Inode} {done writeThrough : Bool}
    (run : inodeWrite s inode writeThrough = some (done, s')) {block : Nat}
    {words : Nat → BitVec 64} (page : s.mem block = .bitmap words) :
    s'.mem block = .bitmap words := by
  unfold inodeWrite at run
  obtain ⟨superblock, read, run⟩ := Option.bind_eq_some_iff.mp run
  obtain ⟨content, get, run⟩ := Option.bind_eq_some_iff.mp run
  obtain ⟨-, tag⟩ := Store.get_eq_some get
  cases content with
  | inode slots =>
    obtain ⟨-, rfl⟩ := Prod.mk.inj (Option.some.inj run)
    have apart : block ≠ inodePage superblock inode.inodeNumber := by
      intro same
      rw [same, tag] at page
      cases page
    have written : (s.put (inodePage superblock inode.inodeNumber)
        (.inode (setSlot slots (inode.inodeNumber % inodesPerPage) inode))).mem block =
        .bitmap words := by
      rw [Store.put_other _ _ _ _ apart, page]
    cases writeThrough with
    | true => exact written
    | false => exact written
  | super | bitmap | btreeNode | journal | data | untagged =>
    obtain ⟨-, rfl⟩ := Prod.mk.inj (Option.some.inj run)
    exact page

/-- `inode_allocate` finds every bit set, or sets a bit that was clear. -/
theorem inodeAllocateFrom_cases {host : Host} {superblock : Superblock} {mode left ii : Nat}
    {writeThrough : Bool} {result : Option Nat}
    (run : inodeAllocateFrom host s superblock mode writeThrough left ii = some (result, s')) :
    (result = none ∧ s' = s ∧ ∃ count, ii ≤ count ∧
      (∀ inodeNumber, ii ≤ inodeNumber → inodeNumber < count →
        superblock.inodeBit s inodeNumber = some true) ∧
      superblock.inodeBitmap + count / usableBlockSize < s.totalBlocks ∧
      ∀ words, s.mem (superblock.inodeBitmap + count / usableBlockSize) ≠ .bitmap words) ∨
    ∃ inodeNumber, superblock.inodeBit s inodeNumber = some false ∧
      superblock.inodeBit s' inodeNumber = some true := by
  induction left generalizing ii with
  | zero => cases run
  | succ left ih =>
    rw [inodeAllocateFrom] at run
    obtain ⟨ibm, get, run⟩ := Option.bind_eq_some_iff.mp run
    obtain ⟨inside, rfl⟩ := Store.get_eq_some get
    split at run
    case h_1 changed clear put =>
      right
      refine ⟨ii, clear, ?_⟩
      have set : superblock.inodeBit (s.put (superblock.inodeBitmap + ii / usableBlockSize) changed)
          ii = some true := by
        unfold Superblock.inodeBit
        rw [Store.put_same, bitmapGet_bitmapPut put, if_pos rfl]
      obtain ⟨words, page⟩ := inodeBit_page set
      obtain ⟨found, -, run⟩ := Option.bind_eq_some_iff.mp run
      cases found with
      | none =>
        obtain ⟨-, rfl⟩ := Prod.mk.inj (Option.some.inj run)
        exact set
      | some inode =>
        obtain ⟨⟨written, s2⟩, write, run⟩ := Option.bind_eq_some_iff.mp run
        have set2 := (inodeBit_same page fun _ _ => inodeWrite_bitmaps write).trans set
        dsimp only at run
        split at run
        · obtain ⟨-, rfl⟩ := Prod.mk.inj (Option.some.inj run)
          cases writeThrough with
          | true => exact set2
          | false => exact set2
        · obtain ⟨-, rfl⟩ := Prod.mk.inj (Option.some.inj run)
          exact set2
    case h_2 _ set =>
      rcases ih run with ⟨none, same, count, behind, all, ends⟩ | leaked
      · refine Or.inl ⟨none, same, count, by omega, ?_, ends⟩
        intro inodeNumber later before
        by_cases here : inodeNumber = ii
        · rw [here]
          exact set
        · exact all inodeNumber (by omega) before
      · exact Or.inr leaked
    case h_3 noBit noSet =>
      obtain ⟨rfl, rfl⟩ := Prod.mk.inj (Option.some.inj run)
      refine Or.inl ⟨rfl, rfl, ii, Nat.le_refl _, ?_, inside, ?_⟩
      · intro inodeNumber later before
        omega
      · intro words page
        rw [page] at noBit noSet
        cases bit : wordBit (words (ii % usableBlockSize / 64)) (ii % usableBlockSize % 64) with
        | true => exact noBit (congrArg some bit)
        | false => exact noSet _ (congrArg some bit) rfl

/-- `inode_allocate` where every bit is set. -/
theorem inodeAllocateFrom_set {host : Host} {superblock : Superblock} {mode left ii count : Nat}
    {writeThrough : Bool}
    (set : ∀ inodeNumber < count, superblock.inodeBit s inodeNumber = some true)
    (inside : superblock.inodeBitmap + count / usableBlockSize < s.totalBlocks)
    (ends : ∀ words, s.mem (superblock.inodeBitmap + count / usableBlockSize) ≠ .bitmap words)
    (reached : ii ≤ count) (fuel : count < ii + left) :
    inodeAllocateFrom host s superblock mode writeThrough left ii = some (none, s) := by
  induction left generalizing ii with
  | zero => omega
  | succ left ih =>
    have page : superblock.inodeBitmap + ii / usableBlockSize < s.totalBlocks := by
      have before : ii / usableBlockSize ≤ count / usableBlockSize := Nat.div_le_div_right reached
      omega
    rw [inodeAllocateFrom, Store.get_of_lt page, Option.bind_eq_bind, Option.bind_some]
    by_cases last : ii = count
    · rw [last]
      split
      case h_1 clear put =>
        have bit : superblock.inodeBit s count = some false := clear
        obtain ⟨words, bitmap⟩ := inodeBit_page bit
        exact absurd bitmap (ends words)
      case h_2 set =>
        have bit : superblock.inodeBit s count = some true := set
        obtain ⟨words, bitmap⟩ := inodeBit_page bit
        exact absurd bitmap (ends words)
      case h_3 => rfl
    · have bit := set ii (by omega)
      unfold Superblock.inodeBit at bit
      rw [bit]
      exact ih (by omega) (by omega)

variable {locals : Locals} {host : Host} {assign : Nat → Store → Option Store} {node : Inode}
  {path : CString} {mode : Nat}

/-- The assignment to `*out_inode` changes no page, or the entry of a journal page. -/
def AssignsEntry (assign : Nat → Store → Option Store) : Prop :=
  ∀ inodeNumber s s', assign inodeNumber s = some s' →
    s' = s ∨ ∃ block entry entry', s.mem block = .journal entry ∧
      s' = s.put block (.journal entry')

/-- A local variable is no page. -/
theorem assignsEntry_local : AssignsEntry fun _ s => some s :=
  fun _ _ _ run => Or.inl (Option.some.inj run).symm

/-- The replay assigns to the entry that it replays. -/
theorem assignsEntry_replay (block : Nat) : AssignsEntry (assignInode block) := by
  intro inodeNumber s s' run
  unfold assignInode at run
  obtain ⟨entry, -, run⟩ := Option.bind_eq_some_iff.mp run
  obtain ⟨former, get, rfl⟩ := assignEntry_cases run
  exact Or.inr ⟨block, former, _, (Store.get_eq_some get).2, rfl⟩

/-- A round of a loop of `directory_add_entry` that fails is its last one or fills in no entry. -/
theorem addEntryFrom_round {append : Append} {pair : InodeBtreePair} {name : CString}
    {targetInode type left i numberOfEntries count : Nat} {writeThrough : Bool}
    (run : addEntryFrom append locals pair name targetInode type writeThrough (left + 1) i node
      numberOfEntries count s = some (false, s')) :
    ∃ block node' s1,
      directoryBlockAt append locals s node i writeThrough = some (block, node', s1) ∧
      (s' = s1 ∨ block ≠ 0 ∧ ∃ numberOfEntries' count',
        addEntryFrom append locals pair name targetInode type writeThrough left (i + 1) node'
          numberOfEntries' count' s1 = some (false, s')) := by
  rw [addEntryFrom] at run
  obtain ⟨⟨block, node', s1⟩, enter, run⟩ := Option.bind_eq_some_iff.mp run
  refine ⟨block, node', s1, enter, ?_⟩
  dsimp only at run
  split at run
  case isTrue => exact Or.inl (Prod.mk.inj (Option.some.inj run)).2.symm
  case isFalse nonzero =>
    obtain ⟨content, -, run⟩ := Option.bind_eq_some_iff.mp run
    cases content with
    | data bytes =>
      dsimp only at run
      split at run
      case h_1 =>
        obtain ⟨s2, -, run⟩ := Option.bind_eq_some_iff.mp run
        cases (Prod.mk.inj (Option.some.inj run)).1
      case h_2 => exact Or.inr ⟨nonzero, _, _, run⟩
    | super | bitmap | inode | btreeNode | journal | untagged =>
      exact Or.inl (Prod.mk.inj (Option.some.inj run)).2.symm

/-- The guard that keeps one block allocated. -/
def Superblock.marking (layout : Superblock) (block : Nat) : Guard :=
  layout.keeping fun other => if other = block then some true else none

/-- It has no clear bit. -/
theorem Superblock.marking_allocates (block : Nat) : (layout.marking block).Allocates := by
  intro other
  dsimp only [Superblock.marking, Superblock.keeping]
  split
  · decide
  · decide

/-- It holds once the block is allocated. -/
theorem Guard.Holds.marking {page : Nat} (holds : (layout.keeping fun _ => none).Holds s')
    (allocated : Allocated s page s') : (layout.marking page).Holds s' := by
  apply holds.keeping
  intro other value wanted
  split at wanted
  case isTrue same =>
    rw [same, allocated.change.totalBlocks, allocated.change.bits, if_pos rfl]
    exact ⟨allocated.inside, wanted⟩
  case isFalse => cases wanted

/-- The loop of `directory_add_entry` fails without a change, or with a block allocated that was
free. -/
theorem addEntryFrom_failed {pair : InodeBtreePair} {name : CString}
    {targetInode type left i numberOfEntries count : Nat} {writeThrough : Bool}
    (walks : (layout.keeping fun _ => none).Walks i node s)
    (run : addEntryFrom quietAppend locals pair name targetInode type writeThrough left i node
      numberOfEntries count s = some (false, s')) :
    s' = s ∨ ∃ block < s.totalBlocks, s.bit block = some false ∧ s'.bit block = some true := by
  induction left generalizing i node numberOfEntries count with
  | zero => exact Or.inl (Prod.mk.inj (Option.some.inj run)).2.symm
  | succ left ih =>
    obtain ⟨block, node', s1, enter, rest⟩ := addEntryFrom_round run
    rcases directoryBlockAt_cases enter with ⟨done, mapped, get, found, rfl, rfl, rfl⟩ |
      ⟨rfl, rfl, alloc⟩ | ⟨s2, set, s3, alloc, nonzero, link, tail⟩
    · rcases rest with same | ⟨-, _, _, run⟩
      · exact Or.inl same
      · exact ih (walks.found get found) run
    · rcases rest with rfl | ⟨wrong, -⟩
      · rcases allocPage_cases walks.holds.formatted alloc with ⟨-, same, -⟩ | allocated
        · exact Or.inl same
        · exact absurd rfl allocated.nonzero
      · exact absurd rfl wrong
    · rcases allocPage_cases walks.holds.formatted alloc with ⟨zero, -, -⟩ | allocated
      · exact absurd zero nonzero
      · right
        obtain ⟨holds2, fresh⟩ := walks.holds.allocPage (fun _ => nofun) alloc
        have spare := fresh nonzero
        have next := (holds2.marking allocated).mapped (Superblock.marking_allocates block)
          (fun _ _ => trivial) ⟨spare.nonzero, spare.noPage, rfl⟩
          (fun behind =>
            have ready := walks.single_of_alloc alloc nonzero behind
            ⟨ready.nonzero, ready.noPage, rfl⟩) link tail
        have holds' : (layout.marking block).Holds s' := by
          rcases rest with rfl | ⟨-, _, _, run⟩
          · exact next.holds
          · rcases next.addEntryFrom (Superblock.marking_allocates block) run with
              ⟨-, holds'⟩ | ⟨wrong, -⟩
            · exact holds'
            · cases wrong
        exact ⟨block, allocated.inside, allocated.free, (holds'.bit block true (if_pos rfl)).2⟩

/-- The assignment to `*out_inode` changes no bitmap page. -/
theorem AssignsEntry.bitmaps (assigns : AssignsEntry assign) {inodeNumber : Nat}
    (run : assign inodeNumber s = some s') {block : Nat} {words : Nat → BitVec 64}
    (page : s.mem block = .bitmap words) : s'.mem block = .bitmap words := by
  rcases assigns _ _ _ run with rfl | ⟨other, entry, entry', tag, rfl⟩
  · exact page
  · rw [Store.put_other]
    · exact page
    · rintro rfl
      rw [tag] at page
      cases page

/-- It keeps every guard. -/
theorem AssignsEntry.holds {guard : Guard} (assigns : AssignsEntry assign)
    (holds : guard.Holds s) {inodeNumber : Nat} (run : assign inodeNumber s = some s') :
    guard.Holds s' := by
  rcases assigns _ _ _ run with rfl | ⟨block, entry, entry', tag, rfl⟩
  · exact holds
  · apply holds.putPlain
    · apply holds.spare
      rw [tag]
      rfl
    · exact nofun

/-- `directory_add_entry` fails without a change, or with a block allocated that was free. -/
theorem directoryAddEntry_failed {name : CString} {targetInode type : Nat} {writeThrough : Bool}
    (holds : (layout.keeping fun _ => none).Holds s)
    (run : directoryAddEntry quietAppend locals s path name targetInode type writeThrough =
      some (false, s')) :
    s' = s ∨ ∃ block < s.totalBlocks, s.bit block = some false ∧ s'.bit block = some true := by
  unfold directoryAddEntry at run
  obtain ⟨pair, -, run⟩ := Option.bind_eq_some_iff.mp run
  split at run
  · cases run
  · split at run
    · obtain ⟨node, -, run⟩ := Option.bind_eq_some_iff.mp run
      exact addEntryFrom_failed ⟨holds, fun _ _ => trivial, fun behind => absurd behind (by decide)⟩
        run
    · exact Or.inl (Prod.mk.inj (Option.some.inj run)).2.symm

/-- `inode_allocate` finds every bit of the bitmap set, or sets one that was clear. -/
theorem inodeAllocate_cases {writeThrough : Bool} {result : Option Nat}
    (holds : (layout.keeping fun _ => none).Holds s)
    (run : inodeAllocate host s mode writeThrough = some (result, s')) :
    (result = none ∧ s' = s ∧ InodesFull layout s) ∨
      ∃ inodeNumber, layout.inodeBit s inodeNumber = some false ∧
        layout.inodeBit s' inodeNumber = some true := by
  unfold inodeAllocate at run
  obtain ⟨superblock, read, run⟩ := Option.bind_eq_some_iff.mp run
  obtain ⟨other, readOther, same⟩ := holds.superblock
  obtain rfl := Option.some.inj (read.symm.trans readOther)
  have start : superblock.inodeBitmap = layout.inodeBitmap := same.inodeBitmap
  have bits : superblock.inodeBit = layout.inodeBit := by
    funext s inodeNumber
    rw [Superblock.inodeBit, Superblock.inodeBit, start]
  rcases inodeAllocateFrom_cases run with ⟨none, same, count, -, all, inside, ends⟩ | leaked
  · rw [bits] at all
    rw [start] at inside ends
    exact Or.inl ⟨none, same, count, fun inodeNumber => all inodeNumber (Nat.zero_le _), inside,
      ends⟩
  · rw [bits] at leaked
    exact Or.inr leaked

/-- A call of `_mknod` that fails finds every inode in use, leaves the inode it has taken in use,
or leaves a block allocated that was free. -/
theorem mknod_failed (holds : (layout.keeping fun _ => none).Holds s)
    (assigns : AssignsEntry assign) {writeThrough : Bool} {assigned : Option Nat}
    (run : mknod quietAppend locals host assign s path mode writeThrough =
      some (assigned, false, s')) :
    InodesFull layout s ∨
      (∃ inodeNumber, layout.inodeBit s inodeNumber = some false ∧
        layout.inodeBit s' inodeNumber = some true) ∨
      ∃ block, s.bit block = some false ∧ s'.bit block = some true := by
  unfold mknod at run
  obtain ⟨⟨allocated, s1⟩, allocate, run⟩ := Option.bind_eq_some_iff.mp run
  rcases inodeAllocate_cases holds allocate with ⟨-, -, full⟩ | ⟨inodeNumber, clear, set⟩
  · exact Or.inl full
  · right
    obtain ⟨words, page⟩ := inodeBit_page set
    cases allocated with
    | none =>
      obtain ⟨-, rest⟩ := Prod.mk.inj (Option.some.inj run)
      obtain ⟨-, rfl⟩ := Prod.mk.inj rest
      exact Or.inl ⟨inodeNumber, clear, set⟩
    | some number =>
      obtain ⟨found, -, run⟩ := Option.bind_eq_some_iff.mp run
      cases found with
      | none =>
        obtain ⟨-, rest⟩ := Prod.mk.inj (Option.some.inj run)
        obtain ⟨-, rfl⟩ := Prod.mk.inj rest
        exact Or.inl ⟨inodeNumber, clear, set⟩
      | some node =>
        dsimp only at run
        obtain ⟨s2, assignment, run⟩ := Option.bind_eq_some_iff.mp run
        obtain ⟨⟨written, s3⟩, write, run⟩ := Option.bind_eq_some_iff.mp run
        have set3 : layout.inodeBit s3 inodeNumber = some true := by
          rw [inodeBit_same page fun _ _ bitmap =>
            inodeWrite_bitmaps write (assigns.bitmaps assignment bitmap)]
          exact set
        dsimp only at run
        split at run
        · obtain ⟨⟨added, s4⟩, add, run⟩ := Option.bind_eq_some_iff.mp run
          obtain ⟨-, rest⟩ := Prod.mk.inj (Option.some.inj run)
          obtain ⟨rfl, rfl⟩ := Prod.mk.inj rest
          have all : (layout.keeping fun block =>
              if block < s.totalBlocks then s.bit block else none).Holds s := by
            apply holds.keeping
            intro block value wanted
            split at wanted
            case isTrue inside => exact ⟨inside, wanted⟩
            case isFalse => cases wanted
          have all1 := all.inodeAllocate (fun _ _ _ => trivial) allocate
          have all3 := (assigns.holds all1 assignment).inodeWrite trivial write
          rcases directoryAddEntry_failed (all3.keeping nofun) add with
            rfl | ⟨block, inside, free, taken⟩
          · exact Or.inl ⟨inodeNumber, clear, set3⟩
          · right
            refine ⟨block, ?_, taken⟩
            have size : s3.totalBlocks = s.totalBlocks := all3.total.trans all.total.symm
            rw [size] at inside
            have words := holds.formatted.bitmapped.bit inside
            have before := (all3.bit block _ ((if_pos inside).trans words)).2
            rw [free] at before
            rw [words, before]
        · obtain ⟨-, rest⟩ := Prod.mk.inj (Option.some.inj run)
          obtain ⟨-, rfl⟩ := Prod.mk.inj rest
          exact Or.inl ⟨inodeNumber, clear, set3⟩

/-- With every inode in use `inode_allocate` fails and changes nothing. -/
theorem inodeAllocate_set {writeThrough : Bool} (holds : (layout.keeping fun _ => none).Holds s)
    (full : InodesFull layout s) : inodeAllocate host s mode writeThrough = some (none, s) := by
  obtain ⟨count, set, inside, ends⟩ := full
  obtain ⟨superblock, read, same⟩ := holds.superblock
  have start : superblock.inodeBitmap = layout.inodeBitmap := same.inodeBitmap
  rw [inodeAllocate, read, Option.bind_eq_bind, Option.bind_some]
  apply @inodeAllocateFrom_set s host superblock mode _ 0 count
  · intro inodeNumber before
    rw [Superblock.inodeBit, start]
    exact set inodeNumber before
  · rw [start]
    exact inside
  · rw [start]
    exact ends
  · exact Nat.zero_le _
  · have pages : count / usableBlockSize < s.totalBlocks + 1 := by omega
    rw [Nat.zero_add]
    exact (Nat.div_lt_iff_lt_mul (by decide)).mp pages

/-- With every inode in use an allocation fails in `_mknod`, and the call leaves everything as it
was. In a call that replays no entry of the journal, this is the only allocation whose failure
does. -/
theorem mknod_atomic_iff (holds : (layout.keeping fun _ => none).Holds s)
    (assigns : AssignsEntry assign) (append : Append) (locals : Locals) (writeThrough : Bool) :
    (InodesFull layout s →
      mknodExhausts append locals host assign s path mode writeThrough = some true ∧
        Refused layout path s (mknod append locals host assign s path mode writeThrough)) ∧
    (Below (mknod append locals host assign s path mode writeThrough)
        (mknod quietAppend locals host assign s path mode writeThrough) →
      ((mknodExhausts append locals host assign s path mode writeThrough = some true →
          Refused layout path s (mknod append locals host assign s path mode writeThrough)) ↔
        (mknodExhausts append locals host assign s path mode writeThrough = some true →
          InodesFull layout s))) := by
  have refused : InodesFull layout s →
      mknodExhausts append locals host assign s path mode writeThrough = some true ∧
        Refused layout path s (mknod append locals host assign s path mode writeThrough) := by
    intro full
    have allocate := @inodeAllocate_set s layout host mode true holds full
    constructor
    · rw [mknodExhausts, allocate]
      rfl
    · refine ⟨none, s, ?_, fun _ => rfl, fun _ => rfl, rfl, rfl, fun _ => rfl⟩
      rw [mknod, allocate]
      rfl
  refine ⟨refused, fun quiet => ⟨fun atomic exhausts => ?_, fun full exhausts =>
    (refused (full exhausts)).2⟩⟩
  obtain ⟨assigned, s', run, untouched⟩ := atomic exhausts
  rcases mknod_failed holds assigns (quiet _ run) with full | ⟨inodeNumber, clear, set⟩ |
    ⟨block, clear, set⟩
  · exact full
  · rw [untouched.inodes, clear] at set
    cases set
  · rw [untouched.blocks, clear] at set
    cases set

end

/-- The image of 400 blocks whose root directory has one file, with every block allocated. -/
def packedImage : Store where
  totalBlocks := 400
  mem block :=
    if block = 1 then .bitmap fun _ => BitVec.allOnes 64
    else if block = 2 then .bitmap fun word => if word = 0 then 3#64 else 0
    else if 3 ≤ block ∧ block < 7 then
      .inode fun slot =>
        if block = 3 ∧ slot = 0 then zeroInode.withDirect 0 8
        else if block = 3 ∧ slot = 1 then
          { zeroInode with inodeNumber := 1, mode := fileTypeRegular, referenceCount := 1 }
        else zeroInode
    else if block = 7 then
      .btreeNode { freshNode 7 false fileTypeDirectory with
        numKeys := 1, keys := setAt (fun _ => 0) 0 (pathHash [97])
        children := setAt (fun _ => 0) 0 9 }
    else if block = 8 then
      .data (overlay (LittleEndian.store (fun _ => 0) 0 directoryBlockSize 1) (entryOffset 0 0)
        (segment (newFile (fun _ => 0) 1 none [97]) 0 dirEntrySize))
    else if block = 9 then
      .btreeNode { freshNode 9 true fileTypeRegular with
        key := pathHash [97], value := 1, parent := 7 }
    else emptyImage.mem block
  disk _ := .untagged fun _ => 0
  residue := ⟨fun _ => 0, fun _ _ => 0⟩

/-- The image is formatted. -/
theorem packedImage_holds : (emptyLayout.keeping fun _ => none).Holds packedImage := by
  have page : ∀ pnum < 400, bitmapPage pnum = 1 := by
    intro pnum small
    unfold bitmapPage usableBlockSize
    omega
  constructor
  · refine ⟨?_, show 0 < 400 by decide, by decide +kernel, ?_⟩
    · intro pnum small
      rw [page pnum small]
      exact ⟨show 1 < 400 by decide, _, rfl⟩
    · intro pnum small
      rw [page pnum small]
      decide +kernel
  · exact ⟨emptyLayout, rfl, rfl, rfl, rfl, rfl, rfl⟩
  · rfl
  · intro pnum inside
    rw [page pnum inside]
    decide
  · exact nofun
  · exact nofun
  · exact nofun
  · exact fun _ _ _ => trivial

/-- The full image with every inode in use. -/
def usedImage : Store := packedImage.put 2 (.bitmap fun _ => BitVec.allOnes 64)

/-- It is formatted, and no inode is free. -/
theorem usedImage_full :
    (emptyLayout.keeping fun _ => none).Holds usedImage ∧ InodesFull emptyLayout usedImage := by
  constructor
  · apply packedImage_holds.put
    · refine ⟨by decide, fun pnum inside => ?_, rfl⟩
      have small : pnum < 400 := inside
      unfold bitmapPage usableBlockSize
      omega
    · exact fun _ _ _ wrong => nomatch wrong
  · refine ⟨usableBlockSize, fun inodeNumber small => ?_, by decide, nofun⟩
    have page : emptyLayout.inodeBitmap + inodeNumber / usableBlockSize = 2 := by
      rw [Nat.div_eq_of_lt small]
      rfl
    have position : inodeNumber % usableBlockSize % 64 < 64 := Nat.mod_lt _ (by decide)
    rw [Superblock.inodeBit, page]
    show some (wordBit (BitVec.allOnes 64) (inodeNumber % usableBlockSize % 64)) = some true
    rw [wordBit_eq _ _ position, BitVec.getLsbD_allOnes, decide_eq_true position]

/-- A second file is refused to the callback and to the replay of any journal block, and the image stays
as it was. -/
theorem mknod_atomic_iff_full :
    Refused emptyLayout (pathOf [[98]]) usedImage
        (mknod (appendEntry zeroLocals zeroHost) zeroLocals zeroHost (fun _ s => some s) usedImage
          (pathOf [[98]]) fileTypeRegular false) ∧
      ∀ block, Refused emptyLayout (pathOf [[98]]) usedImage
        (mknod (appendEntry zeroLocals zeroHost) zeroLocals zeroHost (assignInode block) usedImage
          (pathOf [[98]]) fileTypeRegular true) :=
  ⟨((mknod_atomic_iff usedImage_full.1 assignsEntry_local _ _ false).1 usedImage_full.2).2,
    fun block =>
      ((mknod_atomic_iff usedImage_full.1 (assignsEntry_replay block) _ _ true).1 usedImage_full.2).2⟩

/-- The leaf of the second file cannot be made, and `btree_insert` uses it all the same. -/
theorem mknod_atomic_false :
    ¬ ∀ (append : Append) (locals : Locals) (host : Host) (assign : Nat → Store → Option Store)
        (layout : Superblock) (s : Store) (path : CString) (mode : Nat) (writeThrough : Bool),
      (layout.keeping fun _ => none).Holds s → AssignsEntry assign →
      mknodExhausts append locals host assign s path mode writeThrough = some true →
      Refused layout path s (mknod append locals host assign s path mode writeThrough) := by
  intro all
  have exhausts : mknodExhausts quietAppend ⟨fun _ => false, fun _ => 0, fun _ _ => 0⟩ ⟨0, 0, 0⟩
      (fun _ s => some s) packedImage (pathOf [[98]]) fileTypeRegular false = some true := by
    decide +kernel
  have crashed : (mknod quietAppend ⟨fun _ => false, fun _ => 0, fun _ _ => 0⟩ ⟨0, 0, 0⟩
      (fun _ s => some s) packedImage (pathOf [[98]]) fileTypeRegular false).isNone = true := by
    decide +kernel
  obtain ⟨assigned, s', run, -⟩ := all _ _ _ _ _ _ _ _ _ packedImage_holds assignsEntry_local exhausts
  rw [run] at crashed
  cases crashed

end Nbtrfs
