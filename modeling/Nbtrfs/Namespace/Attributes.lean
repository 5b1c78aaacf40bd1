import Nbtrfs.Namespace.Operations
import Nbtrfs.Inode.Mapping

/-!
# Stores that differ in attributes

Two stores with the same names, links and block pointers, whose inodes differ in mode, size and
creation time at most. Lookups, listings and the block map agree on them. The journal and its head
may differ.
-/

namespace Nbtrfs

/-- The fields of an inode that an operation assigns without touching names or blocks. -/
structure Attributes where
  /-- File type and permissions. -/
  mode : Nat
  /-- File size in bytes. -/
  size : Nat
  /-- Creation timestamp. -/
  creationTime : Nat

/-- The attributes of an inode. -/
def Inode.attributes (node : Inode) : Attributes where
  mode := node.mode
  size := node.size
  creationTime := node.creationTime

/-- An inode with other attributes. -/
def Inode.withAttributes (attributes : Attributes) (node : Inode) : Inode :=
  { node with
    mode := attributes.mode
    size := attributes.size
    creationTime := attributes.creationTime }

/-- The attributes of the inodes of a store. -/
def Store.attributes (s : Store) (inodeNumber : Nat) : Attributes :=
  ((inodeLoad s inodeNumber).getD zeroInode).attributes

/-- Attributes with those of one inode changed. -/
def setAttributes (attributes : Nat → Attributes) (inodeNumber : Nat) (new : Attributes) :
    Nat → Attributes :=
  fun other => if other = inodeNumber then new else attributes other

/-- The number is no attribute. -/
@[simp] theorem Inode.withAttributes_inodeNumber (node : Inode) (attributes : Attributes) :
    (node.withAttributes attributes).inodeNumber = node.inodeNumber := rfl

/-- Pages that are equal, or both superblocks, table blocks or journal blocks. -/
inductive Block.Alike : Block → Block → Prop where
  /-- Equal pages. -/
  | same (block : Block) : Alike block block
  /-- Superblocks. -/
  | super (former new : Superblock) : Alike (.super former) (.super new)
  /-- Blocks of the inode table. -/
  | inode (former new : Nat → Inode) : Alike (.inode former) (.inode new)
  /-- Journal blocks. -/
  | journal (former new : JournalEntry) : Alike (.journal former) (.journal new)

/-- A store that differs from another one in the attributes of the inodes and in the journal. -/
structure SameButAttributes (attributes : Nat → Attributes) (s s' : Store) : Prop where
  /-- The image has the same size. -/
  totalBlocks : s'.totalBlocks = s.totalBlocks
  /-- Former content reads the same. -/
  residue : s'.residue = s.residue
  /-- The superblocks differ in the head of the journal. -/
  superblock : ∃ superblock journalHead, superblockRead s = some superblock ∧
    superblockRead s' = some (superblock.withCounters superblock.freeBlocks journalHead)
  /-- Pages of other types are equal. -/
  pages : ∀ block, (s.mem block).Alike (s'.mem block)
  /-- The inodes have the attributes. -/
  inodes : ∀ inodeNumber, inodeRead s' inodeNumber =
    (inodeRead s inodeNumber).map fun read => read.map (Inode.withAttributes (attributes inodeNumber))

section

variable {s s' s'' : Store} {attributes : Nat → Attributes}

/-- A pages is alike to itself and to what its alike is alike to. -/
theorem Block.Alike.trans {first second third : Block} (before : first.Alike second)
    (after : second.Alike third) : first.Alike third := by
  cases before with
  | same => exact after
  | super former new =>
    cases after with
    | same => exact .super former new
    | super _ newer => exact .super former newer
  | inode former new =>
    cases after with
    | same => exact .inode former new
    | inode _ newer => exact .inode former newer
  | journal former new =>
    cases after with
    | same => exact .journal former new
    | journal _ newer => exact .journal former newer

/-- Alike pages hold the same node, if any. -/
theorem Block.Alike.node? {first second : Block} (alike : first.Alike second) :
    second.node? = first.node? := by
  cases alike with
  | same | super | inode | journal => rfl

/-- A data or node page is alike to itself only. -/
theorem Block.Alike.content {first second : Block} (alike : first.Alike second)
    (content : first.isContent) : second = first := by
  cases alike with
  | same => rfl
  | super | inode | journal => exact content.elim

/-- A store has its own attributes. -/
theorem SameButAttributes.refl {superblock : Superblock}
    (read : superblockRead s = some superblock) : SameButAttributes s.attributes s s := by
  refine ⟨rfl, rfl, ⟨superblock, superblock.journalHead, read, read⟩, fun block => .same _, ?_⟩
  intro inodeNumber
  unfold Store.attributes inodeLoad
  cases inodeRead s inodeNumber with
  | none => rfl
  | some found =>
    cases found with
    | none => rfl
    | some node => rfl

/-- Pages agree, up to what is allowed to differ. -/
theorem SameButAttributes.get (same : SameButAttributes attributes s s') (block : Nat) :
    (s.get block = none ∧ s'.get block = none) ∨
      ∃ first second, first.Alike second ∧ s.get block = some first ∧
        s'.get block = some second := by
  unfold Store.get
  rw [same.totalBlocks]
  by_cases inside : block < s.totalBlocks
  · rw [if_pos inside, if_pos inside]
    exact Or.inr ⟨_, _, same.pages block, rfl, rfl⟩
  · rw [if_neg inside, if_neg inside]
    exact Or.inl ⟨rfl, rfl⟩

/-- The nodes of the B-trees agree. -/
theorem SameButAttributes.nodeRead (same : SameButAttributes attributes s s') (block : Nat) :
    btreeNodeRead s' block = btreeNodeRead s block := by
  unfold btreeNodeRead
  rcases same.get block with ⟨none, none'⟩ | ⟨first, second, alike, get, get'⟩
  · rw [none, none']
  · rw [get, get', Option.map_some, Option.map_some, alike.node?]

end

/-- Searches in a B-tree depend on the nodes only. -/
theorem btreeSearch_congr {s s' : Store} (total : s'.totalBlocks = s.totalBlocks)
    (nodes : ∀ block, btreeNodeRead s' block = btreeNodeRead s block) (block key : Nat) :
    btreeSearch s' block key = btreeSearch s block key := by
  have loop : ∀ fuel block, btreeSearchFrom s' key fuel block = btreeSearchFrom s key fuel block := by
    intro fuel
    induction fuel with
    | zero => exact fun _ => rfl
    | succ fuel ih =>
      intro block
      simp only [btreeSearchFrom, nodes, ih]
  have fuel : s'.walkFuel = s.walkFuel := by
    unfold Store.walkFuel
    rw [total]
  unfold btreeSearch
  rw [fuel]
  exact loop _ _

/-- Searches of paths depend on the nodes and the root of the index only. -/
theorem itemSearch_congr {s s' : Store} {superblock superblock' : Superblock}
    (total : s'.totalBlocks = s.totalBlocks)
    (nodes : ∀ block, btreeNodeRead s' block = btreeNodeRead s block)
    (read : superblockRead s = some superblock) (read' : superblockRead s' = some superblock')
    (root : superblock'.btreeRoot = superblock.btreeRoot) (path : CString) :
    itemSearch s' path = itemSearch s path := by
  have loop : ∀ left i node currPath,
      itemSearchFrom s' path left i node currPath = itemSearchFrom s path left i node currPath := by
    intro left
    induction left with
    | zero => exact fun _ _ _ => rfl
    | succ left ih =>
      intro i node currPath
      simp only [itemSearchFrom, enterNode, btreeNodeReload, btreeSearch_congr total nodes, nodes, ih]
  unfold itemSearch
  rw [read, read', Option.bind_eq_bind, Option.bind_some, Option.bind_eq_bind, Option.bind_some, root,
    btreeNodeLoad, btreeNodeLoad, nodes]
  simp only [loop]

section

variable {s s' s'' : Store} {attributes : Nat → Attributes}

/-- Searches in a B-tree agree. -/
theorem SameButAttributes.btreeSearch (same : SameButAttributes attributes s s') (block key : Nat) :
    btreeSearch s' block key = Nbtrfs.btreeSearch s block key :=
  btreeSearch_congr same.totalBlocks same.nodeRead block key

/-- Searches of paths agree. -/
theorem SameButAttributes.itemSearch (same : SameButAttributes attributes s s') (path : CString) :
    itemSearch s' path = Nbtrfs.itemSearch s path := by
  obtain ⟨superblock, journalHead, read, read'⟩ := same.superblock
  exact itemSearch_congr same.totalBlocks same.nodeRead read read' rfl path

/-- An inode that is loaded has the attributes. -/
theorem SameButAttributes.inodeLoad (same : SameButAttributes attributes s s') (inodeNumber : Nat) :
    inodeLoad s' inodeNumber =
      (Nbtrfs.inodeLoad s inodeNumber).map (Inode.withAttributes (attributes inodeNumber)) := by
  unfold Nbtrfs.inodeLoad
  rw [same.inodes]
  cases inodeRead s inodeNumber with
  | none => rfl
  | some found => rfl

/-- The direct and single indirect parts of the block map agree. -/
theorem SameButAttributes.inodeGetBlock (same : SameButAttributes attributes s s') {node : Inode}
    (single : node.doubleIndirectBlock = 0) (new : Attributes) (index : Nat) :
    inodeGetBlock s' (node.withAttributes new) index = Nbtrfs.inodeGetBlock s node index := by
  by_cases direct : index < directPointers
  · rw [inodeGetBlock_direct s node direct, inodeGetBlock_direct s' _ direct]
    rfl
  · unfold Nbtrfs.inodeGetBlock
    rw [if_neg direct, if_neg direct]
    by_cases small : index < pointersPerPage
    · rw [if_pos small, if_pos small]
      show (if node.indirectBlock = 0 then _ else _) = _
      by_cases unlinked : node.indirectBlock = 0
      · rw [if_pos unlinked, if_pos unlinked]
      · rw [if_neg unlinked, if_neg unlinked]
        show (s'.get node.indirectBlock).bind _ = (s.get node.indirectBlock).bind _
        rcases same.get node.indirectBlock with ⟨none, none'⟩ | ⟨first, second, alike, get, get'⟩
        · rw [none, none']
        · rw [get, get']
          cases alike with
          | same | super | inode | journal => rfl
    · rw [if_neg small, if_neg small]
      show (if node.doubleIndirectBlock = 0 then _ else _) = _
      rw [if_pos single, if_pos single]

/-- The inode of a path has no double indirect block. -/
def SingleIndirect (s : Store) (path : CString) : Prop :=
  ∀ pair node, Nbtrfs.itemSearch s path = some pair →
    Nbtrfs.inodeLoad s pair.inodeNumber = some node → node.doubleIndirectBlock = 0

/-- The inode of a directory as its functions read it. -/
theorem SameButAttributes.inodeReload (same : SameButAttributes attributes s s') {path : CString}
    {pair : InodeBtreePair} (found : Nbtrfs.itemSearch s path = some pair)
    (single : SingleIndirect s path) :
    (inodeReload s pair.inodeNumber zeroInode = none ∧
        inodeReload s' pair.inodeNumber zeroInode = none) ∨
      ∃ node new, node.doubleIndirectBlock = 0 ∧
        inodeReload s pair.inodeNumber zeroInode = some node ∧
        inodeReload s' pair.inodeNumber zeroInode = some (node.withAttributes new) := by
  have agree := same.inodes pair.inodeNumber
  unfold Nbtrfs.inodeReload
  rw [agree]
  cases read : inodeRead s pair.inodeNumber with
  | none => exact Or.inl ⟨rfl, rfl⟩
  | some inner =>
    right
    cases inner with
    | none => exact ⟨zeroInode, zeroInode.attributes, rfl, rfl, rfl⟩
    | some node =>
      have load : Nbtrfs.inodeLoad s pair.inodeNumber = some node := by
        unfold Nbtrfs.inodeLoad
        rw [read]
        rfl
      exact ⟨node, _, single pair node found load, rfl, rfl⟩

/-- The search for an entry of a directory agrees. -/
theorem SameButAttributes.directoryExistsEntry (same : SameButAttributes attributes s s')
    {path : CString} (single : SingleIndirect s path) (name : CString) :
    directoryExistsEntry s' path name = Nbtrfs.directoryExistsEntry s path name := by
  have loop : ∀ (node : Inode) (new : Attributes), node.doubleIndirectBlock = 0 →
      ∀ left i numberOfEntries count,
        existsEntryFrom s' (node.withAttributes new) name left i numberOfEntries count =
          existsEntryFrom s node name left i numberOfEntries count := by
    intro node new simple left
    induction left with
    | zero => exact fun _ _ _ => rfl
    | succ left ih =>
      intro i numberOfEntries count
      rw [existsEntryFrom, existsEntryFrom, same.inodeGetBlock simple]
      cases Nbtrfs.inodeGetBlock s node i with
      | none => rfl
      | some result =>
        rw [Option.bind_eq_bind, Option.bind_some, Option.bind_eq_bind, Option.bind_some]
        show (if assigned 0 result.2 = 0 then _ else _) = (if assigned 0 result.2 = 0 then _ else _)
        by_cases zero : assigned 0 result.2 = 0
        · rw [if_pos zero, if_pos zero]
        · rw [if_neg zero, if_neg zero]
          rcases same.get (assigned 0 result.2) with ⟨none, none'⟩ | ⟨first, second, alike, get, get'⟩
          · rw [none, none', Option.bind_none, Option.bind_none]
          · rw [get, get']
            cases alike with
            | super | inode | journal => rfl
            | same =>
              simp only [Option.bind_some, ih]
  unfold Nbtrfs.directoryExistsEntry
  rw [same.itemSearch]
  cases found : Nbtrfs.itemSearch s path with
  | none => rw [Option.bind_eq_bind, Option.bind_none, Option.bind_eq_bind, Option.bind_none]
  | some pair =>
    rw [Option.bind_eq_bind, Option.bind_some, Option.bind_eq_bind, Option.bind_some]
    by_cases directory : pair.isDirectory path = true
    · rw [if_pos directory, if_pos directory]
      rcases same.inodeReload found single with ⟨none, none'⟩ | ⟨node, new, simple, load, load'⟩
      · rw [none, none', Option.bind_none, Option.bind_none]
      · rw [load, load', Option.bind_some, Option.bind_some, loop node new simple]
    · rw [if_neg directory, if_neg directory]

/-- The listing of a directory agrees. -/
theorem SameButAttributes.directoryList (same : SameButAttributes attributes s s') {path : CString}
    (single : SingleIndirect s path) :
    directoryList s' path = Nbtrfs.directoryList s path := by
  have loop : ∀ (node : Inode) (new : Attributes), node.doubleIndirectBlock = 0 →
      ∀ left i former count entries,
        listEntriesFrom s' (node.withAttributes new) left i former count entries =
          listEntriesFrom s node left i former count entries := by
    intro node new simple left
    induction left with
    | zero => exact fun _ _ _ _ => rfl
    | succ left ih =>
      intro i former count entries
      rw [listEntriesFrom, listEntriesFrom, same.inodeGetBlock simple]
      cases Nbtrfs.inodeGetBlock s node i with
      | none => rfl
      | some result =>
        rw [Option.bind_eq_bind, Option.bind_some, Option.bind_eq_bind, Option.bind_some]
        show (if assigned former result.2 = 0 then _ else _) =
          (if assigned former result.2 = 0 then _ else _)
        by_cases zero : assigned former result.2 = 0
        · rw [if_pos zero, if_pos zero]
        · rw [if_neg zero, if_neg zero]
          rcases same.get (assigned former result.2) with
            ⟨none, none'⟩ | ⟨first, second, alike, get, get'⟩
          · rw [none, none', Option.bind_none, Option.bind_none]
          · rw [get, get']
            cases alike with
            | super | inode | journal => rfl
            | same =>
              simp only [Option.bind_some, ih]
  unfold Nbtrfs.directoryList
  rw [same.itemSearch]
  cases found : Nbtrfs.itemSearch s path with
  | none => rw [Option.bind_eq_bind, Option.bind_none, Option.bind_eq_bind, Option.bind_none]
  | some pair =>
    rw [Option.bind_eq_bind, Option.bind_some, Option.bind_eq_bind, Option.bind_some]
    by_cases directory : pair.isDirectory path = true
    · rw [if_pos directory, if_pos directory]
      rcases same.inodeReload found single with ⟨none, none'⟩ | ⟨node, new, simple, load, load'⟩
      · rw [none, none', Option.bind_none, Option.bind_none]
      · rw [load, load', Option.bind_some, Option.bind_some, loop node new simple]
    · rw [if_neg directory, if_neg directory]

/-- The journal blocks are kept. -/
def EntriesKept (s s' : Store) : Prop :=
  ∀ block entry, s.mem block = .journal entry → s'.mem block = .journal entry

/-- Keeping them twice. -/
theorem EntriesKept.trans (first : EntriesKept s s') (second : EntriesKept s' s'') :
    EntriesKept s s'' :=
  fun block entry tag => second block entry (first block entry tag)

/-- The inodes are read from the pages of the table. -/
theorem inodeRead_congr {superblock superblock' : Superblock}
    (total : s'.totalBlocks = s.totalBlocks) (read : superblockRead s = some superblock)
    (read' : superblockRead s' = some superblock')
    (layout : superblock'.totalBlocks = superblock.totalBlocks ∧
      superblock'.inodeBitmap = superblock.inodeBitmap) {inodeNumber : Nat}
    (page : s'.mem (inodePage superblock inodeNumber) = s.mem (inodePage superblock inodeNumber) ∨
      (∀ slots, s.mem (inodePage superblock inodeNumber) ≠ .inode slots) ∧
        ∀ slots, s'.mem (inodePage superblock inodeNumber) ≠ .inode slots) :
    inodeRead s' inodeNumber = inodeRead s inodeNumber := by
  have table := inodePage_congr layout.1 layout.2 inodeNumber
  unfold inodeRead
  rw [read, read', Option.bind_eq_bind, Option.bind_some, Option.bind_eq_bind, Option.bind_some, table]
  unfold Store.get
  rw [total]
  by_cases inside : inodePage superblock inodeNumber < s.totalBlocks
  · rw [if_pos inside, if_pos inside, Option.bind_some, Option.bind_some]
    rcases page with same | ⟨other, other'⟩
    · rw [same]
    · cases tag : s.mem (inodePage superblock inodeNumber) with
      | inode slots => exact absurd tag (other slots)
      | super | bitmap | btreeNode | journal | data | untagged =>
        cases tag' : s'.mem (inodePage superblock inodeNumber) with
        | inode slots => exact absurd tag' (other' slots)
        | super | bitmap | btreeNode | journal | data | untagged => rfl
  · rw [if_neg inside, if_neg inside, Option.bind_none]

/-- A change of journal blocks and of the head leaves the relation. -/
theorem SameButAttributes.journal (same : SameButAttributes attributes s s')
    (total : s''.totalBlocks = s'.totalBlocks) (residue : s''.residue = s'.residue)
    {superblock : Superblock} {journalHead : Nat} (read : superblockRead s' = some superblock)
    (read' : superblockRead s'' = some (superblock.withCounters superblock.freeBlocks journalHead))
    (pages : ∀ block, block ≠ 0 → s''.mem block = s'.mem block ∨
      ∃ former new, s'.mem block = .journal former ∧ s''.mem block = .journal new) :
    SameButAttributes attributes s s'' := by
  obtain ⟨layout, formerHead, readLayout, readFormer⟩ := same.superblock
  obtain rfl := Option.some.inj (readFormer.symm.trans read)
  refine ⟨total.trans same.totalBlocks, residue.trans same.residue,
    ⟨layout, journalHead, readLayout, read'⟩, ?_, ?_⟩
  · intro block
    apply (same.pages block).trans
    by_cases zero : block = 0
    · rw [zero, superblockRead_page read, superblockRead_page read']
      exact .super _ _
    · rcases pages block zero with equal | ⟨former, new, tag, tag'⟩
      · rw [equal]
        exact .same _
      · rw [tag, tag']
        exact .journal _ _
  · intro inodeNumber
    rw [← same.inodes]
    apply inodeRead_congr total read read' ⟨rfl, rfl⟩
    by_cases zero : inodePage (layout.withCounters layout.freeBlocks formerHead) inodeNumber = 0
    · right
      rw [zero, superblockRead_page read, superblockRead_page read']
      constructor
      · intro slots tag
        cases tag
      · intro slots tag
        cases tag
    · rcases pages _ zero with equal | ⟨former, new, tag, tag'⟩
      · exact Or.inl equal
      · right
        rw [tag, tag']
        constructor
        · intro slots tag
          cases tag
        · intro slots tag
          cases tag

/-- A change of the image only leaves the relation. -/
theorem SameButAttributes.ofMem (same : SameButAttributes attributes s s')
    (mem : s''.mem = s'.mem) (total : s''.totalBlocks = s'.totalBlocks)
    (residue : s''.residue = s'.residue) : SameButAttributes attributes s s'' := by
  obtain ⟨layout, journalHead, -, read⟩ := same.superblock
  have read' : superblockRead s'' =
      some (layout.withCounters layout.freeBlocks journalHead) := by
    apply superblockRead_of_page
    rw [mem]
    exact superblockRead_page read
  exact same.journal total residue read read' fun block _ => Or.inl (by rw [mem])

/-- Two inodes in one slot are the same. -/
theorem inodePage_inj {superblock : Superblock} {first second : Nat}
    (page : inodePage superblock first = inodePage superblock second)
    (slot : first % inodesPerPage = second % inodesPerPage) : first = second := by
  unfold inodePage at page
  have quotient : first / inodesPerPage = second / inodesPerPage := by omega
  calc
    first = inodesPerPage * (first / inodesPerPage) + first % inodesPerPage :=
      (Nat.div_add_mod first inodesPerPage).symm
    _ = inodesPerPage * (second / inodesPerPage) + second % inodesPerPage := by
      rw [quotient, slot]
    _ = second := Nat.div_add_mod second inodesPerPage

/-- Writing an inode with other attributes. -/
theorem SameButAttributes.inodeStore (same : SameButAttributes attributes s s') {node : Inode}
    {inodeNumber : Nat} (load : Nbtrfs.inodeLoad s inodeNumber = some node)
    (numbered : node.inodeNumber = inodeNumber) (new : Attributes) {writeThrough : Bool}
    (run : inodeStore s' (node.withAttributes new) writeThrough = some s'') :
    SameButAttributes (setAttributes attributes inodeNumber new) s s'' ∧ EntriesKept s' s'' := by
  obtain ⟨layout, slots, readLayout, inside, tag, slot⟩ := inodeLoad_table load
  obtain ⟨superblock, journalHead, read, read'⟩ := same.superblock
  obtain rfl := Option.some.inj (read.symm.trans readLayout)
  have table : ∀ number, inodePage (superblock.withCounters superblock.freeBlocks journalHead) number =
      inodePage superblock number := fun number => inodePage_withCounters _ _ _ _
  have inside' : inodePage superblock inodeNumber < s'.totalBlocks := by
    rw [same.totalBlocks]
    exact inside
  obtain ⟨written, run', change⟩ := inodeStore_spec read' (node.withAttributes new)
    (by rw [table, Inode.withAttributes_inodeNumber, numbered]; exact inside') writeThrough
  obtain rfl := Option.some.inj (run'.symm.trans run)
  rw [table, Inode.withAttributes_inodeNumber, numbered] at change
  have alike := same.pages (inodePage superblock inodeNumber)
  rw [tag] at alike
  have page : ∃ slots', s'.mem (inodePage superblock inodeNumber) = .inode slots' := by
    cases alike' : s'.mem (inodePage superblock inodeNumber) with
    | inode slots' => exact ⟨slots', rfl⟩
    | super | bitmap | btreeNode | journal | data | untagged =>
      rw [alike'] at alike
      cases alike
  obtain ⟨slots', tag'⟩ := page
  have after := change.slots slots' tag'
  rw [Inode.withAttributes_inodeNumber, numbered] at after
  constructor
  · refine ⟨change.totalBlocks.trans same.totalBlocks, change.residue.trans same.residue,
      ⟨superblock, journalHead, read, change.superblockRead read'⟩, ?_, ?_⟩
    · intro block
      apply (same.pages block).trans
      by_cases here : block = inodePage superblock inodeNumber
      · rw [here, tag', after]
        exact .inode _ _
      · rw [change.mem block here]
        exact .same _
    · intro other
      by_cases equal : other = inodeNumber
      · rw [equal]
        have agree := same.inodes inodeNumber
        unfold inodeRead
        rw [read, change.superblockRead read', Option.bind_eq_bind, Option.bind_some,
          Option.bind_eq_bind, Option.bind_some, table, Store.get_of_lt inside,
          Store.get_of_lt (by rw [change.totalBlocks]; exact inside'), tag, after, setAttributes,
          if_pos rfl]
        show some (some (setSlot slots' (inodeNumber % inodesPerPage) (node.withAttributes new)
          (inodeNumber % inodesPerPage))) = some (some (Inode.withAttributes new
            (slots (inodeNumber % inodesPerPage))))
        rw [setSlot, if_pos rfl, slot]
      · rw [setAttributes, if_neg equal, ← same.inodes]
        by_cases here : inodePage superblock other = inodePage superblock inodeNumber
        · have apart : other % inodesPerPage ≠ inodeNumber % inodesPerPage := fun slotSame =>
            equal (inodePage_inj here slotSame)
          unfold inodeRead
          rw [read', change.superblockRead read', Option.bind_eq_bind, Option.bind_some,
            Option.bind_eq_bind, Option.bind_some, table, here, Store.get_of_lt inside',
            Store.get_of_lt (by rw [change.totalBlocks]; exact inside'), tag', after]
          show some (some (setSlot slots' (inodeNumber % inodesPerPage) (node.withAttributes new)
            (other % inodesPerPage))) = some (some (slots' (other % inodesPerPage)))
          rw [setSlot, if_neg apart]
        · apply inodeRead_congr change.totalBlocks read' (change.superblockRead read') ⟨rfl, rfl⟩
          left
          rw [table]
          exact change.mem _ here
  · intro block entry journal
    rw [change.other]
    · exact journal
    · intro others wrong
      rw [journal] at wrong
      cases wrong

end

end Nbtrfs
