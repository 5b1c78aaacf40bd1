import Nbtrfs.Fuse.Write
import Nbtrfs.Namespace.GuardedTree

/-!
# What changes of a directory leave alone

An append that replays nothing and an insertion into a B-tree as changes that leave the blocks of a
file alone, and the view of a file behind such a change. A directory is a file here: its blocks are
mapped by its inode.
-/

namespace Nbtrfs

section

variable {s s' : Store} {superblock : Superblock} {inode : Inode} {pages : Nat}

/-- A change of pages that hold journal entries, and of the counters of the superblock. -/
structure JournalOnly (superblock : Superblock) (s s' : Store) : Prop where
  /-- The superblock changes in its counters. -/
  superblock : ∃ freeBlocks journalHead,
    superblockRead s' = some (superblock.withCounters freeBlocks journalHead)
  /-- Other pages are kept, and what was a journal page stays one. -/
  mem : ∀ block ≠ 0, (s'.mem block = s.mem block ∨
    (∃ old, s.mem block = .journal old) ∧ ∃ new, s'.mem block = .journal new)
  /-- The image keeps its size. -/
  totalBlocks : s'.totalBlocks = s.totalBlocks
  /-- Former content reads as before. -/
  residue : s'.residue = s.residue

/-- Two such changes. -/
theorem JournalOnly.trans {s'' : Store} {freeBlocks journalHead : Nat}
    (first : JournalOnly superblock s s')
    (second : JournalOnly (superblock.withCounters freeBlocks journalHead) s' s'') :
    JournalOnly superblock s s'' where
  superblock := by
    obtain ⟨freeBlocks', journalHead', read⟩ := second.superblock
    exact ⟨freeBlocks', journalHead', read⟩
  mem block nonzero := by
    rcases first.mem block nonzero with kept | ⟨old, new, tag⟩
    · rw [← kept]
      exact second.mem block nonzero
    · right
      refine ⟨old, ?_⟩
      rcases second.mem block nonzero with kept | ⟨-, new'⟩
      · exact ⟨new, kept.trans tag⟩
      · exact new'
  totalBlocks := second.totalBlocks.trans first.totalBlocks
  residue := second.residue.trans first.residue

/-- Such a change leaves the files alone. -/
theorem JournalOnly.undisturbed (change : JournalOnly superblock s s') (formatted : s.Formatted)
    (read : superblockRead s = some superblock) :
    (∀ page slot, Undisturbed (fun _ => False) page slot s s') ∧ SamePages s s' := by
  obtain ⟨freeBlocks, journalHead, read'⟩ := change.superblock
  apply undisturbed_journal formatted read read' _ change.totalBlocks change.residue
  intro block nonzero noJournal
  rcases change.mem block nonzero with kept | ⟨⟨old, tag⟩, -⟩
  · exact kept
  · exact absurd tag (noJournal old)

/-- Assigning the entry of a journal block is such a change. -/
theorem journalOnly_put (read : superblockRead s = some superblock) {block : Nat}
    {former entry : JournalEntry} (tag : s.mem block = .journal former) :
    JournalOnly superblock s (s.put block (.journal entry)) where
  superblock := by
    refine ⟨superblock.freeBlocks, superblock.journalHead, superblockRead_of_page ?_⟩
    rw [Store.put_other, superblockRead_page read]
    · rfl
    · rintro rfl
      rw [superblockRead_page read] at tag
      cases tag
  mem other _ := by
    by_cases same : other = block
    · rw [same]
      exact Or.inr ⟨⟨former, tag⟩, entry, Store.put_same _ _ _⟩
    · exact Or.inl (Store.put_other _ _ _ _ same)
  totalBlocks := rfl
  residue := rfl

/-- An append that replays nothing, other than that of a new directory. -/
theorem quietAppend_only {entry : JournalEntry} (read : superblockRead s = some superblock)
    (plain : entry.transaction.isDirectory = false) (run : quietAppend entry s = some s') :
    JournalOnly superblock s s' := by
  unfold quietAppend at run
  rw [initializeJournalEntry_def] at run
  obtain ⟨⟨synced, after⟩, quiet, same⟩ := Option.map_eq_some_iff.mp run
  obtain rfl : after = s' := same
  obtain ⟨⟨transaction, s1⟩, prepare, rest⟩ := Option.bind_eq_some_iff.mp quiet
  obtain ⟨other, readOther, rest⟩ := Option.bind_eq_some_iff.mp rest
  obtain ⟨content, get, rest⟩ := Option.bind_eq_some_iff.mp rest
  obtain rfl : s1 = s := prepareEntry_same plain prepare
  obtain rfl : superblock = other := Option.some.inj (read.symm.trans readOther)
  obtain ⟨-, front⟩ := Store.get_eq_some get
  have finish : ∀ s2 : Store, JournalOnly superblock s1 s2 →
      (∃ former, s2.mem superblock.journalBlock = .journal former) → ∀ filled removed, (do
        let s ← assignEntry (superblockWrite s2 superblock.advanceHead true)
          superblock.journalBlock filled
        some ((removed : Option JournalEntry), s.flush superblock.journalBlock)) =
          some (synced, after) → JournalOnly superblock s1 after := by
    intro s2 change held filled removed finished
    obtain ⟨s3, assign, finished⟩ := Option.bind_eq_some_iff.mp finished
    obtain ⟨-, rfl⟩ := Prod.mk.inj (Option.some.inj finished)
    obtain ⟨freeBlocks, journalHead, read2⟩ := change.superblock
    have moved : JournalOnly (superblock.withCounters freeBlocks journalHead) s2
        (superblockWrite s2 superblock.advanceHead true) := by
      have page := superblockRead_page read2
      constructor
      · refine ⟨superblock.freeBlocks, superblock.advanceHead.journalHead,
          superblockRead_of_page ?_⟩
        rw [superblockWrite_mem page, Store.put_same]
        rfl
      · intro block nonzero
        left
        rw [superblockWrite_mem page, Store.put_other _ _ _ _ nonzero]
      · exact superblockWrite_totalBlocks _ _ _
      · rw [superblockWrite, page]
        rfl
    obtain ⟨freeBlocks', journalHead', readMoved⟩ := moved.superblock
    obtain ⟨former, get, rfl⟩ := assignEntry_cases assign
    have tag := (Store.get_eq_some get).2
    have assigned := @journalOnly_put _ _ readMoved _ _ filled tag
    have whole := change.trans (moved.trans assigned)
    exact ⟨whole.superblock, whole.mem, whole.totalBlocks, whole.residue⟩
  have unchanged : JournalOnly superblock s1 s1 :=
    ⟨⟨superblock.freeBlocks, superblock.journalHead, read⟩, fun _ _ => Or.inl rfl, rfl, rfl⟩
  cases content with
  | journal former =>
    dsimp only at rest
    cases flag : former.synced with
    | true =>
      rw [flag, if_pos rfl] at rest
      exact finish _ unchanged ⟨former, front⟩ _ _ rest
    | false =>
      rw [flag, if_neg Bool.false_ne_true] at rest
      obtain ⟨s2, sync, rest⟩ := Option.bind_eq_some_iff.mp rest
      have marked := (@syncEntry_quiet s1 s2 _ (fun _ _ => none) sync).2
      unfold markEntrySynced setSynced at marked
      obtain ⟨marking, -, marked⟩ := Option.bind_eq_some_iff.mp marked
      obtain ⟨s3, set, written⟩ := Option.bind_eq_some_iff.mp marked
      obtain ⟨again, -, set⟩ := Option.bind_eq_some_iff.mp set
      obtain ⟨held, get, rfl⟩ := assignEntry_cases set
      have tag := (Store.get_eq_some get).2
      have assigned := @journalOnly_put _ _ read _ _ { again with synced := true } tag
      obtain ⟨content, -, written⟩ := Option.bind_eq_some_iff.mp written
      split at written
      case isTrue =>
        obtain rfl := Option.some.inj written
        refine finish _ ?_ ?_ _ _ rest
        · exact ⟨assigned.superblock, assigned.mem, assigned.totalBlocks, assigned.residue⟩
        · exact ⟨_, Store.put_same _ _ _⟩
      case isFalse => cases written
  | super | bitmap | inode | btreeNode | data | untagged =>
    obtain ⟨-, rfl⟩ := Prod.mk.inj (Option.some.inj rest)
    exact unchanged

/-- A change of nodes leaves the files alone. -/
theorem NodesOnly.undisturbed (only : NodesOnly s s') (read : superblockRead s = some superblock)
    (formatted : s.Formatted) (page slot : Nat) :
    Undisturbed (fun block => ∃ node, s.mem block = .btreeNode node) page slot s s' where
  totalBlocks := only.totalBlocks
  residue := only.residue
  formatted := only.formatted
  superblock other readOther := by
    obtain ⟨freeBlocks, read'⟩ := only.superblock other readOther
    exact ⟨freeBlocks, other.journalHead, read'⟩
  bits := only.bits
  mem block inside set notNode content := by
    apply only.mem block inside set (content_ne_zero read content)
      (formatted.content_not_page content)
    intro node tag
    exact notNode ⟨node, tag⟩
  table block inside set _ slots tag := by
    refine ⟨slots, ?_, fun _ => Or.inr rfl⟩
    rw [only.mem block inside set (table_ne_zero read tag) (formatted.table_not_page tag), tag]
    intro node wrong
    rw [tag] at wrong
    cases wrong

/-- Entering a name into the B-tree of its directory takes steps of the B-tree code. -/
theorem insertName_steps {btreeBlock targetInode type : Nat} {name : CString}
    {dirRootPage : Option Nat}
    (run : insertName s btreeBlock name targetInode type = some (dirRootPage, s')) :
    NodeSteps s s' := by
  unfold insertName at run
  split at run
  case isTrue =>
    obtain ⟨⟨page, s1⟩, new, run⟩ := Option.bind_eq_some_iff.mp run
    obtain ⟨s2, modify, run⟩ := Option.bind_eq_some_iff.mp run
    obtain ⟨s3, insert, run⟩ := Option.bind_eq_some_iff.mp run
    obtain ⟨-, rfl⟩ := Prod.mk.inj (Option.some.inj run)
    calc
      NodeSteps s s1 := btreeNodeNew_steps new
      NodeSteps s1 s2 := btreeNodeModify_steps modify
      NodeSteps s2 s3 := btreeInsert_steps insert
  case isFalse =>
    obtain ⟨s1, insert, run⟩ := Option.bind_eq_some_iff.mp run
    obtain ⟨-, rfl⟩ := Prod.mk.inj (Option.some.inj run)
    exact btreeInsert_steps insert

/-- A change that leaves a file alone keeps its view, its map and its bytes. -/
theorem FileView.undisturbed (view : FileView s superblock inode pages) {ours : Nat → Prop}
    (change : ∀ page slot, Undisturbed ours page slot s s')
    (notOwn : ∀ index < pages, ¬ ours (blockPointer s inode index))
    (notIndirect : inode.indirectBlock ≠ 0 → ¬ ours inode.indirectBlock)
    (notTable : ¬ ours (inodePage superblock inode.inodeNumber)) :
    (∃ freeBlocks journalHead,
      FileView s' (superblock.withCounters freeBlocks journalHead) inode pages) ∧
      (∀ index, blockPointer s' inode index = blockPointer s inode index) ∧
      ∀ index < pages, s'.mem (blockPointer s inode index) = s.mem (blockPointer s inode index) := by
  have pointer := fun index => (change 0 0).blockPointer view.indirect notIndirect index
  have kept : ∀ index < pages,
      s'.mem (blockPointer s inode index) = s.mem (blockPointer s inode index) := by
    intro index below
    exact (change 0 0).mem _ (view.inside index below) (view.set index below) (notOwn index below)
      (view.content below)
  obtain ⟨freeBlocks, journalHead, read⟩ := (change 0 0).superblock superblock view.read
  refine ⟨⟨freeBlocks, journalHead, ?_⟩, pointer, kept⟩
  constructor
  · exact (change 0 0).formatted
  · rw [(change 0 0).totalBlocks]
    exact view.width
  · exact read
  · rw [inodePage_withCounters, (change 0 0).totalBlocks]
    exact view.table
  · rw [inodePage_withCounters]
    exact (change 0 0).bits _ view.table view.tableSet
  · rw [inodePage_withCounters]
    obtain ⟨slots, tag, slot⟩ := view.slot
    obtain ⟨slots', tag', same⟩ :=
      (change 0 (inode.inodeNumber % inodesPerPage + 1)).table _ view.table view.tableSet notTable
        slots tag
    refine ⟨slots', tag', ?_⟩
    rcases same (inode.inodeNumber % inodesPerPage) with ⟨-, wrong⟩ | kept
    · omega
    · rw [kept, slot]
  · exact (change 0 0).indirectReady view.indirect notIndirect
  · intro index above below
    rw [pointer index]
    exact view.unmapped index above below
  · intro index below
    rw [pointer index]
    exact view.nonzero index below
  · intro index below
    rw [pointer index, (change 0 0).totalBlocks]
    exact view.inside index below
  · intro index below
    rw [pointer index]
    exact (change 0 0).bits _ (view.inside index below) (view.set index below)
  · intro index below
    rw [pointer index, kept index below]
    exact view.data index below
  · intro index below other otherBelow same
    rw [pointer index, pointer other] at same
    exact view.distinct index below other otherBelow same
  · intro index below
    rw [pointer index]
    exact view.apart index below
  · exact view.bound

/-- An insertion leaves a file alone. -/
theorem FileView.steps (view : FileView s superblock inode pages) (steps : NodeSteps s s') :
    (∃ freeBlocks journalHead,
      FileView s' (superblock.withCounters freeBlocks journalHead) inode pages) ∧
      (∀ index, blockPointer s' inode index = blockPointer s inode index) ∧
      ∀ index < pages, s'.mem (blockPointer s inode index) = s.mem (blockPointer s inode index) := by
  have only := steps.only view.formatted view.read
  apply view.undisturbed (only.undisturbed view.read view.formatted)
  · rintro index below ⟨node, tag⟩
    obtain ⟨bytes, page⟩ := view.data index below
    rw [tag] at page
    cases page
  · rintro linked ⟨node, tag⟩
    obtain ⟨-, -, bytes, page⟩ := view.indirect linked
    rw [tag] at page
    cases page
  · rintro ⟨node, tag⟩
    obtain ⟨slots, page, -⟩ := view.slot
    rw [tag] at page
    cases page

end

end Nbtrfs
