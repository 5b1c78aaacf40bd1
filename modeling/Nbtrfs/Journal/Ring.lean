import Nbtrfs.Journal.Model
import Nbtrfs.Inode.BlockMap
import Nbtrfs.Library.Window

/-!
# The journal as a ring

The entries of the journal from the head on are the window of a ring. Appending passes the oldest
entry to `sync_entry` and overwrites it, so over a whole run the entries passed, followed by the
window, are the ring at its start followed by the entries appended. `sync_journal` goes through
the window once and leaves the head where it was.
-/

namespace Nbtrfs

/-- The journal fields of a superblock. -/
structure Superblock.HeadAt (superblock : Superblock) (start slots head : Nat) : Prop where
  /-- The first journal block. -/
  start : superblock.journalStart = start
  /-- The ring is one block shorter than the region. -/
  size : calculateJournalSize superblock = slots + 1
  /-- The head. -/
  head : superblock.journalHead = head

/-- The journal's entries from the head on, the oldest first. -/
structure JournalAt (s : Store) (start slots head : Nat) (window : List JournalEntry) : Prop where
  /-- The superblock knows the ring. -/
  superblock : ∃ superblock, superblockRead s = some superblock ∧ superblock.HeadAt start slots head
  /-- Block 0 is no journal block. -/
  apart : 0 < start
  /-- The ring is in the image. -/
  inside : start + slots ≤ s.totalBlocks
  /-- The pages of the ring. -/
  ring : ∃ content, Window slots head content window ∧
    ∀ slot < slots, s.mem (start + slot) = .journal (content slot)
  /-- An entry knows its block or was never written. -/
  numbers : ∀ slot < slots, ∀ entry, s.mem (start + slot) = .journal entry →
    entry.blockNumber = 0 ∨ entry.blockNumber = start + slot

/-- A change that leaves the journal alone. -/
structure KeepsJournal (start slots : Nat) (s s' : Store) : Prop where
  /-- The superblock stays readable and keeps the journal fields. -/
  superblock : ∀ superblock, superblockRead s = some superblock →
    ∃ superblock', superblockRead s' = some superblock' ∧
      superblock'.journalStart = superblock.journalStart ∧
      superblock'.totalBlocks = superblock.totalBlocks ∧
      superblock'.journalHead = superblock.journalHead
  /-- The pages of the ring are kept. -/
  pages : ∀ slot < slots, s'.mem (start + slot) = s.mem (start + slot)
  /-- The image keeps its size. -/
  totalBlocks : s'.totalBlocks = s.totalBlocks

/-- What `sync_entry` does to a journal block. -/
structure SyncedSlot (start slots slot : Nat) (entry : JournalEntry) (s s' : Store) : Prop where
  /-- The entry is marked. -/
  marked : s'.mem (start + slot) = .journal { entry with synced := true }
  /-- Block 0 stays the superblock. -/
  superblock : ∃ superblock, superblockRead s' = some superblock
  /-- The other entries are kept. -/
  other : ∀ index < slots, index ≠ slot → s'.mem (start + index) = s.mem (start + index)
  /-- The image keeps its size. -/
  totalBlocks : s'.totalBlocks = s.totalBlocks

/-- An operation that sets its entry's `synced` flag and neither appends nor changes the
superblock. -/
def Syncs (sync : Nat → Store → Option Store) (start slots : Nat) : Prop :=
  ∀ s head window slot entry, JournalAt s start slots head window → slot < slots →
    s.mem (start + slot) = .journal entry →
      ∃ s', sync (start + slot) s = some s' ∧ SyncedSlot start slots slot entry s s'

section

variable {s s' : Store} {start slots head : Nat} {window : List JournalEntry}

/-- The superblock moves its head to the next slot. -/
theorem Superblock.HeadAt.advance {superblock : Superblock}
    (here : superblock.HeadAt start slots head) :
    superblock.advanceHead.HeadAt start slots (nextSlot slots head) := by
  refine ⟨here.start, here.size, ?_⟩
  show (if superblock.journalHead + 2 = calculateJournalSize superblock then 0
    else superblock.journalHead + 1) = nextSlot slots head
  rw [here.size, here.head]
  unfold nextSlot
  by_cases wraps : head + 1 = slots
  · rw [if_pos wraps, if_pos (by omega)]
  · rw [if_neg wraps, if_neg (by omega)]

/-- The journal block of the head. -/
theorem Superblock.HeadAt.journalBlock {superblock : Superblock}
    (here : superblock.HeadAt start slots head) : superblock.journalBlock = start + head := by
  unfold Superblock.journalBlock
  rw [here.start, here.head]

/-- The oldest entry is in the page of the head. -/
theorem JournalAt.front (journal : JournalAt s start slots head window) :
    head < slots ∧ ∃ front rest, window = front :: rest ∧
      s.mem (start + head) = .journal front := by
  obtain ⟨content, shown, pages⟩ := journal.ring
  obtain ⟨rest, split⟩ := shown.front
  exact ⟨shown.head_lt, content head, rest, split, pages head shown.head_lt⟩

/-- An unrelated change keeps the window. -/
theorem JournalAt.keeps (journal : JournalAt s start slots head window)
    (keeps : KeepsJournal start slots s s') : JournalAt s' start slots head window := by
  obtain ⟨superblock, read, here⟩ := journal.superblock
  obtain ⟨superblock', read', sameStart, sameTotal, sameHead⟩ := keeps.superblock superblock read
  obtain ⟨content, shown, pages⟩ := journal.ring
  refine ⟨⟨superblock', read', ?_, ?_, ?_⟩, journal.apart, ?_, ⟨content, shown, ?_⟩, ?_⟩
  · exact sameStart.trans here.start
  · have size := here.size
    unfold calculateJournalSize at size ⊢
    rw [sameTotal]
    exact size
  · exact sameHead.trans here.head
  · rw [keeps.totalBlocks]
    exact journal.inside
  · intro slot inside
    rw [keeps.pages slot inside]
    exact pages slot inside
  · intro slot inside entry page
    rw [keeps.pages slot inside] at page
    exact journal.numbers slot inside entry page

/-- Overwriting the page of the head and moving the head on. -/
theorem JournalAt.push {superblock : Superblock} {front new : JournalEntry}
    {rest : List JournalEntry} (journal : JournalAt s start slots head (front :: rest))
    (read : superblockRead s' = some superblock)
    (here : superblock.HeadAt start slots (nextSlot slots head))
    (page : s'.mem (start + head) = .journal new)
    (number : new.blockNumber = 0 ∨ new.blockNumber = start + head)
    (other : ∀ slot < slots, slot ≠ head → s'.mem (start + slot) = s.mem (start + slot))
    (total : s'.totalBlocks = s.totalBlocks) :
    JournalAt s' start slots (nextSlot slots head) (rest ++ [new]) := by
  obtain ⟨content, shown, pages⟩ := journal.ring
  have inside := journal.inside
  rw [← total] at inside
  refine ⟨⟨superblock, read, here⟩, journal.apart, inside,
    ⟨fun slot => if slot = head then new else content slot, ?_, ?_⟩, ?_⟩
  · apply shown.push rfl
    · exact if_pos rfl
    · intro slot _ apart
      exact if_neg apart
  · intro slot small
    show s'.mem (start + slot) = .journal (if slot = head then new else content slot)
    by_cases same : slot = head
    · rw [if_pos same, same]
      exact page
    · rw [if_neg same, other slot small same]
      exact pages slot small
  · intro slot small entry found
    by_cases same : slot = head
    · rw [same, page] at found
      rw [← Block.journal.inj found, same]
      exact number
    · rw [other slot small same] at found
      exact journal.numbers slot small entry found

/-- The path of a new directory leads to an inode of the table without content, as
`nbtrfs_mknod` has made it. -/
def NewDirectory (s : Store) (path : CString) : Prop :=
  ∃ pair inode, itemSearch s path = some pair ∧ inodeLoad s pair.inodeNumber = some inode ∧
    inode.inodeNumber = pair.inodeNumber ∧ inode.size = 0

/-- What the caller of `initialize_journal_entry` has done before. -/
def Transaction.Ready (s : Store) (transaction : Transaction) : Prop :=
  ∀ path mode btreeBlock inodeNumber, transaction = .mknod path mode btreeBlock inodeNumber →
    mode &&& fileTypeMask = fileTypeDirectory → NewDirectory s path

/-- A change of blocks of the inode table only. -/
structure TableChange (s s' : Store) : Prop where
  /-- Blocks of other types are kept. -/
  other : ∀ block, (∀ slots, s.mem block ≠ .inode slots) → s'.mem block = s.mem block
  /-- Blocks of the table stay what they are. -/
  table : ∀ block slots, s.mem block = .inode slots → ∃ slots', s'.mem block = .inode slots'
  /-- Block 0 is on the image as before. -/
  zero : s'.disk 0 = s.disk 0
  /-- The image keeps its size. -/
  totalBlocks : s'.totalBlocks = s.totalBlocks

/-- Nothing changes. -/
theorem TableChange.refl (s : Store) : TableChange s s :=
  ⟨fun _ _ => rfl, fun _ slots tag => ⟨slots, tag⟩, rfl, rfl⟩

/-- A change of the inode table keeps the superblock. -/
theorem TableChange.superblockRead {superblock : Superblock} (change : TableChange s s')
    (read : Nbtrfs.superblockRead s = some superblock) :
    Nbtrfs.superblockRead s' = some superblock := by
  have page := superblockRead_page read
  apply superblockRead_of_page
  rw [change.other 0 (fun slots tag => by rw [page] at tag; cases tag)]
  exact page

/-- A change of the inode table leaves the journal alone. -/
theorem TableChange.keepsJournal (change : TableChange s s')
    (journal : JournalAt s start slots head window) : KeepsJournal start slots s s' := by
  obtain ⟨entries, -, pages⟩ := journal.ring
  refine ⟨?_, ?_, change.totalBlocks⟩
  · intro superblock read
    exact ⟨superblock, change.superblockRead read, rfl, rfl, rfl⟩
  · intro slot small
    apply change.other
    intro slots tag
    rw [pages slot small] at tag
    cases tag

/-- Looking up and truncating a new directory changes its inode only. -/
theorem truncate_newDirectory {path : CString} (fresh : NewDirectory s path) :
    ∃ pair s', itemSearch s path = some pair ∧ truncate s path 0 true = some s' ∧
      TableChange s s' := by
  obtain ⟨pair, inode, search, load, numbered, empty⟩ := fresh
  obtain ⟨superblock, content, read, inside, table, -⟩ := inodeLoad_table load
  rw [← numbered] at inside table
  obtain ⟨s', write, written⟩ := inodeStore_spec read { inode with size := 0 } inside true
  have indices : truncateIndices inode 0 = [] := by
    unfold truncateIndices
    rw [empty, if_neg (Nat.lt_irrefl 0)]
  have run : truncate s path 0 true = some s' := by
    unfold truncate truncateInode
    rw [search, Option.bind_eq_bind, Option.bind_some]
    show (inodeLoad s pair.inodeNumber).bind _ = _
    rw [load, Option.bind_some, indices]
    exact write
  refine ⟨pair, s', search, run, ?_, ?_, ?_, written.totalBlocks⟩
  · exact fun block noInode => written.other noInode
  · intro block slots tag
    by_cases same : block = inodePage superblock inode.inodeNumber
    · rw [same] at tag ⊢
      exact ⟨_, written.slots slots tag⟩
    · rw [written.mem block same]
      exact ⟨slots, tag⟩
  · apply written.disk
    intro zero
    rw [← zero, superblockRead_page read] at table
    cases table

/-- The case distinction before an append changes the inode table only. -/
theorem prepareEntry_ready {transaction : Transaction} (ready : transaction.Ready s) :
    ∃ prepared s', prepareEntry s transaction = some (prepared, s') ∧
      prepared.isUninitialized = transaction.isUninitialized ∧ TableChange s s' := by
  cases transaction with
  | mknod path mode btreeBlock inodeNumber =>
    by_cases directory : mode &&& fileTypeMask = fileTypeDirectory
    · obtain ⟨pair, s', search, run, change⟩ :=
        truncate_newDirectory (ready path mode btreeBlock inodeNumber rfl directory)
      refine ⟨.mknod path mode pair.btreeBlock pair.inodeNumber, s', ?_, rfl, change⟩
      rw [prepareEntry, if_pos directory, search, Option.bind_eq_bind, Option.bind_some, run]
      rfl
    · refine ⟨.mknod path mode 0 inodeNumber, s, ?_, rfl, TableChange.refl s⟩
      rw [prepareEntry, if_neg directory]
  | uninitialized | unlink | link | chmod | truncate | write | rename =>
    exact ⟨_, s, rfl, rfl, TableChange.refl s⟩

/-- What an append passes to `sync_entry` of the entry that it overwrites. -/
def JournalEntry.toSync (entry : JournalEntry) : Option JournalEntry :=
  if entry.synced then none else some entry

/-- The entry as `initialize_journal_entry` fills it in. -/
def filledEntry (s : Store) (entry : JournalEntry) : Option JournalEntry := do
  let (transaction, s) ← prepareEntry s entry.transaction
  let superblock ← superblockRead s
  some { entry with blockNumber := superblock.journalBlock, transaction }

/-- The end of an append: the superblock is written and then the entry. -/
def finishAppend (s : Store) (superblock : Superblock) (filled : JournalEntry) : Store :=
  ((superblockWrite s superblock.advanceHead true).put superblock.journalBlock
    (.journal filled)).flush superblock.journalBlock

/-- An append, when the replay of the entry at the head is known. -/
theorem initializeJournalEntry_eq {sync : Nat → Store → Option Store} {s1 s2 : Store}
    {transaction : Transaction} {superblock former : Superblock}
    {entry front kept filled : JournalEntry}
    (prepared : prepareEntry s entry.transaction = some (transaction, s1))
    (fills : filled = { entry with
      blockNumber := superblock.journalBlock, transaction := transaction })
    (read : superblockRead s1 = some superblock)
    (get : s1.get superblock.journalBlock = some (.journal front))
    (replay : (if front.synced then some s1 else sync superblock.journalBlock s1) = some s2)
    (read2 : superblockRead s2 = some former)
    (get2 : s2.get superblock.journalBlock = some (.journal kept))
    (apart : superblock.journalBlock ≠ 0) :
    initializeJournalEntry sync s entry =
      some (front.toSync, finishAppend s2 superblock filled) := by
  let s3 := superblockWrite s2 superblock.advanceHead true
  have mem3 : s3.mem = (s2.put 0 (.super superblock.advanceHead)).mem :=
    superblockWrite_mem (superblockRead_page read2) _ _
  have total3 : s3.totalBlocks = s2.totalBlocks := superblockWrite_totalBlocks _ _ _
  have assign : assignEntry s3 superblock.journalBlock filled =
      some (s3.put superblock.journalBlock (.journal filled)) := by
    obtain ⟨inside, page⟩ := Store.get_eq_some get2
    unfold assignEntry
    rw [Store.get_of_lt (by rw [total3]; exact inside), mem3, Store.put_other _ _ _ _ apart, page]
    rfl
  have finish : ((assignEntry s3 superblock.journalBlock filled).bind fun s =>
      some (front.toSync, s.flush superblock.journalBlock)) =
      some (front.toSync, finishAppend s2 superblock filled) := by
    rw [assign]
    rfl
  rw [initializeJournalEntry_def, prepared, Option.bind_eq_bind, Option.bind_some]
  show (superblockRead s1).bind _ = _
  rw [read, Option.bind_some]
  show (s1.get superblock.journalBlock).bind _ = _
  rw [get, Option.bind_some, ← finish, fills]
  show (if front.synced = true then _ else _) = _
  unfold JournalEntry.toSync
  by_cases flag : front.synced = true
  · rw [if_pos flag] at replay
    obtain rfl : s1 = s2 := Option.some.inj replay
    rw [if_pos flag]
    rfl
  · rw [if_neg flag] at replay
    rw [if_neg flag]
    show (sync superblock.journalBlock s1).bind _ = _
    rw [replay]
    rfl

/-- One append: the oldest entry is passed to `sync_entry` and gives way to the new one. -/
theorem initializeJournalEntry_step {sync : Nat → Store → Option Store}
    (syncs : Syncs sync start slots) {front : JournalEntry} {rest : List JournalEntry}
    (journal : JournalAt s start slots head (front :: rest)) {entry : JournalEntry}
    (ready : entry.transaction.Ready s) :
    ∃ filled s', filledEntry s entry = some filled ∧ filled.synced = entry.synced ∧
      filled.transaction.isUninitialized = entry.transaction.isUninitialized ∧
      filled.blockNumber = start + head ∧
      initializeJournalEntry sync s entry = some (front.toSync, s') ∧
      JournalAt s' start slots (nextSlot slots head) (rest ++ [filled]) := by
  obtain ⟨transaction, s1, prepared, kind, change⟩ := prepareEntry_ready ready
  have journal1 := journal.keeps (change.keepsJournal journal)
  obtain ⟨superblock, read, here⟩ := journal1.superblock
  obtain ⟨head_lt, oldest, others, split, page⟩ := journal1.front
  obtain ⟨rfl, -⟩ := List.cons.inj split
  have inside : start + head < s1.totalBlocks := by
    have bound := journal1.inside
    omega
  have notZero : ∀ slot, start + slot ≠ 0 := fun slot => by
    have apart := journal.apart
    omega
  obtain ⟨s2, replay, ⟨kept, page2⟩, ⟨former, read2⟩, other2, total2⟩ :
      ∃ s2, (if front.synced then some s1 else sync superblock.journalBlock s1) = some s2 ∧
        (∃ kept, s2.mem (start + head) = .journal kept) ∧
        (∃ former, superblockRead s2 = some former) ∧
        (∀ index < slots, index ≠ head → s2.mem (start + index) = s1.mem (start + index)) ∧
        s2.totalBlocks = s1.totalBlocks := by
    cases front.synced with
    | true => exact ⟨s1, rfl, ⟨front, page⟩, ⟨superblock, read⟩, fun _ _ _ => rfl, rfl⟩
    | false =>
      obtain ⟨s2, run, synced⟩ := syncs s1 head _ head front journal1 head_lt page
      rw [here.journalBlock]
      exact ⟨s2, run, ⟨_, synced.marked⟩, synced.superblock, synced.other, synced.totalBlocks⟩
  let filled : JournalEntry :=
    { entry with blockNumber := superblock.journalBlock, transaction := transaction }
  have run := @initializeJournalEntry_eq s sync s1 s2 transaction superblock former entry front kept
    filled prepared rfl read (by rw [here.journalBlock, Store.get_of_lt inside, page]) replay read2
    (by rw [here.journalBlock, Store.get_of_lt (by rw [total2]; exact inside), page2])
    (by rw [here.journalBlock]; exact notZero head)
  refine ⟨filled, finishAppend s2 superblock filled, ?_, rfl, kind, here.journalBlock, run, ?_⟩
  · unfold filledEntry
    rw [prepared, Option.bind_eq_bind, Option.bind_some]
    show (superblockRead s1).bind _ = _
    rw [read]
    rfl
  · let s3 := superblockWrite s2 superblock.advanceHead true
    have mem3 : s3.mem = (s2.put 0 (.super superblock.advanceHead)).mem :=
      superblockWrite_mem (superblockRead_page read2) _ _
    have mem : (finishAppend s2 superblock filled).mem =
        (s3.put (start + head) (.journal filled)).mem := by
      rw [← here.journalBlock]
      rfl
    apply @JournalAt.push s1 (finishAppend s2 superblock filled) start slots head
      superblock.advanceHead front filled rest journal1
    · apply superblockRead_of_page
      rw [mem, Store.put_other _ _ _ _ (notZero head).symm, mem3, Store.put_same]
    · exact here.advance
    · rw [mem, Store.put_same]
    · exact Or.inr here.journalBlock
    · intro slot small apart
      rw [mem, Store.put_other _ _ _ _ (by omega), mem3, Store.put_other _ _ _ _ (notZero slot),
        other2 slot small apart]
    · exact (superblockWrite_totalBlocks _ _ _).trans total2

/-- An entry after the walk. -/
def JournalEntry.visited (entry : JournalEntry) : JournalEntry :=
  if entry.pending then { entry with synced := true } else entry

/-- The walk keeps the numbers. -/
theorem JournalEntry.visited_blockNumber (entry : JournalEntry) :
    entry.visited.blockNumber = entry.blockNumber := by
  unfold JournalEntry.visited
  split
  · rfl
  · rfl

/-- The walk goes through as many entries as it has left, in order. -/
theorem walkJournalFrom_spec {visit : Nat → Store → Option Store}
    (visits : Syncs visit start slots) (todo : List JournalEntry) :
    ∀ (done : List JournalEntry) (s : Store) (head : Nat) (superblock : Superblock),
      JournalAt s start slots head (todo ++ done) → superblock.HeadAt start slots head →
        ∃ s', walkJournalFrom visit todo.length superblock s =
            some (todo.filter JournalEntry.pending, s') ∧
          JournalAt s' start slots ((head + todo.length) % slots)
            (done ++ todo.map JournalEntry.visited) := by
  induction todo with
  | nil =>
    intro done s head superblock journal here
    refine ⟨s, rfl, ?_⟩
    have head_lt := journal.front.1
    rw [List.length_nil, Nat.add_zero, Nat.mod_eq_of_lt head_lt, List.map_nil, List.append_nil]
    exact journal
  | cons front todo ih =>
    intro done s head superblock journal here
    obtain ⟨head_lt, oldest, others, split, page⟩ := journal.front
    obtain ⟨rfl, -⟩ := List.cons.inj split
    obtain ⟨former, read, -⟩ := journal.superblock
    have inside : start + head < s.totalBlocks := by
      have bound := journal.inside
      omega
    have notZero : ∀ slot, start + slot ≠ 0 := fun slot => by
      have apart := journal.apart
      omega
    have visit1 : ∃ s1, (if front.pending then visit superblock.journalBlock s else some s) =
        some s1 ∧ s1.mem (start + head) = .journal front.visited ∧
        (∃ former, superblockRead s1 = some former) ∧
        (∀ index < slots, index ≠ head → s1.mem (start + index) = s.mem (start + index)) ∧
        s1.totalBlocks = s.totalBlocks := by
      unfold JournalEntry.visited
      cases front.pending with
      | false => exact ⟨s, rfl, page, ⟨former, read⟩, fun _ _ _ => rfl, rfl⟩
      | true =>
        obtain ⟨s1, run, synced⟩ := visits s head _ head front journal head_lt page
        rw [here.journalBlock]
        exact ⟨s1, run, synced.marked, synced.superblock, synced.other, synced.totalBlocks⟩
    obtain ⟨s1, run1, page1, ⟨former1, read1⟩, other1, total1⟩ := visit1
    let s2 := superblockWrite s1 superblock.advanceHead true
    have mem2 : s2.mem = (s1.put 0 (.super superblock.advanceHead)).mem :=
      superblockWrite_mem (superblockRead_page read1) _ _
    have journal2 : JournalAt s2 start slots (nextSlot slots head)
        (todo ++ done ++ [front.visited]) := by
      apply @JournalAt.push s s2 start slots head superblock.advanceHead front front.visited _
        journal
      · apply superblockRead_of_page
        rw [mem2, Store.put_same]
      · exact here.advance
      · rw [mem2, Store.put_other _ _ _ _ (notZero head)]
        exact page1
      · rw [front.visited_blockNumber]
        exact journal.numbers head head_lt front page
      · intro slot small apart
        rw [mem2, Store.put_other _ _ _ _ (notZero slot)]
        exact other1 slot small apart
      · exact (superblockWrite_totalBlocks _ _ _).trans total1
    rw [List.append_assoc] at journal2
    obtain ⟨s', walk, journal'⟩ := ih (done ++ [front.visited]) s2 _ superblock.advanceHead journal2
      here.advance
    refine ⟨s', ?_, ?_⟩
    · have get : s.get superblock.journalBlock = some (.journal front) := by
        rw [here.journalBlock, Store.get_of_lt inside, page]
      rw [List.length_cons, walkJournalFrom_succ get, run1, Option.bind_some]
      show (walkJournalFrom visit todo.length superblock.advanceHead s2).bind _ = _
      rw [walk, Option.bind_some, List.filter_cons]
    · have place : (nextSlot slots head + todo.length) % slots =
          (head + (front :: todo).length) % slots := by
        rw [nextSlot_eq_mod head_lt, Nat.mod_add_mod, List.length_cons, Nat.add_assoc,
          Nat.add_comm 1]
      rw [place] at journal'
      rw [List.map_cons]
      simpa using journal'

/-- The walk visits the pending entries in order and leaves the head where it was. -/
theorem walkJournal_spec {visit : Nat → Store → Option Store} (visits : Syncs visit start slots)
    (journal : JournalAt s start slots head window) :
    ∃ s', walkJournal visit s = some (window.filter JournalEntry.pending, s') ∧
      JournalAt s' start slots head (window.map JournalEntry.visited) := by
  obtain ⟨superblock, read, here⟩ := journal.superblock
  obtain ⟨content, shown, -⟩ := journal.ring
  have all : JournalAt s start slots head (window ++ []) := by
    rw [List.append_nil]
    exact journal
  obtain ⟨s', walk, journal'⟩ := walkJournalFrom_spec visits window [] s head superblock all here
  rw [shown.length, Nat.add_mod_right, Nat.mod_eq_of_lt shown.head_lt, List.nil_append] at journal'
  refine ⟨s', ?_, journal'⟩
  rw [walkJournal_def, read, Option.bind_some, here.size, Nat.add_sub_cancel, ← shown.length]
  exact walk

/-- A run of appends from a store on: the entries appended, the entries that `sync_entry` was called
with, and the store reached. Every call goes on with the record of the calls before it. Between the
calls the rest of the program works on everything but the journal. -/
inductive JournalRun (sync : Nat → Store → Option Store) (start slots : Nat) (s : Store) :
    List JournalEntry → List JournalEntry → Store → Prop
  /-- No call. -/
  | nil : JournalRun sync start slots s [] [] s
  /-- Anything else the program does. -/
  | activity {appended passed s' s''} : JournalRun sync start slots s appended passed s' →
      KeepsJournal start slots s' s'' → JournalRun sync start slots s appended passed s''
  /-- A call of `initialize_journal_entry`. -/
  | append {appended passed passed' s' s'' entry filled} :
      JournalRun sync start slots s appended passed s' → entry.synced = false →
        entry.transaction.isUninitialized = false → entry.transaction.Ready s' →
          filledEntry s' entry = some filled →
            initializeJournalEntryWith (recorded sync) passed s' entry = some (passed', s'') →
              JournalRun sync start slots s (appended ++ [filled]) passed' s''

/-- An entry of a formatted journal. -/
def unusedEntry : JournalEntry := ⟨0, false, .uninitialized⟩

/-- What the entries appended and passed have to do with the ring. -/
structure RingState (start slots : Nat) (appended passed window : List JournalEntry)
    (s : Store) : Prop where
  /-- The ring after the calls. -/
  journal : JournalAt s start slots (appended.length % slots) window
  /-- One entry after the other is passed, and the others are in the ring. -/
  order : passed ++ window = List.replicate slots unusedEntry ++ appended
  /-- Every entry knows its block. -/
  blocks : ∀ i entry, appended[i]? = some entry → entry.blockNumber = start + i % slots
  /-- The entries were appended as not synced, and none is `UNINITIALIZED`. -/
  pending : ∀ entry ∈ appended, entry.pending = true

section

variable {appended passed : List JournalEntry}

/-- The entries of the ring are not synced. -/
theorem RingState.unsynced (state : RingState start slots appended passed window s) :
    ∀ entry ∈ window, entry.synced = false := by
  intro entry member
  have all : entry ∈ List.replicate slots unusedEntry ++ appended := by
    rw [← state.order]
    exact List.mem_append_right _ member
  rcases List.mem_append.mp all with unused | used
  · rw [List.eq_of_mem_replicate unused]
    rfl
  · have pending := state.pending entry used
    unfold JournalEntry.pending at pending
    rw [Bool.and_eq_true, Bool.not_eq_true'] at pending
    rw [Bool.not_eq_true'] at pending
    exact pending.2

/-- Every call has passed one entry. -/
theorem RingState.passed_length (state : RingState start slots appended passed window s) :
    passed.length = appended.length := by
  obtain ⟨content, shown, -⟩ := state.journal.ring
  have lengths := congrArg List.length state.order
  simp only [List.length_append, List.length_replicate, shown.length] at lengths
  omega

/-- The entries passed are the first ones of the journal. -/
theorem RingState.passed_eq (state : RingState start slots appended passed window s) :
    passed = (List.replicate slots unusedEntry ++ appended).take appended.length := by
  rw [← state.order, ← state.passed_length, List.take_left]

/-- A call records the entry at the head and puts its own in the place. -/
theorem RingState.call_spec {sync : Nat → Store → Option Store} (syncs : Syncs sync start slots)
    (state : RingState start slots appended passed window s) {entry : JournalEntry}
    (ready : entry.transaction.Ready s) :
    ∃ front rest filled s', window = front :: rest ∧ filledEntry s entry = some filled ∧
      filled.synced = entry.synced ∧
      filled.transaction.isUninitialized = entry.transaction.isUninitialized ∧
      filled.blockNumber = start + appended.length % slots ∧
      initializeJournalEntryWith (recorded sync) passed s entry = some (passed ++ [front], s') ∧
      JournalAt s' start slots (nextSlot slots (appended.length % slots)) (rest ++ [filled]) := by
  obtain ⟨-, front, rest, split, -⟩ := state.journal.front
  have journal := state.journal
  rw [split] at journal
  have unsynced := state.unsynced front (by rw [split]; exact List.mem_cons_self)
  obtain ⟨filled, s', fill, flag, kind, number, call, journal'⟩ :=
    initializeJournalEntry_step syncs journal ready
  unfold JournalEntry.toSync at call
  rw [unsynced, if_neg Bool.false_ne_true] at call
  refine ⟨front, rest, filled, s', split, fill, flag, kind, number, ?_, journal'⟩
  rw [initializeJournalEntryWith_append, call]
  rfl

/-- A call with a new entry keeps the ring in order. -/
theorem RingState.append_spec {sync : Nat → Store → Option Store} (syncs : Syncs sync start slots)
    (state : RingState start slots appended passed window s) {entry : JournalEntry}
    (fresh : entry.synced = false) (used : entry.transaction.isUninitialized = false)
    (ready : entry.transaction.Ready s) :
    ∃ passed' window' filled s', filledEntry s entry = some filled ∧
      initializeJournalEntryWith (recorded sync) passed s entry = some (passed', s') ∧
      RingState start slots (appended ++ [filled]) passed' window' s' := by
  have head_lt := state.journal.front.1
  obtain ⟨front, rest, filled, s', split, fill, flag, kind, number, call, journal⟩ :=
    state.call_spec syncs ready
  refine ⟨passed ++ [front], rest ++ [filled], filled, s', fill, call, ?_, ?_, ?_, ?_⟩
  · have place : nextSlot slots (appended.length % slots) =
        (appended ++ [filled]).length % slots := by
      rw [nextSlot_eq_mod head_lt, Nat.mod_add_mod, List.length_append, List.length_singleton]
    rw [← place]
    exact journal
  · exact window_step state.order split
  · intro i other found
    by_cases old : i < appended.length
    · rw [List.getElem?_append_left old] at found
      exact state.blocks i other found
    · rw [List.getElem?_append_right (Nat.le_of_not_lt old)] at found
      have last : i = appended.length := by
        have bound := (List.getElem?_eq_some_iff.mp found).1
        rw [List.length_singleton] at bound
        omega
      rw [last, Nat.sub_self] at found
      obtain rfl : filled = other := Option.some.inj found
      rw [last]
      exact number
  · intro other member
    rcases List.mem_append.mp member with old | new
    · exact state.pending other old
    · rw [List.mem_singleton.mp new]
      unfold JournalEntry.pending
      rw [kind, used, flag, fresh]
      rfl

/-- Every run keeps the ring in order. -/
theorem JournalRun.state {sync : Nat → Store → Option Store} (syncs : Syncs sync start slots)
    (formatted : JournalAt s start slots 0 (List.replicate slots unusedEntry))
    (run : JournalRun sync start slots s appended passed s') :
    ∃ window, RingState start slots appended passed window s' := by
  induction run with
  | nil =>
    refine ⟨List.replicate slots unusedEntry, ?_, ?_, ?_, ?_⟩
    · rw [List.length_nil, Nat.zero_mod]
      exact formatted
    · rw [List.append_nil, List.nil_append]
    · intro i entry found
      cases found
    · intro entry member
      cases member
  | activity _ keeps ih =>
    obtain ⟨window, state⟩ := ih
    exact ⟨window, state.journal.keeps keeps, state.order, state.blocks, state.pending⟩
  | append _ fresh used ready fill call ih =>
    obtain ⟨window, state⟩ := ih
    obtain ⟨passed', window', filled', s2, fill', call', state'⟩ :=
      state.append_spec syncs fresh used ready
    obtain rfl := Option.some.inj (fill'.symm.trans fill)
    obtain ⟨rfl, rfl⟩ := Prod.mk.inj (Option.some.inj (call'.symm.trans call))
    exact ⟨window', state'⟩

/-- The entries of the window that are pending are the last ones appended. -/
theorem RingState.pending_window (state : RingState start slots appended passed window s) :
    window.filter JournalEntry.pending = appended.drop (appended.length - slots) := by
  have window_eq : window =
      (List.replicate slots unusedEntry ++ appended).drop appended.length := by
    rw [← state.order, ← state.passed_length, List.drop_left]
  rw [window_eq, List.drop_append, List.drop_replicate, List.filter_append, List.length_replicate]
  have unused : (List.replicate (slots - appended.length) unusedEntry).filter
      JournalEntry.pending = [] := by
    rw [List.filter_eq_nil_iff]
    intro entry member
    rw [List.eq_of_mem_replicate member]
    decide
  have used : (appended.drop (appended.length - slots)).filter JournalEntry.pending =
      appended.drop (appended.length - slots) := by
    rw [List.filter_eq_self]
    exact fun entry member => state.pending entry (List.mem_of_mem_drop member)
  rw [unused, used, List.nil_append]

/-- The journal loses nothing and replays in order. On a formatted journal, the entries that the
calls call `sync_entry` with, one a call, followed by the ring from the head on, are the unused
entries followed by those appended; each lies in the block that is overwritten one lap later, and
the next call returns as well. `sync_journal` goes on with those of the ring in order and leaves the
head where it was. -/
theorem journalRun_exact {sync : Nat → Store → Option Store} (syncs : Syncs sync start slots)
    (formatted : JournalAt s start slots 0 (List.replicate slots unusedEntry))
    (run : JournalRun sync start slots s appended passed s') :
    (∃ window, RingState start slots appended passed window s' ∧
      ∃ s'', syncJournalWith (recorded sync) passed s' =
          some (passed ++ appended.drop (appended.length - slots), s'') ∧
        JournalAt s'' start slots (appended.length % slots) (window.map JournalEntry.visited)) ∧
    ∀ entry, entry.transaction.Ready s' → ∃ front s'',
      initializeJournalEntryWith (recorded sync) passed s' entry =
        some (passed ++ [front], s'') := by
  obtain ⟨window, state⟩ := run.state syncs formatted
  constructor
  · obtain ⟨s'', walk, journal⟩ := walkJournal_spec syncs state.journal
    rw [state.pending_window] at walk
    refine ⟨window, state, s'', ?_, journal⟩
    unfold syncJournalWith
    rw [walkJournalWith_recorded, walk]
    rfl
  · intro entry ready
    obtain ⟨front, -, -, s'', -, -, -, -, -, call, -⟩ := state.call_spec syncs ready
    exact ⟨front, s'', call⟩

end

/-- Assigning the flag is such an operation. -/
theorem setSynced_syncs (start slots : Nat) : Syncs setSynced start slots := by
  intro s head window slot entry journal small page
  have inside : start + slot < s.totalBlocks := by
    have bound := journal.inside
    omega
  have notZero : 0 ≠ start + slot := by
    have apart := journal.apart
    omega
  have run : setSynced (start + slot) s =
      some (s.put (start + slot) (.journal { entry with synced := true })) := by
    unfold setSynced entryAt assignEntry
    rw [Store.get_of_lt inside, page]
    rfl
  obtain ⟨superblock, read, -⟩ := journal.superblock
  refine ⟨_, run, Store.put_same _ _ _, ⟨superblock, ?_⟩, ?_, rfl⟩
  · apply superblockRead_of_page
    rw [Store.put_other _ _ _ _ notZero]
    exact superblockRead_page read
  · intro index _ apart
    exact Store.put_other _ _ _ _ (by omega)

end

/-- An image with a ring of two slots behind block 5. -/
def ringImage : Store where
  totalBlocks := 300
  mem block :=
    if block = 0 then .super { smallSuperblock with totalBlocks := 300, journalStart := 5 }
    else .journal unusedEntry
  disk _ := .untagged fun _ => 0
  residue := ⟨fun _ => 0, fun _ _ => 0⟩

/-- Its journal is formatted. -/
theorem ringImage_formatted : JournalAt ringImage 5 2 0 (List.replicate 2 unusedEntry) := by
  have page : ∀ slot, ringImage.mem (5 + slot) = .journal unusedEntry :=
    fun slot => if_neg (by omega)
  refine ⟨⟨_, rfl, rfl, rfl, rfl⟩, by decide, by decide, ⟨fun _ => unusedEntry, ?_, ?_⟩, ?_⟩
  · exact Window.replicate (by decide) fun _ _ => rfl
  · exact fun slot _ => page slot
  · intro slot _ entry found
    rw [page] at found
    rw [← Block.journal.inj found]
    exact Or.inl rfl

/-- The call after a run with an `UNLINK`. -/
theorem JournalRun.unlink {sync : Nat → Store → Option Store} {s s' : Store} {start slots : Nat}
    {appended passed : List JournalEntry} (syncs : Syncs sync start slots)
    (formatted : JournalAt s start slots 0 (List.replicate slots unusedEntry))
    (run : JournalRun sync start slots s appended passed s') (path : CString) :
    ∃ passed' s'', JournalRun sync start slots s
      (appended ++ [⟨start + appended.length % slots, false, .unlink path⟩]) passed' s'' := by
  obtain ⟨window, state⟩ := run.state syncs formatted
  have ready : (Transaction.unlink path).Ready s' := fun _ _ _ _ same => by cases same
  have fresh : (⟨0, false, .unlink path⟩ : JournalEntry).synced = false := rfl
  obtain ⟨passed', -, filled, s'', fill, call, -⟩ := state.append_spec syncs fresh rfl ready
  obtain ⟨superblock, read, here⟩ := state.journal.superblock
  have known : filled = ⟨start + appended.length % slots, false, .unlink path⟩ := by
    unfold filledEntry prepareEntry at fill
    rw [Option.bind_eq_bind, Option.bind_some] at fill
    change (superblockRead s').bind _ = _ at fill
    rw [read, Option.bind_some, here.journalBlock] at fill
    exact (Option.some.inj fill).symm
  subst known
  exact ⟨passed', s'', .append run rfl rfl ready fill call⟩

/-- After five calls on a ring of two slots the first three entries were passed, behind the unused
ones, and the last two are left for `sync_journal`. -/
theorem journalRun_exact_laps :
    let entry (slot : Nat) (name : UInt8) : JournalEntry := ⟨slot, false, .unlink [47, name]⟩
    let appended := [entry 5 97, entry 6 98, entry 5 99, entry 6 100, entry 5 101]
    let passed := [unusedEntry, unusedEntry, entry 5 97, entry 6 98, entry 5 99]
    ∃ s', (∃ window, RingState 5 2 appended passed window s' ∧
      ∃ s'', syncJournalWith (recorded setSynced) passed s' =
          some (passed ++ [entry 6 100, entry 5 101], s'') ∧
        JournalAt s'' 5 2 1 (window.map JournalEntry.visited)) ∧
      ∀ entry, entry.transaction.Ready s' → ∃ front s'',
        initializeJournalEntryWith (recorded setSynced) passed s' entry =
          some (passed ++ [front], s'') := by
  intro entry appended passed
  have syncs := setSynced_syncs 5 2
  obtain ⟨_, _, run1⟩ := JournalRun.unlink syncs ringImage_formatted .nil [47, 97]
  obtain ⟨_, _, run2⟩ := run1.unlink syncs ringImage_formatted [47, 98]
  obtain ⟨_, _, run3⟩ := run2.unlink syncs ringImage_formatted [47, 99]
  obtain ⟨_, _, run4⟩ := run3.unlink syncs ringImage_formatted [47, 100]
  obtain ⟨known, s', run5⟩ := run4.unlink syncs ringImage_formatted [47, 101]
  obtain ⟨window, state⟩ := run5.state syncs ringImage_formatted
  obtain rfl : known = passed := state.passed_eq
  exact ⟨s', journalRun_exact syncs ringImage_formatted run5⟩

end Nbtrfs
