import Nbtrfs.Cache.Unsaved
import Nbtrfs.Fuse.Utimens
import Nbtrfs.Journal.Unmount

/-!
# Unmounting

`nbtrfs_destroy` marks every journal entry as synced, each one straight on the image, and only then
writes the dirty blocks back. Nothing in it makes a block dirty, so no crash touches an operation
whose blocks were clean before; one that had left a block dirty loses it in a crash between the two
loops.
-/

namespace Nbtrfs

namespace Cached

/-- `superblock_write`. -/
def superblockWrite (superblock : Superblock) (writeThrough : Bool) : CacheProgram Block Unit := do
  match ← getBlock 0 0 with
  | .super _ =>
    assignPage 0 (.super superblock)
    if writeThrough then
      diskWriteBlock 0 (.super superblock)
      decreasePinCount 0 0
    else
      writeBlock (.super superblock) 0 0
      increasePinCount 0 0
  | _ => pure ()

/-- `mark_entry_synced` on the entry of a journal block. -/
def markEntrySynced (block : Nat) (entry : JournalEntry) : CacheProgram Block Unit := do
  let page := Block.journal { entry with synced := true }
  assignPage block page
  diskWriteBlock entry.blockNumber page

/-- `sync_entry` on the entry of a journal block. `replay` is what it does for a transaction. -/
def syncEntry (replay : Nat → JournalEntry → CacheProgram Block Unit) (block : Nat)
    (entry : JournalEntry) : CacheProgram Block Unit :=
  if entry.transaction.isUninitialized then markEntrySynced block entry else replay block entry

/-- `initialize_journal_entry` of a transaction other than a `MKNOD`, for which there is nothing to
prepare. -/
def initializeJournalEntry (replay : Nat → JournalEntry → CacheProgram Block Unit)
    (entry : JournalEntry) : CacheProgram Block Unit := do
  let superblock ← superblockRead
  let journalBlock := superblock.journalBlock
  match ← getBlock 0 journalBlock with
  | .journal prevEntry =>
    if prevEntry.synced then pure () else syncEntry replay journalBlock prevEntry
    superblockWrite superblock.advanceHead true
    let page := Block.journal { entry with blockNumber := journalBlock }
    assignPage journalBlock page
    diskWriteBlock journalBlock page
  | _ => pure ()

/-- The visit of an entry in use that is not synced. -/
def visitPending (visit : Nat → JournalEntry → CacheProgram Block Unit) (block : Nat)
    (entry : JournalEntry) : CacheProgram Block Unit :=
  if entry.pending then visit block entry else pure ()

/-- The loop of `sync_journal` and `mark_journal_synced` with the number of entries left. -/
def walkJournalFrom (visit : Nat → JournalEntry → CacheProgram Block Unit) :
    Nat → Superblock → CacheProgram Block Unit
  | 0, _ => pure ()
  | left + 1, superblock => do
    match ← getBlock 0 superblock.journalBlock with
    | .journal prevEntry =>
      visitPending visit superblock.journalBlock prevEntry
      superblockWrite superblock.advanceHead true
      walkJournalFrom visit left superblock.advanceHead
    | _ => pure ()

/-- The walk of `sync_journal` and `mark_journal_synced`. -/
def walkJournal (visit : Nat → JournalEntry → CacheProgram Block Unit) :
    CacheProgram Block Unit := do
  let superblock ← superblockRead
  walkJournalFrom visit (calculateJournalSize superblock - 1) superblock

/-- `sync_journal`. -/
def syncJournal (replay : Nat → JournalEntry → CacheProgram Block Unit) : CacheProgram Block Unit :=
  walkJournal (syncEntry replay)

/-- `mark_journal_synced`. -/
def markJournalSynced : CacheProgram Block Unit := walkJournal markEntrySynced

/-- `_chmod`: whether it returns 0. -/
def chmod (depth : Nat) (path : CString) (mode : Nat) (writeThrough : Bool) :
    CacheProgram Block Bool := do
  let pair ← itemSearch depth path
  match ← inodeRead pair.inodeNumber with
  | none => pure false
  | some node => inodeWrite { node with mode } writeThrough

/-- `nbtrfs_chmod`: whether it returns 0. -/
def nbtrfsChmod (replay : Nat → JournalEntry → CacheProgram Block Unit) (depth : Nat)
    (path : CString) (mode : Nat) : CacheProgram Block Bool := do
  initializeJournalEntry replay ⟨0, false, .chmod path mode⟩
  chmod depth path mode false

/-- `get_block` is no `write_block`. -/
theorem getBlock_writesNone (inum pnum : Nat) :
    (getBlock inum pnum : CacheProgram Block Block).WritesNone := by
  refine ⟨fun _ _ _ => nofun, fun page => ?_⟩
  cases page with
  | none => exact True.intro
  | some page => exact True.intro

/-- Writing the superblock through makes nothing dirty. -/
theorem superblockWrite_writesNone (superblock : Superblock) :
    (superblockWrite superblock true).WritesNone := by
  refine (getBlock_writesNone 0 0).bind fun page => ?_
  cases page with
  | super former => exact ⟨fun _ _ _ => nofun, fun _ => True.intro⟩
  | bitmap | inode | btreeNode | journal | data | untagged => exact True.intro

/-- Marking the journal makes nothing dirty. -/
theorem walkJournalFrom_writesNone (left : Nat) (superblock : Superblock) :
    (walkJournalFrom markEntrySynced left superblock).WritesNone := by
  induction left generalizing superblock with
  | zero => exact True.intro
  | succ left ih =>
    refine (getBlock_writesNone 0 superblock.journalBlock).bind fun page => ?_
    cases page with
    | journal entry =>
      refine CacheProgram.WritesNone.bind ?_ fun _ =>
        (superblockWrite_writesNone superblock.advanceHead).bind fun _ => ih superblock.advanceHead
      unfold visitPending
      split
      · exact True.intro
      · exact True.intro
    | super | bitmap | inode | btreeNode | data | untagged => exact True.intro

/-- `mark_journal_synced` makes nothing dirty. -/
theorem markJournalSynced_writesNone : markJournalSynced.WritesNone := by
  refine CacheProgram.WritesNone.bind ?_ fun superblock =>
    walkJournalFrom_writesNone (calculateJournalSize superblock - 1) superblock
  refine (getBlock_writesNone 0 0).bind fun page => ?_
  cases page with
  | super | bitmap | inode | btreeNode | journal | data | untagged => exact True.intro

end Cached

/-- The machines that a mounted file system comes to, with the blocks that each of its operations
changed in the cache, the last operation first. An operation is any code over the cache. -/
inductive Session (tags : PageTags Block) : List (List Nat) → Machine Block → Prop
  /-- A new cache over an image. -/
  | mount (image : Image Block) (cacheSize : Nat) (uninitialised : Nat → CacheEntry Block) :
      Session tags [] ⟨allocCache cacheSize uninitialised, image⟩
  /-- An operation. -/
  | operation {α : Type} {history machine after} {program : CacheProgram Block α} {value : α} :
      Session tags history machine → program.run tags machine = some (value, after) →
        Session tags (program.changed tags machine :: history) after
  /-- A `cache_fsync` that goes through no `gdl_pos` that is not initialised. -/
  | fsync {history machine after inum} : Session tags history machine → FsyncReads machine inum →
      cacheFsync machine inum = some after → Session tags history after

/-- The operation whose entry is in a journal block, which is the last one that changed it, changed
the block. -/
def ChangedBy (history : List (List Nat)) (journal block : Nat) : Prop :=
  ∃ changed, history.find? (fun changed => changed.contains journal) = some changed ∧
    block ∈ changed

/-- A block of the ring, by the superblock that the file system sees. -/
def Machine.JournalSlot (machine : Machine Block) (journal : Nat) : Prop :=
  ∃ superblock, (machine.page 0).getD (machine.image.block 0) = .super superblock ∧
    ∃ slot < calculateJournalSize superblock - 1, journal = superblock.journalStart + slot

/-- No block that is dirty holds a change of an operation whose entry is not synced. -/
def Saved (history : List (List Nat)) (machine : Machine Block) : Prop :=
  ∀ journal entry, machine.JournalSlot journal → machine.image.block journal = .journal entry →
    entry.pending = true → ∀ block, ChangedBy history journal block → ¬ machine.Dirty block

section

variable (tags : PageTags Block)

/-- `nbtrfs_destroy`. -/
def nbtrfsDestroy (machine : Machine Block) : Option (Machine Block) := do
  let (_, marked) ← Cached.markJournalSynced.run tags machine
  cacheSync tags marked

/-- The points of `nbtrfs_destroy`: after some actions of `mark_journal_synced`, and after some
rounds of `cache_sync`. No action and no round makes more than one disk write. -/
inductive DestroyPoint (machine point : Machine Block) : Prop
  /-- In `mark_journal_synced`. -/
  | marking {count calls} :
      Cached.markJournalSynced.runFor tags count machine = some (calls, point) →
        DestroyPoint machine point
  /-- In `cache_sync`. -/
  | syncing {marked count} : Cached.markJournalSynced.run tags machine = some ((), marked) →
      cacheSyncFor tags count marked = some point → DestroyPoint machine point

end

/-- Of an entry that was not synced before and is synced on the image at a point, no change of its
operation is in a dirty block. A crash loses what is in dirty blocks, and a mount replays the
entries that are not synced. -/
def WriteAhead (history : List (List Nat)) (machine point : Machine Block) : Prop :=
  ∀ journal entry entry', machine.JournalSlot journal →
    machine.image.block journal = .journal entry → entry.pending = true →
      point.image.block journal = .journal entry' → entry'.synced = true →
        ∀ block, ChangedBy history journal block → ¬ point.Dirty block

section

variable {tags : PageTags Block} {history : List (List Nat)} {machine after point : Machine Block}

/-- The records of a session are in order. -/
theorem Session.marked (session : Session tags history machine) :
    ∃ recent pending written, Marked machine recent pending written := by
  induction session with
  | mount image cacheSize uninitialised =>
    exact ⟨[], [], false, allocCache_marked image cacheSize uninitialised⟩
  | operation _ run ih =>
    obtain ⟨recent, pending, written, marked⟩ := ih
    exact marked.program run
  | fsync _ reads run ih =>
    obtain ⟨recent, pending, written, marked⟩ := ih
    obtain ⟨pending', marked'⟩ := marked.fsync reads run
    exact ⟨recent, pending', written, marked'⟩

/-- `nbtrfs_destroy` makes no block dirty. -/
theorem Session.destroy_dirtiesNone (session : Session tags history machine)
    (reached : DestroyPoint tags machine point) : DirtiesNone machine point := by
  obtain ⟨recent, pending, written, marked⟩ := session.marked
  cases reached with
  | marking run => exact marked.tidy.runFor_dirtiesNone _ Cached.markJournalSynced_writesNone run
  | syncing run rounds =>
    obtain ⟨count, calls, steps⟩ := CacheProgram.runFor_of_run run
    have first := marked.tidy.runFor_dirtiesNone count Cached.markJournalSynced_writesNone steps
    exact fun block dirty => first block (cacheSyncFor_dirtiesNone rounds block dirty)

/-- What is saved at the unmount is on the image before its entry is marked. -/
theorem Session.writeAhead (session : Session tags history machine) (saved : Saved history machine)
    (reached : DestroyPoint tags machine point) : WriteAhead history machine point := by
  intro journal entry _ slot found pending _ _ block changed dirty
  exact saved journal entry slot found pending block changed
    (session.destroy_dirtiesNone reached block dirty)

/-- The superblock and the ring are in the cache, and the ring is as the appends leave it. -/
structure RingCached (start slots head : Nat) (machine : Machine Block) : Prop where
  /-- The number of slots of the cache is an `int`. -/
  fits : machine.cache.cacheSize ≤ intMax
  /-- The superblock knows the ring. -/
  superblock : ∃ superblock, machine.page 0 = some (.super superblock) ∧
    superblock.HeadAt start slots head
  /-- The head is a slot. -/
  head_lt : head < slots
  /-- Block 0 is no journal block. -/
  apart : 0 < start
  /-- The image holds the ring, and the addressing finds it. -/
  reaches : ∀ block < start + slots, machine.image.Reaches block
  /-- The entries are on the image, and an entry in use names its block. -/
  slot : ∀ slot < slots, ∃ entry, machine.page (start + slot) = some (.journal entry) ∧
    machine.image.block (start + slot) = .journal entry ∧
    (entry.transaction.isUninitialized = true ∨ entry.blockNumber = start + slot)

/-- What a walk changes: the dirty blocks stay dirty, and entries are marked. -/
structure Walked (start slots : Nat) (machine after : Machine Block) : Prop where
  /-- The dirty blocks are the same. -/
  dirty : ∀ block, after.Dirty block ↔ machine.Dirty block
  /-- An entry is kept up to its `synced` flag, which is not taken back. -/
  entries : ∀ slot < slots, ∀ entry, machine.image.block (start + slot) = .journal entry →
    ∃ entry', after.image.block (start + slot) = .journal entry' ∧
      entry'.transaction = entry.transaction ∧ (entry.pending = false → entry'.pending = false)

section Walk

variable {start slots head : Nat} {next : Machine Block} {recent pending : List (Nat × Nat)}

/-- Two walks. -/
theorem Walked.trans (first : Walked start slots machine next)
    (second : Walked start slots next after) : Walked start slots machine after where
  dirty block := (second.dirty block).trans (first.dirty block)
  entries slot small entry image := by
    obtain ⟨entry', image', same, kept⟩ := first.entries slot small entry image
    obtain ⟨entry'', image'', same', kept'⟩ := second.entries slot small entry' image'
    exact ⟨entry'', image'', same'.trans same, fun done => kept' (kept done)⟩

/-- `get_block` of a block in the cache, as a program. -/
theorem Tidy.run_getBlock (tidy : Tidy machine recent pending)
    (fits : machine.cache.cacheSize ≤ intMax) {block : Nat} {page : Block}
    (present : machine.page block = some page) :
    ∃ after recent', (Cached.getBlock 0 block).run tags machine = some (page, after) ∧
      Tidy after recent' pending ∧ Alike machine after := by
  obtain ⟨after, recent', get, tidy', same⟩ := @Tidy.get_page _ tags _ _ _ _ _ tidy fits present 0
  refine ⟨after, recent', ?_, tidy', same⟩
  show (cacheStep tags machine (.get 0 block)).bind _ = _
  rw [cacheStep, get]
  rfl

/-- Writing the superblock through, when it is in the cache. -/
theorem Tidy.superblockWrite (tidy : Tidy machine recent pending)
    (fits : machine.cache.cacheSize ≤ intMax) {former : Superblock}
    (present : machine.page 0 = some (.super former)) (reaches : machine.image.Reaches 0)
    (superblock : Superblock) :
    ∃ after recent', (Cached.superblockWrite superblock true).run tags machine = some ((), after) ∧
      Tidy after recent' pending ∧ Overwritten 0 (.super superblock) machine after := by
  obtain ⟨read, recent', get, tidy1, same⟩ := @Tidy.run_getBlock tags _ _ _ tidy fits _ _ present
  have present1 : read.page 0 = some (.super former) := (same.page 0).trans present
  have reaches1 : read.image.Reaches 0 := by
    rw [same.image]
    exact reaches
  obtain ⟨image, written, tidy2, rewritten⟩ := tidy1.overwrite present1 reaches1 (.super superblock)
  obtain ⟨after, unpin, tidy3, same'⟩ := @Tidy.unpin_page _ tags _ _ _ _ _ tidy2 rewritten.page 0
  refine ⟨after, recent', ?_, tidy3, same.overwritten (rewritten.alike same')⟩
  rw [Cached.superblockWrite, CacheProgram.run_bind, get, Option.bind_some]
  show (diskWriteBlock (read.assign 0 (.super superblock)).image 0 (.super superblock)).bind _ = _
  rw [written, Option.bind_some]
  show (cacheStep tags _ (.unpin 0 0)).bind _ = _
  rw [cacheStep, unpin]
  rfl

/-- Marking an entry that names its block. -/
theorem Tidy.markEntrySynced (tidy : Tidy machine recent pending) {block : Nat}
    {entry : JournalEntry} (present : machine.page block = some (.journal entry)) (reaches : machine.image.Reaches block)
    (number : entry.blockNumber = block) :
    ∃ after, (Cached.markEntrySynced block entry).run tags machine = some ((), after) ∧
      Tidy after recent pending ∧
      Overwritten block (.journal { entry with synced := true }) machine after := by
  subst number
  obtain ⟨image, written, tidy', rewritten⟩ :=
    tidy.overwrite present reaches (.journal { entry with synced := true })
  refine ⟨_, ?_, tidy', rewritten⟩
  change CacheProgram.run tags machine
    (.assign entry.blockNumber (.journal { entry with synced := true })
      (.flush entry.blockNumber (.journal { entry with synced := true }) (.done ()))) = _
  rw [CacheProgram.run, CacheProgram.run, written]
  rfl

/-- Replacing the superblock moves the head on. -/
theorem RingCached.advance {superblock : Superblock} (ring : RingCached start slots head machine)
    (here : superblock.HeadAt start slots head)
    (written : Overwritten 0 (.super superblock.advanceHead) machine after) :
    RingCached start slots (nextSlot slots head) after where
  fits := by
    rw [written.cacheSize]
    exact ring.fits
  superblock := ⟨superblock.advanceHead, written.page, here.advance⟩
  head_lt := nextSlot_lt ring.head_lt
  apart := ring.apart
  reaches block small := by
    have reached := ring.reaches block small
    unfold Image.Reaches at reached ⊢
    rw [written.totalBlocks]
    exact reached
  slot slot small := by
    obtain ⟨entry, page, image, number⟩ := ring.slot slot small
    have distinct : start + slot ≠ 0 := by
      have positive := ring.apart
      omega
    exact ⟨entry, (written.pages _ distinct).trans page, (written.images _ distinct).trans image,
      number⟩

/-- Replacing the entry of a slot by one that is in order. -/
theorem RingCached.replace {place : Nat} {entry : JournalEntry}
    (ring : RingCached start slots head machine)
    (written : Overwritten (start + place) (.journal entry) machine after)
    (number : entry.transaction.isUninitialized = true ∨ entry.blockNumber = start + place) :
    RingCached start slots head after where
  fits := by
    rw [written.cacheSize]
    exact ring.fits
  superblock := by
    obtain ⟨superblock, page, here⟩ := ring.superblock
    have distinct : 0 ≠ start + place := by
      have positive := ring.apart
      omega
    exact ⟨superblock, (written.pages 0 distinct).trans page, here⟩
  head_lt := ring.head_lt
  apart := ring.apart
  reaches block small := by
    have reached := ring.reaches block small
    unfold Image.Reaches at reached ⊢
    rw [written.totalBlocks]
    exact reached
  slot slot small := by
    by_cases same : slot = place
    · rw [same]
      exact ⟨entry, written.page, written.image, number⟩
    · obtain ⟨entry', page, image, number'⟩ := ring.slot slot small
      have distinct : start + slot ≠ start + place := by omega
      exact ⟨entry', (written.pages _ distinct).trans page, (written.images _ distinct).trans image,
        number'⟩

/-- A machine that is alike has the ring. -/
theorem RingCached.alike (ring : RingCached start slots head machine) (same : Alike machine after) :
    RingCached start slots head after where
  fits := by
    rw [same.cacheSize]
    exact ring.fits
  superblock := by
    obtain ⟨superblock, page, here⟩ := ring.superblock
    exact ⟨superblock, (same.page 0).trans page, here⟩
  head_lt := ring.head_lt
  apart := ring.apart
  reaches block small := by
    rw [same.image]
    exact ring.reaches block small
  slot slot small := by
    obtain ⟨entry, page, image, number⟩ := ring.slot slot small
    refine ⟨entry, (same.page _).trans page, ?_, number⟩
    rw [same.image]
    exact image

/-- The visit of the entry at the head marks it if it is pending. -/
theorem RingCached.visit (ring : RingCached start slots head machine)
    (tidy : Tidy machine recent pending) {front : JournalEntry}
    (page : machine.page (start + head) = some (.journal front)) :
    ∃ after entry,
      (Cached.visitPending Cached.markEntrySynced (start + head) front).run tags machine =
        some ((), after) ∧
      Tidy after recent pending ∧ RingCached start slots head after ∧
      after.page 0 = machine.page 0 ∧ Walked start slots machine after ∧
      after.image.block (start + head) = .journal entry ∧ entry.pending = false := by
  obtain ⟨found, page', image, number⟩ := ring.slot head ring.head_lt
  obtain rfl : front = found := Block.journal.inj (Option.some.inj (page.symm.trans page'))
  cases pending : front.pending with
  | false =>
    refine ⟨machine, front, ?_, tidy, ring, rfl, ⟨fun _ => Iff.rfl, ?_⟩, image, pending⟩
    · rw [Cached.visitPending, pending]
      rfl
    · exact fun slot _ entry image => ⟨entry, image, rfl, id⟩
  | true =>
    have own : front.blockNumber = start + head := by
      rcases number with unused | own
      · unfold JournalEntry.pending at pending
        rw [unused] at pending
        cases pending
      · exact own
    have reaches := ring.reaches (start + head) (Nat.add_lt_add_left ring.head_lt start)
    obtain ⟨after, run, tidy', written⟩ :=
      @Tidy.markEntrySynced tags _ _ _ tidy _ _ page reaches own
    have done : ({ front with synced := true } : JournalEntry).pending = false := by
      unfold JournalEntry.pending
      exact Bool.and_false _
    refine ⟨after, { front with synced := true }, ?_, tidy', ring.replace written (Or.inr own),
      written.pages 0 ?_, ⟨written.dirty, ?_⟩, written.image, done⟩
    · rw [Cached.visitPending, pending, if_pos rfl]
      exact run
    · have positive := ring.apart
      omega
    · intro slot small entry image'
      by_cases same : slot = head
      · rw [same] at image' ⊢
        obtain rfl : front = entry := Block.journal.inj (image.symm.trans image')
        exact ⟨_, written.image, rfl, fun _ => done⟩
      · exact ⟨entry, (written.images _ (by omega)).trans image', rfl, id⟩

/-- One round of the walk. -/
theorem RingCached.mark {superblock : Superblock} (ring : RingCached start slots head machine)
    (tidy : Tidy machine recent pending) (page0 : machine.page 0 = some (.super superblock))
    (here : superblock.HeadAt start slots head) :
    ∃ after recent' entry,
      (∀ left,
        (Cached.walkJournalFrom Cached.markEntrySynced (left + 1) superblock).run tags machine =
          (Cached.walkJournalFrom Cached.markEntrySynced left superblock.advanceHead).run tags
            after) ∧
      Tidy after recent' pending ∧ RingCached start slots (nextSlot slots head) after ∧
      after.page 0 = some (.super superblock.advanceHead) ∧ Walked start slots machine after ∧
      after.image.block (start + head) = .journal entry ∧ entry.pending = false := by
  obtain ⟨front, page, -, -⟩ := ring.slot head ring.head_lt
  obtain ⟨read, recent1, get, tidy1, same⟩ := @Tidy.run_getBlock tags _ _ _ tidy ring.fits _ _ page
  have ring1 := ring.alike same
  obtain ⟨visited, entry, visit, tidy2, ring2, super2, walked2, image2, done⟩ :=
    @RingCached.visit tags _ _ _ _ _ _ ring1 tidy1 front ((same.page _).trans page)
  have page2 : visited.page 0 = some (.super superblock) :=
    super2.trans ((same.page 0).trans page0)
  have positive := ring.apart
  obtain ⟨after, recent2, write, tidy3, written⟩ := @Tidy.superblockWrite tags _ _ _ tidy2
    ring2.fits _ page2 (ring2.reaches 0 (by omega)) superblock.advanceHead
  have elsewhere : ∀ slot, after.image.block (start + slot) = visited.image.block (start + slot) :=
    fun slot => written.images _ (by omega)
  have walked1 : Walked start slots machine read := by
    refine ⟨same.dirty, fun slot _ entry image => ⟨entry, ?_, rfl, id⟩⟩
    rw [same.image]
    exact image
  refine ⟨after, recent2, entry, fun left => ?_, tidy3, ring2.advance here written, written.page,
    (walked1.trans walked2).trans ⟨written.dirty, fun slot _ entry image =>
      ⟨entry, (elsewhere slot).trans image, rfl, id⟩⟩, (elsewhere head).trans image2, done⟩
  rw [Cached.walkJournalFrom, here.journalBlock, CacheProgram.run_bind, get, Option.bind_some]
  show (Cached.visitPending Cached.markEntrySynced (start + head) front >>= fun _ =>
    Cached.superblockWrite superblock.advanceHead true >>= fun _ =>
      Cached.walkJournalFrom Cached.markEntrySynced left superblock.advanceHead).run tags read = _
  rw [CacheProgram.run_bind, visit, Option.bind_some]
  dsimp only
  rw [CacheProgram.run_bind, write, Option.bind_some]

/-- The walk of `mark_journal_synced` marks the slots that it goes through. -/
theorem RingCached.walk (left : Nat) :
    ∀ (machine : Machine Block) (recent : List (Nat × Nat)) (head : Nat) (superblock : Superblock),
      RingCached start slots head machine → Tidy machine recent pending →
        machine.page 0 = some (.super superblock) → superblock.HeadAt start slots head →
          ∃ after,
            (Cached.walkJournalFrom Cached.markEntrySynced left superblock).run tags machine =
              some ((), after) ∧
            Walked start slots machine after ∧
            ∀ i < left, ∃ entry, after.image.block (start + (head + i) % slots) = .journal entry ∧
              entry.pending = false := by
  induction left with
  | zero =>
    intro machine recent head superblock ring _ _ _
    exact ⟨machine, rfl, ⟨fun _ => Iff.rfl, fun _ _ entry image => ⟨entry, image, rfl, id⟩⟩,
      fun i before => absurd before (Nat.not_lt_zero i)⟩
  | succ left ih =>
    intro machine recent head superblock ring tidy page0 here
    obtain ⟨next, recent', entry, round, tidy1, ring1, page1, walked1, image1, done⟩ :=
      @RingCached.mark tags _ _ _ _ _ _ _ ring tidy page0 here
    obtain ⟨after, rest, walked2, marked⟩ :=
      ih next recent' (nextSlot slots head) superblock.advanceHead ring1 tidy1 page1 here.advance
    have small := ring.head_lt
    refine ⟨after, (round left).trans rest, walked1.trans walked2, fun i before => ?_⟩
    cases i with
    | zero =>
      rw [Nat.add_zero, Nat.mod_eq_of_lt small]
      obtain ⟨entry', image2, -, kept⟩ := walked2.entries head small entry image1
      exact ⟨entry', image2, kept done⟩
    | succ i =>
      rw [← nextSlot_add_mod small i]
      exact marked i (by omega)

/-- `mark_journal_synced` marks every slot of a ring that is in the cache. -/
theorem RingCached.markJournalSynced (ring : RingCached start slots head machine)
    (tidy : Tidy machine recent pending) :
    ∃ after, Cached.markJournalSynced.run tags machine = some ((), after) ∧
      Walked start slots machine after ∧
      ∀ slot < slots, ∃ entry, after.image.block (start + slot) = .journal entry ∧
        entry.pending = false := by
  obtain ⟨superblock, page0, here⟩ := ring.superblock
  obtain ⟨read, recent', get, tidy1, same⟩ := @Tidy.run_getBlock tags _ _ _ tidy ring.fits _ _ page0
  obtain ⟨after, walk, walked, marked⟩ := RingCached.walk slots read recent' head superblock
    (ring.alike same) tidy1 ((same.page 0).trans page0) here
  refine ⟨after, ?_, ⟨fun block => (walked.dirty block).trans (same.dirty block), ?_⟩, ?_⟩
  · rw [Cached.markJournalSynced, Cached.walkJournal, CacheProgram.run_bind, Cached.superblockRead,
      CacheProgram.run_bind, get, Option.bind_some]
    show (Cached.walkJournalFrom Cached.markEntrySynced (calculateJournalSize superblock - 1)
      superblock).run tags read = _
    rw [here.size, Nat.add_sub_cancel, walk]
  · intro slot small entry image
    rw [← same.image] at image
    exact walked.entries slot small entry image
  · intro slot small
    have reached := marked ((slot + slots - head) % slots) (Nat.mod_lt _ (by omega))
    rw [slot_around ring.head_lt small] at reached
    exact reached

end Walk

/-- If an unmount with the ring in the cache writes ahead at all its points, everything was saved
before it. -/
theorem Session.saved {start slots head : Nat} (session : Session tags history machine)
    (ring : RingCached start slots head machine)
    (ahead : ∀ point, DestroyPoint tags machine point → WriteAhead history machine point) :
    Saved history machine := by
  obtain ⟨recent, pending, written, marked⟩ := session.marked
  obtain ⟨after, run, walked, done⟩ :=
    @RingCached.markJournalSynced tags _ _ _ _ _ _ ring marked.tidy
  intro journal entry inRing image unsynced block changed dirty
  have ⟨superblock, page, slot, small, place⟩ := inRing
  obtain ⟨found, page0, here⟩ := ring.superblock
  rw [page0, Option.getD_some] at page
  obtain rfl := Block.super.inj page
  rw [here.size, Nat.add_sub_cancel] at small
  rw [here.start] at place
  rw [place] at image
  -- the entry is marked while the block is still dirty
  obtain ⟨entry', image', same, -⟩ := walked.entries slot small entry image
  obtain ⟨final, image'', settled⟩ := done slot small
  obtain rfl := Block.journal.inj (image'.symm.trans image'')
  have synced : entry'.synced = true := by
    unfold JournalEntry.pending at settled unsynced
    rw [same] at settled
    rw [Bool.and_eq_true] at unsynced
    rw [unsynced.1, Bool.true_and, Bool.not_eq_false'] at settled
    exact settled
  have reached : DestroyPoint tags machine after :=
    @DestroyPoint.syncing tags machine after after 0 run rfl
  rw [← place] at image image'
  exact ahead after reached journal entry entry' inRing image unsynced image' synced block changed
    ((walked.dirty block).mpr dirty)

/-- In every session, if no block that is dirty when `nbtrfs_destroy` begins holds a change of an
operation whose entry is not synced, then at every point of it no entry is synced on the image
before the changes of its operation are written back. If the superblock and the ring are in the
cache, so that nothing is evicted, this is the only case. -/
theorem nbtrfsDestroy_ordered (session : Session tags history machine) :
    (Saved history machine →
      ∀ point, DestroyPoint tags machine point → WriteAhead history machine point) ∧
    ∀ start slots head, RingCached start slots head machine →
      (∀ point, DestroyPoint tags machine point → WriteAhead history machine point) →
        Saved history machine :=
  ⟨fun saved _ reached => session.writeAhead saved reached,
    fun _ _ _ ring ahead => session.saved ring ahead⟩

end

/-- The block is the superblock of a ring. -/
def Block.knowsRing (start slots head : Nat) : Block → Bool
  | .super superblock => superblock.journalStart == start &&
      calculateJournalSize superblock == slots + 1 && superblock.journalHead == head
  | _ => false

/-- The block is a journal block with an entry of which something holds. -/
def Block.holdsEntry (holds : JournalEntry → Bool) : Block → Bool
  | .journal entry => holds entry
  | _ => false

/-- The block is a block of inodes with a mode in a slot. -/
def Block.holdsMode (slot mode : Nat) : Block → Bool
  | .inode slots => (slots slot).mode == mode
  | _ => false

/-- A superblock that knows a ring. -/
theorem Block.knowsRing_super {start slots head : Nat} {block : Block}
    (knows : block.knowsRing start slots head = true) :
    ∃ superblock, block = .super superblock ∧ superblock.HeadAt start slots head := by
  cases block with
  | super superblock =>
    rw [knowsRing, Bool.and_eq_true, Bool.and_eq_true, beq_iff_eq, beq_iff_eq, beq_iff_eq] at knows
    exact ⟨superblock, rfl, knows.1.1, knows.1.2, knows.2⟩
  | bitmap | inode | btreeNode | journal | data | untagged => cases knows

/-- A journal block with such an entry. -/
theorem Block.holdsEntry_journal {holds : JournalEntry → Bool} {block : Block}
    (inside : block.holdsEntry holds = true) :
    ∃ entry, block = .journal entry ∧ holds entry = true := by
  cases block with
  | journal entry => exact ⟨entry, rfl, inside⟩
  | super | bitmap | inode | btreeNode | data | untagged => cases inside

/-- The entry of a change of the root's mode in block 5. -/
def chmodEntry : JournalEntry := ⟨5, false, .chmod [slash] 0o40700⟩

/-- Whether an entry is that one. -/
def JournalEntry.isChmod (entry : JournalEntry) : Bool :=
  entry.blockNumber == 5 && !entry.synced &&
    match entry.transaction with
    | .chmod path mode => path == [slash] && mode == 0o40700
    | _ => false

/-- It is. -/
theorem JournalEntry.eq_chmodEntry {entry : JournalEntry} (same : entry.isChmod = true) :
    entry = chmodEntry := by
  obtain ⟨number, synced, transaction⟩ := entry
  rw [isChmod, Bool.and_eq_true, Bool.and_eq_true, beq_iff_eq, Bool.not_eq_true'] at same
  obtain ⟨⟨rfl, rfl⟩, kind⟩ := same
  cases transaction with
  | chmod path mode =>
    obtain ⟨rfl, rfl⟩ : path = [slash] ∧ mode = 0o40700 := by simpa using kind
    rfl
  | uninitialized | mknod | unlink | link | truncate | write | rename => cases kind

namespace Cached

/-- The tags in these sessions. -/
def sessionTags : PageTags Block := blockTags fun _ => false

/-- A `sync_entry` of entries in use, of which these sessions have none to replay. -/
def replaysNone : Nat → JournalEntry → CacheProgram Block Unit := fun _ _ => .undefined

/-- The smallest cache that `alloc_cache` makes, over a formatted image of 200 blocks, whose ring
has one slot. -/
def formattedMachine : Option (Machine Block) :=
  (diskFormat ⟨1000, 1000, 0⟩ (zeroImage 200 ⟨fun _ => 0, fun _ _ => 0⟩) []).map fun result =>
    ⟨allocCache 16384 fun _ => ⟨false, 0, 0, 0, none, none, none⟩,
      ⟨result.2.totalBlocks, result.2.mem⟩⟩

/-- The blocks that `sync_journal` changes when the image is mounted, and the machine after it. -/
def mounted : Option (List Nat × Machine Block) := do
  let machine ← formattedMachine
  let (_, after) ← (syncJournal replaysNone).run sessionTags machine
  some ((syncJournal replaysNone).changed sessionTags machine, after)

/-- A logged change of the root's mode that is written through, as `sync_entry` makes it. -/
def chmodThrough : CacheProgram Block Bool := do
  initializeJournalEntry replaysNone ⟨0, false, .chmod [slash] 0o40700⟩
  chmod 201 [slash] 0o40700 true

/-- A page of a file is written again, which is not logged. -/
def overwritePage : CacheProgram Block Unit := writeBlock (.data fun _ => 7) 1 50

/-- Both of them after the mount: the blocks that they change, and the machine after them. -/
def savedRun : Option (List (List Nat) × Machine Block) := do
  let (mount, start) ← mounted
  let (_, middle) ← chmodThrough.run sessionTags start
  let (_, machine) ← overwritePage.run sessionTags middle
  some ([overwritePage.changed sessionTags middle, chmodThrough.changed sessionTags start, mount],
    machine)

/-- Take the root directory's permissions from all others. -/
def chmodRoot : CacheProgram Block Bool := nbtrfsChmod replaysNone 201 [slash] 0o40700

set_option maxRecDepth 100000 in
/-- The page is dirty and the entry is not synced, but the inode is clean, with the new mode on the
image. -/
theorem savedRun_computed : savedRun.any (fun (history, machine) =>
    (history.take 2 = [[50], [5, 0, 5, 3]] ∧ machine.cache.cacheSize = 16384 ∧
      machine.image.totalBlocks = 200) ∧
    ((machine.page 0).any (Block.knowsRing 5 1 0) = true ∧
      (machine.page 5).any (Block.holdsEntry JournalEntry.isChmod) = true ∧
      (machine.image.block 5).holdsEntry JournalEntry.isChmod = true) ∧
    (pciLookup machine.cache.pci 50).any (fun slot => (machine.cache.entries slot).dirtyBit) = true ∧
    [5, 0, 3].all (fun block => (pciLookup machine.cache.pci block).all fun slot =>
      !(machine.cache.entries slot).dirtyBit) = true ∧
    (machine.image.block 3).holdsMode 0 0o40700 = true) = true := by
  decide +kernel

set_option maxRecDepth 100000 in
/-- The mode is set in the cache. `mark_journal_synced` marks the entry while the inode is dirty,
with the old mode on the image. -/
theorem chmodRoot_computed : mounted.any (fun (_, start) =>
    chmodRoot.changed sessionTags start = [5, 0, 5, 3, 3] ∧
    (chmodRoot.run sessionTags start).any (fun (succeeds, machine) =>
      succeeds = true ∧ (machine.page 0).any (Block.knowsRing 5 1 0) = true ∧
      (machine.image.block 5).holdsEntry JournalEntry.pending = true ∧
      (markJournalSynced.run sessionTags machine).any (fun (_, point) =>
        (point.image.block 5).holdsEntry (fun entry => entry.synced) = true ∧
        (pciLookup point.cache.pci 3).any (fun slot => (point.cache.entries slot).dirtyBit) = true ∧
        (point.image.block 3).holdsMode 0 0o40755 = true) = true) = true) = true := by
  decide +kernel

/-- The mount is a session. -/
theorem mounted_session {changed : List Nat} {machine : Machine Block}
    (start : mounted = some (changed, machine)) : Session sessionTags [changed] machine := by
  rw [mounted, Option.bind_eq_bind] at start
  obtain ⟨empty, made, start⟩ := Option.bind_eq_some_iff.mp start
  rw [Option.bind_eq_bind] at start
  obtain ⟨⟨_, after⟩, run, start⟩ := Option.bind_eq_some_iff.mp start
  obtain ⟨rfl, rfl⟩ := Prod.mk.inj (Option.some.inj start)
  obtain ⟨result, -, rfl⟩ := Option.map_eq_some_iff.mp made
  exact (Session.mount _ _ _).operation run

/-- The two operations are a session. -/
theorem savedRun_session {history : List (List Nat)} {machine : Machine Block}
    (run : savedRun = some (history, machine)) :
    ∃ mount, history = history.take 2 ++ [mount] ∧ Session sessionTags history machine := by
  rw [savedRun, Option.bind_eq_bind] at run
  obtain ⟨⟨mount, start⟩, mounts, run⟩ := Option.bind_eq_some_iff.mp run
  dsimp only at run
  rw [Option.bind_eq_bind] at run
  obtain ⟨⟨_, middle⟩, chmods, run⟩ := Option.bind_eq_some_iff.mp run
  dsimp only at run
  rw [Option.bind_eq_bind] at run
  obtain ⟨⟨_, after⟩, writes, run⟩ := Option.bind_eq_some_iff.mp run
  obtain ⟨rfl, rfl⟩ := Prod.mk.inj (Option.some.inj run)
  exact ⟨mount, rfl, ((mounted_session mounts).operation chmods).operation writes⟩

end Cached

/-- Unmounting with an entry that is not synced, whose changes are on the image, and with a dirty page
that no entry is about: at every point the entry is synced only after its changes. -/
theorem nbtrfsDestroy_ordered_through :
    ∃ history machine, Cached.savedRun = some (history, machine) ∧
      machine.image.block 5 = .journal chmodEntry ∧ ChangedBy history 5 3 ∧
      (machine.image.block 3).holdsMode 0 0o40700 = true ∧ machine.Dirty 50 ∧
      (∀ point, DestroyPoint Cached.sessionTags machine point → WriteAhead history machine point) ∧
      ((∀ point, DestroyPoint Cached.sessionTags machine point →
        WriteAhead history machine point) → Saved history machine) := by
  obtain ⟨⟨history, machine⟩, start, computed⟩ :=
    (Option.any_eq_true _ _).mp Cached.savedRun_computed
  obtain ⟨⟨blocks, size, total⟩, ⟨page0, page5, image5⟩, dirty50, clean, mode⟩ :=
    of_decide_eq_true computed
  obtain ⟨mount, whole, session⟩ := Cached.savedRun_session start
  rw [blocks] at whole
  obtain ⟨block0, cached0, knows⟩ := (Option.any_eq_true _ _).mp page0
  obtain ⟨superblock, rfl, here⟩ := Block.knowsRing_super knows
  obtain ⟨block5, cached5, holds⟩ := (Option.any_eq_true _ _).mp page5
  obtain ⟨entry, rfl, isEntry⟩ := Block.holdsEntry_journal holds
  obtain ⟨entry', image, isEntry'⟩ := Block.holdsEntry_journal image5
  obtain rfl := JournalEntry.eq_chmodEntry isEntry
  obtain rfl := JournalEntry.eq_chmodEntry isEntry'
  obtain ⟨slot50, lookup50, dirty⟩ := (Option.any_eq_true _ _).mp dirty50
  have ring : RingCached 5 1 0 machine := by
    refine ⟨?_, ⟨superblock, cached0, here⟩, Nat.zero_lt_one, by decide, fun block small => ?_,
      fun slot small => ?_⟩
    · rw [size]
      decide
    · unfold Image.Reaches addressable
      omega
    · obtain rfl : slot = 0 := Nat.lt_one_iff.mp small
      exact ⟨chmodEntry, cached5, image, Or.inr rfl⟩
  have operation : ∀ block, ChangedBy history 5 block ↔ block ∈ [5, 0, 5, 3] := by
    intro block
    rw [whole]
    unfold ChangedBy
    simp
  have saved : Saved history machine := by
    rintro journal entry ⟨other, page, slot, small, rfl⟩ - - block changed ⟨place, lookup, dirty3⟩
    rw [cached0, Option.getD_some] at page
    obtain rfl := Block.super.inj page
    rw [here.size, Nat.add_sub_cancel] at small
    obtain rfl : slot = 0 := Nat.lt_one_iff.mp small
    rw [here.start, Nat.add_zero, operation] at changed
    have isClean := List.all_eq_true.mp clean block (by
      simp only [List.mem_cons, List.not_mem_nil, or_false] at changed ⊢
      omega)
    rw [lookup, Option.all_some, dirty3] at isClean
    cases isClean
  exact ⟨history, machine, start, image, (operation 3).mpr (by simp), mode,
    ⟨slot50, lookup50, dirty⟩, (nbtrfsDestroy_ordered session).1 saved,
    (nbtrfsDestroy_ordered session).2 5 1 0 ring⟩

/-- After the mode of the root was changed, unmounting passes a point at which the entry is synced
on the image, the inode is dirty and the image has the old mode. -/
theorem nbtrfsDestroy_ordered_false :
    ∃ changed start machine point, Cached.mounted = some (changed, start) ∧
      Cached.chmodRoot.run Cached.sessionTags start = some (true, machine) ∧
      Session Cached.sessionTags [Cached.chmodRoot.changed Cached.sessionTags start, changed]
        machine ∧
      DestroyPoint Cached.sessionTags machine point ∧
      (point.image.block 3).holdsMode 0 0o40755 = true ∧
      ¬ WriteAhead [Cached.chmodRoot.changed Cached.sessionTags start, changed] machine point := by
  obtain ⟨⟨changed, start⟩, mount, computed⟩ :=
    (Option.any_eq_true _ _).mp Cached.chmodRoot_computed
  obtain ⟨blocks, called⟩ := of_decide_eq_true computed
  obtain ⟨⟨succeeds, machine⟩, chmod, computed⟩ := (Option.any_eq_true _ _).mp called
  obtain ⟨rfl, page0, image5, marks⟩ := of_decide_eq_true computed
  obtain ⟨⟨_, point⟩, mark, computed⟩ := (Option.any_eq_true _ _).mp marks
  obtain ⟨point5, dirty3, mode⟩ := of_decide_eq_true computed
  obtain ⟨block0, cached0, knows⟩ := (Option.any_eq_true _ _).mp page0
  obtain ⟨superblock, rfl, here⟩ := Block.knowsRing_super knows
  obtain ⟨entry, image, pending⟩ := Block.holdsEntry_journal image5
  obtain ⟨entry', marked, synced⟩ := Block.holdsEntry_journal point5
  obtain ⟨slot, lookup, dirty⟩ := (Option.any_eq_true _ _).mp dirty3
  refine ⟨changed, start, machine, point, mount, chmod,
    (Cached.mounted_session mount).operation chmod,
    @DestroyPoint.syncing Cached.sessionTags machine point point 0 mark rfl, mode, fun ahead => ?_⟩
  have inRing : machine.JournalSlot 5 := by
    refine ⟨superblock, by rw [cached0, Option.getD_some], 0, ?_, ?_⟩
    · rw [here.size]
      decide
    · rw [here.start]
  have inode : ChangedBy [Cached.chmodRoot.changed Cached.sessionTags start, changed] 5 3 := by
    rw [blocks]
    exact ⟨[5, 0, 5, 3, 3], rfl, by decide⟩
  exact ahead 5 entry entry' inRing image pending marked synced 3 inode ⟨slot, lookup, dirty⟩

end Nbtrfs
