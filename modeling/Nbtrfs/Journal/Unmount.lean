import Nbtrfs.Journal.Kept

/-!
# Marking the journal at unmount

An append writes its entry to the block that the entry names, so between the appends the pages of
the ring are on the image and every entry in use names its block. `mark_journal_synced` therefore
marks every entry in the cache and in its own block of the image, goes round the ring once, and a
following `sync_journal` finds nothing to replay.
-/

namespace Nbtrfs

/-- A change that keeps the ring but for one of its blocks. -/
structure KeepsOthers (block : Nat) (s s' : Store) : Prop where
  /-- The superblock keeps its layout and the head. -/
  superblock : ∀ superblock, superblockRead s = some superblock →
    ∃ superblock', superblockRead s' = some superblock' ∧ superblock'.SameLayout superblock ∧
      superblock'.journalHead = superblock.journalHead
  /-- The other pages of the journal are kept. -/
  pages : ∀ other entry, other ≠ block → s.mem other = .journal entry →
    s'.mem other = .journal entry
  /-- The image of another journal block is kept or is its page. -/
  disk : ∀ other entry, other ≠ block → s.mem other = .journal entry →
    s'.disk other = s.disk other ∨ s'.disk other = .journal entry
  /-- The image keeps its size. -/
  totalBlocks : s'.totalBlocks = s.totalBlocks

/-- The `sync_entry` that an append makes leaves the superblock and the other journal blocks
alone. -/
def SyncsApart (sync : Nat → Store → Option Store) (s : Store) (entry : JournalEntry) : Prop :=
  ∀ transaction s1 superblock s2, prepareEntry s entry.transaction = some (transaction, s1) →
    superblockRead s1 = some superblock → sync superblock.journalBlock s1 = some s2 →
      KeepsOthers superblock.journalBlock s1 s2

/-- The stores that a formatted image comes to by appends of any entries, and by anything else that
leaves the ring alone. -/
inductive AppendHistory (sync : Nat → Store → Option Store) (layout : Superblock) : Store → Prop
  /-- The image as `disk_format` makes it, mounted. -/
  | formatted {host residue totalBlocks volumeName s} : Formattable totalBlocks →
      volumeName.length ≤ 31 →
        diskFormat host (zeroImage totalBlocks residue) volumeName = some (true, s) →
          superblockRead s = some layout → AppendHistory sync layout (mounted s)
  /-- Anything else. -/
  | activity {s s'} : AppendHistory sync layout s → KeepsRing s s' → AppendHistory sync layout s'
  /-- A call of `initialize_journal_entry`. -/
  | append {s s' entry synced} : AppendHistory sync layout s → SyncsApart sync s entry →
      initializeJournalEntry sync s entry = some (synced, s') → AppendHistory sync layout s'

/-- The pages of the ring are on the image, and an entry in use names its block. -/
structure RingFlushed (start slots head : Nat) (s : Store) : Prop where
  /-- The superblock knows the ring. -/
  superblock : ∃ superblock, superblockRead s = some superblock ∧ superblock.HeadAt start slots head
  /-- The head is a slot. -/
  head_lt : head < slots
  /-- Block 0 is no journal block. -/
  apart : 0 < start
  /-- The ring is in the image. -/
  inside : start + slots ≤ s.totalBlocks
  /-- The slots. -/
  slot : ∀ slot < slots, ∃ entry, s.mem (start + slot) = .journal entry ∧
    s.disk (start + slot) = .journal entry ∧
    (entry.transaction.isUninitialized = true ∨ entry.blockNumber = start + slot)

/-- An entry that is not replayed, in the cache and on the image. -/
def Settled (block : Nat) (s : Store) : Prop :=
  ∃ entry, s.mem block = .journal entry ∧ s.disk block = .journal entry ∧ entry.pending = false

section

variable {s s' : Store} {start slots head : Nat}

/-- The journal fields of two superblocks with one layout and one head. -/
theorem Superblock.HeadAt.sameLayout {superblock other : Superblock}
    (here : superblock.HeadAt start slots head) (same : other.SameLayout superblock)
    (sameHead : other.journalHead = superblock.journalHead) : other.HeadAt start slots head :=
  ⟨same.journalStart.trans here.start, same.journalSize.trans here.size, sameHead.trans here.head⟩

/-- A change that keeps the ring keeps it on the image. -/
theorem RingFlushed.keeps (ring : RingFlushed start slots head s) (keeps : KeepsRing s s') :
    RingFlushed start slots head s' where
  superblock := by
    obtain ⟨superblock, read, here⟩ := ring.superblock
    obtain ⟨superblock', read', same, sameHead⟩ := keeps.superblock superblock read
    exact ⟨superblock', read', here.sameLayout same sameHead⟩
  head_lt := ring.head_lt
  apart := ring.apart
  inside := by
    rw [keeps.totalBlocks]
    exact ring.inside
  slot slot small := by
    obtain ⟨entry, page, image, number⟩ := ring.slot slot small
    refine ⟨entry, keeps.pages _ entry page, ?_, number⟩
    rcases keeps.disk _ entry page with kept | written
    · exact kept.trans image
    · exact written

/-- Writing the superblock changes block 0, in the cache and on the image. -/
theorem superblockWrite_other {former superblock : Superblock}
    (read : superblockRead s = some former) {block : Nat} (distinct : block ≠ 0) :
    (superblockWrite s superblock true).mem block = s.mem block ∧
      (superblockWrite s superblock true).disk block = s.disk block := by
  unfold superblockWrite
  rw [superblockRead_page read]
  constructor
  · exact Store.put_other _ _ _ _ distinct
  · exact if_neg distinct

/-- The slot at the head is overwritten and the head moves on. -/
theorem RingFlushed.push {superblock : Superblock} {new : JournalEntry}
    (ring : RingFlushed start slots head s) (read : superblockRead s' = some superblock)
    (here : superblock.HeadAt start slots (nextSlot slots head))
    (page : s'.mem (start + head) = .journal new) (image : s'.disk (start + head) = .journal new)
    (number : new.transaction.isUninitialized = true ∨ new.blockNumber = start + head)
    (other : ∀ slot < slots, slot ≠ head → ∀ entry, s.mem (start + slot) = .journal entry →
      s.disk (start + slot) = .journal entry →
        s'.mem (start + slot) = .journal entry ∧ s'.disk (start + slot) = .journal entry)
    (total : s'.totalBlocks = s.totalBlocks) : RingFlushed start slots (nextSlot slots head) s' where
  superblock := ⟨superblock, read, here⟩
  head_lt := nextSlot_lt ring.head_lt
  apart := ring.apart
  inside := by
    rw [total]
    exact ring.inside
  slot slot small := by
    by_cases same : slot = head
    · rw [same]
      exact ⟨new, page, image, number⟩
    · obtain ⟨entry, page', image', number'⟩ := ring.slot slot small
      obtain ⟨kept, kept'⟩ := other slot small same entry page' image'
      exact ⟨entry, kept, kept', number'⟩

/-- An append writes its entry to its slot on the image, whatever the entry. -/
theorem RingFlushed.append {sync : Nat → Store → Option Store} {entry : JournalEntry}
    {synced : Option JournalEntry} (ring : RingFlushed start slots head s)
    (apart : SyncsApart sync s entry)
    (run : initializeJournalEntry sync s entry = some (synced, s')) :
    RingFlushed start slots (nextSlot slots head) s' := by
  obtain ⟨transaction, s1, superblock, prepared, read, steps⟩ := initializeJournalEntry_steps run
  have ring1 := ring.keeps (prepareEntry_leavesRing prepared).toKeepsRing
  obtain ⟨found, read', here⟩ := ring1.superblock
  obtain rfl : found = superblock := Option.some.inj (read'.symm.trans read)
  have block := here.journalBlock
  obtain ⟨front, page, -, -⟩ := ring1.slot head ring1.head_lt
  obtain ⟨s2, step⟩ := steps front (by rw [block]; exact page)
  have others : KeepsOthers found.journalBlock s1 s2 := by
    rcases step.replay with ⟨-, same⟩ | ⟨-, replayed⟩
    · rw [same]
      exact ⟨fun superblock read => ⟨superblock, read, Superblock.SameLayout.refl superblock, rfl⟩,
        fun _ _ _ page => page, fun _ _ _ _ => Or.inl rfl, rfl⟩
    · exact apart transaction s1 found s2 prepared read replayed
  obtain ⟨former, read2, -⟩ := others.superblock found read
  obtain ⟨transaction', prepared', -, -, -, final⟩ := step.prepared
  obtain rfl : transaction' = transaction :=
    (Prod.mk.inj (Option.some.inj (prepared'.symm.trans prepared))).1
  rw [block] at final others
  have notZero : ∀ slot, start + slot ≠ 0 := fun slot => by
    have positive := ring.apart
    omega
  have page0 : s'.mem 0 = .super found.advanceHead := by
    rw [final]
    show (Store.put _ (start + head) _).mem 0 = _
    rw [Store.put_other _ _ _ _ (notZero head).symm, superblockWrite_mem (superblockRead_page read2),
      Store.put_same]
  apply ring1.push (superblockRead_of_page page0) here.advance
  · rw [final]
    exact Store.put_same _ _ _
  · rw [final]
    show (if start + head = start + head then _ else _) = _
    rw [if_pos rfl, Store.put_same]
  · exact Or.inr rfl
  · intro slot small distinct entry page image
    have away : start + slot ≠ start + head := by omega
    have kept := others.pages _ entry away page
    have kept' : s2.disk (start + slot) = .journal entry := by
      rcases others.disk _ entry away page with same | written
      · exact same.trans image
      · exact written
    obtain ⟨memory, disk⟩ := @superblockWrite_other s2 former found.advanceHead read2 _
      (notZero slot)
    rw [final]
    constructor
    · show (Store.put _ (start + head) _).mem (start + slot) = _
      rw [Store.put_other _ _ _ _ away, memory, kept]
    · show (if start + slot = start + head then _ else
        (superblockWrite s2 found.advanceHead true).disk (start + slot)) = _
      rw [if_neg away, disk, kept']
  · rw [final]
    show (superblockWrite s2 found.advanceHead true).totalBlocks = _
    rw [superblockWrite_totalBlocks, others.totalBlocks]

/-- A formatted ring is on the image. -/
theorem RingFlushed.formatted {host : Host} {totalBlocks : Nat} {layout : Superblock}
    (laid : Laid host totalBlocks s) (formattable : Formattable totalBlocks)
    (read : superblockRead s = some layout) (size : calculateJournalSize layout = slots + 1)
    (positive : 0 < slots) : RingFlushed layout.journalStart slots 0 (mounted s) := by
  obtain ⟨superblock, read', total, -, begins, head, -, -⟩ := laid.superblock
  obtain rfl : superblock = layout := Option.some.inj (read'.symm.trans read)
  have journal : journalBlocks totalBlocks = slots + 1 := by
    rw [← size, calculateJournalSize, total]
    rfl
  have root : superblock.journalStart + (slots + 1) = rootBlock totalBlocks := by
    rw [begins, ← journal]
    rfl
  have room := formattable.room
  refine ⟨⟨superblock, read', rfl, size, head⟩, positive, ?_, ?_, ?_⟩
  · rw [begins]
    unfold journalStart tableStart
    omega
  · show superblock.journalStart + slots ≤ s.totalBlocks
    rw [laid.totalBlocks]
    omega
  · intro slot small
    have page := laid.journal (superblock.journalStart + slot) (by omega) (by omega)
    exact ⟨_, page, page, Or.inl rfl⟩

/-- Every history keeps the ring on the image. -/
theorem AppendHistory.flushed {sync : Nat → Store → Option Store} {layout : Superblock}
    (history : AppendHistory sync layout s) (size : calculateJournalSize layout = slots + 1)
    (positive : 0 < slots) : ∃ head, RingFlushed layout.journalStart slots head s := by
  induction history with
  | @formatted host residue totalBlocks volumeName s formattable short format read =>
    obtain ⟨s', format', laid⟩ := diskFormat_phases host residue formattable short
    obtain rfl : s' = s := (Prod.mk.inj (Option.some.inj (format'.symm.trans format))).2
    exact ⟨0, RingFlushed.formatted laid formattable read size positive⟩
  | activity _ keeps ih =>
    obtain ⟨head, ring⟩ := ih
    exact ⟨head, ring.keeps keeps⟩
  | append _ apart run ih =>
    obtain ⟨head, ring⟩ := ih
    exact ⟨nextSlot slots head, ring.append apart run⟩

/-- What a walk has changed. -/
structure WalkFrame (start slots : Nat) (s s' : Store) : Prop where
  /-- Entries that are settled stay so. -/
  settled : ∀ slot < slots, Settled (start + slot) s → Settled (start + slot) s'
  /-- Blocks other than the superblock and the ring are kept, in the cache and on the image. -/
  other : ∀ block, block ≠ 0 → (∀ slot < slots, block ≠ start + slot) →
    s'.mem block = s.mem block ∧ s'.disk block = s.disk block
  /-- The image keeps its size. -/
  totalBlocks : s'.totalBlocks = s.totalBlocks

/-- Two walks. -/
theorem WalkFrame.trans {s'' : Store} (first : WalkFrame start slots s s')
    (second : WalkFrame start slots s' s'') : WalkFrame start slots s s'' where
  settled slot small settled := second.settled slot small (first.settled slot small settled)
  other block notZero outside := by
    obtain ⟨memory, disk⟩ := first.other block notZero outside
    obtain ⟨memory', disk'⟩ := second.other block notZero outside
    exact ⟨memory'.trans memory, disk'.trans disk⟩
  totalBlocks := second.totalBlocks.trans first.totalBlocks

/-- Moving the head on from a slot whose entry is settled. -/
theorem RingFlushed.moveOn {superblock former : Superblock} {front : JournalEntry}
    (ring : RingFlushed start slots head s) (here : superblock.HeadAt start slots head)
    (read : superblockRead s' = some former)
    (page : s'.mem (start + head) = .journal front) (image : s'.disk (start + head) = .journal front)
    (number : front.transaction.isUninitialized = true ∨ front.blockNumber = start + head)
    (done : front.pending = false)
    (other : ∀ block, block ≠ start + head → s'.mem block = s.mem block ∧ s'.disk block = s.disk block)
    (total : s'.totalBlocks = s.totalBlocks) :
    let next := superblockWrite s' superblock.advanceHead true
    superblockRead next = some superblock.advanceHead ∧
      RingFlushed start slots (nextSlot slots head) next ∧ Settled (start + head) next ∧
        WalkFrame start slots s next := by
  have notZero : ∀ slot, start + slot ≠ 0 := fun slot => by
    have positive := ring.apart
    omega
  have written : ∀ block, block ≠ 0 →
      (superblockWrite s' superblock.advanceHead true).mem block = s'.mem block ∧
        (superblockWrite s' superblock.advanceHead true).disk block = s'.disk block :=
    fun block distinct => superblockWrite_other read distinct
  have readNext : superblockRead (superblockWrite s' superblock.advanceHead true) =
      some superblock.advanceHead := by
    apply superblockRead_of_page
    rw [superblockWrite_mem (superblockRead_page read), Store.put_same]
  obtain ⟨memory, disk⟩ := written _ (notZero head)
  have pageNext := memory.trans page
  have imageNext := disk.trans image
  have totalNext : (superblockWrite s' superblock.advanceHead true).totalBlocks = s.totalBlocks :=
    (superblockWrite_totalBlocks _ _ _).trans total
  have kept : ∀ slot, slot ≠ head →
      (superblockWrite s' superblock.advanceHead true).mem (start + slot) = s.mem (start + slot) ∧
      (superblockWrite s' superblock.advanceHead true).disk (start + slot) =
        s.disk (start + slot) := by
    intro slot distinct
    obtain ⟨memory', disk'⟩ := written _ (notZero slot)
    obtain ⟨same, same'⟩ := other (start + slot) (by omega)
    exact ⟨memory'.trans same, disk'.trans same'⟩
  refine ⟨readNext, ?_, ⟨front, pageNext, imageNext, done⟩, ?_, ?_, totalNext⟩
  · apply ring.push readNext here.advance pageNext imageNext number
    · intro slot _ distinct entry pageSlot imageSlot
      obtain ⟨same, same'⟩ := kept slot distinct
      exact ⟨same.trans pageSlot, same'.trans imageSlot⟩
    · exact totalNext
  · intro slot _ settled
    by_cases same : slot = head
    · rw [same]
      exact ⟨front, pageNext, imageNext, done⟩
    · obtain ⟨entry, pageSlot, imageSlot, done'⟩ := settled
      obtain ⟨same, same'⟩ := kept slot same
      exact ⟨entry, same.trans pageSlot, same'.trans imageSlot, done'⟩
  · intro block distinct outside
    obtain ⟨memory', disk'⟩ := written block distinct
    obtain ⟨same, same'⟩ := other block (outside head ring.head_lt)
    exact ⟨memory'.trans same, disk'.trans same'⟩

/-- `mark_journal_synced` settles the entry at the head, in the cache and on the image. -/
theorem RingFlushed.mark {superblock : Superblock} (ring : RingFlushed start slots head s)
    (read : superblockRead s = some superblock) (here : superblock.HeadAt start slots head) :
    ∃ front s1, s.get superblock.journalBlock = some (.journal front) ∧
      (if front.pending then markEntrySynced superblock.journalBlock s else some s) = some s1 ∧
      let next := superblockWrite s1 superblock.advanceHead true
      superblockRead next = some superblock.advanceHead ∧
        RingFlushed start slots (nextSlot slots head) next ∧ Settled (start + head) next ∧
          WalkFrame start slots s next := by
  obtain ⟨front, page, image, number⟩ := ring.slot head ring.head_lt
  have inside : start + head < s.totalBlocks := by
    have bound := ring.inside
    have small := ring.head_lt
    omega
  have get : s.get superblock.journalBlock = some (.journal front) := by
    rw [here.journalBlock, Store.get_of_lt inside, page]
  cases pending : front.pending with
  | false =>
    exact ⟨front, s, get, by rw [pending, if_neg Bool.false_ne_true],
      ring.moveOn here read page image number pending (fun _ _ => ⟨rfl, rfl⟩) rfl⟩
  | true =>
    have own : front.blockNumber = start + head := by
      rcases number with unused | own
      · unfold JournalEntry.pending at pending
        rw [unused] at pending
        cases pending
      · exact own
    obtain ⟨s1, run, memory, disk, others, total⟩ :=
      markEntrySynced_spec page inside (by rw [own]; exact inside)
    rw [own] at others
    have image1 := (congrArg s1.disk own).symm.trans disk
    have notZero : 0 ≠ start + head := by
      have positive := ring.apart
      omega
    have read1 : superblockRead s1 = some superblock := by
      apply superblockRead_of_page
      rw [memory, Store.put_other _ _ _ _ notZero]
      exact superblockRead_page read
    have kept : ∀ block, block ≠ start + head →
        s1.mem block = s.mem block ∧ s1.disk block = s.disk block := by
      intro block distinct
      refine ⟨?_, others block distinct⟩
      rw [memory, Store.put_other _ _ _ _ distinct]
    have done : ({ front with synced := true } : JournalEntry).pending = false := by
      unfold JournalEntry.pending
      exact Bool.and_false _
    refine ⟨front, s1, get, ?_, ?_⟩
    · rw [pending, if_pos rfl, here.journalBlock]
      exact run
    · have page1 : s1.mem (start + head) = .journal { front with synced := true } := by
        rw [memory, Store.put_same]
      exact ring.moveOn here read1 page1 image1 (Or.inr own) done kept total

/-- The walk of `mark_journal_synced` settles the slots that it goes through. -/
theorem walkJournalFrom_mark (left : Nat) :
    ∀ (s : Store) (head : Nat) (superblock : Superblock), RingFlushed start slots head s →
      superblockRead s = some superblock → superblock.HeadAt start slots head →
        ∃ visited s', walkJournalFrom markEntrySynced left superblock s = some (visited, s') ∧
          RingFlushed start slots ((head + left) % slots) s' ∧
          (∀ i < left, Settled (start + (head + i) % slots) s') ∧
          WalkFrame start slots s s' := by
  induction left with
  | zero =>
    intro s head superblock ring _ _
    refine ⟨[], s, rfl, ?_, fun i before => by omega, fun _ _ settled => settled,
      fun _ _ _ => ⟨rfl, rfl⟩, rfl⟩
    rw [Nat.add_zero, Nat.mod_eq_of_lt ring.head_lt]
    exact ring
  | succ left ih =>
    intro s head superblock ring read here
    obtain ⟨front, s1, get, visit, read1, ring1, settled, frame⟩ := ring.mark read here
    obtain ⟨visited, s', walk, ring', settled', frame'⟩ :=
      ih _ _ superblock.advanceHead ring1 read1 here.advance
    have place := nextSlot_add_mod ring.head_lt
    rw [place left] at ring'
    refine ⟨if front.pending then front :: visited else visited, s', ?_, ring', ?_,
      frame.trans frame'⟩
    · rw [walkJournalFrom_succ get, visit, Option.bind_some, walk, Option.bind_some]
    · intro i before
      cases i with
      | zero =>
        rw [Nat.add_zero, Nat.mod_eq_of_lt ring.head_lt]
        exact frame'.settled head ring.head_lt settled
      | succ i =>
        rw [← place i]
        exact settled' i (by omega)

/-- Writing the superblock twice is writing the second one. -/
theorem superblockWrite_twice {former : Superblock} (read : superblockRead s = some former)
    (first second : Superblock) :
    superblockWrite (superblockWrite s first true) second true = superblockWrite s second true := by
  have page := superblockRead_page read
  have once : ∀ superblock, superblockWrite s superblock true =
      (s.put 0 (.super superblock)).flush 0 := by
    intro superblock
    unfold superblockWrite
    rw [page]
    rfl
  rw [once, once]
  unfold superblockWrite Store.flush Store.put
  simp only [if_true, Store.mk.injEq, true_and, and_true]
  constructor
  · funext block
    split <;> rfl
  · funext block
    split <;> rfl

/-- After as many steps as the ring has slots the head is back. -/
theorem Superblock.HeadAt.around {superblock : Superblock}
    (here : superblock.HeadAt start slots head) (small : head < slots) :
    Superblock.advanceHead^[slots] superblock = superblock := by
  have steps : ∀ k, Superblock.advanceHead^[k] superblock =
      { superblock with journalHead := (head + k) % slots } := by
    intro k
    induction k with
    | zero =>
      rw [Nat.add_zero, Nat.mod_eq_of_lt small, ← here.head]
      rfl
    | succ k ih =>
      have reached : (Superblock.advanceHead^[k] superblock).HeadAt start slots
          ((head + k) % slots) := by
        rw [ih]
        exact ⟨here.start, here.size, rfl⟩
      have next := reached.advance.head
      rw [nextSlot_eq_mod (Nat.mod_lt _ (by omega)), Nat.mod_add_mod] at next
      rw [Function.iterate_succ_apply', ← Nat.add_assoc, ← next, ih]
      rfl
  rw [steps, Nat.add_mod_right, Nat.mod_eq_of_lt small, ← here.head]

/-- A walk round a ring without pending entries visits nothing, whatever it would do, and writes
the superblock. -/
theorem walkJournalFrom_settled (left : Nat) :
    ∀ (s : Store) (head : Nat) (superblock former : Superblock),
      superblock.HeadAt start slots head → head < slots → 0 < start →
        start + slots ≤ s.totalBlocks → superblockRead s = some former →
          (∀ slot < slots, ∃ entry, s.mem (start + slot) = .journal entry ∧ entry.pending = false) →
            ∀ visit, walkJournalFrom visit (left + 1) superblock s =
              some ([], superblockWrite s (Superblock.advanceHead^[left + 1] superblock) true) := by
  induction left with
  | zero =>
    intro s head superblock former here small _ bound _ settled visit
    obtain ⟨entry, page, done⟩ := settled head small
    have get : s.get superblock.journalBlock = some (.journal entry) := by
      rw [here.journalBlock, Store.get_of_lt (by omega), page]
    rw [walkJournalFrom_succ get, done]
    rfl
  | succ left ih =>
    intro s head superblock former here small apart bound read settled visit
    obtain ⟨entry, page, done⟩ := settled head small
    have get : s.get superblock.journalBlock = some (.journal entry) := by
      rw [here.journalBlock, Store.get_of_lt (by omega), page]
    let next := superblockWrite s superblock.advanceHead true
    have readNext : superblockRead next = some superblock.advanceHead := by
      apply superblockRead_of_page
      rw [superblockWrite_mem (superblockRead_page read), Store.put_same]
    have rest := ih next (nextSlot slots head) superblock.advanceHead superblock.advanceHead
      here.advance (nextSlot_lt small) apart
      (by rw [superblockWrite_totalBlocks]; exact bound) readNext
      (fun slot inside => by
        obtain ⟨entry', page', done'⟩ := settled slot inside
        refine ⟨entry', ?_, done'⟩
        rw [(@superblockWrite_other s former superblock.advanceHead read (start + slot)
          (by omega)).1]
        exact page') visit
    rw [walkJournalFrom_succ get, done, if_neg Bool.false_ne_true, Option.bind_some]
    show (walkJournalFrom visit (left + 1) superblock.advanceHead next).bind _ = _
    rw [rest, superblockWrite_twice read]
    rfl

/-- After `mark_journal_synced` on a journal of at least two blocks, whatever was appended, every
slot of the ring is unused or synced in the cache and in its own block of the image, the head is
where it was, only the ring and the superblock have been written, and `sync_journal` calls
`sync_entry` for no entry. -/
theorem markJournalSynced_complete {sync : Nat → Store → Option Store} {layout : Superblock}
    (history : AppendHistory sync layout s) (size : 2 ≤ calculateJournalSize layout) :
    ∃ visited s', markJournalSynced s = some (visited, s') ∧
      (∀ slot < calculateJournalSize layout - 1, ∃ entry,
        s'.mem (layout.journalStart + slot) = .journal entry ∧
        s'.disk (layout.journalStart + slot) = .journal entry ∧
        (entry.transaction.isUninitialized = true ∨ entry.synced = true)) ∧
      (∃ superblock superblock', superblockRead s = some superblock ∧
        superblockRead s' = some superblock' ∧ superblock'.journalHead = superblock.journalHead) ∧
      (∀ block, block ≠ 0 →
        (∀ slot < calculateJournalSize layout - 1, block ≠ layout.journalStart + slot) →
          s'.mem block = s.mem block ∧ s'.disk block = s.disk block) ∧
      ∃ s'', ∀ sync, syncJournal sync s' = some ([], s'') := by
  obtain ⟨slots, slots_eq⟩ : ∃ slots, calculateJournalSize layout = slots + 1 :=
    ⟨calculateJournalSize layout - 1, by omega⟩
  obtain ⟨head, ring⟩ := history.flushed slots_eq (by omega)
  obtain ⟨superblock, read, here⟩ := ring.superblock
  obtain ⟨visited, s', walk, ring', settled, frame⟩ :=
    walkJournalFrom_mark slots s head superblock ring read here
  have small := ring.head_lt
  rw [Nat.add_mod_right, Nat.mod_eq_of_lt small] at ring'
  obtain ⟨superblock', read', here'⟩ := ring'.superblock
  have all : ∀ slot < slots, Settled (layout.journalStart + slot) s' := by
    intro slot inside
    have found := settled ((slot + slots - head) % slots) (Nat.mod_lt _ (by omega))
    rw [slot_around small inside] at found
    exact found
  obtain ⟨left, left_eq⟩ : ∃ left, slots = left + 1 := ⟨slots - 1, by omega⟩
  have clean := @walkJournalFrom_settled layout.journalStart slots left s' head superblock'
    superblock' here' small ring'.apart ring'.inside read' fun slot inside => by
      obtain ⟨entry, page, -, done⟩ := all slot inside
      exact ⟨entry, page, done⟩
  rw [← left_eq, here'.around small] at clean
  rw [slots_eq, Nat.add_sub_cancel]
  refine ⟨visited, s', ?_, ?_, ⟨superblock, superblock', read, read', ?_⟩, frame.other,
    superblockWrite s' superblock' true, ?_⟩
  · rw [markJournalSynced, walkJournal_def, read, Option.bind_some, here.size,
      Nat.add_sub_cancel, walk]
  · intro slot inside
    obtain ⟨entry, page, image, done⟩ := all slot inside
    refine ⟨entry, page, image, ?_⟩
    unfold JournalEntry.pending at done
    cases unused : entry.transaction.isUninitialized with
    | true => exact Or.inl rfl
    | false =>
      rw [unused, Bool.not_false, Bool.true_and, Bool.not_eq_false'] at done
      exact Or.inr done
  · rw [here'.head, here.head]
  · intro sync'
    rw [syncJournal_def, read', Option.bind_some, here'.size, Nat.add_sub_cancel]
    exact clean sync'

end

/-- `sync_entry` of an unused slot leaves the superblock and the other journal blocks alone. -/
theorem syncEntry_unused {replay : Nat → Store → Option (Bool × Store)} {s s' : Store} {block : Nat}
    {superblock : Superblock} (read : superblockRead s = some superblock)
    (page : s.mem block = .journal unusedEntry) (run : syncEntry replay block s = some s') :
    KeepsOthers block s s' := by
  have inside : block < s.totalBlocks := by
    unfold syncEntry replayEntry entryAt at run
    by_contra outside
    rw [show s.get block = none from if_neg outside] at run
    cases run
  have nonempty : 0 < s.totalBlocks := Nat.zero_lt_of_lt inside
  obtain ⟨marked, mark, memory, -, others, total⟩ := markEntrySynced_spec page inside nonempty
  have same : marked = s' := by
    have found : entryAt s block = some unusedEntry := by
      unfold entryAt
      rw [Store.get_of_lt inside, page]
      rfl
    unfold syncEntry replayEntry at run
    rw [found] at run
    exact Option.some.inj (mark.symm.trans run)
  subst same
  have page0 := superblockRead_page read
  have notZero : 0 ≠ block := by
    intro zero
    rw [← zero, page0] at page
    cases page
  refine ⟨fun found read' => ?_, fun other entry distinct tag => ?_, fun other entry _ tag => ?_,
    total⟩
  · refine ⟨found, ?_, Superblock.SameLayout.refl found, rfl⟩
    rw [← read']
    unfold superblockRead
    rw [memory, Store.put_other _ _ _ _ notZero]
  · rw [memory, Store.put_other _ _ _ _ distinct]
    exact tag
  · refine Or.inl (others other ?_)
    rintro rfl
    rw [show unusedEntry.blockNumber = 0 from rfl, page0] at tag
    cases tag

/-- The `UNLINK` of `/a` on an image of 300 blocks, which has a ring of two slots. -/
def unlinkFormatted : Option Store :=
  (diskFormat ⟨1000, 1000, 0⟩ (zeroImage 300 ⟨fun _ => 0, fun _ _ => 0⟩) []).bind fun (_, s) =>
    (initializeJournalEntry (syncEntry fun _ s => some (false, s)) (mounted s)
      ⟨0, false, .unlink [47, 97]⟩).map Prod.snd

set_option maxRecDepth 100000 in
/-- The append returns. -/
theorem unlinkFormatted_computed : unlinkFormatted.isSome = true := by decide +kernel

/-- Marking the journal after the `UNLINK` of `/a`. -/
theorem markJournalSynced_complete_unlink :
    ∃ s layout, unlinkFormatted = some s ∧ ∃ visited s', markJournalSynced s = some (visited, s') ∧
      (∀ slot < calculateJournalSize layout - 1, ∃ entry,
        s'.mem (layout.journalStart + slot) = .journal entry ∧
        s'.disk (layout.journalStart + slot) = .journal entry ∧
        (entry.transaction.isUninitialized = true ∨ entry.synced = true)) ∧
      (∃ superblock superblock', superblockRead s = some superblock ∧
        superblockRead s' = some superblock' ∧ superblock'.journalHead = superblock.journalHead) ∧
      (∀ block, block ≠ 0 →
        (∀ slot < calculateJournalSize layout - 1, block ≠ layout.journalStart + slot) →
          s'.mem block = s.mem block ∧ s'.disk block = s.disk block) ∧
      ∃ s'', ∀ sync, syncJournal sync s' = some ([], s'') := by
  have formattable : Formattable 300 := ⟨by decide, by decide, by decide⟩
  obtain ⟨s0, format, laid⟩ := diskFormat_phases ⟨1000, 1000, 0⟩ ⟨fun _ => 0, fun _ _ => 0⟩
    formattable (show [].length ≤ 31 by decide)
  obtain ⟨layout, read, total, -, begins, head, -, -⟩ := laid.superblock
  obtain ⟨s, image⟩ := Option.isSome_iff_exists.mp unlinkFormatted_computed
  have appended := image
  rw [unlinkFormatted, format, Option.bind_some] at appended
  obtain ⟨⟨synced, s'⟩, append, same⟩ := Option.map_eq_some_iff.mp appended
  obtain rfl : s' = s := same
  have size : calculateJournalSize layout = 3 := by
    rw [calculateJournalSize, total]
  have apart : SyncsApart (syncEntry fun _ s => some (false, s)) (mounted s0)
      ⟨0, false, .unlink [47, 97]⟩ := by
    intro transaction s1 superblock s2 prepared read1 run
    obtain ⟨-, rfl⟩ := Prod.mk.inj (Option.some.inj prepared)
    obtain rfl : layout = superblock := Option.some.inj (read.symm.trans read1)
    have block : layout.journalBlock = journalStart 300 := by
      rw [Superblock.journalBlock, begins, head, Nat.add_zero]
    refine syncEntry_unused read1 ?_ run
    rw [block]
    exact laid.journal _ (Nat.le_refl _) (by decide)
  have history := (AppendHistory.formatted formattable (by decide) format read).append apart append
  exact ⟨s', layout, image, markJournalSynced_complete history (by rw [size]; decide)⟩

end Nbtrfs
