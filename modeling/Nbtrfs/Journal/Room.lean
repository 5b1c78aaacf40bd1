import Nbtrfs.Directory.Frames
import Nbtrfs.Fuse.ReadBack

/-!
# Room in the journal

An append replays nothing as long as the entry at the head is not pending. A journal with a number of
such entries from the head on has room for as many appends, and what happens between them leaves the room
as it is.
-/

namespace Nbtrfs

/-- A journal whose next entries are not pending, in allocated blocks. -/
structure JournalRoom (start slots count : Nat) (s : Store) : Prop where
  /-- The next entries are not pending. -/
  ahead : ∃ head window, JournalAt s start slots head window ∧ count ≤ window.length ∧
    ∀ entry ∈ window.take count, entry.pending = false
  /-- The blocks are allocated. -/
  set : ∀ slot < slots, s.bit (start + slot) = some true

/-- A change that leaves allocated journal blocks alone, and the journal fields of the superblock. -/
structure LeavesJournal (s s' : Store) : Prop where
  /-- The image keeps its size. -/
  total : s'.totalBlocks = s.totalBlocks
  /-- The superblock keeps the fields. -/
  superblock : ∀ superblock, superblockRead s = some superblock →
    ∃ superblock', superblockRead s' = some superblock' ∧
      superblock'.journalStart = superblock.journalStart ∧
      superblock'.totalBlocks = superblock.totalBlocks ∧
      superblock'.journalHead = superblock.journalHead
  /-- The journal blocks are kept. -/
  pages : ∀ block entry, block < s.totalBlocks → s.bit block = some true →
    s.mem block = .journal entry → s'.mem block = .journal entry
  /-- Allocated blocks stay allocated. -/
  bits : ∀ block < s.totalBlocks, s.bit block = some true → s'.bit block = some true

section

variable {s s' s'' : Store} {superblock : Superblock} {inode : Inode} {start slots count head : Nat}
  {window : List JournalEntry}

/-- Two changes. -/
theorem LeavesJournal.trans (first : LeavesJournal s s') (second : LeavesJournal s' s'') :
    LeavesJournal s s'' where
  total := second.total.trans first.total
  superblock superblock read := by
    obtain ⟨middle, read', start, total, head⟩ := first.superblock superblock read
    obtain ⟨last, read'', start', total', head'⟩ := second.superblock middle read'
    exact ⟨last, read'', start'.trans start, total'.trans total, head'.trans head⟩
  pages block entry inside set tag := by
    refine second.pages block entry ?_ (first.bits block inside set)
      (first.pages block entry inside set tag)
    rw [first.total]
    exact inside
  bits block inside set := by
    refine second.bits block ?_ (first.bits block inside set)
    rw [first.total]
    exact inside

/-- A journal block is no page of the block bitmap. -/
theorem Store.Formatted.journal_not_page (formatted : s.Formatted) {block : Nat}
    {entry : JournalEntry} (tag : s.mem block = .journal entry) :
    ∀ pnum < s.totalBlocks, bitmapPage pnum ≠ block := by
  apply formatted.not_page_of_tag
  intro words same
  rw [tag] at same
  cases same

/-- The superblock is no journal block. -/
theorem journal_ne_zero (read : superblockRead s = some superblock) {block : Nat}
    {entry : JournalEntry} (tag : s.mem block = .journal entry) : block ≠ 0 := by
  rintro rfl
  rw [superblockRead_page read] at tag
  cases tag

/-- Assigning a block that is neither the superblock nor a bitmap nor an allocated journal block. -/
theorem leavesJournal_put {block : Nat} (nonzero : block ≠ 0)
    (noPage : ∀ pnum < s.totalBlocks, bitmapPage pnum ≠ block)
    (noJournal : s.bit block = some true → ∀ entry, s.mem block ≠ .journal entry) (page : Block) :
    LeavesJournal s (s.put block page) where
  total := rfl
  superblock superblock read := by
    refine ⟨superblock, superblockRead_of_page ?_, rfl, rfl, rfl⟩
    rw [Store.put_other _ _ _ _ (Ne.symm nonzero)]
    exact superblockRead_page read
  pages other entry _ set tag := by
    rw [Store.put_other _ _ _ _ _, tag]
    rintro rfl
    exact noJournal set entry tag
  bits other inside set := by
    have same : SamePages s (s.put block page) :=
      ⟨rfl, fun pnum inside => Store.put_other _ _ _ _ (noPage pnum inside)⟩
    rw [same.bit inside]
    exact set

/-- Allocating a block. -/
theorem Allocated.leavesJournal {page : Nat} (allocated : Allocated s page s')
    (read : superblockRead s = some superblock) (formatted : s.Formatted) : LeavesJournal s s' where
  total := allocated.change.totalBlocks
  superblock other read' := by
    refine ⟨other.decrementFree, ?_, rfl, rfl, rfl⟩
    rw [allocated.change.superblock, read']
    rfl
  pages block entry _ set tag := by
    rw [allocated.change.mem block (journal_ne_zero read tag)
      (formatted.journal_not_page tag page allocated.inside).symm, tag]
  bits block _ set := by
    rw [allocated.change.bits]
    split
    · rfl
    · exact set

/-- Writing an inode to its slot. -/
theorem SlotWritten.leavesJournal {page : Nat} (written : SlotWritten s page inode s')
    (formatted : s.Formatted) : LeavesJournal s s' where
  total := written.totalBlocks
  superblock superblock read := ⟨superblock, written.superblockRead read, rfl, rfl, rfl⟩
  pages block entry _ _ tag := by
    rw [written.other, tag]
    intro slots same
    rw [tag] at same
    cases same
  bits block inside set := by
    rw [(written.samePages formatted.bitmapped).bit inside]
    exact set

/-- Entering a block number into a data block. -/
theorem PointerLinked.leavesJournal {pointers index physicalBlock : Nat}
    (entered : PointerLinked s pointers index physicalBlock s') (formatted : s.Formatted)
    (read : superblockRead s = some superblock) (data : ∃ bytes, s.mem pointers = .data bytes)
    (data' : ∃ bytes, s.mem physicalBlock = .data bytes) : LeavesJournal s s' := by
  have content : ∀ {block : Nat}, (∃ bytes, s.mem block = .data bytes) → (s.mem block).isContent := by
    rintro block ⟨bytes, tag⟩
    rw [tag]
    trivial
  have others : ∀ {block : Nat} {entry : JournalEntry}, s.mem block = .journal entry →
      s'.mem block = .journal entry := by
    intro block entry tag
    rw [entered.mem block, tag]
    · rintro rfl
      obtain ⟨bytes, page⟩ := data
      rw [tag] at page
      cases page
    · rintro rfl
      obtain ⟨bytes, page⟩ := data'
      rw [tag] at page
      cases page
  have change := @PointerLinked.undisturbed s s' 0 0 pointers index physicalBlock entered formatted
    (content_ne_zero read (content data)) (content_ne_zero read (content data'))
    (formatted.content_not_page (content data)) (formatted.content_not_page (content data'))
  refine ⟨entered.totalBlocks, fun other read' => ?_, fun _ _ _ _ => others, change.bits⟩
  refine ⟨other, superblockRead_of_page ?_, rfl, rfl, rfl⟩
  rw [entered.mem 0 (content_ne_zero read (content data)).symm
    (content_ne_zero read (content data')).symm]
  exact superblockRead_page read'

/-- Making a single indirect block. -/
theorem IndirectCreated.leavesJournal {page : Nat}
    (created : IndirectCreated s superblock inode page s') (formatted : s.Formatted)
    (read : superblockRead s = some superblock) : LeavesJournal s s' where
  total := created.totalBlocks
  superblock other read' := by
    obtain rfl := Option.some.inj (read.symm.trans read')
    exact ⟨superblock.decrementFree, created.read, rfl, rfl, rfl⟩
  pages block entry _ set tag := by
    rw [created.other block (journal_ne_zero read tag) (formatted.journal_not_page tag), tag]
    · rintro rfl
      rw [created.free] at set
      cases set
    · right
      intro slots same
      rw [tag] at same
      cases same
  bits block inside set := by
    rw [created.bits block inside]
    split
    · rfl
    · exact set

/-- `inode_set_block` of a new block. -/
theorem MapReady.leavesJournal {index physicalBlock : Nat} {done : Bool} {inode' : Inode}
    (ready : MapReady s superblock inode physicalBlock) (small : index ≤ pointersPerPage)
    (room : pointerBlocks inode index ≤ s.freeCount)
    (run : inodeSetBlock s inode index physicalBlock = some (done, inode', s')) :
    LeavesJournal s s' := by
  have last : ∀ {value : Bool × Inode × Store},
      inodeSetBlock s inode index physicalBlock = some value → value.2.2 = s' := by
    intro value run'
    rw [Option.some.inj (run'.symm.trans run)]
  by_cases direct : index < directPointers
  · obtain ⟨after, run', written⟩ :=
      inodeSetBlock_direct ready.read ready.table direct physicalBlock
    obtain rfl : after = s' := last run'
    exact written.leavesJournal ready.formatted
  · have behind : directPointers ≤ index := Nat.not_lt.mp direct
    by_cases unlinked : inode.indirectBlock = 0
    · have inodeReady : InodeReady s superblock inode :=
        ⟨ready.formatted, ready.read, ready.table, fun linked => absurd unlinked linked⟩
      have free : 0 < s.freeCount := by
        rw [pointerBlocks, if_pos ⟨behind, unlinked⟩] at room
        omega
      obtain ⟨pointers, created, after, run', made, entered⟩ := inodeSetBlock_unlinked inodeReady
        behind small unlinked ready.nonzero ready.inside free
      obtain rfl : after = s' := last run'
      have first := made.leavesJournal ready.formatted ready.read
      refine first.trans (entered.leavesJournal made.formatted made.read ⟨_, made.entries⟩ ?_)
      obtain ⟨bytes, tag⟩ := ready.data
      refine ⟨bytes, ?_⟩
      rw [made.other physicalBlock ready.nonzero, tag]
      · apply ready.formatted.content_not_page
        rw [tag]
        trivial
      · rintro rfl
        have set := ready.set
        rw [made.free] at set
        cases set
      · right
        intro slots same
        rw [tag] at same
        cases same
    · obtain ⟨inside, -, bytes, tag⟩ := ready.indirect unlinked
      obtain ⟨after, run', entered⟩ := inodeSetBlock_linked behind small unlinked tag inside
        ready.nonzero ready.inside
      obtain rfl : after = s' := last run'
      exact entered.leavesJournal ready.formatted ready.read ⟨bytes, tag⟩ ready.data

/-- Writing behind the tag of a page. -/
theorem writePayload_leavesJournal {pnum offset : Nat} {piece : List UInt8}
    (formatted : s.Formatted) (read : superblockRead s = some superblock)
    (run : writePayload s pnum offset piece = some s') : LeavesJournal s s' := by
  obtain ⟨page, get, run⟩ := Option.bind_eq_some_iff.mp run
  obtain ⟨-, tag⟩ := Store.get_eq_some get
  have nonzero : ∀ {bytes : Nat → UInt8}, page = .data bytes ∨ page = .untagged bytes → pnum ≠ 0 := by
    rintro bytes kind rfl
    rw [superblockRead_page read] at tag
    rcases kind with rfl | rfl
    · cases tag
    · cases tag
  have noPage : ∀ {bytes : Nat → UInt8}, page = .data bytes ∨ page = .untagged bytes →
      ∀ pnum' < s.totalBlocks, bitmapPage pnum' ≠ pnum := by
    intro bytes kind
    apply formatted.not_page_of_tag
    intro words same
    rw [tag] at same
    rcases kind with rfl | rfl
    · cases same
    · cases same
  cases page with
  | data bytes =>
    obtain rfl := Option.some.inj run
    refine leavesJournal_put (nonzero (Or.inl rfl)) (noPage (Or.inl rfl)) (fun _ entry same => ?_) _
    rw [tag] at same
    cases same
  | untagged bytes =>
    obtain rfl := Option.some.inj run
    refine leavesJournal_put (nonzero (Or.inr rfl)) (noPage (Or.inr rfl)) (fun _ entry same => ?_) _
    rw [tag] at same
    cases same
  | super | bitmap | inode | btreeNode | journal => cases run

/-- What leaves the journal alone leaves the room. -/
theorem JournalRoom.leaves (room : JournalRoom start slots count s) (leaves : LeavesJournal s s') :
    JournalRoom start slots count s' := by
  obtain ⟨head, window, journal, few, quiet⟩ := room.ahead
  have inside : ∀ slot < slots, start + slot < s.totalBlocks := by
    have bound := journal.inside
    omega
  obtain ⟨content, -, pages⟩ := journal.ring
  refine ⟨⟨head, window, journal.keeps ⟨leaves.superblock, fun slot small => ?_, leaves.total⟩, few,
    quiet⟩, fun slot small => leaves.bits _ (inside slot small) (room.set slot small)⟩
  rw [pages slot small]
  exact leaves.pages _ _ (inside slot small) (room.set slot small) (pages slot small)

/-- Room for more is room for less. -/
theorem JournalRoom.mono {fewer : Nat} (room : JournalRoom start slots count s)
    (less : fewer ≤ count) : JournalRoom start slots fewer s := by
  obtain ⟨head, window, journal, few, quiet⟩ := room.ahead
  refine ⟨⟨head, window, journal, by omega, fun entry member => quiet entry ?_⟩, room.set⟩
  exact (List.take_subset_take_left window less) member

/-- `mark_entry_synced` sets the flag of the entry. -/
theorem markEntrySynced_syncs (start slots : Nat) : Syncs markEntrySynced start slots := by
  intro s head window slot entry journal small page
  have inside : start + slot < s.totalBlocks := by
    have bound := journal.inside
    omega
  have notZero : 0 ≠ start + slot := by
    have apart := journal.apart
    omega
  have number : entry.blockNumber < s.totalBlocks := by
    rcases journal.numbers slot small entry page with unused | own
    · omega
    · omega
  obtain ⟨s', run, mem, -, -, total⟩ := markEntrySynced_spec page inside number
  obtain ⟨superblock, read, -⟩ := journal.superblock
  refine ⟨s', run, ?_, ⟨superblock, ?_⟩, ?_, total⟩
  · rw [mem, Store.put_same]
  · apply superblockRead_of_page
    rw [mem, Store.put_other _ _ _ _ notZero]
    exact superblockRead_page read
  · intro index _ apart
    rw [mem, Store.put_other _ _ _ _ (by omega)]

/-- `sync_entry` replays nothing for an entry that was never used. -/
theorem syncEntry_uninitialized {replay : Nat → Store → Option (Bool × Store)} {block : Nat}
    {entry : JournalEntry} (found : entryAt s block = some entry)
    (unused : entry.transaction.isUninitialized = true) :
    syncEntry replay block s = markEntrySynced block s := by
  unfold syncEntry replayEntry
  simp only [found, Option.bind_eq_bind, Option.bind_some, unused, if_true, Bool.false_eq_true,
    if_false]

/-- An append over an entry that is not pending replays nothing. -/
theorem initializeJournalEntry_settled {front entry : JournalEntry} {rest : List JournalEntry}
    (journal : JournalAt s start slots head (front :: rest)) (settled : front.pending = false)
    (plain : entry.transaction.isDirectory = false) :
    initializeJournalEntry (syncEntry fun _ _ => none) s entry =
      initializeJournalEntry markEntrySynced s entry := by
  rw [initializeJournalEntry_def, initializeJournalEntry_def]
  cases prepare : prepareEntry s entry.transaction with
  | none => rfl
  | some prepared =>
    obtain ⟨transaction, s1⟩ := prepared
    obtain rfl : s1 = s := prepareEntry_same plain prepare
    obtain ⟨superblock, read, here⟩ := journal.superblock
    obtain ⟨head_lt, oldest, others, split, page⟩ := journal.front
    obtain ⟨rfl, -⟩ := List.cons.inj split
    have get : s1.get superblock.journalBlock = some (.journal front) := by
      have inside := journal.inside
      rw [here.journalBlock, Store.get_of_lt (by omega), page]
    rw [Option.bind_eq_bind, Option.bind_some, Option.bind_some]
    dsimp only
    rw [read, Option.bind_eq_bind, Option.bind_some, Option.bind_some, get, Option.bind_eq_bind,
      Option.bind_some, Option.bind_some]
    dsimp only
    cases flag : front.synced with
    | true => rfl
    | false =>
      have unused : front.transaction.isUninitialized = true := by
        simpa [JournalEntry.pending, flag] using settled
      have found : entryAt s1 superblock.journalBlock = some front := by
        rw [entryAt, get]
        rfl
      rw [syncEntry_uninitialized found unused]

/-- An append where there is room. -/
theorem JournalRoom.appended (room : JournalRoom start slots (count + 1) s) (formatted : s.Formatted)
    {entry : JournalEntry} (plain : entry.transaction.isDirectory = false) :
    ∃ s', quietAppend entry s = some s' ∧ JournalRoom start slots count s' := by
  obtain ⟨head, window, journal, few, quiet⟩ := room.ahead
  cases window with
  | nil => exact absurd few (Nat.not_succ_le_zero count)
  | cons front rest =>
    have settled : front.pending = false := quiet front List.mem_cons_self
    have ready : entry.transaction.Ready s := by
      intro path mode block inodeNumber same directory
      rw [same] at plain
      exact absurd directory (of_decide_eq_false plain)
    obtain ⟨filled, s', -, -, -, -, run, journal'⟩ :=
      initializeJournalEntry_step (markEntrySynced_syncs start slots) journal ready
    rw [← initializeJournalEntry_settled journal settled plain] at run
    have append : quietAppend entry s = some s' := by
      rw [quietAppend, run]
      rfl
    refine ⟨s', append, ⟨_, _, journal', ?_, ?_⟩, ?_⟩
    · rw [List.length_append]
      rw [List.length_cons] at few
      omega
    · intro other member
      rw [List.length_cons] at few
      rw [List.take_append_of_le_length (by omega)] at member
      apply quiet other
      rw [List.take_succ_cons]
      exact List.mem_cons_of_mem front member
    · intro slot small
      obtain ⟨superblock, read, -⟩ := journal.superblock
      have inside := journal.inside
      obtain ⟨undisturbed, -⟩ := (quietAppend_only read plain append).undisturbed formatted read
      exact (undisturbed 0 0).bits _ (by omega) (room.set slot small)

/-- An append of the source that touches the journal only, whatever is at the head: it writes over the
entry there instead of replaying it. -/
def settledAppend : Append := fun entry s =>
  if entry.transaction.isDirectory then recordEntry entry s
  else (quietAppend entry s).or (recordEntry entry s)

/-- It touches the journal only. -/
theorem settledAppend_touches : TouchesJournal settledAppend := by
  constructor
  intro entry s superblock read
  have record := recordEntry_touches.run entry s superblock read
  unfold settledAppend
  cases plain : entry.transaction.isDirectory with
  | true =>
    rw [if_pos rfl]
    exact record
  | false =>
    rw [if_neg Bool.false_ne_true]
    cases run : quietAppend entry s with
    | none =>
      rw [Option.none_or]
      exact record
    | some s' =>
      have only := quietAppend_only read plain run
      obtain ⟨freeBlocks, journalHead, read'⟩ := only.superblock
      refine ⟨s', freeBlocks, journalHead, rfl, read', ?_, only.totalBlocks, only.residue⟩
      intro block nonzero noJournal
      rcases only.mem block nonzero with kept | ⟨⟨old, tag⟩, -⟩
      · exact kept
      · exact absurd tag (noJournal old)

/-- Where there is room it is the append of the source. -/
theorem JournalRoom.settled (room : JournalRoom start slots (count + 1) s) (formatted : s.Formatted)
    {entry : JournalEntry} (plain : entry.transaction.isDirectory = false) (locals : Locals)
    (host : Host) :
    ∃ s', settledAppend entry s = some s' ∧ appendEntry locals host entry s = some s' ∧
      JournalRoom start slots count s' := by
  obtain ⟨s', run, room'⟩ := room.appended formatted plain
  refine ⟨s', ?_, quietAppend_below locals host entry s s' run, room'⟩
  rw [settledAppend, plain, if_neg Bool.false_ne_true, run]
  rfl

end

end Nbtrfs
