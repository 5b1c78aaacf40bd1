import Nbtrfs.Journal.Absorb
import Nbtrfs.Fuse.Run

/-!
# Appends and recovery that leave files alone

An append replays the entry that it overwrites, and recovery replays every entry that is not
synced, on the store as it is then. Neither changes files where the store absorbs the entries and
the last mode and size that they assign to an inode are the ones it has.
-/

namespace Nbtrfs

/-- A change that the files do not show: every path leads to the same inode, every inode keeps its
fields but the creation time, and the blocks of pointers, of data and of the B-trees are kept. -/
structure SameFiles (s s' : Store) : Prop where
  /-- Paths resolve as before. -/
  search : ∀ path, itemSearch s' path = itemSearch s path
  /-- The inodes are kept, with their modes, sizes, reference counts and block pointers. -/
  inodes : ∀ inodeNumber, ∃ creationTime, inodeRead s' inodeNumber =
    (inodeRead s inodeNumber).map fun read => read.map fun node => { node with creationTime }
  /-- The blocks behind the pointers are kept. -/
  content : ∀ block, (s.mem block).isContent → s'.mem block = s.mem block
  /-- Directories are listed as before. -/
  list : ∀ path, SingleIndirect s path → directoryList s' path = directoryList s path

/-- The attributes have the modes and sizes of the inodes. -/
def Restores (s : Store) (attributes : Nat → Attributes) : Prop :=
  ∀ inodeNumber node, inodeLoad s inodeNumber = some node →
    (attributes inodeNumber).mode = node.mode ∧ (attributes inodeNumber).size = node.size

/-- The entry at the head is synced, or it is absorbed and assigns the mode or size that is there.
This is the entry that the next append replays. -/
def HeadAbsorbed (s : Store) (time : Nat) : Prop :=
  ∀ superblock entry, superblockRead s = some superblock →
    s.mem superblock.journalBlock = .journal entry → entry.synced = false →
      ∃ attributes, Absorbs s time s.attributes entry.transaction attributes ∧ Restores s attributes

section

variable {s s1 s2 : Store} {attributes attributes' : Nat → Attributes}

/-- A change of attributes that ends where it began does not show. -/
theorem SameButAttributes.sameFiles (same : SameButAttributes attributes s s1)
    (restores : Restores s attributes) : SameFiles s s1 := by
  refine ⟨same.itemSearch, ?_, fun block content => (same.pages block).content content,
    fun path single => same.directoryList single⟩
  intro inodeNumber
  refine ⟨(attributes inodeNumber).creationTime, ?_⟩
  rw [same.inodes]
  cases read : inodeRead s inodeNumber with
  | none => rfl
  | some found =>
    cases found with
    | none => rfl
    | some node =>
      have load : Nbtrfs.inodeLoad s inodeNumber = some node := by
        unfold Nbtrfs.inodeLoad
        rw [read]
        rfl
      obtain ⟨mode, size⟩ := restores inodeNumber node load
      show some (some (node.withAttributes (attributes inodeNumber))) = some (some _)
      unfold Inode.withAttributes
      rw [mode, size]

/-- A store restores its own attributes. -/
theorem restores_self (s : Store) : Restores s s.attributes := by
  intro inodeNumber node load
  unfold Store.attributes
  rw [load]
  exact ⟨rfl, rfl⟩

/-- Writing the superblock with another head. -/
theorem SameButAttributes.superblockWrite (same : SameButAttributes attributes s s1)
    {superblock : Superblock} (read : superblockRead s = some superblock) (journalHead : Nat) :
    SameButAttributes attributes s (superblockWrite s1
      (superblock.withCounters superblock.freeBlocks journalHead) true) := by
  obtain ⟨other, former, read', formerRead⟩ := same.superblock
  obtain rfl := Option.some.inj (read'.symm.trans read)
  have mem := superblockWrite_mem (superblockRead_page formerRead)
    (other.withCounters other.freeBlocks journalHead) true
  have written : superblockRead (Nbtrfs.superblockWrite s1
      (other.withCounters other.freeBlocks journalHead) true) =
      some (other.withCounters other.freeBlocks journalHead) := by
    apply superblockRead_of_page
    rw [mem, Store.put_same]
  have residue : (Nbtrfs.superblockWrite s1
      (other.withCounters other.freeBlocks journalHead) true).residue = s1.residue := by
    unfold Nbtrfs.superblockWrite
    rw [superblockRead_page formerRead]
    rfl
  apply same.journal (superblockWrite_totalBlocks _ _ _) residue formerRead written
  intro block nonzero
  left
  rw [mem, Store.put_other _ _ _ _ nonzero]

/-- Assigning an entry. -/
theorem SameButAttributes.assignEntry (same : SameButAttributes attributes s s1) {block : Nat}
    {entry : JournalEntry} (run : assignEntry s1 block entry = some s2) :
    SameButAttributes attributes s s2 ∧ s2.mem = (s1.put block (.journal entry)).mem := by
  obtain ⟨former, get, rfl⟩ := assignEntry_cases run
  have tag := (Store.get_eq_some get).2
  refine ⟨?_, rfl⟩
  obtain ⟨superblock, journalHead, -, read⟩ := same.superblock
  have nonzero : block ≠ 0 := by
    intro zero
    rw [zero, superblockRead_page read] at tag
    cases tag
  have read' : superblockRead (s1.put block (.journal entry)) =
      some (superblock.withCounters superblock.freeBlocks journalHead) := by
    apply superblockRead_of_page
    rw [Store.put_other _ _ _ _ (Ne.symm nonzero)]
    exact superblockRead_page read
  refine @SameButAttributes.journal s s1 (s1.put block (.journal entry)) attributes same rfl rfl
    (superblock.withCounters superblock.freeBlocks journalHead) journalHead read read' ?_
  intro other _
  by_cases here : other = block
  · right
    exact ⟨former, entry, by rw [here, tag], by rw [here, Store.put_same]⟩
  · left
    exact Store.put_other _ _ _ _ here

/-- Marking an entry assigns its page only. -/
theorem SameButAttributes.markEntrySynced (same : SameButAttributes attributes s s1) {block : Nat}
    (run : markEntrySynced block s1 = some s2) :
    SameButAttributes attributes s s2 ∧ ∀ other, other ≠ block → s2.mem other = s1.mem other := by
  unfold Nbtrfs.markEntrySynced setSynced at run
  cases found : entryAt s1 block with
  | none =>
    rw [found] at run
    cases run
  | some entry =>
    rw [found, Option.bind_eq_bind, Option.bind_some, Option.bind_eq_bind, Option.bind_some] at run
    cases assign : Nbtrfs.assignEntry s1 block { entry with synced := true } with
    | none =>
      rw [assign] at run
      cases run
    | some assigned =>
      obtain ⟨same', mem⟩ := same.assignEntry assign
      rw [assign] at run
      have run' : diskWriteBlockAs assigned block entry.blockNumber = some s2 := run
      have kept : KeepsPages assigned s2 := diskWriteBlockAs_keeps run'
      refine ⟨same'.kept kept, fun other distinct => ?_⟩
      rw [kept.mem, mem, Store.put_other _ _ _ _ distinct]

/-- Replaying and marking an entry that is absorbed. -/
theorem syncEntry_absorbed {append : Append} {locals : Locals} {host : Host} {block : Nat}
    (same : SameButAttributes attributes s s1) {entry : JournalEntry}
    (tag : s1.mem block = .journal entry)
    (absorbs : Absorbs s host.time attributes entry.transaction attributes')
    (run : syncEntry (replayTransaction append locals host) block s1 = some s2) :
    SameButAttributes attributes' s s2 ∧
      ∀ other new, other ≠ block → s1.mem other = .journal new → s2.mem other = .journal new := by
  unfold syncEntry replayEntry at run
  cases found : entryAt s1 block with
  | none =>
    rw [found] at run
    cases run
  | some inPage =>
    obtain rfl := Block.journal.inj ((entryAt_page found).symm.trans tag)
    rw [found, Option.bind_eq_bind, Option.bind_eq_bind, Option.bind_some] at run
    have replayed : ∃ middle, (SameButAttributes attributes' s middle ∧ EntriesKept s1 middle) ∧
        markEntrySynced block middle = some s2 := by
      by_cases unused : inPage.transaction.isUninitialized = true
      · rw [if_pos unused] at run
        have kind : inPage.transaction = .uninitialized := by
          cases transaction : inPage.transaction with
          | uninitialized => rfl
          | mknod | unlink | link | chmod | truncate | write | rename =>
            rw [transaction] at unused
            cases unused
        rw [kind] at absorbs
        cases absorbs
        exact ⟨s1, ⟨same, (KeepsPages.refl s1).entries⟩, run⟩
      · rw [if_neg unused] at run
        cases replay : replayTransaction append locals host block s1 with
        | none =>
          rw [replay] at run
          cases run
        | some result =>
          obtain ⟨returned, middle⟩ := result
          obtain ⟨same', entries, rfl⟩ := replayTransaction_absorbed same found absorbs replay
          rw [replay] at run
          exact ⟨middle, ⟨same', entries⟩, run⟩
    obtain ⟨middle, ⟨same', entries⟩, mark⟩ := replayed
    obtain ⟨same'', others⟩ := same'.markEntrySynced mark
    refine ⟨same'', fun other new distinct journal => ?_⟩
    rw [others other distinct]
    exact entries other new journal

/-- An entry that is not a `MKNOD` is not changed before it is written. -/
theorem prepareEntry_other {transaction : Transaction}
    (kind : ∀ path mode btreeBlock inodeNumber, transaction ≠ .mknod path mode btreeBlock inodeNumber)
    (s : Store) : prepareEntry s transaction = some (transaction, s) := by
  cases transaction with
  | mknod path mode btreeBlock inodeNumber => exact absurd rfl (kind path mode btreeBlock inodeNumber)
  | uninitialized | unlink | link | chmod | truncate | write | rename => rfl

/-- An append of another entry than a `MKNOD` leaves the files alone in every store whose entry at the
head is synced or absorbed. -/
theorem appendEntry_absorbed {locals : Locals} {host : Host} {entry : JournalEntry}
    (kind : ∀ path mode btreeBlock inodeNumber,
      entry.transaction ≠ .mknod path mode btreeBlock inodeNumber)
    (absorbed : HeadAbsorbed s host.time) (run : appendEntry locals host entry s = some s1) :
    SameFiles s s1 := by
  unfold appendEntry appendWithin at run
  rw [initializeJournalEntry_def, prepareEntry_other kind] at run
  cases read : superblockRead s with
  | none =>
    simp only [read, Option.bind_eq_bind, Option.bind_some] at run
    cases run
  | some superblock =>
    simp only [read, Option.bind_eq_bind, Option.bind_some] at run
    cases get : s.get superblock.journalBlock with
    | none =>
      rw [get] at run
      cases run
    | some page =>
      obtain ⟨-, tag⟩ := Store.get_eq_some get
      have same := SameButAttributes.refl read
      rw [get] at run
      cases page with
      | journal former =>
        have finish : ∀ {attributes : Nat → Attributes} {middle : Store}
            {synced : Option JournalEntry} {filled : JournalEntry},
            SameButAttributes attributes s middle → Restores s attributes →
            (((assignEntry (superblockWrite middle superblock.advanceHead true)
              superblock.journalBlock filled).bind fun s =>
                some (synced, s.flush superblock.journalBlock)).bind fun result =>
                  some result.2) = some s1 → SameFiles s s1 := by
          intro attributes middle synced filled reached restores ends
          have moved := reached.superblockWrite read superblock.advanceHead.journalHead
          cases assign : assignEntry (superblockWrite middle superblock.advanceHead true)
              superblock.journalBlock filled with
          | none =>
            rw [assign] at ends
            cases ends
          | some assigned =>
            obtain ⟨written, -⟩ := moved.assignEntry assign
            rw [assign] at ends
            obtain rfl := Option.some.inj ends
            have flushed : SameButAttributes attributes s
                (assigned.flush superblock.journalBlock) := written.kept ⟨rfl, rfl, rfl⟩
            exact flushed.sameFiles restores
        cases flag : former.synced with
        | true =>
          simp only [flag, Option.bind_some, if_true] at run
          exact finish same (restores_self s) run
        | false =>
          obtain ⟨attributes, absorbs, restores⟩ := absorbed superblock former read tag flag
          simp only [flag, Option.bind_some, Bool.false_eq_true, if_false] at run
          cases sync : syncEntry (replayTransaction (appendWithin locals host s.totalBlocks) locals
              host) superblock.journalBlock s with
          | none =>
            rw [sync] at run
            cases run
          | some middle =>
            rw [sync, Option.bind_some] at run
            exact finish (syncEntry_absorbed same tag absorbs sync).1 restores run
      | super | bitmap | inode | btreeNode | data | untagged =>
        obtain rfl := Option.some.inj run
        exact same.sameFiles (restores_self _)

/-- The transactions that `sync_journal` replays from a head on, with the number of slots left. -/
def pendingFrom (s : Store) : Nat → Superblock → List Transaction
  | 0, _ => []
  | left + 1, superblock =>
    match s.mem superblock.journalBlock with
    | .journal entry =>
      if !entry.transaction.isUninitialized && !entry.synced
      then entry.transaction :: pendingFrom s left superblock.advanceHead
      else pendingFrom s left superblock.advanceHead
    | _ => []

/-- The transactions that `sync_journal` replays, the oldest first. -/
def pendingTransactions (s : Store) : List Transaction :=
  match superblockRead s with
  | some superblock => pendingFrom s (calculateJournalSize superblock - 1) superblock
  | none => []

/-- Replaying transactions in order assigns attributes only. -/
inductive AbsorbsAll (s : Store) (time : Nat) :
    (Nat → Attributes) → List Transaction → (Nat → Attributes) → Prop where
  /-- Nothing is replayed. -/
  | nil (attributes : Nat → Attributes) : AbsorbsAll s time attributes [] attributes
  /-- The first one, then the rest. -/
  | cons {attributes attributes' attributes'' : Nat → Attributes} {transaction : Transaction}
      {transactions : List Transaction} (first : Absorbs s time attributes transaction attributes')
      (rest : AbsorbsAll s time attributes' transactions attributes'') :
      AbsorbsAll s time attributes (transaction :: transactions) attributes''

/-- The entries that are not synced are absorbed, and the last mode and size that they assign to an
inode are the ones that are there. -/
def JournalAbsorbed (s : Store) (time : Nat) : Prop :=
  ∃ attributes, AbsorbsAll s time s.attributes (pendingTransactions s) attributes ∧
    Restores s attributes

/-- The head after some steps, before the walk comes back. -/
theorem advanceHead_iterate (superblock : Superblock) (k : Nat)
    (small : k + 1 < calculateJournalSize superblock) :
    let reached := Superblock.advanceHead^[k] superblock
    calculateJournalSize reached = calculateJournalSize superblock ∧
      reached.journalStart = superblock.journalStart ∧
      (reached.journalHead = superblock.journalHead + k ∨
        superblock.journalHead + 1 < calculateJournalSize superblock ∧
          reached.journalHead + calculateJournalSize superblock = superblock.journalHead + k + 1) := by
  induction k with
  | zero => exact ⟨rfl, rfl, Or.inl rfl⟩
  | succ k ih =>
    obtain ⟨size, start, head⟩ := ih (by omega)
    simp only [Function.iterate_succ_apply']
    generalize Superblock.advanceHead^[k] superblock = reached at size start head ⊢
    refine ⟨size, start, ?_⟩
    show (if reached.journalHead + 2 = calculateJournalSize reached then 0
        else reached.journalHead + 1) = _ ∨ _ ∧ (if reached.journalHead + 2 =
          calculateJournalSize reached then 0 else reached.journalHead + 1) + _ = _
    rw [size]
    by_cases wraps : reached.journalHead + 2 = calculateJournalSize superblock
    · rw [if_pos wraps]
      omega
    · rw [if_neg wraps]
      omega

/-- The walk does not come back to a slot before it ends. -/
theorem advanceHead_apart {superblock : Superblock} {k : Nat} (positive : 0 < k)
    (small : k + 1 < calculateJournalSize superblock) :
    (Superblock.advanceHead^[k] superblock).journalBlock ≠ superblock.journalBlock := by
  obtain ⟨-, start, head⟩ := advanceHead_iterate superblock k small
  unfold Superblock.journalBlock
  rw [start]
  omega

/-- The entries ahead of the head are still there when a change beside them is followed by a move of the
head. -/
theorem SameButAttributes.ahead {middle : Store} (reached : SameButAttributes attributes s middle) {left : Nat}
    {superblock : Superblock} (small : left + 1 < calculateJournalSize superblock)
    (ahead : ∀ k < left + 1, ∀ entry,
      s.mem (Superblock.advanceHead^[k] superblock).journalBlock = .journal entry →
        s1.mem (Superblock.advanceHead^[k] superblock).journalBlock = .journal entry)
    (others : ∀ other new, other ≠ superblock.journalBlock → s1.mem other = .journal new →
      middle.mem other = .journal new) :
    ∀ k < left, ∀ entry,
      s.mem (Superblock.advanceHead^[k] superblock.advanceHead).journalBlock = .journal entry →
        (Nbtrfs.superblockWrite middle superblock.advanceHead true).mem
          (Superblock.advanceHead^[k] superblock.advanceHead).journalBlock = .journal entry := by
  intro k below entry tag
  have distinct := @advanceHead_apart superblock (k + 1) (Nat.succ_pos k) (by omega)
  have kept := others _ entry distinct (ahead (k + 1) (by omega) entry tag)
  obtain ⟨other, former, -, formerRead⟩ := reached.superblock
  have nonzero : (Superblock.advanceHead^[k + 1] superblock).journalBlock ≠ 0 := by
    intro zero
    rw [zero, superblockRead_page formerRead] at kept
    cases kept
  show (Nbtrfs.superblockWrite middle superblock.advanceHead true).mem
    (Superblock.advanceHead^[k + 1] superblock).journalBlock = _
  rw [superblockWrite_mem (superblockRead_page formerRead), Store.put_other _ _ _ _ nonzero]
  exact kept

/-- The walk of `sync_journal` over entries that are absorbed. -/
theorem walkJournalFrom_absorbed {locals : Locals} {host : Host} {layout : Superblock}
    (read : superblockRead s = some layout) (left : Nat) {superblock : Superblock}
    (counters : ∃ journalHead, superblock = layout.withCounters layout.freeBlocks journalHead)
    (small : left < calculateJournalSize superblock)
    (same : SameButAttributes attributes s s1)
    (ahead : ∀ k < left, ∀ entry,
      s.mem (Superblock.advanceHead^[k] superblock).journalBlock = .journal entry →
        s1.mem (Superblock.advanceHead^[k] superblock).journalBlock = .journal entry)
    (absorbs : AbsorbsAll s host.time attributes (pendingFrom s left superblock) attributes')
    {visited : List JournalEntry}
    (run : walkJournalFrom (syncJournalEntry locals host) left superblock s1 = some (visited, s2)) :
    SameButAttributes attributes' s s2 := by
  induction left generalizing attributes superblock s1 visited with
  | zero =>
    obtain ⟨-, rfl⟩ := Prod.mk.inj (Option.some.inj run)
    cases absorbs
    exact same
  | succ left ih =>
    have here : ∀ entry, s.mem superblock.journalBlock = .journal entry →
        s1.mem superblock.journalBlock = .journal entry := ahead 0 (Nat.succ_pos left)
    have rest : ∀ {attributes : Nat → Attributes} {middle : Store} {visited : List JournalEntry},
        SameButAttributes attributes s middle →
        (∀ other new, other ≠ superblock.journalBlock → s1.mem other = .journal new →
          middle.mem other = .journal new) →
        AbsorbsAll s host.time attributes (pendingFrom s left superblock.advanceHead) attributes' →
        walkJournalFrom (syncJournalEntry locals host) left superblock.advanceHead
          (superblockWrite middle superblock.advanceHead true) = some (visited, s2) →
        SameButAttributes attributes' s s2 := by
      intro attributes middle visited reached others absorbs run
      have stays := reached.ahead small ahead others
      obtain ⟨journalHead, rfl⟩ := counters
      have moved := reached.superblockWrite read
        (layout.withCounters layout.freeBlocks journalHead).advanceHead.journalHead
      exact ih ⟨_, rfl⟩ (by exact Nat.lt_of_succ_lt small) moved stays absorbs run
    rw [pendingFrom] at absorbs
    have alike := same.pages superblock.journalBlock
    cases get : s1.get superblock.journalBlock with
    | none =>
      rw [walkJournalFrom, walkJournalFromWith, get] at run
      cases run
    | some page =>
      obtain ⟨-, tag1⟩ := Store.get_eq_some get
      rw [tag1] at alike
      cases page with
      | journal former =>
        have tag : s.mem superblock.journalBlock = .journal former := by
          cases original : s.mem superblock.journalBlock with
          | journal entry => rw [← here entry original, tag1]
          | super | bitmap | inode | btreeNode | data | untagged =>
            rw [original] at alike
            cases alike
        rw [tag] at absorbs
        rw [walkJournalFrom_succ get] at run
        change AbsorbsAll s host.time attributes (if former.pending then _ else _) _ at absorbs
        by_cases visits : former.pending = true
        · rw [if_pos visits] at absorbs run
          obtain ⟨middle, sync, run⟩ := Option.bind_eq_some_iff.mp run
          obtain ⟨⟨others, last⟩, tail, ends⟩ := Option.bind_eq_some_iff.mp run
          obtain ⟨-, rfl⟩ := Prod.mk.inj (Option.some.inj ends)
          cases absorbs with
          | cons first later =>
            obtain ⟨reached, kept⟩ := syncEntry_absorbed same tag1 first sync
            exact rest reached kept later tail
        · rw [if_neg visits] at absorbs run
          rw [Option.bind_some] at run
          obtain ⟨⟨others, last⟩, tail, ends⟩ := Option.bind_eq_some_iff.mp run
          obtain ⟨-, rfl⟩ := Prod.mk.inj (Option.some.inj ends)
          exact rest same (fun other new _ journal => journal) absorbs tail
      | super | bitmap | inode | btreeNode | data | untagged =>
        rw [walkJournalFrom, walkJournalFromWith_stop [] get (fun _ wrong => by cases wrong)] at run
        obtain ⟨-, rfl⟩ := Prod.mk.inj (Option.some.inj run)
        cases original : s.mem superblock.journalBlock with
        | journal entry =>
          rw [original] at alike
          cases alike
        | super | bitmap | inode | btreeNode | data | untagged =>
          rw [original] at absorbs
          cases absorbs
          exact same

/-- Recovery leaves the files alone in every store whose journal is absorbed. -/
theorem mountJournal_absorbed {locals : Locals} {host : Host}
    (absorbed : JournalAbsorbed s host.time) (run : mountJournal locals host s = some s1) :
    SameFiles s s1 := by
  obtain ⟨attributes, absorbs, restores⟩ := absorbed
  unfold pendingTransactions at absorbs
  unfold mountJournal at run
  rw [syncJournal_def] at run
  cases read : superblockRead s with
  | none =>
    rw [read] at run
    cases run
  | some superblock =>
    rw [read] at absorbs run
    rw [Option.bind_some] at run
    have absorbs' : AbsorbsAll s host.time s.attributes
      (pendingFrom s (calculateJournalSize superblock - 1) superblock) attributes := absorbs
    cases walk : walkJournalFrom (syncJournalEntry locals host) (calculateJournalSize superblock - 1)
        superblock s with
    | none =>
      rw [walk] at run
      cases run
    | some result =>
      obtain ⟨visited, last⟩ := result
      rw [walk] at run
      obtain rfl := Option.some.inj run
      cases size : calculateJournalSize superblock with
      | zero =>
        rw [size] at absorbs' walk
        cases absorbs'
        obtain ⟨-, rfl⟩ := Prod.mk.inj (Option.some.inj walk)
        exact (SameButAttributes.refl read).sameFiles restores
      | succ slots =>
        have room : calculateJournalSize superblock - 1 < calculateJournalSize superblock := by omega
        have reached := walkJournalFrom_absorbed read _ ⟨superblock.journalHead, rfl⟩
          room (SameButAttributes.refl read) (fun _ _ _ tag => tag) absorbs' walk
        exact reached.sameFiles restores

end

/-- The mode and the reference count of an inode. -/
def inodeCounts (s : Store) (inodeNumber : Nat) : Option (Nat × Nat) :=
  (inodeLoad s inodeNumber).map fun node => (node.mode, node.referenceCount)

/-- The files show the mode and the reference count. -/
theorem SameFiles.inodeCounts {s s' : Store} (same : SameFiles s s') (inodeNumber : Nat) :
    inodeCounts s' inodeNumber = Nbtrfs.inodeCounts s inodeNumber := by
  obtain ⟨creationTime, read⟩ := same.inodes inodeNumber
  unfold Nbtrfs.inodeCounts inodeLoad
  rw [read]
  cases inodeRead s inodeNumber with
  | none => rfl
  | some found =>
    cases found with
    | none => rfl
    | some node => rfl

/-- `/a` with mode 0600, on an image whose ring has room for five entries. -/
def chmodImage : Option Store :=
  runFormatted 600 [.mknod [47, 97] 0o100644, .chmod [47, 97] 0o100600]

set_option maxRecDepth 100000 in
/-- The names, the inodes and the journal of that image. -/
theorem chmodImage_computed : chmodImage.any (fun s =>
    itemSearch s [47] = some ⟨0, 15⟩ ∧ itemSearch s [47, 97] = some ⟨1, 0⟩ ∧
    btreeSearch s 15 (pathHash [97]) = some 17 ∧
    (btreeNodeLoad s 17).map (fun leaf => (leaf.blockNumber, leaf.type, leaf.value)) =
      some (17, 0o100000, 1) ∧
    (inodeLoad s 0).map (fun root => (root.inodeNumber, root.directBlocks 0)) = some (0, 16) ∧
    (inodeLoad s 1).map (fun node => (node.inodeNumber, node.mode, node.size)) =
      some (1, 0o100600, 0) ∧
    pendingTransactions s =
      [.write 0 0 16 0, .mknod [47, 97] 0o100644 0 1, .chmod [47, 97] 0o100600]) = true := by
  decide +kernel

/-- Changing the mode of one inode back restores the attributes. -/
theorem restores_chmod {s : Store} {attributes : Nat → Attributes} {inodeNumber : Nat} {node : Inode}
    (load : inodeLoad s inodeNumber = some node)
    (others : ∀ other, other ≠ inodeNumber → attributes other = s.attributes other)
    (size : (attributes inodeNumber).size = node.size) :
    Restores s (setAttributes attributes inodeNumber
      { attributes inodeNumber with mode := node.mode }) := by
  intro other found loadOther
  unfold setAttributes
  by_cases here : other = inodeNumber
  · rw [here, load] at loadOther
    obtain rfl := Option.some.inj loadOther
    rw [if_pos here]
    exact ⟨rfl, size⟩
  · rw [if_neg here, others other here]
    exact restores_self s other found loadOther

set_option maxRecDepth 100000 in
/-- The image is mounted again. -/
theorem chmodImage_mounts :
    (chmodImage.bind (mountJournal zeroLocals zeroHost)).isSome = true := by
  decide +kernel

/-- `/a` with the links `/a` and `/b`. -/
def linkImage (totalBlocks : Nat) : Option Store :=
  runFormatted totalBlocks [.mknod [47, 97] 0o100644, .link [47, 97] [47, 98]]

set_option maxRecDepth 100000 in
/-- Recovery replays the `LINK` of that image and counts the link again. -/
theorem linkImage_mounted : (linkImage 600).any (fun s =>
    (mountJournal zeroLocals zeroHost s).any fun s' =>
      inodeCounts s 1 = some (0o100644, 2) ∧ inodeCounts s' 1 = some (0o100644, 3)) = true := by
  decide +kernel

set_option maxRecDepth 100000 in
/-- With a ring of one slot, the next append does so. -/
theorem linkImage_appended : (linkImage 200).any (fun s =>
    (appendEntry zeroLocals zeroHost (localEntry (.chmod [47, 97] 0o100600)) s).any fun s' =>
      inodeCounts s 1 = some (0o100644, 2) ∧ inodeCounts s' 1 = some (0o100644, 3)) = true := by
  decide +kernel

/-- The reference count of an inode is one of the things that files show. -/
theorem counts_differ {s s' : Store} (before : inodeCounts s 1 = some (0o100644, 2))
    (after : inodeCounts s' 1 = some (0o100644, 3)) : ¬ SameFiles s s' := by
  intro same
  rw [same.inodeCounts, before] at after
  exact absurd after (by decide)

/-- `/a` with mode 0600, on an image whose ring has one slot: it holds the `CHMOD`. -/
def chmodSlot : Option Store :=
  runFormatted 200 [.mknod [47, 97] 0o100644, .chmod [47, 97] 0o100600]

set_option maxRecDepth 100000 in
/-- The entry at the head of that image, and an append. -/
theorem chmodSlot_computed : chmodSlot.any (fun s =>
    itemSearch s [47, 97] = some ⟨1, 0⟩ ∧
    (inodeLoad s 1).map (fun node => (node.inodeNumber, node.mode)) = some (1, 0o100600) ∧
    ((superblockRead s).bind fun superblock =>
      (entryAt s superblock.journalBlock).map (·.transaction)) = some (.chmod [47, 97] 0o100600) ∧
    (appendEntry zeroLocals zeroHost (localEntry (.unlink [47, 99])) s).isSome = true) = true := by
  decide +kernel

/-- In every store that a formatted image comes to, an append of a `CHMOD`, `UNLINK`, `LINK`,
`RENAME`, `TRUNCATE` or `WRITE` entry leaves the files alone if the entry at the head is synced or
absorbed. -/
theorem appendEntry_transparent :
    ∀ s, Reached s → ∀ locals host (entry : JournalEntry),
      (∀ path mode btreeBlock inodeNumber,
        entry.transaction ≠ .mknod path mode btreeBlock inodeNumber) →
      HeadAbsorbed s host.time → ∀ s', appendEntry locals host entry s = some s' →
        SameFiles s s' :=
  fun _ _ _ _ _ kind absorbed _ run => appendEntry_absorbed kind absorbed run

/-- Appending an `UNLINK` there replays the `CHMOD`. -/
theorem appendEntry_transparent_chmod :
    ∃ s s', chmodSlot = some s ∧
      appendEntry zeroLocals zeroHost (localEntry (.unlink [47, 99])) s = some s' ∧
        SameFiles s s' := by
  obtain ⟨s, image, computed⟩ := (Option.any_eq_true _ _).mp chmodSlot_computed
  obtain ⟨file, nodeFacts, head, appends⟩ := of_decide_eq_true computed
  obtain ⟨node, load, nodeFields⟩ := Option.map_eq_some_iff.mp nodeFacts
  obtain ⟨s', run⟩ := Option.isSome_iff_exists.mp appends
  simp only [Prod.mk.injEq] at nodeFields
  have absorbed : HeadAbsorbed s zeroHost.time := by
    intro superblock entry read tag _
    obtain ⟨other, read', found⟩ := Option.bind_eq_some_iff.mp head
    obtain rfl := Option.some.inj (read'.symm.trans read)
    obtain ⟨inPage, found, kind⟩ := Option.map_eq_some_iff.mp found
    obtain rfl := Block.journal.inj ((entryAt_page found).symm.trans tag)
    refine ⟨_, ?_, restores_chmod load (fun _ _ => rfl) (restores_self s 1 node load).2⟩
    rw [kind, nodeFields.2]
    exact .chmod file load nodeFields.1
  exact ⟨s, s', image, run, appendEntry_transparent s
    (runFormatted_reached ⟨by decide, by decide, by decide⟩ image) _ _ _
    (fun _ _ _ _ wrong => by cases wrong) absorbed s' run⟩

/-- A `CHMOD` entry appended after `/a` was created and linked counts the link twice. -/
theorem appendEntry_transparent_false :
    ∃ s s', Reached s ∧
      appendEntry zeroLocals zeroHost (localEntry (.chmod [47, 97] 0o100600)) s = some s' ∧
        ¬ SameFiles s s' := by
  obtain ⟨s, image, appends⟩ := (Option.any_eq_true _ _).mp linkImage_appended
  obtain ⟨s', run, counts⟩ := (Option.any_eq_true _ _).mp appends
  obtain ⟨before, after⟩ := of_decide_eq_true counts
  exact ⟨s, s', runFormatted_reached ⟨by decide, by decide, by decide⟩ image, run,
    counts_differ before after⟩

/-- In every store that a formatted image comes to, recovery leaves the files alone if the journal is
absorbed. -/
theorem mountJournal_transparent :
    ∀ s, Reached s → ∀ locals host, JournalAbsorbed s host.time →
      ∀ s', mountJournal locals host s = some s' → SameFiles s s' :=
  fun _ _ _ _ absorbed _ run => mountJournal_absorbed absorbed run

/-- Mounting that image again, which replays its three entries. -/
theorem mountJournal_transparent_chmod :
    ∃ s s', chmodImage = some s ∧ mountJournal zeroLocals zeroHost s = some s' ∧ SameFiles s s' := by
  obtain ⟨s, image, computed⟩ := (Option.any_eq_true _ _).mp chmodImage_computed
  obtain ⟨root, file, search, leafFacts, rootFacts, nodeFacts, pending⟩ :=
    of_decide_eq_true computed
  obtain ⟨leaf, loadLeaf, leafFields⟩ := Option.map_eq_some_iff.mp leafFacts
  obtain ⟨rootNode, loadRoot, rootFields⟩ := Option.map_eq_some_iff.mp rootFacts
  obtain ⟨node, load, nodeFields⟩ := Option.map_eq_some_iff.mp nodeFacts
  simp only [Prod.mk.injEq] at leafFields rootFields nodeFields
  have reached : Reached s :=
    runFormatted_reached ⟨by decide, by decide, by decide⟩ image
  have mount : ∃ s', mountJournal zeroLocals zeroHost s = some s' := by
    have mounts := chmodImage_mounts
    rw [image] at mounts
    exact Option.isSome_iff_exists.mp mounts
  obtain ⟨s', run⟩ := mount
  have leafInPlace : LeafInPlace s leaf 0 1 := by
    unfold LeafInPlace
    rw [leafFields.2.1, if_neg (by decide)]
    exact leafFields.2.2
  have absorbed : JournalAbsorbed s zeroHost.time := by
    let first := setAttributes s.attributes 1
      { s.attributes 1 with mode := 0o100644, creationTime := 0 }
    have write : Absorbs s 0 s.attributes (.write 0 0 16 0) s.attributes :=
      .write loadRoot rootFields.1 (Or.inl ⟨by decide, rootFields.2⟩)
    have mknod : Absorbs s 0 s.attributes (.mknod [47, 97] 0o100644 0 1) first :=
      .mknod (by decide) load nodeFields.1 root search (by decide) loadLeaf leafFields.1 leafInPlace
    have chmod : Absorbs s 0 first (.chmod [47, 97] 0o100600)
        (setAttributes first 1 { first 1 with mode := 0o100600 }) :=
      .chmod file load nodeFields.1
    refine ⟨setAttributes first 1 { first 1 with mode := 0o100600 }, ?_, ?_⟩
    · rw [pending]
      exact .cons write (.cons mknod (.cons chmod (.nil _)))
    · rw [← nodeFields.2.1]
      apply restores_chmod load
      · intro other apart
        exact if_neg apart
      · show (s.attributes 1).size = node.size
        exact (restores_self s 1 node load).2
  exact ⟨s, s', image, run, mountJournal_transparent s reached _ _ absorbed s' run⟩

/-- Recovery after `/a` was created and linked counts the link twice. -/
theorem mountJournal_transparent_false :
    ∃ s s', Reached s ∧ mountJournal zeroLocals zeroHost s = some s' ∧ ¬ SameFiles s s' := by
  obtain ⟨s, image, mounts⟩ := (Option.any_eq_true _ _).mp linkImage_mounted
  obtain ⟨s', run, counts⟩ := (Option.any_eq_true _ _).mp mounts
  obtain ⟨before, after⟩ := of_decide_eq_true counts
  exact ⟨s, s', runFormatted_reached ⟨by decide, by decide, by decide⟩ image, run,
    counts_differ before after⟩

end Nbtrfs
