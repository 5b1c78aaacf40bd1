import Nbtrfs.Journal.Kept
import Nbtrfs.Journal.Transparent
import Nbtrfs.Store.Format

/-!
# An append that replays an append

`initialize_journal_entry` keeps a copy of the superblock and a pointer to its slot while it calls
`sync_entry`. If the replay appends an entry itself, that append goes to the same slot, and the
outer one then writes its own entry over it and its copy of the superblock over block 0.
-/

namespace Nbtrfs

/-- Whether a replay adds an entry to a directory. -/
def Transaction.addsEntry : Transaction → Bool
  | .mknod .. | .link .. | .rename .. => true
  | _ => false

/-- Whether a transaction is a `WRITE`. -/
def Transaction.isWrite : Transaction → Bool
  | .write .. => true
  | _ => false

/-- The replay of the entry of a journal block appends an entry: it has a result, and has none where
an append has none. -/
def ReplayAppends (locals : Locals) (host : Host) (block : Nat) (s : Store) : Prop :=
  (replayTransaction (appendEntry locals host) locals host block s).isSome = true ∧
    replayTransaction (fun _ _ => none) locals host block s = none

/-- An append that overwrites an unsynced `LINK`, `RENAME` or `MKNOD` whose replay appends. -/
structure NestedAppend (locals : Locals) (host : Host) (s : Store) (entry : JournalEntry)
    (transaction : Transaction) (s1 : Store) (superblock : Superblock) (front : JournalEntry) :
    Prop where
  /-- The case distinction before it. -/
  prepared : prepareEntry s entry.transaction = some (transaction, s1)
  /-- The superblock that is copied. -/
  read : superblockRead s1 = some superblock
  /-- The ring has more than one slot. -/
  size : 3 ≤ calculateJournalSize superblock
  /-- The entry at the head. -/
  page : s1.mem superblock.journalBlock = .journal front
  /-- It is not synced. -/
  unsynced : front.synced = false
  /-- It adds an entry to a directory. -/
  kind : front.transaction.addsEntry = true
  /-- Its replay appends. -/
  appends : ReplayAppends locals host superblock.journalBlock s1

/-- What is left of both appends after such a call. -/
structure NestedKept (transaction : Transaction) (s1 : Store) (superblock : Superblock)
    (s' : Store) : Prop where
  /-- The entries are in different slots. -/
  slots : ∃ inner outer, inner ≠ outer ∧
    (∃ entry, s'.mem inner = .journal entry ∧ entry.transaction.isWrite = true) ∧
    ∃ entry, s'.mem outer = .journal entry ∧ entry.transaction = transaction
  /-- The head has moved on twice. -/
  head : ∃ after, superblockRead s' = some after ∧
    after.journalHead = superblock.advanceHead.advanceHead.journalHead
  /-- The counter has lost the blocks that were allocated. -/
  counter : ∀ after, superblockRead s' = some after →
    after.freeBlocks + s1.freeCount = superblock.freeBlocks + s'.freeCount

/-- With more than one slot, moving on once is not moving on twice. -/
theorem Superblock.advanceHead_ne {superblock : Superblock}
    (size : 3 ≤ calculateJournalSize superblock) :
    superblock.advanceHead.journalHead ≠ superblock.advanceHead.advanceHead.journalHead := by
  have once : superblock.advanceHead.journalHead =
      if superblock.journalHead + 2 = calculateJournalSize superblock then 0
      else superblock.journalHead + 1 := rfl
  have twice : superblock.advanceHead.advanceHead.journalHead =
      if superblock.advanceHead.journalHead + 2 = calculateJournalSize superblock then 0
      else superblock.advanceHead.journalHead + 1 := rfl
  rw [twice]
  by_cases wraps : superblock.advanceHead.journalHead + 2 = calculateJournalSize superblock
  · rw [if_pos wraps]
    omega
  · rw [if_neg wraps]
    omega

/-- Such a call writes back the superblock that it read before the replay, with the head one slot
further, and its entry over the slot of the inner append, so the inner append is lost in every
case. -/
theorem appendEntry_nested {locals : Locals} {host : Host} {s s1 s' : Store} {entry front : JournalEntry}
    {transaction : Transaction} {superblock : Superblock}
    (nested : NestedAppend locals host s entry transaction s1 superblock front)
    (run : appendEntry locals host entry s = some s') :
    (∀ after, superblockRead s' = some after → after = superblock.advanceHead) ∧
      (∃ outer, s'.mem superblock.journalBlock = .journal outer ∧ outer.transaction = transaction) ∧
      ¬ NestedKept transaction s1 superblock s' := by
  unfold appendEntry appendWithin at run
  obtain ⟨⟨synced, s2⟩, call, same⟩ := Option.bind_eq_some_iff.mp run
  obtain rfl : s2 = s' := Option.some.inj same
  obtain ⟨prepared1, found, copied, prepared, read, steps⟩ := initializeJournalEntry_steps call
  obtain ⟨rfl, rfl⟩ := Prod.mk.inj (Option.some.inj (nested.prepared.symm.trans prepared))
  obtain rfl : superblock = copied := Option.some.inj (nested.read.symm.trans read)
  obtain ⟨replayed, step⟩ := steps front nested.page
  obtain ⟨prepared2, prepared', former, -, -, final⟩ := step.prepared
  obtain rfl : transaction = prepared2 :=
    (Prod.mk.inj (Option.some.inj (prepared.symm.trans prepared'))).1
  have notZero : 0 ≠ superblock.journalBlock := by
    intro zero
    have page := nested.page
    rw [← zero, superblockRead_page read] at page
    cases page
  have stale : ∀ after, superblockRead s2 = some after → after = superblock.advanceHead := by
    intro after readAfter
    have page := superblockRead_page readAfter
    rw [final] at page
    change (Store.put _ superblock.journalBlock _).mem 0 = _ at page
    rw [Store.put_other _ _ _ _ notZero] at page
    cases tag : replayed.mem 0 with
    | super content =>
      rw [superblockWrite_mem tag, Store.put_same] at page
      exact (Block.super.inj page).symm
    | bitmap | inode | btreeNode | journal | data | untagged =>
      unfold superblockWrite at page
      rw [tag] at page
      change replayed.mem 0 = _ at page
      rw [tag] at page
      cases page
  refine ⟨stale, ⟨{ entry with blockNumber := superblock.journalBlock, transaction }, ?_, rfl⟩, ?_⟩
  · rw [final]
    exact Store.put_same _ _ _
  · intro kept
    obtain ⟨after, readAfter, head⟩ := kept.head
    rw [stale after readAfter] at head
    exact Superblock.advanceHead_ne nested.size head

/-- `/a`, a `LINK` of it to `/d/b` that failed, and then `/d`, with a ring of two slots. -/
def nestedImage : Option Store :=
  runFormatted 300 [.mknod [47, 97] 0o100644, .link [47, 97] [47, 100, 47, 98],
    .mkdir [47, 100] 0o755]

/-- The `CHMOD` of `/a`. -/
def nestedEntry : JournalEntry := localEntry (.chmod [47, 97] 0o100600)

set_option maxRecDepth 100000 in
/-- The next append replays the `LINK`, which now gives `/d` its first block. -/
theorem nestedImage_computed : nestedImage.any (fun s => (superblockRead s).any fun superblock =>
    calculateJournalSize superblock = 3 ∧ (superblock.journalHead, superblock.freeBlocks) = (0, 296) ∧
    (entryAt s superblock.journalBlock).map (fun entry => (entry.synced, entry.transaction)) =
      some (false, .link [47, 97] [47, 100, 47, 98]) ∧
    (replayTransaction (appendEntry zeroLocals zeroHost) zeroLocals zeroHost
      superblock.journalBlock s).isSome = true ∧
    (replayTransaction (fun _ _ => none) zeroLocals zeroHost superblock.journalBlock s).isNone =
      true ∧
    (appendEntry zeroLocals zeroHost nestedEntry s).any fun s' =>
      (superblockRead s').map (fun after => (after.journalHead, after.freeBlocks)) = some (1, 296) ∧
      (s.freeCount, s'.freeCount) = (286, 283) ∧
      (List.range 3).all (fun slot =>
        (entryAt s' (superblock.journalStart + slot)).all fun entry =>
          !entry.transaction.isWrite) = true) = true := by
  decide +kernel

/-- The situation on that image. -/
theorem nestedImage_nested :
    ∃ s superblock front s', nestedImage = some s ∧
      NestedAppend zeroLocals zeroHost s nestedEntry nestedEntry.transaction s superblock front ∧
      appendEntry zeroLocals zeroHost nestedEntry s = some s' ∧
      (superblockRead s').map (fun after => (after.journalHead, after.freeBlocks)) =
        some (1, 296) ∧
      superblock.freeBlocks = 296 ∧ (s.freeCount, s'.freeCount) = (286, 283) ∧
      (List.range 3).all (fun slot =>
        (entryAt s' (superblock.journalStart + slot)).all fun entry =>
          !entry.transaction.isWrite) = true := by
  obtain ⟨s, image, computed⟩ := (Option.any_eq_true _ _).mp nestedImage_computed
  obtain ⟨superblock, read, computed⟩ := (Option.any_eq_true _ _).mp computed
  obtain ⟨size, counters, front, replays, unappended, appended⟩ := of_decide_eq_true computed
  obtain ⟨s', run, after⟩ := (Option.any_eq_true _ _).mp appended
  obtain ⟨entry, found, fields⟩ := Option.map_eq_some_iff.mp front
  obtain ⟨unsynced, kind⟩ := Prod.mk.inj fields
  refine ⟨s, superblock, entry, s', image, ?_, run, ?_⟩
  · refine ⟨rfl, read, by rw [size], entryAt_page found, unsynced, ?_, replays, ?_⟩
    · rw [kind]
      rfl
    · exact Option.isNone_iff_eq_none.mp unappended
  · obtain ⟨superAfter, counts, writes⟩ := of_decide_eq_true after
    exact ⟨superAfter, (Prod.mk.inj counters).2, counts, writes⟩

/-- The `CHMOD` of `/a` there. -/
theorem appendEntry_nested_link :
    ∃ s superblock s', nestedImage = some s ∧
      appendEntry zeroLocals zeroHost nestedEntry s = some s' ∧
      (∀ after, superblockRead s' = some after → after = superblock.advanceHead) ∧
      (∃ outer, s'.mem superblock.journalBlock = .journal outer ∧
        outer.transaction = nestedEntry.transaction) ∧
      ¬ NestedKept nestedEntry.transaction s superblock s' := by
  obtain ⟨s, superblock, front, s', image, nested, run, -⟩ := nestedImage_nested
  exact ⟨s, superblock, s', image, run, appendEntry_nested nested run⟩

/-- There the head moves on once, three blocks are allocated while the counter stays, and no `WRITE`
entry is left. -/
theorem appendEntry_nested_false :
    ∃ s superblock front s', Reached s ∧
      NestedAppend zeroLocals zeroHost s nestedEntry nestedEntry.transaction s superblock front ∧
      appendEntry zeroLocals zeroHost nestedEntry s = some s' ∧
      (superblockRead s').map (fun after => (after.journalHead, after.freeBlocks)) =
        some (1, 296) ∧ (s.freeCount, s'.freeCount) = (286, 283) ∧
      (∀ slot < 3, ∀ entry, entryAt s' (superblock.journalStart + slot) = some entry →
        entry.transaction.isWrite = false) ∧
      ¬ NestedKept nestedEntry.transaction s superblock s' := by
  obtain ⟨s, superblock, front, s', image, nested, run, after, counter, counts, writes⟩ :=
    nestedImage_nested
  have reached : Reached s :=
    runFormatted_reached ⟨by decide, by decide, by decide⟩ image
  refine ⟨s, superblock, front, s', reached, nested, run, after, counts, ?_, ?_⟩
  · intro slot small entry found
    have unwritten := List.all_eq_true.mp writes slot (List.mem_range.mpr small)
    rw [found] at unwritten
    exact Bool.not_eq_true' _ |>.mp unwritten
  · intro kept
    obtain ⟨superAfter, read, fields⟩ := Option.map_eq_some_iff.mp after
    have exact := kept.counter superAfter read
    rw [(Prod.mk.inj fields).2, counter, (Prod.mk.inj counts).1, (Prod.mk.inj counts).2] at exact
    omega

end Nbtrfs
