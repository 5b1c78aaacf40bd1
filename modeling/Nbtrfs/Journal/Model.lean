import Nbtrfs.Namespace.Truncate

/-!
# The journal

The journal functions of `journal.c` on the block store. The journal is a ring of blocks behind
`journal_start` with one entry a block; the last block of the region is never used. What replays
an entry is a parameter, since the replay itself may append. There is no result where the page
of the head loses its tag during a replay.
-/

namespace Nbtrfs

/-- The journal block of the head. -/
def Superblock.journalBlock (superblock : Superblock) : Nat :=
  superblock.journalStart + superblock.journalHead

/-- The superblock with the head moved on. -/
def Superblock.advanceHead (superblock : Superblock) : Superblock :=
  { superblock with
    journalHead :=
      if superblock.journalHead + 2 = calculateJournalSize superblock then 0
      else superblock.journalHead + 1 }

/-- Whether a transaction is `UNINITIALIZED`. -/
def Transaction.isUninitialized : Transaction → Bool
  | .uninitialized => true
  | _ => false

/-- Assign the entry of a journal page. -/
def assignEntry (s : Store) (block : Nat) (entry : JournalEntry) : Option Store := do
  match ← s.get block with
  | .journal _ => some (s.put block (.journal entry))
  | _ => none

/-- Assigning the entry of a journal block. -/
theorem assignEntry_cases {s s' : Store} {block : Nat} {entry : JournalEntry}
    (run : assignEntry s block entry = some s') :
    ∃ former, s.get block = some (.journal former) ∧ s' = s.put block (.journal entry) := by
  unfold assignEntry at run
  obtain ⟨content, get, run⟩ := Option.bind_eq_some_iff.mp run
  cases content with
  | journal former => exact ⟨former, get, (Option.some.inj run).symm⟩
  | super | bitmap | inode | btreeNode | data | untagged => cases run

/-- The entry of a journal page. -/
def entryAt (s : Store) (block : Nat) : Option JournalEntry := do
  match ← s.get block with
  | .journal entry => some entry
  | _ => none

/-- An entry that is found is in its page. -/
theorem entryAt_page {s : Store} {block : Nat} {entry : JournalEntry}
    (found : entryAt s block = some entry) :
    s.mem block = .journal entry := by
  unfold entryAt at found
  cases get : s.get block with
  | none =>
    rw [get] at found
    cases found
  | some page =>
    obtain ⟨-, tag⟩ := Store.get_eq_some get
    rw [get] at found
    cases page with
    | journal inPage =>
      obtain rfl := Option.some.inj found
      exact tag
    | super | bitmap | inode | btreeNode | data | untagged => cases found

/-- Assign the `synced` flag of the entry of a journal block. -/
def setSynced (block : Nat) (s : Store) : Option Store := do
  let entry ← entryAt s block
  assignEntry s block { entry with synced := true }

/-- Two superblocks describe one layout. -/
structure Superblock.SameLayout (superblock layout : Superblock) : Prop where
  /-- The size of the image. -/
  totalBlocks : superblock.totalBlocks = layout.totalBlocks
  /-- The place of the inode bitmap. -/
  inodeBitmap : superblock.inodeBitmap = layout.inodeBitmap
  /-- The root inode. -/
  rootInode : superblock.rootInode = layout.rootInode
  /-- The root node. -/
  btreeRoot : superblock.btreeRoot = layout.btreeRoot
  /-- The place of the journal. -/
  journalStart : superblock.journalStart = layout.journalStart

/-- A layout is its own. -/
theorem Superblock.SameLayout.refl (superblock : Superblock) : superblock.SameLayout superblock :=
  ⟨rfl, rfl, rfl, rfl, rfl⟩

/-- Layouts compose. -/
theorem Superblock.SameLayout.trans {first second third : Superblock}
    (left : first.SameLayout second) (right : second.SameLayout third) :
    first.SameLayout third :=
  ⟨left.totalBlocks.trans right.totalBlocks, left.inodeBitmap.trans right.inodeBitmap,
    left.rootInode.trans right.rootInode, left.btreeRoot.trans right.btreeRoot,
    left.journalStart.trans right.journalStart⟩

/-- One layout has one journal size. -/
theorem Superblock.SameLayout.journalSize {superblock layout : Superblock}
    (same : superblock.SameLayout layout) :
    calculateJournalSize superblock = calculateJournalSize layout := by
  unfold calculateJournalSize
  rw [same.totalBlocks]

/-- Moving the head keeps the layout. -/
theorem Superblock.SameLayout.advance {superblock layout : Superblock}
    (same : superblock.SameLayout layout) : superblock.advanceHead.SameLayout layout :=
  ⟨same.totalBlocks, same.inodeBitmap, same.rootInode, same.btreeRoot, same.journalStart⟩

/-- The case distinction of `initialize_journal_entry`: a new directory is looked up and
truncated, so that its inode is on the image. -/
def prepareEntry (s : Store) : Transaction → Option (Transaction × Store)
  | .mknod path mode _ inodeNumber =>
    if mode &&& fileTypeMask = fileTypeDirectory then do
      let pair ← itemSearch s path
      let s ← truncate s path 0 true
      some (.mknod path mode pair.btreeBlock pair.inodeNumber, s)
    else some (.mknod path mode 0 inodeNumber, s)
  | transaction => some (transaction, s)

/-- A visit of the entry of a journal block that records the entries it is called with. -/
def recorded (visit : Nat → Store → Option Store) (block : Nat) (record : List JournalEntry)
    (s : Store) : Option (List JournalEntry × Store) := do
  let entry ← entryAt s block
  let s ← visit block s
  some (record ++ [entry], s)

/-- `initialize_journal_entry`. `sync` is `sync_entry` on the entry of a journal block, and it may
keep a record of its calls. -/
def initializeJournalEntryWith {Record : Type}
    (sync : Nat → Record → Store → Option (Record × Store)) (record : Record) (s : Store)
    (entry : JournalEntry) : Option (Record × Store) := do
  let (transaction, s) ← prepareEntry s entry.transaction
  let superblock ← superblockRead s
  let journalBlock := superblock.journalBlock
  let entry := { entry with blockNumber := journalBlock, transaction }
  match ← s.get journalBlock with
  | .journal prevEntry => do
    let (record, s) ←
      if prevEntry.synced then some (record, s) else sync journalBlock record s
    let s := superblockWrite s superblock.advanceHead true
    let s ← assignEntry s journalBlock entry
    some (record, s.flush journalBlock)
  | _ => some (record, s)

/-- `initialize_journal_entry`: the entry that its `sync_entry` is called with, if it is called, and
the store after it. -/
def initializeJournalEntry (sync : Nat → Store → Option Store) (s : Store)
    (entry : JournalEntry) : Option (Option JournalEntry × Store) :=
  (initializeJournalEntryWith (recorded sync) [] s entry).map (Prod.map List.head? id)

/-- `mark_entry_synced` on the entry of a journal block. The page is written under the number
that the entry holds. -/
def markEntrySynced (block : Nat) (s : Store) : Option Store := do
  let entry ← entryAt s block
  let s ← setSynced block s
  diskWriteBlockAs s block entry.blockNumber

/-- The case distinction of `sync_entry` on the entry of a journal block: whether it returns there.
`replay` is what it does for a transaction. -/
def replayEntry (replay : Nat → Store → Option (Bool × Store)) (block : Nat) (s : Store) :
    Option (Bool × Store) := do
  let entry ← entryAt s block
  if entry.transaction.isUninitialized then some (false, s) else replay block s

/-- `sync_entry` on the entry of a journal block. -/
def syncEntry (replay : Nat → Store → Option (Bool × Store)) (block : Nat) (s : Store) :
    Option Store := do
  let (returned, s) ← replayEntry replay block s
  if returned then some s else markEntrySynced block s

/-- Whether `sync_journal` and `mark_journal_synced` visit an entry. -/
def JournalEntry.pending (entry : JournalEntry) : Bool :=
  !entry.transaction.isUninitialized && !entry.synced

/-- The loop of `sync_journal` and `mark_journal_synced` with the number of entries left. `visit` may
keep a record of its calls. -/
def walkJournalFromWith {Record : Type} (visit : Nat → Record → Store → Option (Record × Store)) :
    Nat → Superblock → Record → Store → Option (Record × Store)
  | 0, _, record, s => some (record, s)
  | left + 1, superblock, record, s => do
    match ← s.get superblock.journalBlock with
    | .journal prevEntry => do
      let (record, s) ←
        if !prevEntry.transaction.isUninitialized && !prevEntry.synced then
          visit superblock.journalBlock record s
        else some (record, s)
      let superblock := superblock.advanceHead
      let s := superblockWrite s superblock true
      walkJournalFromWith visit left superblock record s
    | _ => some (record, s)

/-- The walk of `sync_journal` and `mark_journal_synced`. -/
def walkJournalWith {Record : Type} (visit : Nat → Record → Store → Option (Record × Store))
    (record : Record) (s : Store) : Option (Record × Store) := do
  let superblock ← superblockRead s
  walkJournalFromWith visit (calculateJournalSize superblock - 1) superblock record s

/-- The loop with the entries that are visited. -/
def walkJournalFrom (visit : Nat → Store → Option Store) (left : Nat) (superblock : Superblock)
    (s : Store) : Option (List JournalEntry × Store) :=
  walkJournalFromWith (recorded visit) left superblock [] s

/-- The walk with the entries that are visited. -/
def walkJournal (visit : Nat → Store → Option Store) (s : Store) :
    Option (List JournalEntry × Store) := walkJournalWith (recorded visit) [] s

/-- `sync_journal`. -/
def syncJournalWith {Record : Type} (sync : Nat → Record → Store → Option (Record × Store))
    (record : Record) (s : Store) : Option (Record × Store) := walkJournalWith sync record s

/-- `sync_journal` with the entries that `sync_entry` is called with. -/
def syncJournal (sync : Nat → Store → Option Store) (s : Store) :
    Option (List JournalEntry × Store) := syncJournalWith (recorded sync) [] s

/-- `mark_journal_synced` with the entries that it marks. -/
def markJournalSynced (s : Store) : Option (List JournalEntry × Store) :=
  walkJournal markEntrySynced s

section

variable {s : Store} {entry : JournalEntry} {block left : Nat} {superblock : Superblock}

/-- A page with an entry. -/
theorem entryAt_get (get : s.get block = some (.journal entry)) : entryAt s block = some entry := by
  unfold entryAt
  rw [get]
  rfl

/-- `mark_entry_synced` writes the page under the number of the entry. -/
theorem markEntrySynced_spec {block : Nat} {entry : JournalEntry}
    (page : s.mem block = .journal entry) (inside : block < s.totalBlocks)
    (number : entry.blockNumber < s.totalBlocks) :
    ∃ s', markEntrySynced block s = some s' ∧
      s'.mem = (s.put block (.journal { entry with synced := true })).mem ∧
      s'.disk entry.blockNumber = .journal { entry with synced := true } ∧
      (∀ other, other ≠ entry.blockNumber → s'.disk other = s.disk other) ∧
      s'.totalBlocks = s.totalBlocks := by
  let marked := s.put block (.journal { entry with synced := true })
  have get : s.get block = some (.journal entry) := by
    rw [Store.get_of_lt inside, page]
  have get' : marked.get block = some (.journal { entry with synced := true }) := by
    rw [@Store.get_of_lt marked block inside]
    exact congrArg some (Store.put_same _ _ _)
  have found : entryAt s block = some entry := by
    unfold entryAt
    rw [get]
    rfl
  have set : setSynced block s = some marked := by
    unfold setSynced assignEntry
    rw [found, Option.bind_eq_bind, Option.bind_some, get]
    rfl
  have run : markEntrySynced block s = some { marked with
      disk := fun other => if other = entry.blockNumber
        then .journal { entry with synced := true } else marked.disk other } := by
    unfold markEntrySynced
    rw [found, Option.bind_eq_bind, Option.bind_some, set]
    show diskWriteBlockAs marked block entry.blockNumber = _
    unfold diskWriteBlockAs
    rw [get', Option.bind_eq_bind, Option.bind_some]
    exact if_pos number
  exact ⟨_, run, rfl, if_pos rfl, fun other apart => if_neg apart, rfl⟩

/-- A recorded visit of an entry. -/
theorem recorded_get (visit : Nat → Store → Option Store)
    (get : s.get block = some (.journal entry)) (record : List JournalEntry) :
    recorded visit block record s = (visit block s).map fun s => (record ++ [entry], s) := by
  unfold recorded
  rw [entryAt_get get, Option.bind_eq_bind, Option.bind_some]
  cases visit block s with
  | none => rfl
  | some s' => rfl

/-- An append records the entry that it overwrites unless that is synced. -/
theorem initializeJournalEntryWith_recorded (sync : Nat → Store → Option Store)
    (record : List JournalEntry) (s : Store) (entry : JournalEntry) :
    initializeJournalEntryWith (recorded sync) record s entry = (do
      let (transaction, s) ← prepareEntry s entry.transaction
      let superblock ← superblockRead s
      let journalBlock := superblock.journalBlock
      let entry := { entry with blockNumber := journalBlock, transaction }
      match ← s.get journalBlock with
      | .journal prevEntry => do
        let s ← if prevEntry.synced then some s else sync journalBlock s
        let s := superblockWrite s superblock.advanceHead true
        let s ← assignEntry s journalBlock entry
        some (record ++ (if prevEntry.synced then none else some prevEntry).toList,
          s.flush journalBlock)
      | _ => some (record, s)) := by
  unfold initializeJournalEntryWith
  cases prepareEntry s entry.transaction with
  | none => rfl
  | some prepared =>
    obtain ⟨transaction, s1⟩ := prepared
    rw [Option.bind_eq_bind, Option.bind_some, Option.bind_some]
    dsimp only
    cases superblockRead s1 with
    | none => rfl
    | some superblock =>
      rw [Option.bind_eq_bind, Option.bind_some, Option.bind_some]
      cases get : s1.get superblock.journalBlock with
      | none => rfl
      | some page =>
        rw [Option.bind_eq_bind, Option.bind_some, Option.bind_some]
        cases page with
        | journal prevEntry =>
          dsimp only
          cases prevEntry.synced with
          | true =>
            simp only [if_true, Option.toList_none, List.append_nil]
            rfl
          | false =>
            simp only [Bool.false_eq_true, if_false, recorded_get sync get]
            cases sync superblock.journalBlock s1 with
            | none => rfl
            | some s2 => rfl
        | super | bitmap | inode | btreeNode | data | untagged => rfl

/-- `initialize_journal_entry` with the entry that it passes on. -/
theorem initializeJournalEntry_def (sync : Nat → Store → Option Store) (s : Store)
    (entry : JournalEntry) :
    initializeJournalEntry sync s entry = (do
      let (transaction, s) ← prepareEntry s entry.transaction
      let superblock ← superblockRead s
      let journalBlock := superblock.journalBlock
      let entry := { entry with blockNumber := journalBlock, transaction }
      match ← s.get journalBlock with
      | .journal prevEntry => do
        let s ← if prevEntry.synced then some s else sync journalBlock s
        let s := superblockWrite s superblock.advanceHead true
        let s ← assignEntry s journalBlock entry
        some (if prevEntry.synced then none else some prevEntry, s.flush journalBlock)
      | _ => some (none, s)) := by
  unfold initializeJournalEntry
  rw [initializeJournalEntryWith_recorded]
  cases prepareEntry s entry.transaction with
  | none => rfl
  | some prepared =>
    obtain ⟨transaction, s1⟩ := prepared
    simp only [Option.bind_eq_bind, Option.bind_some]
    cases superblockRead s1 with
    | none => rfl
    | some superblock =>
      simp only [Option.bind_some]
      cases s1.get superblock.journalBlock with
      | none => rfl
      | some page =>
        simp only [Option.bind_some]
        cases page with
        | journal prevEntry =>
          have finish : ∀ s2 passed, ((assignEntry (superblockWrite s2 superblock.advanceHead true)
              superblock.journalBlock { entry with
                blockNumber := superblock.journalBlock, transaction }).bind fun s =>
                  some (([] ++ Option.toList passed : List JournalEntry),
                    s.flush superblock.journalBlock)).map (Prod.map List.head? id) =
              (assignEntry (superblockWrite s2 superblock.advanceHead true)
                superblock.journalBlock { entry with
                  blockNumber := superblock.journalBlock, transaction }).bind fun s =>
                    some (passed, s.flush superblock.journalBlock) := by
            intro s2 passed
            cases assignEntry (superblockWrite s2 superblock.advanceHead true)
              superblock.journalBlock { entry with
                blockNumber := superblock.journalBlock, transaction } with
            | none => rfl
            | some s3 =>
              cases passed with
              | none => rfl
              | some passed => rfl
          cases flag : prevEntry.synced with
          | true =>
            simp only [flag, if_true]
            exact finish s1 none
          | false =>
            simp only [flag, Bool.false_eq_true, if_false]
            cases sync superblock.journalBlock s1 with
            | none => rfl
            | some s2 => exact finish s2 (some prevEntry)
        | super | bitmap | inode | btreeNode | data | untagged => rfl

/-- An append records its entry behind what is recorded. -/
theorem initializeJournalEntryWith_append (sync : Nat → Store → Option Store)
    (record : List JournalEntry) (s : Store) (entry : JournalEntry) :
    initializeJournalEntryWith (recorded sync) record s entry =
      (initializeJournalEntry sync s entry).map
        (Prod.map (fun passed => record ++ passed.toList) id) := by
  rw [initializeJournalEntryWith_recorded, initializeJournalEntry_def]
  cases prepareEntry s entry.transaction with
  | none => rfl
  | some prepared =>
    obtain ⟨transaction, s1⟩ := prepared
    simp only [Option.bind_eq_bind, Option.bind_some]
    cases superblockRead s1 with
    | none => rfl
    | some superblock =>
      simp only [Option.bind_some]
      cases s1.get superblock.journalBlock with
      | none => rfl
      | some page =>
        simp only [Option.bind_some]
        cases page with
        | journal prevEntry =>
          dsimp only
          have finish : ∀ s2 passed, ((assignEntry (superblockWrite s2 superblock.advanceHead true)
              superblock.journalBlock { entry with
                blockNumber := superblock.journalBlock, transaction }).bind fun s =>
                  some (record ++ Option.toList passed, s.flush superblock.journalBlock)) =
              ((assignEntry (superblockWrite s2 superblock.advanceHead true)
                superblock.journalBlock { entry with
                  blockNumber := superblock.journalBlock, transaction }).bind fun s =>
                    some (passed, s.flush superblock.journalBlock)).map
                (Prod.map (fun passed => record ++ passed.toList) id) := by
            intro s2 passed
            cases assignEntry (superblockWrite s2 superblock.advanceHead true)
              superblock.journalBlock { entry with
                blockNumber := superblock.journalBlock, transaction } with
            | none => rfl
            | some s3 => rfl
          cases prevEntry.synced with
          | true => exact finish s1 none
          | false =>
            simp only [Bool.false_eq_true, if_false]
            cases sync superblock.journalBlock s1 with
            | none => rfl
            | some s2 => exact finish s2 (some prevEntry)
        | super | bitmap | inode | btreeNode | data | untagged =>
          show some (record, s1) = some (record ++ [], s1)
          rw [List.append_nil]

/-- One entry of a walk. -/
theorem walkJournalFromWith_succ {Record : Type}
    {visit : Nat → Record → Store → Option (Record × Store)} (record : Record) (get : s.get superblock.journalBlock = some (.journal entry)) (left : Nat) :
    walkJournalFromWith visit (left + 1) superblock record s =
      (if !entry.transaction.isUninitialized && !entry.synced then
        visit superblock.journalBlock record s else some (record, s)).bind fun visited =>
          walkJournalFromWith visit left superblock.advanceHead visited.1
            (superblockWrite visited.2 superblock.advanceHead true) := by
  rw [walkJournalFromWith, get, Option.bind_eq_bind, Option.bind_some]
  dsimp only
  split
  · rfl
  · rfl

/-- A walk stops at a block that is no journal block. -/
theorem walkJournalFromWith_stop {Record : Type}
    {visit : Nat → Record → Store → Option (Record × Store)} (record : Record) {page : Block}
    (get : s.get superblock.journalBlock = some page) (noJournal : ∀ entry, page ≠ .journal entry)
    (left : Nat) : walkJournalFromWith visit (left + 1) superblock record s = some (record, s) := by
  rw [walkJournalFromWith, get, Option.bind_eq_bind, Option.bind_some]
  cases page with
  | journal entry => exact absurd rfl (noJournal entry)
  | super | bitmap | inode | btreeNode | data | untagged => rfl

/-- The rest of a walk records behind what is recorded. -/
theorem walkJournalFromWith_recorded (visit : Nat → Store → Option Store) (left : Nat)
    (superblock : Superblock) (record : List JournalEntry) (s : Store) :
    walkJournalFromWith (recorded visit) left superblock record s =
      (walkJournalFrom visit left superblock s).map (Prod.map (record ++ ·) id) := by
  unfold walkJournalFrom
  induction left generalizing superblock record s with
  | zero =>
    show some (record, s) = some (record ++ [], s)
    rw [List.append_nil]
  | succ left ih =>
    cases get : s.get superblock.journalBlock with
    | none =>
      rw [walkJournalFromWith, walkJournalFromWith, get]
      rfl
    | some page =>
      cases page with
      | journal entry =>
        rw [walkJournalFromWith_succ record get, walkJournalFromWith_succ [] get,
          recorded_get visit get, recorded_get visit get]
        cases !entry.transaction.isUninitialized && !entry.synced with
        | true =>
          cases visit superblock.journalBlock s with
          | none => rfl
          | some s1 =>
            simp only [if_true, Option.map_some, Option.bind_some]
            rw [ih _ (record ++ [entry]), ih _ ([] ++ [entry]), Option.map_map]
            cases walkJournalFromWith (recorded visit) left superblock.advanceHead []
                (superblockWrite s1 superblock.advanceHead true) with
            | none => rfl
            | some walked => simp [Prod.map]
        | false =>
          simp only [Bool.false_eq_true, if_false, Option.bind_some]
          exact ih _ record _
      | super | bitmap | inode | btreeNode | data | untagged =>
        rw [walkJournalFromWith_stop record get (fun _ wrong => by cases wrong),
          walkJournalFromWith_stop [] get (fun _ wrong => by cases wrong), Option.map_some, Prod.map,
          List.append_nil]
        rfl

/-- One step of the walk. -/
theorem walkJournalFrom_succ {visit : Nat → Store → Option Store} {superblock : Superblock}
    {front : JournalEntry} (get : s.get superblock.journalBlock = some (.journal front))
    (left : Nat) :
    walkJournalFrom visit (left + 1) superblock s =
      (if front.pending then visit superblock.journalBlock s else some s).bind fun s =>
        (walkJournalFrom visit left superblock.advanceHead
          (superblockWrite s superblock.advanceHead true)).bind fun (visited, s) =>
            some (if front.pending then front :: visited else visited, s) := by
  rw [walkJournalFrom, walkJournalFromWith_succ [] get]
  show Option.bind (if front.pending then _ else _) _ = _
  by_cases pending : front.pending = true
  · rw [if_pos pending, if_pos pending, recorded_get visit get]
    cases visit superblock.journalBlock s with
    | none => rfl
    | some s1 =>
      simp only [Option.map_some, Option.bind_some, walkJournalFromWith_recorded, if_pos pending]
      cases walkJournalFrom visit left superblock.advanceHead
          (superblockWrite s1 superblock.advanceHead true) with
      | none => rfl
      | some walked => rfl
  · rw [if_neg pending, if_neg pending]
    simp only [Option.bind_some, walkJournalFromWith_recorded, if_neg pending]
    cases walkJournalFrom visit left superblock.advanceHead
        (superblockWrite s superblock.advanceHead true) with
    | none => rfl
    | some walked => rfl

/-- A walk begins at the head of the superblock. -/
theorem walkJournal_def (visit : Nat → Store → Option Store) (s : Store) :
    walkJournal visit s = (superblockRead s).bind fun superblock =>
      walkJournalFrom visit (calculateJournalSize superblock - 1) superblock s := rfl

/-- `sync_journal` is such a walk. -/
theorem syncJournal_def (sync : Nat → Store → Option Store) (s : Store) :
    syncJournal sync s = (superblockRead s).bind fun superblock =>
      walkJournalFrom sync (calculateJournalSize superblock - 1) superblock s := rfl

/-- A walk records behind what is recorded. -/
theorem walkJournalWith_recorded (visit : Nat → Store → Option Store) (record : List JournalEntry)
    (s : Store) :
    walkJournalWith (recorded visit) record s =
      (walkJournal visit s).map (Prod.map (record ++ ·) id) := by
  rw [walkJournal_def]
  unfold walkJournalWith
  cases superblockRead s with
  | none => rfl
  | some superblock => exact walkJournalFromWith_recorded visit _ superblock record s

end

end Nbtrfs
