import Nbtrfs.Fuse.Run
import Nbtrfs.Journal.Kept

/-!
# Block 0 while the journal is written

`sync_entry` writes the page of an entry under the block number that the entry holds. A slot of
the ring that no append has used holds 0, so the first append on an image writes the page of its
slot over block 0 of the image, until it writes the superblock.
-/

namespace Nbtrfs

/-- The stores after the replay of `sync_entry` and after its write of the entry. -/
def syncPoints (replay : Nat → Store → Option (Bool × Store)) (block : Nat) (s : Store) :
    Option (List Store) := do
  let (returned, s) ← replayEntry replay block s
  if returned then some [s]
  else do
    let marked ← markEntrySynced block s
    some [s, marked]

/-- The stores in a call of `initialize_journal_entry`: before it looks at the page of the head,
in the `sync_entry` that it calls, and after each of its own disk writes. -/
def appendPoints (replay : Nat → Store → Option (Bool × Store)) (s : Store)
    (entry : JournalEntry) : Option (List Store) := do
  let (transaction, s) ← prepareEntry s entry.transaction
  let superblock ← superblockRead s
  let journalBlock := superblock.journalBlock
  let entry := { entry with blockNumber := journalBlock, transaction }
  match ← s.get journalBlock with
  | .journal prevEntry => do
    let points ←
      if prevEntry.synced then some [s]
      else (syncPoints replay journalBlock s).map (s :: ·)
    let synced ← points.getLast?
    let written := superblockWrite synced superblock.advanceHead true
    let appended ← assignEntry written journalBlock entry
    some (points ++ [written, appended.flush journalBlock])
  | _ => some [s]

/-- The stores in a call of `initialize_journal_entry` with the replay that it makes. -/
def appendEntryPoints (locals : Locals) (host : Host) (s : Store) (entry : JournalEntry) :
    Option (List Store) :=
  appendPoints (replayTransaction (appendWithin locals host s.totalBlocks) locals host) s entry

/-- Block 0 of the image carries the tag and the fields of the superblock. -/
def SuperOnDisk (layout : Superblock) (s : Store) : Prop :=
  ∃ superblock, s.disk 0 = .super superblock ∧ superblock.SameLayout layout

section

variable {s s' : Store} {replay : Nat → Store → Option (Bool × Store)}

/-- The last point of `sync_entry` is its result, also behind another one. -/
theorem syncPoints_last (block : Nat) (s former : Store) :
    ((syncPoints replay block s).map (former :: ·)).bind List.getLast? =
      syncEntry replay block s := by
  unfold syncEntry syncPoints
  cases replayEntry replay block s with
  | none => rfl
  | some result =>
    obtain ⟨returned, replayed⟩ := result
    cases returned with
    | true => rfl
    | false =>
      show (((markEntrySynced block replayed).bind fun marked =>
        some [replayed, marked]).map (former :: ·)).bind List.getLast? =
          markEntrySynced block replayed
      cases markEntrySynced block replayed with
      | none => rfl
      | some marked => rfl

/-- The last point of a call is its result. -/
theorem appendPoints_last (s : Store) (entry : JournalEntry) :
    (appendPoints replay s entry).bind List.getLast? =
      (initializeJournalEntry (syncEntry replay) s entry).map Prod.snd := by
  rw [initializeJournalEntry_def]
  unfold appendPoints
  cases prepareEntry s entry.transaction with
  | none => rfl
  | some prepared =>
    obtain ⟨transaction, s1⟩ := prepared
    simp only [Option.bind_eq_bind, Option.bind_some]
    cases superblockRead s1 with
    | none => rfl
    | some superblock =>
      simp only [Option.bind_some]
      cases s1.get superblock.journalBlock with
      | none => rfl
      | some page =>
        simp only [Option.bind_some]
        cases page with
        | journal prevEntry =>
          dsimp only
          have finish : ∀ (points : List Store) passed, (points.getLast?.bind fun synced =>
              (assignEntry (superblockWrite synced superblock.advanceHead true)
                superblock.journalBlock { entry with
                  blockNumber := superblock.journalBlock, transaction }).bind fun appended =>
                some (points ++ [superblockWrite synced superblock.advanceHead true,
                  appended.flush superblock.journalBlock])).bind List.getLast? =
              (points.getLast?.bind fun s => (assignEntry (superblockWrite s
                superblock.advanceHead true) superblock.journalBlock { entry with
                  blockNumber := superblock.journalBlock, transaction }).bind fun s =>
                some ((passed : Option JournalEntry), s.flush superblock.journalBlock)).map
                  Prod.snd := by
            intro points passed
            cases points.getLast? with
            | none => rfl
            | some synced =>
              simp only [Option.bind_some]
              cases assignEntry (superblockWrite synced superblock.advanceHead true)
                superblock.journalBlock { entry with
                  blockNumber := superblock.journalBlock, transaction } with
              | none => rfl
              | some appended => simp
          cases prevEntry.synced with
          | true => exact finish [s1] none
          | false =>
            simp only [Bool.false_eq_true, if_false]
            rw [← syncPoints_last superblock.journalBlock s1 s1]
            cases (syncPoints replay superblock.journalBlock s1).map (s1 :: ·) with
            | none => rfl
            | some points => exact finish points (some prevEntry)
        | super | bitmap | inode | btreeNode | data | untagged => rfl

/-- The last point of a call is the store that `initialize_journal_entry` leaves. -/
theorem appendEntryPoints_last (locals : Locals) (host : Host) (s : Store) (entry : JournalEntry) :
    (appendEntryPoints locals host s entry).bind List.getLast? = appendEntry locals host entry s := by
  unfold appendEntryPoints
  rw [appendPoints_last]
  unfold appendEntry appendWithin
  cases initializeJournalEntry (syncEntry (replayTransaction (appendWithin locals host
      s.totalBlocks) locals host)) s entry with
  | none => rfl
  | some result => rfl

/-- No append has used the slot of the head yet. -/
structure FirstSlot (layout : Superblock) (s : Store) : Prop where
  /-- The head is in the first journal block. -/
  head : ∃ superblock, superblockRead s = some superblock ∧
    superblock.journalBlock = layout.journalStart
  /-- The entry there was never written. -/
  unused : s.mem layout.journalStart = .journal unusedEntry
  /-- The block is in the image. -/
  inside : layout.journalStart < s.totalBlocks
  /-- Block 0 is no journal block. -/
  apart : 0 < layout.journalStart

variable {layout : Superblock}

/-- A change that leaves the ring alone leaves the slot unused. -/
theorem FirstSlot.keeps (first : FirstSlot layout s) (keeps : KeepsRing s s') :
    FirstSlot layout s' := by
  obtain ⟨superblock, read, block⟩ := first.head
  obtain ⟨superblock', read', same, head⟩ := keeps.superblock superblock read
  refine ⟨⟨superblock', read', ?_⟩, keeps.pages _ _ first.unused, ?_, first.apart⟩
  · rw [← block]
    unfold Superblock.journalBlock
    rw [same.journalStart, head]
  · rw [keeps.totalBlocks]
    exact first.inside

/-- The first slot of a formatted journal. -/
theorem FirstSlot.formatted {host : Host} {totalBlocks : Nat} (laid : Laid host totalBlocks s)
    (formattable : Formattable totalBlocks) (read : superblockRead s = some layout) :
    FirstSlot layout (mounted s) := by
  obtain ⟨superblock, read', -, -, start, head, -, -⟩ := laid.superblock
  obtain rfl : superblock = layout := Option.some.inj (read'.symm.trans read)
  have journal := formattable.journal
  have room := formattable.room
  have before : superblock.journalStart < rootBlock totalBlocks := by
    rw [start]
    unfold rootBlock
    omega
  refine ⟨⟨superblock, read, ?_⟩, ?_, ?_, ?_⟩
  · unfold Superblock.journalBlock
    rw [head, Nat.add_zero]
  · exact laid.journal _ (by rw [start]) before
  · show _ < s.totalBlocks
    rw [laid.totalBlocks]
    omega
  · rw [start]
    unfold journalStart tableStart
    omega

/-- `sync_entry` on an entry that was never written writes its page over block 0 of the image. -/
theorem syncPoints_unused {block : Nat} (page : s.mem block = .journal unusedEntry)
    (inside : block < s.totalBlocks) :
    ∃ s', syncPoints replay block s = some [s, s'] ∧
      s'.mem = (s.put block (.journal { unusedEntry with synced := true })).mem ∧
      s'.disk 0 = .journal { unusedEntry with synced := true } ∧
      s'.totalBlocks = s.totalBlocks := by
  have get : s.get block = some (.journal unusedEntry) := by
    rw [Store.get_of_lt inside, page]
  have replayed : replayEntry replay block s = some (false, s) := by
    unfold replayEntry
    rw [entryAt_get get]
    rfl
  obtain ⟨s', mark, mem, disk, -, total⟩ := markEntrySynced_spec page inside
    (show (0 : Nat) < s.totalBlocks by omega)
  refine ⟨s', ?_, mem, disk, total⟩
  unfold syncPoints
  rw [replayed]
  show (markEntrySynced block s).bind _ = _
  rw [mark]
  rfl

/-- The first call passes a point at which a journal page is in block 0 of the image. -/
theorem FirstSlot.exposed (first : FirstSlot layout s) {entry : JournalEntry}
    {transaction : Transaction} {s1 : Store}
    (prepared : prepareEntry s entry.transaction = some (transaction, s1)) :
    ∃ points exposed page, appendPoints replay s entry = some points ∧ exposed ∈ points ∧
      exposed.disk 0 = .journal page := by
  have first1 := first.keeps (prepareEntry_leavesRing prepared).toKeepsRing
  obtain ⟨superblock, read, block⟩ := first1.head
  have apart := first1.apart
  have inside := first1.inside
  have page := first1.unused
  rw [← block] at apart inside page
  obtain ⟨s2, replayed, mem2, disk2, total2⟩ := @syncPoints_unused s1 replay _ page inside
  have get : s1.get superblock.journalBlock = some (.journal unusedEntry) := by
    rw [Store.get_of_lt inside, page]
  have read2 : superblockRead s2 = some superblock := by
    apply superblockRead_of_page
    rw [mem2, Store.put_other _ _ _ _ apart.ne]
    exact superblockRead_page read
  have page2 : (superblockWrite s2 superblock.advanceHead true).mem superblock.journalBlock =
      .journal { unusedEntry with synced := true } := by
    rw [superblockWrite_mem (superblockRead_page read2), Store.put_other _ _ _ _ apart.ne', mem2,
      Store.put_same]
  have get2 : (superblockWrite s2 superblock.advanceHead true).get superblock.journalBlock =
      some (.journal { unusedEntry with synced := true }) := by
    rw [Store.get_of_lt (by rw [superblockWrite_totalBlocks, total2]; exact inside), page2]
  let filled : JournalEntry :=
    { entry with blockNumber := superblock.journalBlock, transaction := transaction }
  refine ⟨[s1, s1, s2, superblockWrite s2 superblock.advanceHead true,
    finishAppend s2 superblock filled], s2, { unusedEntry with synced := true }, ?_, by simp, disk2⟩
  unfold appendPoints
  rw [prepared, Option.bind_eq_bind, Option.bind_some]
  show (superblockRead s1).bind _ = _
  rw [read, Option.bind_some]
  show (s1.get superblock.journalBlock).bind _ = _
  rw [get, Option.bind_some]
  show ((syncPoints replay superblock.journalBlock s1).map (s1 :: ·)).bind _ = _
  rw [replayed]
  show (assignEntry (superblockWrite s2 superblock.advanceHead true) superblock.journalBlock
    filled).bind _ = _
  unfold assignEntry
  rw [get2]
  rfl

/-- The stores that a formatted image can come to, with the points of every call of
`initialize_journal_entry`. What else the program does before the first call leaves the ring
alone; afterwards it may be anything. -/
inductive JournalLife (layout : Superblock) : List (List Store) → Store → Prop
  /-- The image as `disk_format` makes it, mounted. -/
  | formatted {host residue totalBlocks volumeName s} : Formattable totalBlocks →
      volumeName.length ≤ 31 →
        diskFormat host (zeroImage totalBlocks residue) volumeName = some (true, s) →
          superblockRead s = some layout → JournalLife layout [] (mounted s)
  /-- Anything else. -/
  | activity {calls s s'} : JournalLife layout calls s → (calls = [] → KeepsRing s s') →
      JournalLife layout calls s'
  /-- A call of `initialize_journal_entry`. -/
  | append {calls s s' locals host entry points} : JournalLife layout calls s →
      appendEntryPoints locals host s entry = some points →
        appendEntry locals host entry s = some s' → JournalLife layout (calls ++ [points]) s'

/-- The slot is unused until the first call, and the first call exposes block 0. -/
theorem JournalLife.first {calls : List (List Store)} (life : JournalLife layout calls s) :
    (calls = [] → FirstSlot layout s) ∧
      (calls ≠ [] → ∃ points ∈ calls, ∃ point ∈ points, ∃ page, point.disk 0 = .journal page) := by
  induction life with
  | @formatted host residue totalBlocks volumeName s formattable short format read =>
    obtain ⟨s', format', laid⟩ := diskFormat_phases host residue formattable short
    obtain rfl : s' = s := (Prod.mk.inj (Option.some.inj (format'.symm.trans format))).2
    exact ⟨fun _ => FirstSlot.formatted laid formattable read, fun some => absurd rfl some⟩
  | activity _ keeps ih => exact ⟨fun none => (ih.1 none).keeps (keeps none), ih.2⟩
  | @append calls s s' locals host entry points _ reached run ih =>
    refine ⟨fun none => by simp at none, fun _ => ?_⟩
    by_cases earlier : calls = []
    · obtain ⟨⟨transaction, s1⟩, prepared, -⟩ := Option.bind_eq_some_iff.mp reached
      obtain ⟨points', point, page, reached', member, exposed⟩ :=
        (ih.1 earlier).exposed prepared
      obtain rfl : points' = points := Option.some.inj (reached'.symm.trans reached)
      exact ⟨points', by simp, point, member, page, exposed⟩
    · obtain ⟨points', member, found⟩ := ih.2 earlier
      exact ⟨points', List.mem_append_left _ member, found⟩

/-- In a run on an image made by `disk_format`, block 0 of the image is the superblock at all points
of all calls of `initialize_journal_entry` if and only if there is no call: the first one writes
the entry of its slot, which was never filled in, to block 0. -/
theorem journalLife_exposes_iff {calls : List (List Store)} (life : JournalLife layout calls s) :
    (∀ points ∈ calls, ∀ point ∈ points, SuperOnDisk layout point) ↔ calls = [] := by
  constructor
  · intro kept
    by_contra some
    obtain ⟨points, call, point, member, page, exposed⟩ := life.first.2 some
    obtain ⟨superblock, tag, -⟩ := kept points call point member
    rw [exposed] at tag
    cases tag
  · intro none points call
    rw [none] at call
    cases call

end

/-- An `UNLINK` on an image of 200 blocks with a new file system. -/
theorem firstCall_exposed (path : CString) :
    ∃ s layout, diskFormat ⟨1000, 1000, 0⟩ (zeroImage 200 ⟨fun _ => 0, fun _ _ => 0⟩) [] =
        some (true, s) ∧ superblockRead s = some layout ∧
      ∃ points point page, appendEntryPoints zeroLocals zeroHost (mounted s)
          ⟨0, false, .unlink path⟩ = some points ∧ point ∈ points ∧
        point.disk 0 = .journal page := by
  have formattable : Formattable 200 := ⟨by decide, by decide, by decide⟩
  obtain ⟨s, format, laid⟩ := @diskFormat_phases ⟨1000, 1000, 0⟩ ⟨fun _ => 0, fun _ _ => 0⟩ 200
    formattable [] (by decide)
  obtain ⟨layout, read, -⟩ := laid.superblock
  have prepared : prepareEntry (mounted s)
      (⟨0, false, .unlink path⟩ : JournalEntry).transaction = some (.unlink path, mounted s) := rfl
  exact ⟨s, layout, format, read,
    (FirstSlot.formatted laid formattable read).exposed prepared⟩

/-- After the `UNLINK` of `/a` the run has had a point without the superblock. -/
theorem journalLife_exposes_iff_unlink :
    ∃ layout points s, JournalLife layout [points] s ∧
      ¬ ∀ call ∈ [points], ∀ point ∈ call, SuperOnDisk layout point := by
  obtain ⟨s, layout, format, read, points, point, page, reached, member, exposed⟩ :=
    firstCall_exposed [47, 97]
  have last := appendEntryPoints_last zeroLocals zeroHost (mounted s) ⟨0, false, .unlink [47, 97]⟩
  rw [reached, Option.bind_some, List.getLast?_eq_some_getLast (List.ne_nil_of_mem member)] at last
  have life : JournalLife layout ([] ++ [points]) _ :=
    .append (.formatted ⟨by decide, by decide, by decide⟩ (by decide) format read) reached last.symm
  exact ⟨layout, points, _, life, (journalLife_exposes_iff life).not.mpr (by simp)⟩

/-- The `UNLINK` of `/a` passes a point at which block 0 of the image is not the superblock. -/
theorem journalLife_exposes_false :
    ∃ s layout points, diskFormat ⟨1000, 1000, 0⟩ (zeroImage 200 ⟨fun _ => 0, fun _ _ => 0⟩) [] =
        some (true, s) ∧ superblockRead s = some layout ∧
      appendEntryPoints zeroLocals zeroHost (mounted s) ⟨0, false, .unlink [47, 97]⟩ =
        some points ∧
      ∃ point ∈ points, ¬ SuperOnDisk layout point := by
  obtain ⟨s, layout, format, read, points, point, page, reached, member, exposed⟩ :=
    firstCall_exposed [47, 97]
  refine ⟨s, layout, points, format, read, reached, point, member, ?_⟩
  rintro ⟨superblock, tag, -⟩
  rw [exposed] at tag
  cases tag

end Nbtrfs
