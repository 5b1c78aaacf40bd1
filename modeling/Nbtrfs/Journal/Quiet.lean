import Nbtrfs.Journal.Replay
import Nbtrfs.Namespace.GuardedMap

/-!
# Appends that replay nothing

While the journal does not wrap round to an entry that still has to be replayed, an append writes
the superblock and the slot of the head. `quietAppend` is `initialize_journal_entry` without a
result where it would replay an entry, so a call that has a result with it is a call whose appends
replay nothing, and the calls of the source have the same result.
-/

namespace Nbtrfs

/-- `initialize_journal_entry` where the entry in the slot need not be replayed. -/
def quietAppend : Append := fun entry s =>
  (initializeJournalEntry (syncEntry fun _ _ => none) s entry).map Prod.snd

/-- What has a result has the same result. -/
def Below {α : Type} (first second : Option α) : Prop :=
  ∀ value, first = some value → second = some value

/-- One append does what another does where that one has a result. -/
def Append.Below (append other : Append) : Prop :=
  ∀ entry s, Nbtrfs.Below (append entry s) (other entry s)

section

variable {α β : Type} {first second : Option α} {next other : α → Option β}

/-- Every computation is below itself. -/
theorem Below.refl (first : Option α) : Below first first := fun _ run => run

/-- Steps one after the other. -/
theorem Below.bind (here : Below first second) (later : ∀ value, Below (next value) (other value)) :
    Below (first.bind next) (second.bind other) := by
  intro result run
  obtain ⟨value, step, run⟩ := Option.bind_eq_some_iff.mp run
  exact Option.bind_eq_some_iff.mpr ⟨value, here value step, later value result run⟩

/-- A step and what is made of it. -/
theorem Below.map (here : Below first second) (make : α → β) :
    Below (first.map make) (second.map make) := by
  intro result run
  obtain ⟨value, step, same⟩ := Option.map_eq_some_iff.mp run
  exact Option.map_eq_some_iff.mpr ⟨value, here value step, same⟩

/-- A choice. -/
theorem Below.ite {c : Prop} [Decidable c] {third fourth : Option α} (here : Below first third)
    (there : Below second fourth) :
    Below (if c then first else second) (if c then third else fourth) := by
  by_cases chosen : c
  · rw [if_pos chosen, if_pos chosen]
    exact here
  · rw [if_neg chosen, if_neg chosen]
    exact there

end

section

variable {guard : Guard} {s s' : Store}

/-- Without a replay `sync_entry` goes on with an entry that was never used. -/
theorem syncEntry_quiet {block : Nat} {replay : Nat → Store → Option (Bool × Store)}
    (run : syncEntry (fun _ _ => none) block s = some s') :
    syncEntry replay block s = some s' ∧ markEntrySynced block s = some s' := by
  unfold syncEntry at run
  obtain ⟨⟨returned, after⟩, quiet, run⟩ := Option.bind_eq_some_iff.mp run
  unfold replayEntry at quiet
  obtain ⟨entry, found, quiet⟩ := Option.bind_eq_some_iff.mp quiet
  cases unused : entry.transaction.isUninitialized with
  | false =>
    rw [unused] at quiet
    cases quiet
  | true =>
    rw [unused, if_pos rfl] at quiet
    obtain ⟨rfl, rfl⟩ := Prod.mk.inj (Option.some.inj quiet)
    have marked : markEntrySynced block s = some s' := run
    refine ⟨?_, marked⟩
    unfold syncEntry replayEntry
    simp only [found, Option.bind_eq_bind, Option.bind_some, unused]
    exact marked

/-- `initialize_journal_entry` where a replay has a result. -/
theorem initializeJournalEntry_below {sync other : Nat → Store → Option Store}
    (below : ∀ block s, Below (sync block s) (other block s)) (s : Store) (entry : JournalEntry) :
    Below (initializeJournalEntry sync s entry) (initializeJournalEntry other s entry) := by
  rw [initializeJournalEntry_def, initializeJournalEntry_def]
  apply Below.bind (Below.refl _)
  rintro ⟨transaction, s1⟩
  apply Below.bind (Below.refl _)
  intro superblock
  apply Below.bind (Below.refl _)
  intro content
  cases content with
  | journal front =>
    apply Below.ite
    · exact Below.refl _
    · apply Below.bind (below superblock.journalBlock s1)
      exact fun s2 => Below.refl _
  | super | bitmap | inode | btreeNode | data | untagged => exact Below.refl _

/-- An append that replays nothing is an append of the source. -/
theorem quietAppend_below (locals : Locals) (host : Host) :
    quietAppend.Below (appendEntry locals host) := by
  intro entry s s' run
  unfold quietAppend at run
  obtain ⟨⟨synced, after⟩, quiet, same⟩ := Option.map_eq_some_iff.mp run
  obtain rfl : after = s' := same
  unfold appendEntry
  rw [appendWithin, initializeJournalEntry_below _ s entry _ quiet]
  · rfl
  · exact fun block s1 s2 sync => (syncEntry_quiet sync).1

/-- Assigning the entry of a journal block. -/
theorem Guard.Holds.assignEntry (holds : guard.Holds s) {block : Nat} {entry : JournalEntry}
    (run : assignEntry s block entry = some s') : guard.Holds s' := by
  obtain ⟨former, get, rfl⟩ := assignEntry_cases run
  apply holds.putPlain
  · apply holds.spare
    rw [(Store.get_eq_some get).2]
    rfl
  · rintro slots ⟨⟩

/-- Marking an entry. -/
theorem Guard.Holds.markEntrySynced (holds : guard.Holds s) {block : Nat}
    (run : markEntrySynced block s = some s') : guard.Holds s' := by
  unfold Nbtrfs.markEntrySynced setSynced at run
  obtain ⟨entry, -, run⟩ := Option.bind_eq_some_iff.mp run
  obtain ⟨s1, set, run⟩ := Option.bind_eq_some_iff.mp run
  obtain ⟨former, -, set⟩ := Option.bind_eq_some_iff.mp set
  exact (holds.assignEntry set).diskWriteAs run

/-- An append keeps the guard if its case distinction does. -/
theorem Guard.Holds.quietAppend {entry : JournalEntry}
    (prepared : ∀ transaction s1, prepareEntry s entry.transaction = some (transaction, s1) →
      guard.Holds s1)
    (run : quietAppend entry s = some s') : guard.Holds s' := by
  unfold Nbtrfs.quietAppend at run
  rw [initializeJournalEntry_def] at run
  obtain ⟨⟨synced, after⟩, quiet, same⟩ := Option.map_eq_some_iff.mp run
  obtain rfl : after = s' := same
  obtain ⟨⟨transaction, s1⟩, prepare, quiet⟩ := Option.bind_eq_some_iff.mp quiet
  have holds1 := prepared transaction s1 prepare
  obtain ⟨superblock, read, quiet⟩ := Option.bind_eq_some_iff.mp quiet
  have layout : superblock.SameLayout guard.layout := by
    obtain ⟨other, readOther, same⟩ := holds1.superblock
    have equal : superblock = other := Option.some.inj (read.symm.trans readOther)
    rw [equal]
    exact same
  obtain ⟨content, get, quiet⟩ := Option.bind_eq_some_iff.mp quiet
  cases content with
  | journal front =>
    have finish : ∀ s2 : Store, guard.Holds s2 → (do
        let s ← Nbtrfs.assignEntry (Nbtrfs.superblockWrite s2 superblock.advanceHead true)
          superblock.journalBlock { entry with blockNumber := superblock.journalBlock, transaction }
        some ((if front.synced then none else some front : Option JournalEntry),
          s.flush superblock.journalBlock)) = some (synced, after) → guard.Holds after := by
      intro s2 holds2 finished
      obtain ⟨s3, assign, finished⟩ := Option.bind_eq_some_iff.mp finished
      obtain ⟨-, rfl⟩ := Prod.mk.inj (Option.some.inj finished)
      exact ((holds2.superblockWrite layout.advance true).assignEntry assign).flush _
    dsimp only at quiet
    cases flag : front.synced with
    | true =>
      rw [flag] at finish
      rw [flag, if_pos rfl] at quiet
      exact finish s1 holds1 quiet
    | false =>
      rw [flag] at finish
      rw [flag, if_neg Bool.false_ne_true] at quiet
      obtain ⟨s2, sync, quiet⟩ := Option.bind_eq_some_iff.mp quiet
      exact finish s2 (holds1.markEntrySynced (@syncEntry_quiet s1 s2 _ (fun _ _ => none) sync).2)
        quiet
  | super | bitmap | inode | btreeNode | data | untagged =>
    obtain ⟨-, rfl⟩ := Prod.mk.inj (Option.some.inj quiet)
    exact holds1

/-- Whether an append truncates a new directory. -/
def Transaction.isDirectory : Transaction → Bool
  | .mknod _ mode _ _ => mode &&& fileTypeMask = fileTypeDirectory
  | _ => false

/-- The case distinction changes nothing unless a directory is new. -/
theorem prepareEntry_same {transaction prepared : Transaction}
    (plain : transaction.isDirectory = false)
    (run : prepareEntry s transaction = some (prepared, s')) : s' = s := by
  cases transaction with
  | mknod path mode block inodeNumber =>
    have noDirectory : ¬ mode &&& fileTypeMask = fileTypeDirectory := of_decide_eq_false plain
    rw [prepareEntry, if_neg noDirectory] at run
    exact (Prod.mk.inj (Option.some.inj run)).2.symm
  | uninitialized | unlink | link | chmod | truncate | write | rename =>
    exact (Prod.mk.inj (Option.some.inj run)).2.symm

/-- An append of another entry than that of a new directory. -/
theorem Guard.Holds.appendPlain (holds : guard.Holds s) {entry : JournalEntry}
    (plain : entry.transaction.isDirectory = false) (run : Nbtrfs.quietAppend entry s = some s') :
    guard.Holds s' := by
  apply Guard.Holds.quietAppend _ run
  intro transaction s1 prepare
  rw [prepareEntry_same plain prepare]
  exact holds

end

end Nbtrfs
