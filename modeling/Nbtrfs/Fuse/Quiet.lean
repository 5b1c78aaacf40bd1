import Nbtrfs.Fuse.Model
import Nbtrfs.Journal.Quiet

/-!
# Calls that replay nothing

A callback does the same with `quietAppend` as with `initialize_journal_entry` where it has a
result with the former: then no append of the call overwrites an entry that still has to be
replayed, and what is proved about the calls that replay nothing is about the calls of the source.
-/

namespace Nbtrfs

/-- With a result below it, a result is that result. -/
theorem Below.eq_of_isSome {α : Type} {first second : Option α} (below : Below first second)
    (result : first.isSome = true) : first = second := by
  obtain ⟨value, run⟩ := Option.isSome_iff_exists.mp result
  rw [run, below value run]

/-- One append does what another does with the entries that are of no directory. -/
def Append.BelowPlain (append other : Append) : Prop :=
  ∀ entry s, entry.transaction.isDirectory = false →
    Nbtrfs.Below (append entry s) (other entry s)

/-- What holds of every entry. -/
theorem Append.Below.plain {append other : Append} (below : append.Below other) :
    append.BelowPlain other := fun entry s _ => below entry s

section

variable {append other : Append} (below : append.Below other) (locals : Locals) (host : Host)

include below

/-- A block of a directory. -/
theorem directoryBlockAt_below (s : Store) (node : Inode) (i : Nat) (writeThrough : Bool) :
    Below (directoryBlockAt append locals s node i writeThrough)
      (directoryBlockAt other locals s node i writeThrough) := by
  unfold directoryBlockAt
  apply Below.bind (Below.refl _)
  rintro ⟨-, mapped⟩
  apply Below.ite (Below.refl _)
  apply Below.bind (Below.refl _)
  rintro ⟨block, s1⟩
  apply Below.ite (Below.refl _)
  apply Below.bind (Below.refl _)
  rintro ⟨-, node', s2⟩
  apply Below.bind (Below.refl _)
  intro s3
  apply Below.bind (Below.refl _)
  intro s4
  apply Below.bind (below _ s4)
  exact fun s5 => Below.refl _

/-- The loop over the blocks of a directory. -/
theorem addEntryFrom_below (pair : InodeBtreePair) (name : CString) (targetInode type : Nat)
    (writeThrough : Bool) (left i : Nat) (node : Inode) (numberOfEntries count : Nat) (s : Store) :
    Below (addEntryFrom append locals pair name targetInode type writeThrough left i node
        numberOfEntries count s)
      (addEntryFrom other locals pair name targetInode type writeThrough left i node
        numberOfEntries count s) := by
  induction left generalizing i node numberOfEntries count s with
  | zero => exact Below.refl _
  | succ left ih =>
    rw [addEntryFrom, addEntryFrom]
    apply Below.bind (directoryBlockAt_below below locals s node i writeThrough)
    rintro ⟨block, node', s1⟩
    apply Below.ite (Below.refl _)
    apply Below.bind (Below.refl _)
    intro content
    cases content with
    | data bytes =>
      dsimp only
      split
      · exact Below.refl _
      · exact ih _ _ _ _ _
    | super | bitmap | inode | btreeNode | journal | untagged => exact Below.refl _

/-- `directory_add_entry`. -/
theorem directoryAddEntry_below (s : Store) (path name : CString) (targetInode type : Nat)
    (writeThrough : Bool) :
    Below (directoryAddEntry append locals s path name targetInode type writeThrough)
      (directoryAddEntry other locals s path name targetInode type writeThrough) := by
  unfold directoryAddEntry
  apply Below.bind (Below.refl _)
  intro pair
  apply Below.ite (Below.refl _)
  refine Below.ite ?_ (Below.refl _)
  apply Below.bind (Below.refl _)
  exact fun node => addEntryFrom_below below locals _ _ _ _ _ _ _ _ _ _ _

/-- `_mknod`. -/
theorem mknod_below (assign : Nat → Store → Option Store) (s : Store) (path : CString) (mode : Nat)
    (writeThrough : Bool) :
    Below (mknod append locals host assign s path mode writeThrough)
      (mknod other locals host assign s path mode writeThrough) := by
  unfold mknod
  apply Below.bind (Below.refl _)
  rintro ⟨allocated, s1⟩
  cases allocated with
  | none => exact Below.refl _
  | some number =>
    apply Below.bind (Below.refl _)
    intro found
    cases found with
    | none => exact Below.refl _
    | some node =>
      apply Below.bind (Below.refl _)
      intro s2
      apply Below.bind (Below.refl _)
      rintro ⟨written, s3⟩
      refine Below.ite ?_ (Below.refl _)
      apply Below.bind (directoryAddEntry_below below locals _ _ _ _ _ _)
      exact fun result => Below.refl _

/-- `_link`. -/
theorem link_below (s : Store) (source target : CString) (writeThrough : Bool) :
    Below (link append locals s source target writeThrough)
      (link other locals s source target writeThrough) := by
  unfold link
  apply Below.bind (Below.refl _)
  intro pair
  apply Below.bind (Below.refl _)
  intro inode
  apply Below.bind (Below.refl _)
  intro entry
  cases entry with
  | some entry => exact Below.refl _
  | none =>
    apply Below.bind (directoryAddEntry_below below locals _ _ _ _ _ _)
    exact fun result => Below.refl _

/-- `_rename`. -/
theorem rename_below (reread : Store → Option CString) (s : Store) (source target : CString)
    (writeThrough : Bool) :
    Below (rename append locals reread s source target writeThrough)
      (rename other locals reread s source target writeThrough) := by
  unfold rename
  apply Below.bind (Below.refl _)
  intro pair
  apply Below.bind (Below.refl _)
  intro existing
  apply Below.ite (Below.refl _)
  apply Below.bind (link_below below locals s source target writeThrough)
  exact fun result => Below.refl _

/-- `nbtrfs_mknod`. -/
theorem nbtrfsMknod_below (s : Store) (path : CString) (mode : Nat) :
    Below (nbtrfsMknod append locals host s path mode) (nbtrfsMknod other locals host s path mode) := by
  unfold nbtrfsMknod
  apply Below.bind (mknod_below below locals host _ s path mode false)
  rintro ⟨inodeNumber, done, s1⟩
  apply Below.bind (below _ s1)
  exact fun s2 => Below.refl _

/-- `nbtrfs_unlink`. -/
theorem nbtrfsUnlink_below (s : Store) (path : CString) :
    Below (nbtrfsUnlink append s path) (nbtrfsUnlink other s path) := by
  unfold nbtrfsUnlink
  apply Below.bind (below _ s)
  exact fun s1 => Below.refl _

/-- `nbtrfs_link`. -/
theorem nbtrfsLink_below (s : Store) (source target : CString) :
    Below (nbtrfsLink append locals s source target) (nbtrfsLink other locals s source target) := by
  unfold nbtrfsLink
  apply Below.bind (below _ s)
  exact fun s1 => link_below below locals s1 source target false

end

section

variable {append other : Append} (below : append.BelowPlain other) (locals : Locals)

include below

/-- A block of a file that is written. -/
theorem fileBlockAt_below (s : Store) (node : Inode) (pageIndex size : Nat) :
    Below (fileBlockAt append locals s node pageIndex size)
      (fileBlockAt other locals s node pageIndex size) := by
  unfold fileBlockAt
  apply Below.bind (Below.refl _)
  rintro ⟨-, mapped⟩
  apply Below.ite (Below.refl _)
  apply Below.bind (Below.refl _)
  rintro ⟨pnum, s1⟩
  apply Below.ite (Below.refl _)
  apply Below.bind (Below.refl _)
  rintro ⟨-, node', s2⟩
  apply Below.bind (Below.refl _)
  intro s3
  apply Below.bind (below _ s3 rfl)
  exact fun s4 => Below.refl _

/-- The loop of `nbtrfs_write`. -/
theorem writeLoop_below (size fuel : Nat) (buffer : List UInt8) (offset bytesWritten : Nat)
    (node : Inode) (s : Store) :
    Below (writeLoop append locals size fuel buffer offset bytesWritten node s)
      (writeLoop other locals size fuel buffer offset bytesWritten node s) := by
  induction fuel generalizing buffer offset bytesWritten node s with
  | zero => exact Below.refl _
  | succ fuel ih =>
    rw [writeLoop, writeLoop]
    apply Below.ite (Below.refl _)
    apply Below.bind (fileBlockAt_below below locals s node _ size)
    rintro ⟨pnum, node', s1⟩
    apply Below.ite (Below.refl _)
    apply Below.bind (Below.refl _)
    exact fun s2 => ih _ _ _ _ _

/-- `nbtrfs_write` of an inode that was read. -/
theorem writeInode_below (s : Store) (node : Inode) (buffer : List UInt8) (offset : Nat) :
    Below (writeInode append locals s node buffer offset)
      (writeInode other locals s node buffer offset) := by
  unfold writeInode
  apply Below.bind (writeLoop_below below locals _ _ buffer offset 0 node s)
  exact fun result => Below.refl _

end

end Nbtrfs
