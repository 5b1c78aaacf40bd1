import Nbtrfs.Journal.Kept
import Nbtrfs.Namespace.Guard

/-!
# The block map under a guard

`inode_set_block` enters a spare block into an inode. It writes the slot of the inode, a pointer
block, which carries the data tag or is new, and the block itself. In the double indirect part it
also writes over the single indirect block, which has to be spare there.
-/

namespace Nbtrfs

section

variable {guard : Guard} {s s' : Store} {inode inode' : Inode}

/-- A pointer is entered into a data block. -/
theorem Guard.Holds.writePointer (holds : guard.Holds s) {page index pointer : Nat}
    (run : writePointer s page index pointer = some s') :
    guard.Holds s' ∧ guard.Spare page ∧ ∃ bytes, s'.mem page = .data bytes := by
  unfold Nbtrfs.writePointer at run
  obtain ⟨content, get, run⟩ := Option.bind_eq_some_iff.mp run
  obtain ⟨-, tag⟩ := Store.get_eq_some get
  cases content with
  | data bytes =>
    dsimp only at run
    split at run
    · obtain rfl := Option.some.inj run
      have spare : guard.Spare page := holds.spare (by rw [tag]; rfl)
      exact ⟨holds.putPlain spare (by rintro slots ⟨⟩), spare, _, Store.put_same _ _ _⟩
    · cases run
  | super | bitmap | inode | btreeNode | journal | untagged => cases run

/-- A spare page is tagged. -/
theorem Guard.Holds.tagData (holds : guard.Holds s) {pnum : Nat} (spare : guard.Spare pnum)
    (run : tagData s pnum = some s') :
    guard.Holds s' ∧ ∃ bytes, s'.mem pnum = .data bytes := by
  unfold Nbtrfs.tagData at run
  obtain ⟨content, -, run⟩ := Option.bind_eq_some_iff.mp run
  obtain rfl := Option.some.inj run
  exact ⟨holds.putPlain spare (by rintro slots ⟨⟩), _, Store.put_same _ _ _⟩

/-- A spare block is entered into a pointer block. -/
theorem Guard.Holds.linkPointer (holds : guard.Holds s) {pointers index physicalBlock : Nat}
    (spare : guard.Spare physicalBlock)
    (run : linkPointer s pointers index physicalBlock = some s') :
    guard.Holds s' ∧ guard.Spare pointers := by
  unfold Nbtrfs.linkPointer at run
  obtain ⟨s1, write, run⟩ := Option.bind_eq_some_iff.mp run
  obtain ⟨holds1, sparePointers, -⟩ := holds.writePointer write
  obtain ⟨s2, flush, run⟩ := Option.bind_eq_some_iff.mp run
  have holds2 := holds1.diskWriteAs flush
  obtain ⟨s3, tag, run⟩ := Option.bind_eq_some_iff.mp run
  have holds3 := (holds2.tagData spare tag).1
  exact ⟨holds3.diskWriteAs run, sparePointers⟩

/-- A page of zeros is no table block. -/
theorem noTable_data (bytes : Nat → UInt8) : (Block.data bytes).noTable := by
  rintro slots ⟨⟩

/-- A new single indirect block is spare. -/
theorem Guard.Holds.newIndirectBlock (holds : guard.Holds s) (allocates : guard.Allocates)
    (accepts : guard.Accepts inode) {done : Bool}
    (run : newIndirectBlock s inode = some (done, inode', s')) :
    guard.Holds s' ∧ inode.Repointed inode' ∧ (done = true → guard.Spare inode'.indirectBlock) ∧
      (done = false → ∃ taken, Nbtrfs.allocPage s = some (0, taken)) := by
  unfold Nbtrfs.newIndirectBlock at run
  obtain ⟨⟨page, s1⟩, alloc, run⟩ := Option.bind_eq_some_iff.mp run
  obtain ⟨holds1, fresh⟩ := holds.allocPage allocates alloc
  have same : inode.Repointed { inode with indirectBlock := page } := ⟨_, _, _, rfl⟩
  dsimp only at run
  split at run
  case isTrue zero =>
    obtain ⟨rfl, rest⟩ := Prod.mk.inj (Option.some.inj run)
    obtain ⟨rfl, rfl⟩ := Prod.mk.inj rest
    rw [zero] at alloc
    refine ⟨holds1, same, ?_, fun _ => ⟨_, alloc⟩⟩
    intro wrong
    cases wrong
  case isFalse nonzero =>
    have spare := fresh nonzero
    obtain ⟨s2, tag, run⟩ := Option.bind_eq_some_iff.mp run
    have holds2 := (holds1.tagData spare tag).1
    obtain ⟨s3, store, run⟩ := Option.bind_eq_some_iff.mp run
    have holds3 := holds2.inodeStore (accepts { inode with indirectBlock := page } same) store
    obtain ⟨reloaded, reload, run⟩ := Option.bind_eq_some_iff.mp run
    have back : reloaded = { inode with indirectBlock := page } := inodeReload_stored store reload
    subst back
    have holds4 := holds3.putPlain spare (noTable_data fun _ => 0)
    obtain ⟨s5, write, run⟩ := Option.bind_eq_some_iff.mp run
    have holds5 := holds4.writeAs spare (by rw [Store.put_same]; exact noTable_data _) write
    obtain ⟨s6, flush, run⟩ := Option.bind_eq_some_iff.mp run
    obtain ⟨rfl, rest⟩ := Prod.mk.inj (Option.some.inj run)
    obtain ⟨rfl, rfl⟩ := Prod.mk.inj rest
    exact ⟨holds5.diskWriteAs flush, same, fun _ => spare, fun wrong => by cases wrong⟩

/-- A new double indirect block is spare; the single indirect block is written over. -/
theorem Guard.Holds.newDoubleIndirectBlock (holds : guard.Holds s) (allocates : guard.Allocates)
    (accepts : guard.Accepts inode) (single : guard.Spare inode.indirectBlock) {done : Bool}
    (run : newDoubleIndirectBlock s inode = some (done, inode', s')) :
    guard.Holds s' ∧ inode.Repointed inode' ∧ inode'.indirectBlock = inode.indirectBlock := by
  unfold Nbtrfs.newDoubleIndirectBlock at run
  obtain ⟨⟨page, s1⟩, alloc, run⟩ := Option.bind_eq_some_iff.mp run
  obtain ⟨holds1, fresh⟩ := holds.allocPage allocates alloc
  have same : inode.Repointed { inode with doubleIndirectBlock := page } := ⟨_, _, _, rfl⟩
  dsimp only at run
  split at run
  case isTrue =>
    obtain ⟨-, rest⟩ := Prod.mk.inj (Option.some.inj run)
    obtain ⟨rfl, rfl⟩ := Prod.mk.inj rest
    exact ⟨holds1, same, rfl⟩
  case isFalse nonzero =>
    have spare := fresh nonzero
    obtain ⟨s2, tag, run⟩ := Option.bind_eq_some_iff.mp run
    have holds2 := (holds1.tagData spare tag).1
    obtain ⟨s3, store, run⟩ := Option.bind_eq_some_iff.mp run
    have holds3 := holds2.inodeStore (accepts { inode with doubleIndirectBlock := page } same) store
    obtain ⟨reloaded, reload, run⟩ := Option.bind_eq_some_iff.mp run
    have back : reloaded = { inode with doubleIndirectBlock := page } :=
      inodeReload_stored store reload
    subst back
    have holds4 := holds3.putPlain spare (noTable_data fun _ => 0)
    obtain ⟨s5, write, run⟩ := Option.bind_eq_some_iff.mp run
    have holds5 := holds4.writeAs single (by rw [Store.put_same]; exact noTable_data _) write
    obtain ⟨s6, flush, run⟩ := Option.bind_eq_some_iff.mp run
    obtain ⟨-, rest⟩ := Prod.mk.inj (Option.some.inj run)
    obtain ⟨rfl, rfl⟩ := Prod.mk.inj rest
    exact ⟨holds5.diskWriteAs flush, same, rfl⟩

/-- The double indirect part of `inode_set_block` step by step. -/
theorem inodeSetDouble_eq (s : Store) (inode : Inode) (index physicalBlock : Nat) :
    inodeSetDouble s inode index physicalBlock =
      (doublePage index).bind fun page =>
      (freeDoublePages s inode page (doublePosition index).2 physicalBlock).bind fun s =>
      (if inode.doubleIndirectBlock = 0 then newDoubleIndirectBlock s inode
        else some (true, inode, s)).bind fun (ready, inode, s) =>
      if !ready then some (false, inode, s)
      else (readPointer s inode.doubleIndirectBlock page).bind fun lower =>
      (if lower = 0 then
          (allocPage s).bind fun (fresh, s) =>
          (writePointer s inode.doubleIndirectBlock page fresh).bind fun s =>
          if fresh = 0 then some (0, s)
          else (tagData s fresh).bind fun s =>
            (diskWriteBlockAs s fresh inode.indirectBlock).bind fun s => some (fresh, s)
        else some (lower, s)).bind fun (lower, s) =>
      if lower = 0 then some (false, inode, s)
      else (writePointer s lower (doublePosition index).2 physicalBlock).bind fun s =>
        (writeBlockAs s lower physicalBlock).bind fun s =>
        (diskWriteBlockAs s lower inode.indirectBlock).bind fun s => some (false, inode, s) := by
  unfold inodeSetDouble
  simp only [bind_ite, Option.bind_assoc]
  rfl

/-- The single indirect part. -/
theorem Guard.Holds.inodeSetIndirect (holds : guard.Holds s) (allocates : guard.Allocates)
    (accepts : guard.Accepts inode) {index physicalBlock : Nat} (spare : guard.Spare physicalBlock)
    {done : Bool} (run : inodeSetIndirect s inode index physicalBlock = some (done, inode', s')) :
    guard.Holds s' ∧ inode.Repointed inode' ∧ (done = true → guard.Spare inode'.indirectBlock) ∧
      (done = false → ∃ taken, Nbtrfs.allocPage s = some (0, taken)) := by
  rw [inodeSetIndirect_eq, if_neg (fun wrong => spare.nonzero wrong.2.1), Option.bind_some] at run
  obtain ⟨⟨ready, inode1, s1⟩, new, run⟩ := Option.bind_eq_some_iff.mp run
  have first : guard.Holds s1 ∧ inode.Repointed inode1 ∧
      (ready = false → ∃ taken, Nbtrfs.allocPage s = some (0, taken)) := by
    split at new
    case isTrue =>
      obtain ⟨holds1, same, -, full⟩ := holds.newIndirectBlock allocates accepts new
      exact ⟨holds1, same, full⟩
    case isFalse =>
      obtain ⟨rfl, rest⟩ := Prod.mk.inj (Option.some.inj new)
      obtain ⟨rfl, rfl⟩ := Prod.mk.inj rest
      exact ⟨holds, Inode.Repointed.refl _, fun wrong => by cases wrong⟩
  obtain ⟨holds1, same, full⟩ := first
  cases ready with
  | false =>
    obtain ⟨rfl, rest⟩ := Prod.mk.inj (Option.some.inj run)
    obtain ⟨rfl, rfl⟩ := Prod.mk.inj rest
    exact ⟨holds1, same, fun wrong => (by cases wrong), full⟩
  | true =>
    obtain ⟨s2, link, run⟩ := Option.bind_eq_some_iff.mp run
    obtain ⟨rfl, rest⟩ := Prod.mk.inj (Option.some.inj run)
    obtain ⟨rfl, rfl⟩ := Prod.mk.inj rest
    obtain ⟨holds2, pointers⟩ := holds1.linkPointer spare link
    exact ⟨holds2, same, fun _ => pointers, fun wrong => by cases wrong⟩

/-- The double indirect part. -/
theorem Guard.Holds.inodeSetDouble (holds : guard.Holds s) (allocates : guard.Allocates)
    (accepts : guard.Accepts inode) (single : guard.Spare inode.indirectBlock)
    {index physicalBlock : Nat} (spare : guard.Spare physicalBlock) {done : Bool}
    (run : inodeSetDouble s inode index physicalBlock = some (done, inode', s')) :
    guard.Holds s' ∧ inode.Repointed inode' ∧ inode'.indirectBlock = inode.indirectBlock := by
  rw [inodeSetDouble_eq] at run
  obtain ⟨page, -, run⟩ := Option.bind_eq_some_iff.mp run
  obtain ⟨s1, free, run⟩ := Option.bind_eq_some_iff.mp run
  rw [freeDoublePages_eq, if_neg (fun wrong => spare.nonzero wrong.2)] at free
  obtain rfl := Option.some.inj free
  obtain ⟨⟨ready, inode1, s1⟩, new, run⟩ := Option.bind_eq_some_iff.mp run
  have first : guard.Holds s1 ∧ inode.Repointed inode1 ∧
      inode1.indirectBlock = inode.indirectBlock := by
    split at new
    case isTrue => exact holds.newDoubleIndirectBlock allocates accepts single new
    case isFalse =>
      obtain ⟨-, rest⟩ := Prod.mk.inj (Option.some.inj new)
      obtain ⟨rfl, rfl⟩ := Prod.mk.inj rest
      exact ⟨holds, Inode.Repointed.refl _, rfl⟩
  obtain ⟨holds1, same, kept⟩ := first
  cases ready with
  | false =>
    obtain ⟨-, rest⟩ := Prod.mk.inj (Option.some.inj run)
    obtain ⟨rfl, rfl⟩ := Prod.mk.inj rest
    exact ⟨holds1, same, kept⟩
  | true =>
    obtain ⟨entry, -, run⟩ := Option.bind_eq_some_iff.mp run
    obtain ⟨⟨lower, s2⟩, enter, run⟩ := Option.bind_eq_some_iff.mp run
    have holds2 : guard.Holds s2 := by
      split at enter
      case isFalse =>
        obtain ⟨-, rfl⟩ := Prod.mk.inj (Option.some.inj enter)
        exact holds1
      case isTrue =>
        obtain ⟨⟨fresh, s3⟩, alloc, enter⟩ := Option.bind_eq_some_iff.mp enter
        obtain ⟨holds3, new⟩ := holds1.allocPage allocates alloc
        obtain ⟨s4, write, enter⟩ := Option.bind_eq_some_iff.mp enter
        have holds4 := (holds3.writePointer write).1
        split at enter
        case isTrue =>
          obtain ⟨-, rfl⟩ := Prod.mk.inj (Option.some.inj enter)
          exact holds4
        case isFalse nonzero =>
          obtain ⟨s5, tag, enter⟩ := Option.bind_eq_some_iff.mp enter
          have holds5 := (holds4.tagData (new nonzero) tag).1
          obtain ⟨s6, flush, enter⟩ := Option.bind_eq_some_iff.mp enter
          obtain ⟨-, rfl⟩ := Prod.mk.inj (Option.some.inj enter)
          exact holds5.diskWriteAs flush
    dsimp only at run
    split at run
    case isTrue =>
      obtain ⟨-, rest⟩ := Prod.mk.inj (Option.some.inj run)
      obtain ⟨rfl, rfl⟩ := Prod.mk.inj rest
      exact ⟨holds2, same, kept⟩
    case isFalse =>
      obtain ⟨s3, write, run⟩ := Option.bind_eq_some_iff.mp run
      obtain ⟨holds3, -, bytes, tag⟩ := holds2.writePointer write
      obtain ⟨s4, copy, run⟩ := Option.bind_eq_some_iff.mp run
      have holds4 := holds3.writeAs spare (by rw [tag]; exact noTable_data bytes) copy
      obtain ⟨s5, flush, run⟩ := Option.bind_eq_some_iff.mp run
      obtain ⟨-, rest⟩ := Prod.mk.inj (Option.some.inj run)
      obtain ⟨rfl, rfl⟩ := Prod.mk.inj rest
      exact ⟨holds4.diskWriteAs flush, same, kept⟩

/-- `inode_set_block` of a spare block keeps the guard, if the single indirect block is spare in
the double indirect part. -/
theorem Guard.Holds.inodeSetBlock (holds : guard.Holds s) (allocates : guard.Allocates)
    (accepts : guard.Accepts inode) {index physicalBlock : Nat} (spare : guard.Spare physicalBlock)
    (single : pointersPerPage + directPointers < index → guard.Spare inode.indirectBlock)
    {done : Bool} (run : inodeSetBlock s inode index physicalBlock = some (done, inode', s')) :
    guard.Holds s' ∧ inode.Repointed inode' ∧
      (directPointers ≤ index → guard.Spare inode'.indirectBlock ∨
        ∃ taken, Nbtrfs.allocPage s = some (0, taken)) := by
  unfold Nbtrfs.inodeSetBlock at run
  split at run
  case isTrue direct =>
    obtain ⟨s1, store, run⟩ := Option.bind_eq_some_iff.mp run
    obtain ⟨-, rest⟩ := Prod.mk.inj (Option.some.inj run)
    obtain ⟨rfl, rfl⟩ := Prod.mk.inj rest
    have same : inode.Repointed (inode.withDirect index physicalBlock) := ⟨_, _, _, rfl⟩
    exact ⟨holds.inodeStore (accepts (inode.withDirect index physicalBlock) same) store, same,
      fun behind => by omega⟩
  case isFalse =>
    split at run
    case isTrue =>
      obtain ⟨holds', same, ready, full⟩ := holds.inodeSetIndirect allocates accepts spare run
      refine ⟨holds', same, fun _ => ?_⟩
      cases done with
      | true => exact Or.inl (ready rfl)
      | false => exact Or.inr (full rfl)
    case isFalse behind =>
      have single := single (by omega)
      obtain ⟨holds', same, kept⟩ := holds.inodeSetDouble allocates accepts single spare run
      refine ⟨holds', same, fun _ => Or.inl ?_⟩
      rw [kept]
      exact single

end

end Nbtrfs
