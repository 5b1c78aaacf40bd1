import Nbtrfs.Fuse.Model
import Nbtrfs.Mkfs.Layout

/-!
# Runs of calls

The stores that a formatted image comes to: it is mounted, which walks round the empty journal, and
the callbacks are called in any order.
-/

namespace Nbtrfs

/-- A call of a callback that changes files. -/
inductive Operation where
  /-- `nbtrfs_mknod`. -/
  | mknod (path : CString) (mode : Nat)
  /-- `nbtrfs_mkdir`. -/
  | mkdir (path : CString) (mode : Nat)
  /-- `nbtrfs_unlink`. -/
  | unlink (path : CString)
  /-- `nbtrfs_rmdir`. -/
  | rmdir (path : CString)
  /-- `nbtrfs_link`. -/
  | link (source target : CString)
  /-- `nbtrfs_rename`. -/
  | rename (source target : CString)
  /-- `nbtrfs_chmod`. -/
  | chmod (path : CString) (mode : Nat)
  /-- `nbtrfs_truncate`. -/
  | truncate (path : CString) (size : Nat)
  /-- `nbtrfs_write`. -/
  | write (path : CString) (buffer : List UInt8) (offset : Nat)

section

variable (locals : Locals) (host : Host)

/-- The store after a call. -/
def Operation.run (s : Store) : Operation → Option Store
  | .mknod path mode =>
    (nbtrfsMknod (appendEntry locals host) locals host s path mode).map Prod.snd
  | .mkdir path mode =>
    (nbtrfsMkdir (appendEntry locals host) locals host s path mode).map Prod.snd
  | .unlink path => nbtrfsUnlink (appendEntry locals host) s path
  | .rmdir path => nbtrfsRmdir (appendEntry locals host) s path
  | .link source target =>
    (nbtrfsLink (appendEntry locals host) locals s source target).map Prod.snd
  | .rename source target =>
    (nbtrfsRename (appendEntry locals host) locals s source target).map Prod.snd
  | .chmod path mode => (nbtrfsChmod (appendEntry locals host) s path mode).map Prod.snd
  | .truncate path size => nbtrfsTruncate (appendEntry locals host) s path size
  | .write path buffer offset =>
    (nbtrfsWrite (appendEntry locals host) locals host s path buffer offset).map Prod.snd

/-- The store after a list of calls. -/
def runOperations (s : Store) (operations : List Operation) : Option Store :=
  operations.foldlM (Operation.run locals host) s

/-- A formatted image when it is mounted. -/
def mountFormatted (totalBlocks : Nat) (residue : Residue) (volumeName : CString) :
    Option Store := do
  let (_, s) ← diskFormat host (zeroImage totalBlocks residue) volumeName
  mountJournal locals host (mounted s)

end

/-- The stores that a formatted image can come to. -/
inductive Reached : Store → Prop where
  /-- The formatted image, mounted. -/
  | formatted {locals : Locals} {host : Host} {totalBlocks : Nat} {residue : Residue}
      {volumeName : CString} {s : Store} : Formattable totalBlocks → volumeName.length ≤ 31 →
      mountFormatted locals host totalBlocks residue volumeName = some s → Reached s
  /-- One more call. -/
  | call {locals : Locals} {host : Host} {s s' : Store} (operation : Operation) : Reached s →
      operation.run locals host s = some s' → Reached s'

/-- Calls on a store that can be reached. -/
theorem Reached.run {locals : Locals} {host : Host} {s s' : Store} (reached : Reached s)
    {operations : List Operation} (run : runOperations locals host s operations = some s') :
    Reached s' := by
  induction operations generalizing s with
  | nil =>
    obtain rfl := Option.some.inj run
    exact reached
  | cons operation operations ih =>
    unfold runOperations at run
    rw [List.foldlM_cons] at run
    cases first : operation.run locals host s with
    | none =>
      rw [first] at run
      cases run
    | some middle =>
      rw [first] at run
      exact ih (reached.call operation first) run

deriving instance DecidableEq for Transaction

/-- Locals that hold zeros. -/
def zeroLocals : Locals := ⟨fun _ => false, fun _ => 0, fun _ _ => 0⟩

/-- A host at time 0. -/
def zeroHost : Host := ⟨1000, 1000, 0⟩

/-- Former content that reads as zeros. -/
def zeroResidue : Residue := ⟨fun _ => 0, fun _ _ => 0⟩

/-- The store after calls on an image of zeros that was formatted and mounted. -/
def runFormatted (totalBlocks : Nat) (operations : List Operation) : Option Store := do
  let s ← mountFormatted zeroLocals zeroHost totalBlocks zeroResidue []
  runOperations zeroLocals zeroHost s operations

/-- It can be reached. -/
theorem runFormatted_reached {totalBlocks : Nat} {operations : List Operation} {s : Store}
    (formattable : Formattable totalBlocks) (run : runFormatted totalBlocks operations = some s) :
    Reached s := by
  unfold runFormatted at run
  cases mount : mountFormatted zeroLocals zeroHost totalBlocks zeroResidue [] with
  | none =>
    rw [mount] at run
    cases run
  | some start =>
    rw [mount] at run
    exact (Reached.formatted formattable (by decide) mount).run run

end Nbtrfs
