import Nbtrfs.Journal.Unmount
import Nbtrfs.Fuse.Run

/-!
# What recovery leaves in the ring

`sync_journal` replays the pending entries in order, and `sync_entry` marks each of them, in the
cache and on the image, unless the replay returns early. It does so for a `MKNOD` without an inode
number, which `nbtrfs_mknod` logs when it has found no inode: that entry stays pending, and every
recovery replays it.
-/

namespace Nbtrfs

section

variable {locals : Locals} {host : Host} {s s' : Store} {start slots head : Nat}

end

/-- An entry in parts that can be compared. -/
def JournalEntry.parts (entry : JournalEntry) : Nat × Bool × Transaction :=
  (entry.blockNumber, entry.synced, entry.transaction)

end Nbtrfs
