import Nbtrfs.Fuse.Mounted
import Nbtrfs.Fuse.ReadBack
import Nbtrfs.Fuse.Run

/-!
# Sessions through the cache

Any number of calls that log nothing, one after another, on a new cache over an image. They return
what they return on the block store, and the blocks that they leave are on the image after the next
sync. The cache has more slots than there are blocks in the inode table, and one more: then it always
finds a slot to evict, although `nbtrfs_utimens` and `nbtrfs_write` keep pins on these blocks for good.
-/

namespace Nbtrfs

section

variable {slots cost : Nat} {tables : List Nat} {s s' : Store} {append : Append} {locals : Locals}
  {host : Host} {allocating : Cached.Allocating}

/-- `nbtrfs_write` of an inode that was read, over blocks that the file has. -/
theorem Does.writeInode (fits : tables.length + 1 < slots) (nonempty : 0 < s.totalBlocks)
    {node : Inode} {pinned offset : Nat} {buffer : List UInt8} {count : Int} {mid : Store}
    (mapped : overwriteLoop node (buffer.length + 1) buffer offset s = some mid)
    (run : writeInode append locals s node buffer offset = some (count, s')) :
    Does slots tables s (Cached.writeInode s.residue allocating pinned node buffer offset)
      (pagesTouched offset buffer.length + 2) count s' := by
  rw [Nbtrfs.writeInode, writeLoop_overwrite mapped, Option.bind_eq_bind, Option.bind_some] at run
  have loop := @Does.writeLoop slots tables s mid fits allocating node _ pinned offset 0 buffer mapped
  refine loop.bind ?_
  dsimp only at run ⊢
  split at run
  case isTrue grows =>
    rw [if_pos grows]
    obtain ⟨stored, store, run⟩ := Option.bind_eq_some_iff.mp run
    obtain ⟨rfl, rfl⟩ := Prod.mk.inj (Option.some.inj run)
    obtain ⟨⟨written, same⟩, write, rfl⟩ := Option.map_eq_some_iff.mp store
    have positive : 0 < mid.totalBlocks := by
      rw [loop.total]
      exact nonempty
    exact (Does.inodeWrite fits positive write).before (.pure _)
  case isFalse inside =>
    obtain ⟨rfl, rfl⟩ := Prod.mk.inj (Option.some.inj run)
    rw [if_neg inside]
    exact (Does.pure _).mono (Nat.zero_le 2)

/-- A call of `nbtrfs_write` that allocates nothing: its path leads to a file that has the blocks, or to
a directory. -/
def WritesInPlace (s : Store) (path : CString) (buffer : List UInt8) (offset : Nat) : Prop :=
  ∃ pair, itemSearch s path = some pair ∧ pair.found = true ∧
    ∀ node, inodeRead s pair.inodeNumber = some (some node) → pair.btreeBlock = 0 →
      ∃ mid, overwriteLoop node (buffer.length + 1) buffer offset s = some mid

/-- `nbtrfs_write` over blocks that the file has. -/
theorem Does.nbtrfsWrite (fits : tables.length + 1 < slots) (nonempty : 0 < s.totalBlocks)
    {path : CString} {offset : Nat} {buffer : List UInt8} {count : Int}
    (inPlace : WritesInPlace s path buffer offset)
    (run : nbtrfsWrite append locals host s path buffer offset = some (count, s')) :
    Does slots tables s (Cached.nbtrfsWrite s.residue allocating s.walkFuel path buffer offset)
      (pagesTouched offset buffer.length + 2) count s' := by
  obtain ⟨pair, search, found, mapped⟩ := inPlace
  have leads : pair.inodeNumber ≠ 0 ∨ pair.btreeBlock ≠ 0 := by
    rw [InodeBtreePair.found, Bool.or_eq_true, decide_eq_true_iff, decide_eq_true_iff] at found
    exact found
  rw [Nbtrfs.nbtrfsWrite, search, Option.bind_eq_bind, Option.bind_some, if_pos leads] at run
  refine (Does.itemSearch fits nonempty search).after ?_
  rw [if_pos leads]
  split at run
  case isTrue directory =>
    obtain ⟨rfl, rfl⟩ := Prod.mk.inj (Option.some.inj run)
    rw [if_pos directory]
    exact (Does.pure _).mono (Nat.zero_le _)
  case isFalse file =>
    rw [if_neg file]
    obtain ⟨node, read, run⟩ := Option.bind_eq_some_iff.mp run
    refine (Does.inodeRead fits nonempty read).after ?_
    cases node with
    | none =>
      obtain ⟨rfl, rfl⟩ := Prod.mk.inj (Option.some.inj run)
      exact (Does.pure _).mono (Nat.zero_le _)
    | some node =>
      obtain ⟨mid, loop⟩ := mapped node read (not_not.mp file)
      exact .writeInode fits nonempty loop run

end

/-- A call of a callback that logs nothing. -/
inductive Request where
  /-- `nbtrfs_access`. -/
  | access (path : CString)
  /-- `nbtrfs_getattr`. -/
  | getattr (path : CString)
  /-- `nbtrfs_read`. -/
  | read (path : CString) (size offset : Nat)
  /-- `nbtrfs_utimens`. -/
  | utimens (path : CString) (accessed modified : Cached.Timespec)
  /-- `nbtrfs_write`. -/
  | write (path : CString) (buffer : List UInt8) (offset : Nat)

/-- What a call returns. -/
inductive Reply where
  /-- Whether it is 0. -/
  | status (success : Bool)
  /-- Attributes, if there are any. -/
  | attributes (stat : Option Stat)
  /-- A number, with the bytes that were read. -/
  | content (count : Int) (bytes : List UInt8)
deriving DecidableEq

section

variable (append : Append) (locals : Locals) (host : Host)

/-- A call on the block store. -/
def Request.perform (s : Store) : Request → Option (Reply × Store)
  | .access path => do
    let found ← nbtrfsAccess s path
    some (.status found, s)
  | .getattr path => do
    let stat ← nbtrfsGetattr s path
    some (.attributes stat, s)
  | .read path size offset => do
    let (count, bytes) ← nbtrfsRead s path size offset
    some (.content count bytes, s)
  | .utimens path accessed modified => do
    let (done, s) ← nbtrfsUtimens s path accessed modified
    some (.status done, s)
  | .write path buffer offset => do
    let (count, s) ← nbtrfsWrite append locals host s path buffer offset
    some (.content count [], s)

/-- Calls one after another. -/
def performAll : Store → List Request → Option (List Reply × Store)
  | s, [] => some ([], s)
  | s, request :: requests => do
    let (reply, s) ← request.perform append locals host s
    let (replies, s) ← performAll s requests
    some (reply :: replies, s)

/-- A call allocates nothing. -/
def Request.InPlace (s : Store) : Request → Prop
  | .write path buffer offset => WritesInPlace s path buffer offset
  | .access _ | .getattr _ | .read _ _ _ | .utimens _ _ _ => True

/-- No call of a session allocates. -/
def AllInPlace : Store → List Request → Prop
  | _, [] => True
  | s, request :: requests =>
    request.InPlace s ∧
      ∀ reply s', request.perform append locals host s = some (reply, s') → AllInPlace s' requests

end

/-- A bound on the pins and the calls of `write_block` of a call: one for each page that is written, and
two for the inode. -/
def Request.cost : Request → Nat
  | .write _ buffer offset => pagesTouched offset buffer.length + 2
  | .utimens _ _ _ => 2
  | .access _ | .getattr _ | .read _ _ _ => 0

namespace Cached

variable (residue : Residue) (allocating : Allocating) (depth : Nat)

/-- A call through the cache. -/
def request : Request → CacheProgram Block Reply
  | .access path => do
    let found ← nbtrfsAccess depth path
    pure (.status found)
  | .getattr path => do
    let stat ← nbtrfsGetattr depth path
    pure (.attributes stat)
  | .read path size offset => do
    let (count, bytes) ← nbtrfsRead residue depth path size offset
    pure (.content count bytes)
  | .utimens path accessed modified => do
    let done ← nbtrfsUtimens depth path accessed modified
    pure (.status done)
  | .write path buffer offset => do
    let count ← nbtrfsWrite residue allocating depth path buffer offset
    pure (.content count [])

/-- Calls one after another. -/
def session : List Request → CacheProgram Block (List Reply)
  | [] => pure []
  | first :: requests => do
    let reply ← request residue allocating depth first
    let replies ← session requests
    pure (reply :: replies)

end Cached

section

variable {slots : Nat} {tables : List Nat} {s s' : Store} {append : Append} {locals : Locals}
  {host : Host} {allocating : Cached.Allocating}

/-- A call through the cache does what it does on the block store. -/
theorem Does.request (fits : tables.length + 1 < slots) (nonempty : 0 < s.totalBlocks)
    {request : Request} {reply : Reply} (inPlace : request.InPlace s)
    (run : request.perform append locals host s = some (reply, s')) :
    Does slots tables s (Cached.request s.residue allocating s.walkFuel request) request.cost reply
      s' := by
  cases request with
  | access path =>
    obtain ⟨found, access, run⟩ := Option.bind_eq_some_iff.mp run
    obtain ⟨rfl, rfl⟩ := Prod.mk.inj (Option.some.inj run)
    exact (Does.nbtrfsAccess fits nonempty access).after (.pure _)
  | getattr path =>
    obtain ⟨stat, getattr, run⟩ := Option.bind_eq_some_iff.mp run
    obtain ⟨rfl, rfl⟩ := Prod.mk.inj (Option.some.inj run)
    exact (Does.nbtrfsGetattr fits nonempty getattr).after (.pure _)
  | read path size offset =>
    obtain ⟨⟨count, bytes⟩, read, run⟩ := Option.bind_eq_some_iff.mp run
    obtain ⟨rfl, rfl⟩ := Prod.mk.inj (Option.some.inj run)
    exact (Does.nbtrfsRead fits nonempty read).after (.pure _)
  | utimens path accessed modified =>
    obtain ⟨⟨done, s1⟩, set, run⟩ := Option.bind_eq_some_iff.mp run
    obtain ⟨rfl, rfl⟩ := Prod.mk.inj (Option.some.inj run)
    exact (Does.nbtrfsUtimens fits nonempty set).before (.pure _)
  | write path buffer offset =>
    obtain ⟨⟨count, s1⟩, write, run⟩ := Option.bind_eq_some_iff.mp run
    obtain ⟨rfl, rfl⟩ := Prod.mk.inj (Option.some.inj run)
    exact (Does.nbtrfsWrite fits nonempty inPlace write).before (.pure _)

/-- A session through the cache does what it does on the block store. -/
theorem Does.session (fits : tables.length + 1 < slots) (nonempty : 0 < s.totalBlocks)
    {requests : List Request} {replies : List Reply}
    (inPlace : AllInPlace append locals host s requests)
    (run : performAll append locals host s requests = some (replies, s')) :
    Does slots tables s (Cached.session s.residue allocating s.walkFuel requests)
      (requests.map Request.cost).sum replies s' := by
  induction requests generalizing s replies with
  | nil =>
    obtain ⟨rfl, rfl⟩ := Prod.mk.inj (Option.some.inj run)
    exact .pure []
  | cons request requests ih =>
    obtain ⟨⟨reply, next⟩, perform, run⟩ := Option.bind_eq_some_iff.mp run
    obtain ⟨⟨rest, last⟩, later, run⟩ := Option.bind_eq_some_iff.mp run
    obtain ⟨rfl, rfl⟩ := Prod.mk.inj (Option.some.inj run)
    have first := @Does.request slots tables s next append locals host allocating fits nonempty request
      reply inPlace.1 perform
    have positive : 0 < next.totalBlocks := by
      rw [first.total]
      exact nonempty
    have others := ih positive (inPlace.2 reply next perform) later
    have fuel : next.walkFuel = s.walkFuel := congrArg (· + 1) first.total
    rw [first.residue, fuel] at others
    rw [List.map_cons, List.sum_cons]
    exact first.bind (others.before (.pure _))

end

/-- A session of calls that log and allocate nothing, through a new cache over the image: the calls
return what they return on the block store, and after a sync the image has the blocks that the store
has then. -/
theorem session_served (tags : PageTags Block) (append : Append) (locals : Locals) (host : Host)
    (allocating : Cached.Allocating) {s s' : Store} (nonempty : 0 < s.totalBlocks)
    (addressed : s.totalBlocks ≤ addressable) {tables : List Nat}
    (covers : ∀ block slots, s.mem block = .inode slots → block ∈ tables) {cacheSize : Nat}
    (fits : tables.length + 1 < cacheSize) (size : cacheSize ≤ intMax)
    (uninitialised : Nat → CacheEntry Block) {requests : List Request} {replies : List Reply}
    (inPlace : AllInPlace append locals host s requests)
    (few : 2 * (requests.map Request.cost).sum ≤ intMax)
    (run : performAll append locals host s requests = some (replies, s')) :
    ∃ after synced,
      (Cached.session s.residue allocating s.walkFuel requests).run tags
        ⟨allocCache cacheSize uninitialised, ⟨s.totalBlocks, s.mem⟩⟩ = some (replies, after) ∧
      cacheSync tags after = some synced ∧
      (∀ block, synced.image.block block = s'.mem block) ∧
      ∀ slot < synced.cache.cacheSize, (synced.cache.entries slot).dirtyBit = false := by
  have ready : Ready tables ((requests.map Request.cost).sum + 0) s
      (Image.array ⟨s.totalBlocks, s.mem⟩) := by
    constructor
    · rfl
    · exact covers
    · intro block member
      cases member
    · show 0 + ((requests.map Request.cost).sum + 0) ≤ intMax
      omega
    · show 2 * (0 + ((requests.map Request.cost).sum + 0)) ≤ intMax
      omega
  obtain ⟨array, plain, ready'⟩ := (Does.session fits nonempty inPlace run).runs ready
  have serves := allocCache_serves ⟨s.totalBlocks, s.mem⟩ size uninitialised addressed
    (show 0 < cacheSize by omega)
  obtain ⟨after, ran, serves', -⟩ := @CacheProgram.Plain.run _ _ tags _ _ _ _ _ _ _ plain serves rfl
  obtain ⟨synced, sync, -, written, clean⟩ := @Serves.synced _ tags _ _ _ serves'
  refine ⟨after, synced, ran, sync, fun block => ?_, clean⟩
  rw [written, ready'.blocks]

/-- Three bytes of `/a` are replaced, its times are set and its first five bytes are read. -/
def editSession : List Request :=
  [.write [slash, 97] [1, 2, 3] 1, .utimens [slash, 97] ⟨0, 5⟩ ⟨0, 7⟩, .read [slash, 97] 5 0]

/-- Through three slots, with the table of inodes in block 3. -/
theorem session_served_three_slots :
    ∃ after synced,
      (Cached.session pageFileImage.residue ⟨fun _ => .undefined, fun _ _ => .undefined⟩
          pageFileImage.walkFuel editSession).run (blockTags fun _ => false)
        ⟨allocCache 3 fun _ => ⟨false, 0, 0, 0, none, none, none⟩,
          ⟨pageFileImage.totalBlocks, pageFileImage.mem⟩⟩ =
        some ([.content 3 [], .status true, .content 5 [0, 1, 2, 3, 0]], after) ∧
      cacheSync (blockTags fun _ => false) after = some synced := by
  have covers : ∀ block slots, pageFileImage.mem block = .inode slots → block ∈ [3] := by
    intro block slots tag
    by_contra outside
    have table : block ≠ 3 := fun same => outside (List.mem_singleton.mpr same)
    unfold pageFileImage Store.put smallImage at tag
    dsimp only at tag
    rw [if_neg table] at tag
    split_ifs at tag
  have inPlace : AllInPlace (fun _ _ => none) zeroLocals zeroHost pageFileImage editSession := by
    refine ⟨⟨⟨1, 0⟩, by decide +kernel, rfl, fun node read _ => ?_⟩, fun _ _ _ => ⟨True.intro,
      fun _ _ _ => ⟨True.intro, fun _ _ _ => True.intro⟩⟩⟩
    obtain rfl : pageFile = node := Option.some.inj (Option.some.inj read)
    exact Option.isSome_iff_exists.mp (by decide +kernel)
  have computed : (performAll (fun _ _ => none) zeroLocals zeroHost pageFileImage editSession).map
      Prod.fst = some [.content 3 [], .status true, .content 5 [0, 1, 2, 3, 0]] := by decide +kernel
  obtain ⟨⟨replies, s'⟩, run, rfl⟩ := Option.map_eq_some_iff.mp computed
  obtain ⟨after, synced, ran, sync, -⟩ := session_served (blockTags fun _ => false)
    (fun _ _ => none) zeroLocals zeroHost ⟨fun _ => .undefined, fun _ _ => .undefined⟩ (by decide)
    (by decide) covers (show [3].length + 1 < 3 by decide) (by decide)
    (fun _ => ⟨false, 0, 0, 0, none, none, none⟩) inPlace (by decide) run
  exact ⟨after, synced, ran, sync⟩

end Nbtrfs
