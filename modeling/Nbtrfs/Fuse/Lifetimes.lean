import Nbtrfs.Directory.Extended
import Nbtrfs.Fuse.Destroy
import Nbtrfs.Fuse.Served

/-!
# Mounts one after another

From `alloc_cache` to `free_cache` and again: each mount begins with a new cache over the image that the
last one left, goes round the journal, answers calls that log nothing, and goes round the journal again
before it syncs the cache. Going round a ring with nothing to do moves its head back to where it was, so
the calls of all mounts return what they return on one block store, and its blocks are on the image at
the end.
-/

namespace Nbtrfs

/-- What a mount is given: its cache, and the calls until the unmount. -/
structure Mount where
  /-- `cache_size`. -/
  cacheSize : Nat
  /-- The slots that `malloc` returns. -/
  uninitialised : Nat → CacheEntry Block
  /-- The calls. -/
  requests : List Request

namespace Cached

section

variable (tags : PageTags Block) (replay : Nat → JournalEntry → CacheProgram Block Unit)
  (residue : Residue) (allocating : Allocating)

/-- `main` with the calls between `nbtrfs_init` and `nbtrfs_destroy`: what they return, and the image at
the end. -/
def mount (image : Image Block) (mount : Mount) : Option (List Reply × Image Block) := do
  let (_, machine) ← (syncJournal replay).run tags
    ⟨allocCache mount.cacheSize mount.uninitialised, image⟩
  let (replies, machine) ←
    (session residue allocating (image.totalBlocks + 1) mount.requests).run tags machine
  let unmounted ← nbtrfsDestroy tags machine
  some (replies, unmounted.image)

/-- Mounts of an image one after another. -/
def mounts : Image Block → List Mount → Option (List (List Reply) × Image Block)
  | image, [] => some ([], image)
  | image, first :: others => do
    let (replies, image) ← mount tags replay residue allocating image first
    let (rest, image) ← mounts image others
    some (replies :: rest, image)

end

end Cached

/-- A journal in which nothing is to be replayed or marked. -/
structure RingIdle (start slots head : Nat) (s : Store) : Prop where
  /-- The superblock knows the ring. -/
  superblock : ∃ superblock, s.mem 0 = .super superblock ∧ superblock.HeadAt start slots head
  /-- The head is a slot. -/
  head_lt : head < slots
  /-- Block 0 is no journal block. -/
  apart : 0 < start
  /-- The ring is in the image. -/
  inside : start + slots ≤ s.totalBlocks
  /-- No entry is pending. -/
  slot : ∀ slot < slots, ∃ entry, s.mem (start + slot) = .journal entry ∧ entry.pending = false

/-- A page that a call may change which logs nothing. -/
def Block.isPayload : Block → Bool
  | .inode _ | .data _ | .untagged _ => true
  | .super _ | .bitmap _ | .btreeNode _ | .journal _ => false

/-- Only pages of files and of the inode table change. -/
structure PayloadOnly (s s' : Store) : Prop where
  /-- The image keeps its size. -/
  total : s'.totalBlocks = s.totalBlocks
  /-- Other pages are kept. -/
  kept : ∀ block, (s.mem block).isPayload = false → s'.mem block = s.mem block

section

variable {s s' s'' : Store} {start slots head : Nat}

/-- Nothing changes. -/
theorem PayloadOnly.refl (s : Store) : PayloadOnly s s := ⟨rfl, fun _ _ => rfl⟩

/-- Two changes. -/
theorem PayloadOnly.trans (first : PayloadOnly s s') (second : PayloadOnly s' s'') :
    PayloadOnly s s'' where
  total := second.total.trans first.total
  kept block other := by
    have same := first.kept block other
    rw [second.kept block (by rw [same]; exact other), same]

/-- A page of a file or of the inode table is replaced. -/
theorem payloadOnly_put {block : Nat} (content : (s.mem block).isPayload = true) (page : Block) :
    PayloadOnly s (s.put block page) where
  total := rfl
  kept other kept := by
    apply Store.put_other
    rintro rfl
    rw [content] at kept
    cases kept

/-- An idle ring stays idle. -/
theorem RingIdle.keeps (ring : RingIdle start slots head s) (only : PayloadOnly s s') :
    RingIdle start slots head s' := by
  obtain ⟨superblock, page, here⟩ := ring.superblock
  constructor
  · refine ⟨superblock, ?_, here⟩
    rw [only.kept 0 (by rw [page]; rfl), page]
  · exact ring.head_lt
  · exact ring.apart
  · rw [only.total]
    exact ring.inside
  · intro slot small
    obtain ⟨entry, page, idle⟩ := ring.slot slot small
    refine ⟨entry, ?_, idle⟩
    rw [only.kept _ (by rw [page]; rfl), page]

/-- `inode_write` replaces a page of the inode table. -/
theorem inodeWrite_content {inode : Inode} {done : Bool}
    (run : inodeWrite s inode false = some (done, s')) : PayloadOnly s s' := by
  unfold inodeWrite at run
  obtain ⟨superblock, -, run⟩ := Option.bind_eq_some_iff.mp run
  obtain ⟨content, get, run⟩ := Option.bind_eq_some_iff.mp run
  obtain ⟨-, tag⟩ := Store.get_eq_some get
  cases content with
  | inode slots =>
    obtain ⟨-, rfl⟩ := Prod.mk.inj (Option.some.inj run)
    exact payloadOnly_put (by rw [tag]; rfl) _
  | super | bitmap | btreeNode | journal | data | untagged =>
    obtain ⟨-, rfl⟩ := Prod.mk.inj (Option.some.inj run)
    exact .refl s

/-- Writing behind the tag of a page replaces a page of a file. -/
theorem writePayload_content {pnum offset : Nat} {piece : List UInt8}
    (run : writePayload s pnum offset piece = some s') : PayloadOnly s s' := by
  obtain ⟨page, get, run⟩ := Option.bind_eq_some_iff.mp run
  obtain ⟨-, tag⟩ := Store.get_eq_some get
  cases page with
  | data bytes =>
    obtain rfl := Option.some.inj run
    exact payloadOnly_put (by rw [tag]; rfl) _
  | untagged bytes =>
    obtain rfl := Option.some.inj run
    exact payloadOnly_put (by rw [tag]; rfl) _
  | super | bitmap | inode | btreeNode | journal => cases run

/-- So does writing over blocks that a file has. -/
theorem overwriteLoop_content {node : Inode} {fuel offset : Nat} {buffer : List UInt8}
    (run : overwriteLoop node fuel buffer offset s = some s') : PayloadOnly s s' := by
  induction fuel generalizing s buffer offset with
  | zero => cases run
  | succ fuel ih =>
    rw [overwriteLoop] at run
    split at run
    case isTrue ended =>
      obtain rfl := Option.some.inj run
      exact .refl s
    case isFalse further =>
      obtain ⟨⟨success, mapped⟩, -, run⟩ := Option.bind_eq_some_iff.mp run
      dsimp only at run
      split at run
      case isTrue => cases run
      case isFalse filled =>
        obtain ⟨next, write, run⟩ := Option.bind_eq_some_iff.mp run
        exact (writePayload_content write).trans (ih run)

variable {append : Append} {locals : Locals} {host : Host}

/-- `nbtrfs_write` over blocks that the file has replaces pages of files and of the inode table. -/
theorem writeInode_content {node : Inode} {buffer : List UInt8} {offset : Nat} {count : Int}
    {mid : Store} (mapped : overwriteLoop node (buffer.length + 1) buffer offset s = some mid)
    (run : writeInode append locals s node buffer offset = some (count, s')) : PayloadOnly s s' := by
  rw [writeInode, writeLoop_overwrite mapped, Option.bind_eq_bind, Option.bind_some] at run
  have loop := overwriteLoop_content mapped
  dsimp only at run
  split at run
  case isTrue grows =>
    obtain ⟨stored, store, run⟩ := Option.bind_eq_some_iff.mp run
    obtain ⟨rfl, rfl⟩ := Prod.mk.inj (Option.some.inj run)
    obtain ⟨⟨written, same⟩, write, rfl⟩ := Option.map_eq_some_iff.mp store
    exact loop.trans (inodeWrite_content write)
  case isFalse inside =>
    obtain ⟨rfl, rfl⟩ := Prod.mk.inj (Option.some.inj run)
    exact loop

/-- A call that allocates nothing replaces pages of files and of the inode table. -/
theorem Request.perform_content {request : Request} {reply : Reply} (inPlace : request.InPlace s)
    (run : request.perform append locals host s = some (reply, s')) : PayloadOnly s s' := by
  cases request with
  | access path =>
    obtain ⟨found, -, run⟩ := Option.bind_eq_some_iff.mp run
    obtain ⟨-, rfl⟩ := Prod.mk.inj (Option.some.inj run)
    exact .refl s
  | getattr path =>
    obtain ⟨stat, -, run⟩ := Option.bind_eq_some_iff.mp run
    obtain ⟨-, rfl⟩ := Prod.mk.inj (Option.some.inj run)
    exact .refl s
  | read path size offset =>
    obtain ⟨⟨count, bytes⟩, -, run⟩ := Option.bind_eq_some_iff.mp run
    obtain ⟨-, rfl⟩ := Prod.mk.inj (Option.some.inj run)
    exact .refl s
  | utimens path accessed modified =>
    obtain ⟨⟨done, s1⟩, set, run⟩ := Option.bind_eq_some_iff.mp run
    obtain ⟨-, rfl⟩ := Prod.mk.inj (Option.some.inj run)
    unfold nbtrfsUtimens at set
    obtain ⟨pair, -, set⟩ := Option.bind_eq_some_iff.mp set
    obtain ⟨found, -, set⟩ := Option.bind_eq_some_iff.mp set
    cases found with
    | none =>
      obtain ⟨-, rfl⟩ := Prod.mk.inj (Option.some.inj set)
      exact .refl s
    | some node => exact inodeWrite_content set
  | write path buffer offset =>
    obtain ⟨⟨count, s1⟩, write, run⟩ := Option.bind_eq_some_iff.mp run
    obtain ⟨-, rfl⟩ := Prod.mk.inj (Option.some.inj run)
    obtain ⟨pair, search, found, mapped⟩ := inPlace
    have leads : pair.inodeNumber ≠ 0 ∨ pair.btreeBlock ≠ 0 := by
      rw [InodeBtreePair.found, Bool.or_eq_true, decide_eq_true_iff, decide_eq_true_iff] at found
      exact found
    rw [Nbtrfs.nbtrfsWrite, search, Option.bind_eq_bind, Option.bind_some, if_pos leads] at write
    split at write
    case isTrue directory =>
      obtain ⟨-, rfl⟩ := Prod.mk.inj (Option.some.inj write)
      exact .refl s
    case isFalse file =>
      obtain ⟨node, read, write⟩ := Option.bind_eq_some_iff.mp write
      cases node with
      | none =>
        obtain ⟨-, rfl⟩ := Prod.mk.inj (Option.some.inj write)
        exact .refl s
      | some node =>
        obtain ⟨mid, loop⟩ := mapped node read (not_not.mp file)
        exact writeInode_content loop write

/-- So does a session. -/
theorem performAll_content {requests : List Request} {replies : List Reply}
    (inPlace : AllInPlace append locals host s requests)
    (run : performAll append locals host s requests = some (replies, s')) : PayloadOnly s s' := by
  induction requests generalizing s replies with
  | nil =>
    obtain ⟨-, rfl⟩ := Prod.mk.inj (Option.some.inj run)
    exact .refl s
  | cons request requests ih =>
    obtain ⟨⟨reply, next⟩, perform, run⟩ := Option.bind_eq_some_iff.mp run
    obtain ⟨⟨rest, last⟩, later, run⟩ := Option.bind_eq_some_iff.mp run
    obtain ⟨-, rfl⟩ := Prod.mk.inj (Option.some.inj run)
    exact (Request.perform_content inPlace.1 perform).trans
      (ih (inPlace.2 reply next perform) later)

/-- A session of two parts. -/
theorem performAll_append {first second : List Request} {replies : List Reply}
    (run : performAll append locals host s (first ++ second) = some (replies, s')) :
    ∃ before mid after, performAll append locals host s first = some (before, mid) ∧
      performAll append locals host mid second = some (after, s') ∧ replies = before ++ after := by
  induction first generalizing s replies with
  | nil => exact ⟨[], s, replies, rfl, run, rfl⟩
  | cons request first ih =>
    obtain ⟨⟨reply, next⟩, perform, run⟩ := Option.bind_eq_some_iff.mp run
    obtain ⟨⟨rest, last⟩, later, run⟩ := Option.bind_eq_some_iff.mp run
    obtain ⟨rfl, rfl⟩ := Prod.mk.inj (Option.some.inj run)
    obtain ⟨before, mid, after, front, back, rfl⟩ := ih later
    refine ⟨reply :: before, mid, after, ?_, back, rfl⟩
    rw [performAll, perform, Option.bind_eq_bind, Option.bind_some]
    dsimp only
    rw [front]
    rfl

/-- No call of a part of a session allocates. -/
theorem AllInPlace.split {first second : List Request}
    (inPlace : AllInPlace append locals host s (first ++ second)) :
    AllInPlace append locals host s first ∧ ∀ replies mid,
      performAll append locals host s first = some (replies, mid) →
        AllInPlace append locals host mid second := by
  induction first generalizing s with
  | nil =>
    refine ⟨True.intro, fun replies mid run => ?_⟩
    obtain ⟨-, rfl⟩ := Prod.mk.inj (Option.some.inj run)
    exact inPlace
  | cons request first ih =>
    refine ⟨⟨inPlace.1, fun reply next perform => (ih (inPlace.2 reply next perform)).1⟩,
      fun replies mid run => ?_⟩
    obtain ⟨⟨reply, next⟩, perform, run⟩ := Option.bind_eq_some_iff.mp run
    obtain ⟨⟨rest, last⟩, later, run⟩ := Option.bind_eq_some_iff.mp run
    obtain ⟨-, rfl⟩ := Prod.mk.inj (Option.some.inj run)
    exact (ih (inPlace.2 reply next perform)).2 rest last later

end

/-- The head moves on round its ring. -/
theorem Superblock.HeadAt.iterate {superblock : Superblock} {start slots head : Nat}
    (here : superblock.HeadAt start slots head) (small : head < slots) (count : Nat) :
    Superblock.advanceHead^[count] superblock =
      { superblock with journalHead := (head + count) % slots } := by
  induction count with
  | zero =>
    rw [Function.iterate_zero, id, Nat.add_zero, Nat.mod_eq_of_lt small, ← here.head]
  | succ count ih =>
    rw [Function.iterate_succ_apply', ih, Superblock.advanceHead]
    congr 1
    show (if (head + count) % slots + 2 = calculateJournalSize superblock then 0
      else (head + count) % slots + 1) = (head + (count + 1)) % slots
    have inside := Nat.mod_lt (head + count) (show slots > 0 by omega)
    rw [here.size, ← Nat.add_assoc, ← Nat.mod_add_mod (head + count)]
    by_cases ends : (head + count) % slots + 1 = slots
    · rw [if_pos (by omega), ends, Nat.mod_self]
    · rw [if_neg (by omega), Nat.mod_eq_of_lt (show (head + count) % slots + 1 < slots by omega)]

section

variable {slots start size head budget : Nat} {tables : List Nat} {s : Store}
  {array : BlockArray Block} {superblock : Superblock}

/-- A page that is replaced twice. -/
theorem Store.put_put (s : Store) (pnum : Nat) (first second : Block) :
    (s.put pnum first).put pnum second = s.put pnum second := by
  unfold Store.put
  congr 1
  funext other
  by_cases same : other = pnum
  · rw [if_pos same, if_pos same]
  · rw [if_neg same, if_neg same]
    exact if_neg same

/-- `decrease_pin_count`. -/
theorem Ready.unpin (ready : Ready tables budget s array) (inum pnum : Nat) :
    Ready tables budget s (array.after (.unpin inum pnum)) where
  blocks := ready.blocks
  covers := ready.covers
  held block member := ready.held block (List.mem_of_mem_erase member)
  pins := by
    have pins := ready.pins
    have fewer : (array.held.erase pnum).length ≤ array.held.length := List.length_erase_le
    show (array.held.erase pnum).length + budget ≤ intMax
    omega
  writes := ready.writes

/-- `superblock_write` to the image. -/
theorem Does.superblockWrite (fits : tables.length + 1 < slots) (nonempty : 0 < s.totalBlocks)
    {former : Superblock} (page : s.mem 0 = .super former) :
    Does slots tables s (Cached.superblockWrite superblock true) 0 ()
      (s.put 0 (.super superblock)) := by
  refine (Does.get fits (Store.get_of_lt nonempty) 0).after ?_
  rw [page]
  refine ⟨rfl, rfl, fun {array budget} ready => ?_⟩
  rw [Nat.zero_add] at ready
  have written := (@Ready.put _ _ _ _ ready 0 (.super superblock) fun _ => nofun).unpin 0 0
  exact ⟨_, .through nonempty (.call nonempty (written.allows fits) .done), written⟩

/-- Going round an idle ring moves the head on. -/
theorem Does.walkJournalFrom (fits : tables.length + 1 < slots)
    (visit : Nat → JournalEntry → CacheProgram Block Unit) (left : Nat)
    (page : s.mem 0 = .super superblock) (here : superblock.HeadAt start size head)
    (ring : RingIdle start size head s) :
    Does slots tables s (Cached.walkJournalFrom visit left superblock) 0 ()
      (s.put 0 (.super (Superblock.advanceHead^[left] superblock))) := by
  induction left generalizing s superblock head with
  | zero =>
    rw [Function.iterate_zero, id, Store.put_self page]
    exact .pure ()
  | succ left ih =>
    have small := ring.head_lt
    have inside := ring.inside
    have apart := ring.apart
    obtain ⟨entry, atHead, idle⟩ := ring.slot head small
    have get : s.get superblock.journalBlock = some (.journal entry) := by
      rw [here.journalBlock, ← atHead]
      exact Store.get_of_lt (by omega)
    rw [Cached.walkJournalFrom]
    refine (Does.get fits get 0).after ?_
    have visited : Cached.visitPending visit superblock.journalBlock entry = .done () := by
      unfold Cached.visitPending
      rw [idle]
      rfl
    dsimp only
    rw [visited]
    refine (Does.pure ()).after ((Does.superblockWrite fits (by omega) page).before ?_)
    have ring' : RingIdle start size (nextSlot size head)
        (s.put 0 (.super superblock.advanceHead)) := by
      refine ⟨⟨_, Store.put_same _ _ _, here.advance⟩, nextSlot_lt small, apart, inside,
        fun slot below => ?_⟩
      rw [Store.put_other _ _ _ _ (by omega)]
      exact ring.slot slot below
    have rest := ih (Store.put_same _ _ _) here.advance ring'
    rwa [Store.put_put, ← Function.iterate_succ_apply] at rest

/-- `sync_journal` and `mark_journal_synced` on an idle ring. -/
theorem Does.walkJournal (fits : tables.length + 1 < slots)
    (visit : Nat → JournalEntry → CacheProgram Block Unit) (ring : RingIdle start size head s) :
    Does slots tables s (Cached.walkJournal visit) 0 () s := by
  have inside := ring.inside
  have apart := ring.apart
  obtain ⟨superblock, page, here⟩ := ring.superblock
  have read : Nbtrfs.superblockRead s = some superblock := by
    rw [Nbtrfs.superblockRead, page]
  refine (Does.superblockRead fits (by omega) read).after ?_
  have round := Does.walkJournalFrom fits visit size page here ring
  rw [here.iterate ring.head_lt, Nat.add_mod_right, Nat.mod_eq_of_lt ring.head_lt, ← here.head,
    Store.put_self page] at round
  rw [here.size]
  exact round

end

section

variable {start size head : Nat} {tables : List Nat} {s s' : Store} {append : Append}
  {locals : Locals} {host : Host} {allocating : Cached.Allocating} {tags : PageTags Block}
  {replay : Nat → JournalEntry → CacheProgram Block Unit}

/-- An image with the blocks of a store. -/
def Store.image (s : Store) : Image Block := ⟨s.totalBlocks, s.mem⟩

/-- Whether a mount has room for its pins. -/
structure Mount.Fits (tables : List Nat) (mount : Mount) : Prop where
  /-- There are slots over. -/
  slots : tables.length + 1 < mount.cacheSize
  /-- The slots have numbers. -/
  numbered : mount.cacheSize ≤ intMax
  /-- The calls fit the counters. -/
  few : 2 * (mount.requests.map Request.cost).sum ≤ intMax

/-- A mount does what its calls do on the block store. -/
theorem Cached.mount_served (ring : RingIdle start size head s) (addressed : s.totalBlocks ≤ addressable)
    (covers : ∀ block slots, s.mem block = .inode slots → block ∈ tables) {mount : Mount}
    (fits : mount.Fits tables) {replies : List Reply}
    (inPlace : AllInPlace append locals host s mount.requests)
    (run : performAll append locals host s mount.requests = some (replies, s')) :
    Cached.mount tags replay s.residue allocating s.image mount = some (replies, s'.image) ∧
      (∀ block slots, s'.mem block = .inode slots → block ∈ tables) ∧ s'.residue = s.residue := by
  have inside := ring.inside
  have apart := ring.apart
  have slots := fits.slots
  have few := fits.few
  have only := performAll_content inPlace run
  have ready : Ready tables ((mount.requests.map Request.cost).sum + 0) s s.image.array := by
    constructor
    · rfl
    · exact covers
    · intro block member
      cases member
    · show 0 + ((mount.requests.map Request.cost).sum + 0) ≤ intMax
      omega
    · show 2 * (0 + ((mount.requests.map Request.cost).sum + 0)) ≤ intMax
      omega
  have serves := allocCache_serves s.image fits.numbered mount.uninitialised addressed
    (show 0 < mount.cacheSize by omega)
  have mounting := Does.walkJournal slots (Cached.syncEntry replay) ring
  rw [← Nat.zero_add ((mount.requests.map Request.cost).sum + 0)] at ready
  obtain ⟨array, plain, ready⟩ := mounting.runs ready
  obtain ⟨mounted, ran, serves, sized⟩ := @CacheProgram.Plain.run _ _ tags _ _ _ _ _ _ _ plain serves rfl
  have calls := @Does.session _ _ _ _ append locals host allocating slots (by omega) _ _ inPlace run
  obtain ⟨array, plain, ready⟩ := calls.runs ready
  obtain ⟨served, ran', serves, sized⟩ := @CacheProgram.Plain.run _ _ tags _ _ _ _ _ _ _ plain serves sized
  have unmounting := Does.walkJournal slots Cached.markEntrySynced (ring.keeps only)
  obtain ⟨array, plain, ready⟩ := @Does.runs _ _ _ _ _ _ _ _ unmounting array 0 ready
  rw [only.total] at plain
  obtain ⟨marked, ran'', serves, sized⟩ := @CacheProgram.Plain.run _ _ tags _ _ _ _ _ _ _ plain serves sized
  obtain ⟨synced, sync, serves, written, -⟩ := @Serves.synced _ tags _ _ _ serves
  have image : synced.image = s'.image := by
    have blocks : synced.image.block = s'.mem := by
      funext block
      rw [written, ready.blocks]
    have total : synced.image.totalBlocks = s'.totalBlocks := by
      rw [serves.sourced.total, only.total]
    rw [Store.image, ← blocks, ← total]
  have unmounted : nbtrfsDestroy tags served = some synced := by
    have marks : Cached.markJournalSynced.run tags served = some ((), marked) := ran''
    rw [nbtrfsDestroy, marks]
    exact sync
  refine ⟨?_, ready.covers, calls.residue⟩
  have mounts : (Cached.syncJournal replay).run tags
      ⟨allocCache mount.cacheSize mount.uninitialised, s.image⟩ = some ((), mounted) := ran
  rw [Cached.mount, mounts, Option.bind_eq_bind, Option.bind_some]
  dsimp only
  have session : (Cached.session s.residue allocating (s.image.totalBlocks + 1) mount.requests).run tags
      mounted = some (replies, served) := ran'
  rw [session, Option.bind_eq_bind, Option.bind_some]
  dsimp only
  rw [unmounted, ← image]
  rfl

end

/-- Mounts of an image one after another, with calls that log and allocate nothing: all calls return
what they return on one block store without a mount between them, and the image has its blocks at the
end. -/
theorem mounts_served (tags : PageTags Block) (append : Append) (locals : Locals) (host : Host)
    (replay : Nat → JournalEntry → CacheProgram Block Unit) (allocating : Cached.Allocating)
    {start size head : Nat} {s s' : Store} (ring : RingIdle start size head s)
    (addressed : s.totalBlocks ≤ addressable) {tables : List Nat}
    (covers : ∀ block slots, s.mem block = .inode slots → block ∈ tables) {mounts : List Mount}
    (fits : ∀ mount ∈ mounts, mount.Fits tables) {replies : List Reply}
    (inPlace : AllInPlace append locals host s (mounts.flatMap Mount.requests))
    (run : performAll append locals host s (mounts.flatMap Mount.requests) = some (replies, s')) :
    ∃ parts, Cached.mounts tags replay s.residue allocating ⟨s.totalBlocks, s.mem⟩ mounts =
        some (parts, ⟨s'.totalBlocks, s'.mem⟩) ∧
      parts.flatten = replies := by
  change ∃ parts, Cached.mounts tags replay s.residue allocating s.image mounts =
    some (parts, s'.image) ∧ parts.flatten = replies
  induction mounts generalizing s replies with
  | nil =>
    obtain ⟨rfl, rfl⟩ := Prod.mk.inj (Option.some.inj run)
    exact ⟨[], rfl, rfl⟩
  | cons mount mounts ih =>
    rw [List.flatMap_cons] at inPlace run
    obtain ⟨before, mid, after, first, second, rfl⟩ := performAll_append run
    have served := @Cached.mount_served start size head tables s mid append locals host allocating tags
      replay ring addressed covers mount (fits mount List.mem_cons_self) before inPlace.split.1 first
    obtain ⟨mounted, covers', residue⟩ := served
    have only := performAll_content inPlace.split.1 first
    obtain ⟨parts, rest, flat⟩ := ih (ring.keeps only) (by rw [only.total]; exact addressed) covers'
      (fun other member => fits other (List.mem_cons_of_mem _ member))
      (inPlace.split.2 before mid first) second
    rw [residue] at rest
    refine ⟨before :: parts, ?_, ?_⟩
    · rw [Cached.mounts, mounted, Option.bind_eq_bind, Option.bind_some]
      dsimp only
      rw [rest]
      rfl
    · rw [List.flatten_cons, flat]

/-- The times of `/` are set in one mount and read in the next one. -/
def timesMounts : List Mount :=
  [⟨3, fun _ => ⟨false, 0, 0, 0, none, none, none⟩, [.utimens [slash] ⟨0, 5⟩ ⟨0, 7⟩]⟩,
    ⟨4, fun _ => ⟨true, 3, 9, 9, none, some 9, some 9⟩, [.getattr [slash], .access [slash, 97]]⟩]

/-- On the empty image, whose ring has three slots. -/
theorem mounts_served_times :
    ∃ parts image, Cached.mounts (blockTags fun _ => false) (fun _ _ => .undefined)
        emptyImage.residue ⟨fun _ => .undefined, fun _ _ => .undefined⟩
        ⟨emptyImage.totalBlocks, emptyImage.mem⟩ timesMounts = some (parts, image) ∧
      parts.flatten = [.status true,
        .attributes (some { zeroInode.stat 0 with stAtime := 5, stMtime := 7 }), .status false] := by
  have ring : RingIdle 10 3 0 emptyImage := by
    refine ⟨⟨emptyLayout, rfl, rfl, rfl, rfl⟩, by decide, by decide, by decide, fun slot small => ?_⟩
    refine ⟨⟨10 + slot, true, .uninitialized⟩, ?_, rfl⟩
    unfold emptyImage
    dsimp only
    rw [if_neg (by omega), if_neg (by omega), if_neg (by omega), if_neg (by omega), if_neg (by omega),
      if_pos (by omega)]
  have covers : ∀ block slots, emptyImage.mem block = .inode slots → block ∈ [3] := by
    intro block slots tag
    by_contra outside
    have table : block ≠ 3 := fun same => outside (List.mem_singleton.mpr same)
    unfold emptyImage at tag
    dsimp only at tag
    split_ifs at tag
  have fits : ∀ mount ∈ timesMounts, mount.Fits [3] := by
    intro mount member
    rcases List.mem_cons.mp member with rfl | later
    · exact ⟨by decide, by decide, by decide⟩
    · obtain rfl := List.mem_singleton.mp later
      exact ⟨by decide, by decide, by decide⟩
  have computed : (performAll (fun _ _ => none) zeroLocals zeroHost emptyImage
      (timesMounts.flatMap Mount.requests)).map Prod.fst = some [.status true,
        .attributes (some { zeroInode.stat 0 with stAtime := 5, stMtime := 7 }),
        .status false] := by decide +kernel
  obtain ⟨⟨replies, s'⟩, run, rfl⟩ := Option.map_eq_some_iff.mp computed
  obtain ⟨parts, served, flat⟩ := mounts_served (blockTags fun _ => false) (fun _ _ => none) zeroLocals
    zeroHost (fun _ _ => .undefined) ⟨fun _ => .undefined, fun _ _ => .undefined⟩ ring (by decide) covers
    fits ⟨True.intro, fun _ _ _ => ⟨True.intro, fun _ _ _ => ⟨True.intro, fun _ _ _ => True.intro⟩⟩⟩ run
  exact ⟨parts, _, served, flat⟩

end Nbtrfs
