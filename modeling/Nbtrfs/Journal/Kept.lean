import Nbtrfs.Journal.Ring
import Nbtrfs.Mkfs.Layout
import Nbtrfs.Namespace.TruncateFrame

/-!
# What leaves the ring alone

A change keeps the ring if no journal block is assigned and the superblock keeps its fields. The
image of a journal block may be written from its page. The truncation that an append makes keeps
the ring of every store, or loses the superblock, after which the append has no result.
-/

namespace Nbtrfs

/-- A change that assigns no journal block and keeps the fields of the superblock. -/
structure KeepsRing (s s' : Store) : Prop where
  /-- The superblock keeps its layout and the head. -/
  superblock : ∀ superblock, superblockRead s = some superblock →
    ∃ superblock', superblockRead s' = some superblock' ∧ superblock'.SameLayout superblock ∧
      superblock'.journalHead = superblock.journalHead
  /-- The pages of the journal are kept. -/
  pages : ∀ block entry, s.mem block = .journal entry → s'.mem block = .journal entry
  /-- The image of a journal block is kept or is its page. -/
  disk : ∀ block entry, s.mem block = .journal entry →
    s'.disk block = s.disk block ∨ s'.disk block = .journal entry
  /-- The image keeps its size. -/
  totalBlocks : s'.totalBlocks = s.totalBlocks

/-- A change that keeps the ring and does not bring back a superblock that is lost. -/
structure LeavesRing (s s' : Store) : Prop extends KeepsRing s s' where
  /-- Block 0 stays a data block. -/
  lost : ZeroData s → ZeroData s'

section

variable {s s' s'' : Store} {inode inode' : Inode}

/-- Nothing changes. -/
theorem LeavesRing.refl (s : Store) : LeavesRing s s :=
  ⟨⟨fun superblock read => ⟨superblock, read, Superblock.SameLayout.refl superblock, rfl⟩,
    fun _ _ page => page, fun _ _ _ => Or.inl rfl, rfl⟩, id⟩

/-- Two changes. -/
theorem KeepsRing.trans (first : KeepsRing s s') (second : KeepsRing s' s'') :
    KeepsRing s s'' where
  superblock superblock read := by
    obtain ⟨middle, read', same, head⟩ := first.superblock superblock read
    obtain ⟨last, read'', same', head'⟩ := second.superblock middle read'
    exact ⟨last, read'', same'.trans same, head'.trans head⟩
  pages block entry page := second.pages block entry (first.pages block entry page)
  disk block entry page := by
    rcases second.disk block entry (first.pages block entry page) with kept | written
    · rw [kept]
      exact first.disk block entry page
    · exact Or.inr written
  totalBlocks := second.totalBlocks.trans first.totalBlocks

/-- Two changes. -/
theorem LeavesRing.trans (first : LeavesRing s s') (second : LeavesRing s' s'') :
    LeavesRing s s'' :=
  ⟨first.toKeepsRing.trans second.toKeepsRing, fun zero => second.lost (first.lost zero)⟩

/-- Without a superblock in block 0, a change of another page leaves a data block there. -/
theorem ZeroData.put {block : Nat} {page : Block} (zero : ZeroData s) (distinct : 0 ≠ block) :
    ZeroData (s.put block page) := by
  obtain ⟨bytes, tag⟩ := zero
  exact ⟨bytes, (Store.put_other _ _ _ _ distinct).trans tag⟩

/-- Assigning a page that is neither block 0 nor a journal block. -/
theorem LeavesRing.put {block : Nat} {page : Block} (distinct : 0 ≠ block)
    (noJournal : ∀ entry, s.mem block ≠ .journal entry) : LeavesRing s (s.put block page) where
  superblock superblock read := by
    refine ⟨superblock, ?_, Superblock.SameLayout.refl superblock, rfl⟩
    apply superblockRead_of_page
    rw [Store.put_other _ _ _ _ distinct]
    exact superblockRead_page read
  pages other entry tag := by
    by_cases same : other = block
    · rw [same] at tag
      exact absurd tag (noJournal entry)
    · rw [Store.put_other _ _ _ _ same]
      exact tag
  disk _ _ _ := Or.inl rfl
  totalBlocks := rfl
  lost zero := zero.put distinct

/-- Writing a page to the image. -/
theorem LeavesRing.flush (s : Store) (block : Nat) : LeavesRing s (s.flush block) where
  superblock superblock read := ⟨superblock, read, Superblock.SameLayout.refl superblock, rfl⟩
  pages _ _ page := page
  disk other entry page := by
    show (if other = block then s.mem block else s.disk other) = _ ∨
      (if other = block then s.mem block else s.disk other) = _
    by_cases same : other = block
    · rw [if_pos same, ← same]
      exact Or.inr page
    · rw [if_neg same]
      exact Or.inl rfl
  totalBlocks := rfl
  lost zero := zero

/-- Decrementing the counter. -/
theorem LeavesRing.decrement (s : Store) : LeavesRing s (decrementFreeBlocks s) where
  superblock superblock read := by
    have read' := decrementFreeBlocks_read s
    rw [read] at read'
    exact ⟨superblock.decrementFree, read', ⟨rfl, rfl, rfl, rfl, rfl⟩, rfl⟩
  pages block entry page := by
    by_cases zero : block = 0
    · rw [zero] at page ⊢
      have lost : superblockRead s = none := by
        unfold superblockRead
        rw [page]
      unfold decrementFreeBlocks
      rw [lost]
      exact page
    · rw [decrementFreeBlocks_other s block zero]
      exact page
  disk block _ _ := by
    rw [(decrementFreeBlocks_frame s).1]
    exact Or.inl rfl
  totalBlocks := (decrementFreeBlocks_frame s).2.1
  lost zero := by
    have lost := zero.read
    unfold decrementFreeBlocks
    rw [lost]
    exact zero

/-- Changing a bit. -/
theorem LeavesRing.bit {page ii : Nat} {value : Bool} {changed : Block} (distinct : 0 ≠ page)
    (put : bitmapPut (s.mem page) ii value = some changed) :
    LeavesRing s ((decrementFreeBlocks (s.put page changed)).flush page) := by
  have noJournal : ∀ entry, s.mem page ≠ .journal entry := by
    intro entry tag
    rw [tag] at put
    cases put
  exact ((LeavesRing.put distinct noJournal).trans (LeavesRing.decrement _)).trans
    (LeavesRing.flush _ _)

/-- `free_page`. -/
theorem freePage_leavesRing {pnum : Nat} (run : freePage s pnum = some s') : LeavesRing s s' := by
  unfold freePage at run
  obtain ⟨pbm, get, run⟩ := Option.bind_eq_some_iff.mp run
  have page := (Store.get_eq_some get).2
  obtain rfl := Option.some.inj run
  cases put : bitmapPut pbm (pnum - (bitmapPage pnum - 1) * usableBlockSize) false with
  | none => exact (LeavesRing.decrement s).trans (LeavesRing.flush _ _)
  | some changed =>
    rw [← page] at put
    exact LeavesRing.bit (bitmapPage_ne_zero pnum).symm put

/-- The scan of `alloc_page`. -/
theorem allocPageFrom_leavesRing {left ii pbmn result : Nat} (positive : 0 < pbmn)
    (run : allocPageFrom s left ii pbmn = some (result, s')) : LeavesRing s s' := by
  induction left generalizing ii pbmn with
  | zero =>
    obtain ⟨-, rfl⟩ := Prod.mk.inj (Option.some.inj run)
    exact LeavesRing.refl s
  | succ left ih =>
    rw [allocPageFrom] at run
    generalize next : (if ii % usableBlockSize = 0 ∧ ii ≠ 0 then pbmn + 1 else pbmn) = page at run
    have positive' : 0 < page := by
      rw [← next]
      split
      · omega
      · exact positive
    obtain ⟨pbm, get, run⟩ := Option.bind_eq_some_iff.mp run
    have tag := (Store.get_eq_some get).2
    dsimp only at run
    split at run
    case isFalse => exact ih positive' run
    case isTrue =>
      cases put : bitmapPut pbm (ii - (page - 1) * usableBlockSize) true with
      | none =>
        rw [put] at run
        obtain ⟨-, rfl⟩ := Prod.mk.inj (Option.some.inj run)
        exact LeavesRing.refl s
      | some changed =>
        rw [put] at run
        obtain ⟨-, rfl⟩ := Prod.mk.inj (Option.some.inj run)
        rw [← tag] at put
        exact LeavesRing.bit (by omega) put

/-- `alloc_page`. -/
theorem allocPage_leavesRing {result : Nat} (run : allocPage s = some (result, s')) :
    LeavesRing s s' := allocPageFrom_leavesRing Nat.one_pos run

/-- `inode_write` needs a superblock. -/
theorem inodeStore_leavesRing {writeThrough : Bool}
    (run : inodeStore s inode writeThrough = some s') : LeavesRing s s' ∧ ¬ ZeroData s := by
  unfold inodeStore inodeWrite at run
  obtain ⟨⟨written, after⟩, write, same⟩ := Option.map_eq_some_iff.mp run
  obtain rfl : after = s' := same
  obtain ⟨superblock, read, write⟩ := Option.bind_eq_some_iff.mp write
  have found : ¬ ZeroData s := by
    intro zero
    rw [zero.read] at read
    cases read
  refine ⟨?_, found⟩
  obtain ⟨block, get, write⟩ := Option.bind_eq_some_iff.mp write
  have tag := (Store.get_eq_some get).2
  cases block with
  | inode slots =>
    have noJournal : ∀ entry,
        s.mem (inodePage superblock inode.inodeNumber) ≠ .journal entry := by
      intro entry page
      rw [tag] at page
      cases page
    have distinct : 0 ≠ inodePage superblock inode.inodeNumber := by
      intro same
      rw [← same, superblockRead_page read] at tag
      cases tag
    obtain ⟨-, rfl⟩ := Prod.mk.inj (Option.some.inj write)
    cases writeThrough with
    | false => exact LeavesRing.put distinct noJournal
    | true => exact (LeavesRing.put distinct noJournal).trans (LeavesRing.flush _ _)
  | super | bitmap | btreeNode | journal | data | untagged =>
    obtain ⟨-, rfl⟩ := Prod.mk.inj (Option.some.inj write)
    exact LeavesRing.refl s

/-- Entering a number into a pointer block. -/
theorem writePointer_leavesRing {page index pointer : Nat}
    (run : writePointer s page index pointer = some s') : LeavesRing s s' := by
  unfold writePointer at run
  obtain ⟨block, get, run⟩ := Option.bind_eq_some_iff.mp run
  have tag := (Store.get_eq_some get).2
  cases block with
  | data bytes =>
    dsimp only at run
    split at run
    case isFalse => cases run
    case isTrue =>
      obtain rfl := Option.some.inj run
      have noJournal : ∀ entry, s.mem page ≠ .journal entry := by
        intro entry journal
        rw [tag] at journal
        cases journal
      by_cases zero : 0 = page
      · subst zero
        have lost : superblockRead s = none := ZeroData.read ⟨bytes, tag⟩
        refine ⟨⟨fun superblock read => ?_, fun other entry journal => ?_, fun _ _ _ => Or.inl rfl,
          rfl⟩, fun _ => ⟨_, Store.put_same _ _ _⟩⟩
        · rw [lost] at read
          cases read
        · by_cases same : other = 0
          · rw [same] at journal
            exact absurd journal (noJournal entry)
          · rw [Store.put_other _ _ _ _ same]
            exact journal
      · exact LeavesRing.put zero noJournal
  | super | bitmap | inode | btreeNode | journal | untagged => cases run

/-- The single indirect part of `inode_set_block` step by step. -/
theorem inodeSetIndirect_eq (s : Store) (inode : Inode) (index physicalBlock : Nat) :
    inodeSetIndirect s inode index physicalBlock =
      (if index = directPointers ∧ physicalBlock = 0 ∧ inode.indirectBlock ≠ 0
        then freePage s inode.indirectBlock else some s).bind fun s =>
      (if inode.indirectBlock = 0 then newIndirectBlock s inode
        else some (true, inode, s)).bind fun (ready, inode, s) =>
      if !ready then some (false, inode, s)
      else (linkPointer s inode.indirectBlock (index - directPointers) physicalBlock).bind fun s =>
        some (true, inode, s) := by
  unfold inodeSetIndirect
  by_cases first : index = directPointers ∧ physicalBlock = 0 ∧ inode.indirectBlock ≠ 0
  · by_cases unlinked : inode.indirectBlock = 0
    · rw [if_pos first, if_pos first]
      simp only [if_pos unlinked]
      rfl
    · rw [if_pos first, if_pos first]
      simp only [if_neg unlinked]
      rfl
  · by_cases unlinked : inode.indirectBlock = 0
    · rw [if_neg first, if_neg first]
      simp only [if_pos unlinked]
      rfl
    · rw [if_neg first, if_neg first]
      simp only [if_neg unlinked]
      rfl

/-- Clearing an entry of the single indirect part loses the superblock if there is a pointer
block. -/
theorem inodeSetIndirect_clear {index : Nat} {done : Bool}
    (run : inodeSetIndirect s inode index 0 = some (done, inode', s')) :
    ZeroData s' ∨ LeavesRing s s' := by
  rw [inodeSetIndirect_eq] at run
  obtain ⟨s1, free, run⟩ := Option.bind_eq_some_iff.mp run
  have first : LeavesRing s s1 := by
    split at free
    case isTrue => exact freePage_leavesRing free
    case isFalse =>
      obtain rfl := Option.some.inj free
      exact LeavesRing.refl s
  obtain ⟨⟨ready, inode1, s2⟩, new, run⟩ := Option.bind_eq_some_iff.mp run
  cases ready with
  | true =>
    obtain ⟨s3, link, run⟩ := Option.bind_eq_some_iff.mp run
    obtain ⟨-, same⟩ := Prod.mk.inj (Option.some.inj run)
    obtain ⟨-, rfl⟩ := Prod.mk.inj same
    exact Or.inl (linkPointer_zero link).1
  | false =>
    obtain ⟨-, same⟩ := Prod.mk.inj (Option.some.inj run)
    obtain ⟨-, rfl⟩ := Prod.mk.inj same
    right
    split at new
    case isFalse => cases new
    case isTrue =>
      unfold newIndirectBlock at new
      obtain ⟨⟨page, s3⟩, alloc, new⟩ := Option.bind_eq_some_iff.mp new
      dsimp only at new
      split at new
      case isTrue =>
        obtain ⟨-, same⟩ := Prod.mk.inj (Option.some.inj new)
        obtain ⟨-, rfl⟩ := Prod.mk.inj same
        exact first.trans (allocPage_leavesRing alloc)
      case isFalse =>
        obtain ⟨s4, -, new⟩ := Option.bind_eq_some_iff.mp new
        obtain ⟨s5, -, new⟩ := Option.bind_eq_some_iff.mp new
        obtain ⟨inode2, -, new⟩ := Option.bind_eq_some_iff.mp new
        obtain ⟨s6, -, new⟩ := Option.bind_eq_some_iff.mp new
        obtain ⟨s7, -, new⟩ := Option.bind_eq_some_iff.mp new
        cases new

/-- The releases in the double indirect part step by step. -/
theorem freeDoublePages_eq (s : Store) (inode : Inode) (page pageIndex physicalBlock : Nat) :
    freeDoublePages s inode page pageIndex physicalBlock =
      if pageIndex = 0 ∧ physicalBlock = 0 then
        (if inode.doubleIndirectBlock ≠ 0 then
          (readPointer s inode.doubleIndirectBlock page).bind fun lower =>
            if lower ≠ 0 then freePage s lower else some s
        else some s).bind fun s =>
        if page = 0 then freePage s inode.doubleIndirectBlock else some s
      else some s := by
  unfold freeDoublePages
  by_cases both : pageIndex = 0 ∧ physicalBlock = 0
  · rw [if_pos both, if_pos both]
    by_cases double : inode.doubleIndirectBlock ≠ 0
    · rw [if_pos double, if_pos double]
      cases readPointer s inode.doubleIndirectBlock page with
      | none => rfl
      | some lower =>
        by_cases nonzero : lower ≠ 0
        · simp only [Option.bind_eq_bind, Option.bind_some, if_pos nonzero]
        · simp only [Option.bind_eq_bind, Option.bind_some, if_neg nonzero]
    · rw [if_neg double, if_neg double]
      rfl
  · rw [if_neg both, if_neg both]

/-- The releases of the double indirect part. -/
theorem freeDoublePages_leavesRing {page pageIndex physicalBlock : Nat}
    (run : freeDoublePages s inode page pageIndex physicalBlock = some s') : LeavesRing s s' := by
  rw [freeDoublePages_eq] at run
  split at run
  case isFalse =>
    obtain rfl := Option.some.inj run
    exact LeavesRing.refl s
  case isTrue =>
    obtain ⟨s1, lower, run⟩ := Option.bind_eq_some_iff.mp run
    have first : LeavesRing s s1 := by
      split at lower
      case isFalse =>
        obtain rfl := Option.some.inj lower
        exact LeavesRing.refl s
      case isTrue =>
        obtain ⟨pointer, -, lower⟩ := Option.bind_eq_some_iff.mp lower
        split at lower
        case isTrue => exact freePage_leavesRing lower
        case isFalse =>
          obtain rfl := Option.some.inj lower
          exact LeavesRing.refl s
    split at run
    case isTrue => exact first.trans (freePage_leavesRing run)
    case isFalse =>
      obtain rfl := Option.some.inj run
      exact first

/-- Clearing an entry of a block below the double indirect one writes that block over block 0. -/
theorem clearBelow_zeroData {lower index : Nat} {done : Bool}
    (run : ((writePointer s lower index 0).bind fun s => (writeBlockAs s lower 0).bind fun s =>
      (diskWriteBlockAs s lower inode.indirectBlock).bind fun s => some (false, inode, s)) =
        some (done, inode', s')) : ZeroData s' := by
  obtain ⟨s3, write, run⟩ := Option.bind_eq_some_iff.mp run
  obtain ⟨s4, copy, run⟩ := Option.bind_eq_some_iff.mp run
  obtain ⟨s5, image, run⟩ := Option.bind_eq_some_iff.mp run
  obtain ⟨-, same⟩ := Prod.mk.inj (Option.some.inj run)
  obtain ⟨-, rfl⟩ := Prod.mk.inj same
  have data : ∃ bytes, s3.mem lower = .data bytes := by
    unfold writePointer at write
    obtain ⟨block, get, write⟩ := Option.bind_eq_some_iff.mp write
    cases block with
    | data bytes =>
      dsimp only at write
      split at write
      case isFalse => cases write
      case isTrue =>
        obtain rfl := Option.some.inj write
        exact ⟨_, Store.put_same _ _ _⟩
    | super | bitmap | inode | btreeNode | journal | untagged => cases write
  obtain ⟨bytes, tag⟩ := data
  unfold writeBlockAs at copy
  obtain ⟨content, get, copy⟩ := Option.bind_eq_some_iff.mp copy
  split at copy
  case isFalse => cases copy
  case isTrue =>
    obtain rfl := Option.some.inj copy
    have page0 : (s3.put 0 content).mem 0 = .data bytes := by
      rw [Store.put_same, ← (Store.get_eq_some get).2, tag]
    unfold diskWriteBlockAs at image
    obtain ⟨content', -, image⟩ := Option.bind_eq_some_iff.mp image
    split at image
    case isFalse => cases image
    case isTrue =>
      obtain rfl := Option.some.inj image
      exact ⟨bytes, page0⟩

/-- Clearing an entry behind a double indirect block loses the superblock if there is a block
below it. -/
theorem inodeSetDouble_clear {index : Nat} {done : Bool} (double : inode.doubleIndirectBlock ≠ 0)
    (run : inodeSetDouble s inode index 0 = some (done, inode', s')) :
    ZeroData s' ∨ LeavesRing s s' := by
  unfold inodeSetDouble at run
  obtain ⟨page, -, run⟩ := Option.bind_eq_some_iff.mp run
  obtain ⟨s1, free, run⟩ := Option.bind_eq_some_iff.mp run
  have first := freeDoublePages_leavesRing free
  rw [if_neg double, Option.bind_eq_bind, Option.bind_some] at run
  obtain ⟨lower, -, run⟩ := Option.bind_eq_some_iff.mp run
  dsimp only at run
  split at run
  case isTrue =>
    obtain ⟨⟨fresh, s2⟩, alloc, run⟩ := Option.bind_eq_some_iff.mp run
    obtain ⟨s3, write, run⟩ := Option.bind_eq_some_iff.mp run
    split at run
    case isTrue =>
      right
      obtain ⟨-, same⟩ := Prod.mk.inj (Option.some.inj run)
      obtain ⟨-, rfl⟩ := Prod.mk.inj same
      exact (first.trans (allocPage_leavesRing alloc)).trans (writePointer_leavesRing write)
    case isFalse found =>
      left
      obtain ⟨s4, -, run⟩ := Option.bind_eq_some_iff.mp run
      obtain ⟨s5, -, run⟩ := Option.bind_eq_some_iff.mp run
      rw [Option.bind_eq_bind, Option.bind_some] at run
      dsimp only at run
      rw [if_neg found] at run
      exact clearBelow_zeroData run
  case isFalse found =>
    left
    rw [Option.bind_eq_bind, Option.bind_some] at run
    dsimp only at run
    rw [if_neg found] at run
    exact clearBelow_zeroData run

/-- Clearing an entry that is mapped keeps the ring or loses the superblock. -/
theorem inodeSetBlock_leavesRing {index : Nat} {done : Bool} {physicalBlock : Option Nat}
    (get : inodeGetBlock s inode index = some (true, physicalBlock)) {s1 : Store}
    (run : inodeSetBlock s1 inode index 0 = some (done, inode', s')) :
    ZeroData s' ∨ LeavesRing s1 s' := by
  unfold inodeSetBlock at run
  split at run
  case isTrue =>
    obtain ⟨s2, store, run⟩ := Option.bind_eq_some_iff.mp run
    obtain ⟨-, same⟩ := Prod.mk.inj (Option.some.inj run)
    obtain ⟨-, rfl⟩ := Prod.mk.inj same
    exact Or.inr (inodeStore_leavesRing store).1
  case isFalse behind =>
    split at run
    case isTrue => exact inodeSetIndirect_clear run
    case isFalse far =>
      have double : inode.doubleIndirectBlock ≠ 0 := by
        intro unlinked
        have notIndirect : ¬ index < pointersPerPage := by omega
        rw [inodeGetBlock, if_neg behind, if_neg notIndirect, if_pos unlinked] at get
        cases get
      exact inodeSetDouble_clear double run

/-- The loop of `_truncate` keeps the ring or loses the superblock. -/
theorem truncateBlocks_leavesRing {indices : List Nat}
    (run : truncateBlocks indices s inode = some (inode', s')) :
    ZeroData s' ∨ LeavesRing s s' := by
  induction indices generalizing s inode with
  | nil =>
    obtain ⟨-, rfl⟩ := Prod.mk.inj (Option.some.inj run)
    exact Or.inr (LeavesRing.refl s)
  | cons index indices ih =>
    rw [truncateBlocks] at run
    obtain ⟨⟨mapped, block⟩, get, run⟩ := Option.bind_eq_some_iff.mp run
    dsimp only at run
    split at run
    case isFalse => exact ih run
    case isTrue found =>
      obtain ⟨s1, free, run⟩ := Option.bind_eq_some_iff.mp run
      obtain ⟨⟨done, inode2, s2⟩, cleared, run⟩ := Option.bind_eq_some_iff.mp run
      rw [found.1] at get
      rcases inodeSetBlock_leavesRing get cleared with lost | kept
      · left
        rcases ih run with lost' | kept'
        · exact lost'
        · exact kept'.lost lost
      · rcases ih run with lost' | kept'
        · exact Or.inl lost'
        · exact Or.inr (((freePage_leavesRing free).trans kept).trans kept')

/-- A truncation that has a result keeps the ring. -/
theorem truncate_leavesRing {path : CString} {size : Nat} {writeThrough : Bool}
    (run : truncate s path size writeThrough = some s') : LeavesRing s s' := by
  unfold truncate at run
  obtain ⟨pair, -, run⟩ := Option.bind_eq_some_iff.mp run
  obtain ⟨node, -, run⟩ := Option.bind_eq_some_iff.mp run
  unfold truncateInode at run
  obtain ⟨⟨node', s1⟩, blocks, run⟩ := Option.bind_eq_some_iff.mp run
  obtain ⟨stored, found⟩ := inodeStore_leavesRing run
  rcases truncateBlocks_leavesRing blocks with lost | kept
  · exact absurd lost found
  · exact kept.trans stored

/-- What an append does before it looks for its slot keeps the ring. -/
theorem prepareEntry_leavesRing {transaction prepared : Transaction}
    (run : prepareEntry s transaction = some (prepared, s')) : LeavesRing s s' := by
  unfold prepareEntry at run
  split at run
  case h_1 =>
    split at run
    case isTrue =>
      obtain ⟨pair, -, run⟩ := Option.bind_eq_some_iff.mp run
      obtain ⟨s1, truncated, run⟩ := Option.bind_eq_some_iff.mp run
      obtain ⟨-, rfl⟩ := Prod.mk.inj (Option.some.inj run)
      exact truncate_leavesRing truncated
    case isFalse =>
      obtain ⟨-, rfl⟩ := Prod.mk.inj (Option.some.inj run)
      exact LeavesRing.refl s
  case h_2 =>
    obtain ⟨-, rfl⟩ := Prod.mk.inj (Option.some.inj run)
    exact LeavesRing.refl s

/-- What a call of `initialize_journal_entry` goes through: the page of the head is replayed
unless it is synced, then the superblock is written and then the entry. -/
structure AppendSteps (sync : Nat → Store → Option Store) (s : Store) (entry : JournalEntry)
    (front : JournalEntry) (superblock : Superblock) (s1 s2 s' : Store) : Prop where
  /-- Block 0 before the replay. -/
  read : superblockRead s1 = some superblock
  /-- The entry at the head. -/
  page : s1.mem superblock.journalBlock = .journal front
  /-- The replay. -/
  replay : front.synced = true ∧ s2 = s1 ∨
    front.synced = false ∧ sync superblock.journalBlock s1 = some s2
  /-- The case distinction before it. -/
  prepared : ∃ transaction, prepareEntry s entry.transaction = some (transaction, s1) ∧
    ∃ former, (superblockWrite s2 superblock.advanceHead true).mem superblock.journalBlock =
        .journal former ∧
      superblock.journalBlock < s2.totalBlocks ∧
      s' = ((superblockWrite s2 superblock.advanceHead true).put superblock.journalBlock
        (.journal { entry with blockNumber := superblock.journalBlock, transaction })).flush
          superblock.journalBlock

/-- An append whose head is on a journal block goes through these steps. -/
theorem initializeJournalEntry_steps {sync : Nat → Store → Option Store} {entry : JournalEntry}
    {synced : Option JournalEntry}
    (run : initializeJournalEntry sync s entry = some (synced, s')) :
    ∃ transaction s1 superblock, prepareEntry s entry.transaction = some (transaction, s1) ∧
      superblockRead s1 = some superblock ∧
      ∀ front, s1.mem superblock.journalBlock = .journal front →
        ∃ s2, AppendSteps sync s entry front superblock s1 s2 s' := by
  rw [initializeJournalEntry_def] at run
  obtain ⟨⟨transaction, s1⟩, prepared, run⟩ := Option.bind_eq_some_iff.mp run
  obtain ⟨superblock, read, run⟩ := Option.bind_eq_some_iff.mp run
  refine ⟨transaction, s1, superblock, prepared, read, ?_⟩
  intro front page
  obtain ⟨content, get, run⟩ := Option.bind_eq_some_iff.mp run
  obtain rfl : content = .journal front := (Store.get_eq_some get).2.symm.trans page
  have finish : ∀ s2 : Store, (do
      let s ← assignEntry (superblockWrite s2 superblock.advanceHead true)
        superblock.journalBlock { entry with blockNumber := superblock.journalBlock, transaction }
      some ((if front.synced then none else some front : Option JournalEntry),
        s.flush superblock.journalBlock)) = some (synced, s') →
      ∃ former, (superblockWrite s2 superblock.advanceHead true).mem superblock.journalBlock =
          .journal former ∧
        superblock.journalBlock < s2.totalBlocks ∧
        s' = ((superblockWrite s2 superblock.advanceHead true).put superblock.journalBlock
          (.journal { entry with blockNumber := superblock.journalBlock, transaction })).flush
            superblock.journalBlock := by
    intro s2 finished
    obtain ⟨s3, assigned, finished⟩ := Option.bind_eq_some_iff.mp finished
    obtain ⟨-, rfl⟩ := Prod.mk.inj (Option.some.inj finished)
    obtain ⟨former, found, rfl⟩ := assignEntry_cases assigned
    obtain ⟨inside, tag⟩ := Store.get_eq_some found
    rw [superblockWrite_totalBlocks] at inside
    exact ⟨former, tag, inside, rfl⟩
  cases flag : front.synced with
  | true =>
    rw [flag] at finish
    dsimp only at run
    rw [flag, if_pos rfl] at run
    exact ⟨s1, read, page, Or.inl ⟨flag, rfl⟩, transaction, prepared, finish s1 run⟩
  | false =>
    rw [flag] at finish
    dsimp only at run
    rw [flag, if_neg Bool.false_ne_true] at run
    obtain ⟨s2, replayed, run⟩ := Option.bind_eq_some_iff.mp run
    exact ⟨s2, read, page, Or.inr ⟨flag, replayed⟩, transaction, prepared, finish s2 run⟩

end

end Nbtrfs
