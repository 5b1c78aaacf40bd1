import Nbtrfs.Mkfs.Layout
import Nbtrfs.Store.Format

/-!
# The counter of free blocks

`disk_format` allocates its blocks and then writes the superblock that it read before, so the
counter starts at the size of the image. `alloc_page` and `free_page` both decrement it. After a
number of releases the counter differs from the number of clear bits by the blocks that
`disk_format` allocates, less two a release.
-/

namespace Nbtrfs

open FirstFit (Call)

/-- The block of the root node. An image without a journal has one block in its place. -/
def rootPage (totalBlocks : Nat) : Nat :=
  journalStart totalBlocks + max 1 (journalBlocks totalBlocks)

/-- The blocks that `disk_format` allocates. -/
def formattedBlocks (totalBlocks : Nat) : Nat := rootPage totalBlocks + 1

section

variable {s s' : Store}

/-- Tagging goes through blocks of the image. -/
theorem tagBlocks_inside {tag : Block → Option Block} {count first : Nat}
    (run : tagBlocks tag count first s = some s') :
    s'.totalBlocks = s.totalBlocks ∧ (count = 0 ∨ first + count ≤ s.totalBlocks) := by
  induction count generalizing first s with
  | zero =>
    obtain rfl := Option.some.inj run
    exact ⟨rfl, Or.inl rfl⟩
  | succ count ih =>
    rw [tagBlocks] at run
    cases page : s.get first with
    | none =>
      rw [page] at run
      cases run
    | some block =>
      rw [page, Option.bind_eq_bind, Option.bind_some] at run
      cases tagged : tag block with
      | none =>
        rw [tagged] at run
        cases run
      | some content =>
        rw [tagged] at run
        obtain ⟨total, bound⟩ := ih run
        rw [Store.put_totalBlocks] at total bound
        have inside := (Store.get_eq_some page).1
        exact ⟨total, Or.inr (by omega)⟩

/-- The regions that are tagged are in the image. -/
theorem tagRegions_inside {totalBlocks : Nat} {superblock : Superblock}
    (initial : Initial totalBlocks superblock) (total : s.totalBlocks = totalBlocks)
    (nonempty : 0 < totalBlocks) (run : tagRegions superblock s = some s') :
    rootBlock totalBlocks ≤ totalBlocks := by
  obtain ⟨bitmap, table, tableSize, journalSize⟩ := initial.ends
  rw [tagRegions, bitmap, tableSize, journalSize, table] at run
  cases first : tagBlocks Block.asBitmap (tableStart totalBlocks - 1) 1 s with
  | none =>
    rw [first] at run
    cases run
  | some s1 =>
    rw [first, Option.bind_eq_bind, Option.bind_some] at run
    cases second : tagBlocks Block.asInode (inodeTableBlocks totalBlocks)
        (tableStart totalBlocks) s1 with
    | none =>
      rw [second] at run
      cases run
    | some s2 =>
      rw [second, Option.bind_some] at run
      obtain ⟨total1, bitmaps⟩ := tagBlocks_inside first
      obtain ⟨total2, tables⟩ := tagBlocks_inside second
      obtain ⟨-, journals⟩ := tagBlocks_inside run
      have start : tableStart totalBlocks =
          1 + bitmapBlocks totalBlocks + inodeBitmapBlocks totalBlocks := rfl
      have bitmapSize : 0 < bitmapBlocks totalBlocks := by
        unfold bitmapBlocks
        omega
      have journal : journalStart totalBlocks =
          tableStart totalBlocks + inodeTableBlocks totalBlocks := rfl
      have root : rootBlock totalBlocks =
          journalStart totalBlocks + journalBlocks totalBlocks := rfl
      omega

/-- With all blocks allocated `alloc_page` fails. -/
theorem Filled.full {bound : Nat} (filled : Filled s bound) (full : s.totalBlocks ≤ bound) :
    allocPage s = some (0, s) := by
  rcases allocPage_scan filled.bitmapped with ⟨pnum, s', -, inside, clear, -⟩ | ⟨run, -⟩
  · rw [filled.bits pnum (bitmapPage_le inside)] at clear
    have below : ¬ pnum < bound := of_decide_eq_false (Option.some.inj clear)
    omega
  · exact run

/-- Allocations that succeed had room. -/
theorem Filled.allocs_inside {bound : Nat} (filled : Filled s bound) (positive : bound ≠ 0)
    {count : Nat} (run : allocPages count s = some (true, s')) :
    count = 0 ∨ bound + count ≤ s.totalBlocks := by
  induction count generalizing s bound with
  | zero => exact Or.inl rfl
  | succ count ih =>
    right
    by_cases inside : bound < s.totalBlocks
    · obtain ⟨middle, alloc, filled', kept⟩ := filled.alloc inside
      rw [allocPages, alloc, Option.bind_eq_bind, Option.bind_some] at run
      change (if bound = 0 then some (false, middle) else allocPages count middle) = _ at run
      rw [if_neg positive] at run
      have rest := ih filled' (Nat.succ_ne_zero bound) run
      rw [kept.totalBlocks] at rest
      omega
    · rw [allocPages, filled.full (Nat.le_of_not_lt inside), Option.bind_eq_bind,
        Option.bind_some] at run
      change (if (0 : Nat) = 0 then some (false, s) else _) = _ at run
      rw [if_pos rfl] at run
      cases run

/-- What `disk_format` has done when it comes to the root node: `tagged` has the tags, and in `s`
the blocks before the root node are allocated. It goes on with the superblock as it was
initialised. -/
structure RootReady (totalBlocks : Nat) (tagged s : Store) (superblock : Superblock) : Prop where
  /-- The regions are tagged. -/
  regions : Regions totalBlocks tagged
  /-- The blocks behind them have no tag. -/
  behind : ∀ block, rootBlock totalBlocks ≤ block → tagged.mem block = .untagged fun _ => 0
  /-- Allocation leaves them alone. -/
  kept : KeepsRegions tagged s
  /-- The blocks before the root node are allocated. -/
  filled : Filled s (rootPage totalBlocks)
  /-- Block 0 is a superblock. -/
  former : ∃ former, superblockRead s = some former ∧ Initial totalBlocks former
  /-- The superblock knows the regions. -/
  initial : Initial totalBlocks superblock
  /-- Its counter has not changed since it was initialised. -/
  freeBlocks : superblock.freeBlocks = totalBlocks

/-- When `disk_format` succeeds it has come to the root node. -/
theorem diskFormat_root {host : Host} {residue : Residue} {totalBlocks : Nat}
    {volumeName : CString}
    (format : diskFormat host (zeroImage totalBlocks residue) volumeName = some (true, s)) :
    0 < totalBlocks ∧ ∃ tagged ready superblock, RootReady totalBlocks tagged ready superblock ∧
      formatRoot host superblock ready = some s := by
  have short : volumeName.length ≤ 31 := by
    by_contra long
    rw [diskFormat, superblockInitialize, if_pos (by omega)] at format
    cases format
  have nonempty : 0 < totalBlocks := by
    by_contra empty
    have get : (zeroImage totalBlocks residue).get 0 = none := if_neg empty
    rw [diskFormat, superblockInitialize, if_neg (by omega), get] at format
    cases format
  obtain ⟨s1, superblock, init, read, initial, counter, total1, zero⟩ :=
    superblockInitialize_zero host residue nonempty short
  rw [diskFormat, init, Option.bind_eq_bind, Option.bind_some] at format
  change (superblockRead s1).bind _ = _ at format
  rw [read, Option.bind_some] at format
  change (tagRegions superblock s1).bind _ = _ at format
  cases tagRun : tagRegions superblock s1 with
  | none =>
    rw [tagRun] at format
    cases format
  | some tagged =>
    have room := tagRegions_inside initial total1 nonempty tagRun
    obtain ⟨s2, tags, regions, superPage, behind⟩ := tagRegions_zero room initial total1 zero
    obtain rfl : s2 = tagged := Option.some.inj (tags.symm.trans tagRun)
    obtain ⟨-, ends, -, journalSize⟩ := initial.ends
    have read2 : superblockRead s2 = some superblock := by
      unfold superblockRead at read ⊢
      rw [superPage]
      exact read
    have start : 0 < journalStart totalBlocks := by
      unfold journalStart tableStart
      omega
    obtain ⟨s3, alloc3, filled3, kept3⟩ := (regions.filled room nonempty).alloc
      (by rw [regions.totalBlocks]; exact nonempty)
    have total3 := kept3.totalBlocks.trans regions.totalBlocks
    have bound3 : journalStart totalBlocks ≤ totalBlocks := by
      unfold rootBlock at room
      omega
    obtain ⟨s4, alloc4, filled4, kept4⟩ := filled3.allocs (by omega)
      (journalStart totalBlocks - 1) (by rw [total3]; omega)
    rw [show 0 + 1 + (journalStart totalBlocks - 1) = journalStart totalBlocks by omega] at filled4
    have total4 := kept4.totalBlocks.trans total3
    rw [tagRun, Option.bind_some] at format
    change (allocPage s2).bind _ = _ at format
    rw [alloc3, Option.bind_some] at format
    change (allocPages (tableEnd superblock - 1) s3).bind _ = _ at format
    rw [ends, alloc4, Option.bind_some] at format
    change (allocPage s4).bind _ = _ at format
    by_cases inside : journalStart totalBlocks < totalBlocks
    · obtain ⟨s5, alloc5, filled5, kept5⟩ := filled4.alloc (by rw [total4]; exact inside)
      rw [alloc5, Option.bind_some] at format
      change (allocPages (calculateJournalSize superblock - 1) s5).bind _ = _ at format
      rw [journalSize] at format
      cases alloc6 : allocPages (journalBlocks totalBlocks - 1) s5 with
      | none =>
        rw [alloc6] at format
        cases format
      | some result =>
        obtain ⟨succeeds, s6⟩ := result
        rw [alloc6, Option.bind_some] at format
        cases succeeds with
        | false => cases format
        | true =>
          have bound := filled5.allocs_inside (by omega) alloc6
          have total5 := kept5.totalBlocks.trans total4
          obtain ⟨s6', alloc6', filled6, kept6⟩ := filled5.allocs (Nat.succ_ne_zero _)
            (journalBlocks totalBlocks - 1) (by rw [total5] at bound ⊢; omega)
          obtain rfl : s6' = s6 :=
            (Prod.mk.inj (Option.some.inj (alloc6'.symm.trans alloc6))).2
          rw [show journalStart totalBlocks + 1 + (journalBlocks totalBlocks - 1) =
            rootPage totalBlocks by unfold rootPage; omega] at filled6
          have kept := ((kept3.trans kept4).trans kept5).trans kept6
          obtain ⟨former, read6, size, start6⟩ := kept.superblock superblock read2
          refine ⟨nonempty, s2, s6', { superblock with
            journalStart := journalStart totalBlocks, journalHead := 0 },
            ⟨regions, behind, kept, filled6,
              ⟨former, read6, size.trans initial.size, start6.trans initial.start⟩,
              ⟨initial.size, initial.start⟩, counter⟩, ?_⟩
          change (formatRoot host _ s6').bind _ = _ at format
          cases root : formatRoot host { superblock with
              journalStart := journalStart totalBlocks, journalHead := 0 } s6' with
          | none =>
            rw [root] at format
            cases format
          | some final =>
            rw [root] at format
            obtain ⟨-, same⟩ := Prod.mk.inj (Option.some.inj format)
            rw [same]
    · -- the image ends where the journal would start, so there is no room for a root node
      have noJournal : journalBlocks totalBlocks = 0 := by
        unfold rootBlock at room
        omega
      have full := filled4.full (by rw [total4]; omega)
      rw [full, Option.bind_some] at format
      change (allocPages (calculateJournalSize superblock - 1) s4).bind _ = _ at format
      rw [journalSize, noJournal] at format
      change (formatRoot host _ s4).bind _ = _ at format
      have noRoot : btreeNodeNew s4 false = none := by
        rw [btreeNodeNew, btreeNodeCreate, full]
        rfl
      rw [formatRoot, noRoot] at format
      cases format

/-- What `inode_allocate` leaves alone. -/
structure KeepsBelow (start : Nat) (s s' : Store) : Prop where
  /-- The pages before the inode bitmap that are no block of the inode table. -/
  mem : ∀ block, block < start → (∀ slots, s.mem block ≠ .inode slots) →
    s'.mem block = s.mem block
  /-- The size of the image. -/
  totalBlocks : s'.totalBlocks = s.totalBlocks

/-- `inode_write` changes a block of the inode table at most. -/
theorem inodeWrite_keepsBelow {inode : Inode} {writeThrough written : Bool} (start : Nat)
    (run : inodeWrite s inode writeThrough = some (written, s')) : KeepsBelow start s s' := by
  rw [inodeWrite] at run
  cases read : superblockRead s with
  | none =>
    rw [read] at run
    cases run
  | some superblock =>
    rw [read, Option.bind_eq_bind, Option.bind_some] at run
    change (s.get (inodePage superblock inode.inodeNumber)).bind _ = _ at run
    cases page : s.get (inodePage superblock inode.inodeNumber) with
    | none =>
      rw [page] at run
      cases run
    | some block =>
      rw [page, Option.bind_some] at run
      have tag := (Store.get_eq_some page).2
      cases block with
      | inode slots =>
        obtain ⟨-, rfl⟩ := Prod.mk.inj (Option.some.inj run)
        have mem : ∀ other, (∀ slots, s.mem other ≠ .inode slots) →
            other ≠ inodePage superblock inode.inodeNumber := by
          rintro other noTable rfl
          exact noTable slots tag
        cases writeThrough with
        | false => exact ⟨fun other _ noTable => Store.put_other _ _ _ _ (mem other noTable), rfl⟩
        | true => exact ⟨fun other _ noTable => Store.put_other _ _ _ _ (mem other noTable), rfl⟩
      | super | bitmap | btreeNode | journal | data | untagged =>
        obtain ⟨-, rfl⟩ := Prod.mk.inj (Option.some.inj run)
        exact ⟨fun _ _ _ => rfl, rfl⟩

/-- `inode_allocate` changes the inode bitmap and the inode table at most. -/
theorem inodeAllocateFrom_keepsBelow {host : Host} {superblock : Superblock} {mode : Nat}
    {writeThrough : Bool} {left ii : Nat} {result : Option Nat}
    (run : inodeAllocateFrom host s superblock mode writeThrough left ii = some (result, s')) :
    KeepsBelow superblock.inodeBitmap s s' := by
  induction left generalizing ii with
  | zero => cases run
  | succ left ih =>
    rw [inodeAllocateFrom] at run
    generalize number : superblock.inodeBitmap + ii / usableBlockSize = ibmn at run
    cases page : s.get ibmn with
    | none =>
      rw [page] at run
      cases run
    | some ibm =>
      rw [page, Option.bind_eq_bind, Option.bind_some] at run
      have changes : ∀ changed, bitmapPut ibm (ii % usableBlockSize) true = some changed →
          KeepsBelow superblock.inodeBitmap s (s.put ibmn changed) ∧
            ∀ block, (∀ slots, s.mem block ≠ .inode slots) →
              ∀ slots, (s.put ibmn changed).mem block ≠ .inode slots := by
        intro changed put
        have behind : superblock.inodeBitmap ≤ ibmn := by
          rw [← number]
          exact Nat.le_add_right _ _
        refine ⟨⟨fun block below _ => Store.put_other _ _ _ _ (by omega), rfl⟩, ?_⟩
        intro block noTable slots tag
        by_cases same : block = ibmn
        · rw [same, Store.put_same] at tag
          rw [tag] at put
          cases ibm with
          | bitmap words => cases put
          | super | inode | btreeNode | journal | data | untagged => cases put
        · rw [Store.put_other _ _ _ _ same] at tag
          exact noTable slots tag
      cases get : bitmapGet ibm (ii % usableBlockSize) with
      | none =>
        rw [get] at run
        obtain ⟨-, rfl⟩ := Prod.mk.inj (Option.some.inj run)
        exact ⟨fun _ _ _ => rfl, rfl⟩
      | some taken =>
        cases taken with
        | true =>
          rw [get] at run
          exact ih run
        | false =>
          cases put : bitmapPut ibm (ii % usableBlockSize) true with
          | none =>
            rw [get, put] at run
            obtain ⟨-, rfl⟩ := Prod.mk.inj (Option.some.inj run)
            exact ⟨fun _ _ _ => rfl, rfl⟩
          | some changed =>
            obtain ⟨kept, noTables⟩ := changes changed put
            rw [get, put] at run
            change (inodeRead (s.put ibmn changed) ii).bind _ = _ at run
            cases read : inodeRead (s.put ibmn changed) ii with
            | none =>
              rw [read] at run
              cases run
            | some inode =>
              rw [read, Option.bind_some] at run
              cases inode with
              | none =>
                obtain ⟨-, rfl⟩ := Prod.mk.inj (Option.some.inj run)
                exact kept
              | some inode =>
                change (inodeWrite (s.put ibmn changed) _ writeThrough).bind _ = _ at run
                cases write : inodeWrite (s.put ibmn changed) { inode with
                    inodeNumber := ii
                    mode
                    ownerId := host.userId
                    groupId := host.groupId
                    referenceCount := 1 } writeThrough with
                | none =>
                  rw [write] at run
                  cases run
                | some result =>
                  obtain ⟨written, after⟩ := result
                  have keeps := inodeWrite_keepsBelow superblock.inodeBitmap write
                  have both : KeepsBelow superblock.inodeBitmap s after := by
                    refine ⟨fun block below noTable => ?_, keeps.totalBlocks⟩
                    rw [keeps.mem block below (noTables block noTable),
                      kept.mem block below noTable]
                  rw [write, Option.bind_some] at run
                  cases written with
                  | false =>
                    obtain ⟨-, rfl⟩ := Prod.mk.inj (Option.some.inj run)
                    exact both
                  | true =>
                    obtain ⟨-, rfl⟩ := Prod.mk.inj (Option.some.inj run)
                    cases writeThrough with
                    | false => exact both
                    | true => exact ⟨both.mem, both.totalBlocks⟩

/-- The counter and the block bitmap of a store after a number of releases. The counter is a 64-bit
number. -/
structure Counted (totalBlocks released : Nat) (s : Store) : Prop where
  /-- The bitmap is in place. -/
  bitmapped : s.Bitmapped
  /-- The size of the image. -/
  size : s.totalBlocks = totalBlocks
  /-- The counter and two a release make the clear bits and the blocks of the format. -/
  counter : ∃ superblock, superblockRead s = some superblock ∧ superblock.freeBlocks < 2 ^ 64 ∧
    superblock.freeBlocks + 2 * released ≡ s.freeCount + formattedBlocks totalBlocks [MOD 2 ^ 64]

/-- Pages that are the same up to the block bitmap keep its bits. -/
theorem Filled.keeps {bound : Nat} (filled : Filled s bound)
    (total : s'.totalBlocks = s.totalBlocks)
    (mem : ∀ block, 1 ≤ block → block ≤ bitmapBlocks s.totalBlocks → s'.mem block = s.mem block) :
    Filled s' bound := by
  have positive : ∀ pnum, 1 ≤ bitmapPage pnum := fun pnum => Nat.le_add_right 1 _
  constructor
  · intro pnum inside
    rw [total] at inside ⊢
    rw [mem _ (positive pnum) (bitmapPage_le inside)]
    exact filled.bitmapped pnum inside
  · intro pnum page
    rw [total] at page
    unfold Store.bit
    rw [mem _ (positive pnum) page]
    exact filled.bits pnum page

/-- With the first blocks allocated the others are free. -/
theorem Filled.freeCount {bound : Nat} (filled : Filled s bound) (inside : bound ≤ s.totalBlocks) :
    s.freeCount + bound = s.totalBlocks := by
  have free : s.freeSet = Finset.Ico bound s.totalBlocks := by
    ext pnum
    rw [mem_freeSet, Finset.mem_Ico]
    constructor
    · rintro ⟨below, clear⟩
      rw [filled.bits pnum (bitmapPage_le below)] at clear
      have notBelow : ¬ pnum < bound := of_decide_eq_false (Option.some.inj clear)
      exact ⟨Nat.le_of_not_lt notBelow, below⟩
    · rintro ⟨after, below⟩
      rw [filled.bits pnum (bitmapPage_le below), decide_eq_false (Nat.not_lt.mpr after)]
      exact ⟨below, rfl⟩
  unfold Store.freeCount
  rw [free, Nat.card_Ico]
  omega

/-- The steps of the end of `disk_format`: the root node is in the first free block, then there is
its inode, the node with its value, and the superblock. -/
theorem RootReady.steps {host : Host} {totalBlocks : Nat} {tagged ready : Store}
    {superblock : Superblock} (state : RootReady totalBlocks tagged ready superblock)
    (run : formatRoot host superblock ready = some s) :
    rootPage totalBlocks < totalBlocks ∧ ∃ (allocated : Store) (node : BTreeNode)
        (number : Option Nat) (entered : Store) (root : BTreeNode),
      Filled allocated (rootPage totalBlocks + 1) ∧ KeepsRegions ready allocated ∧
      inodeAllocate host (allocated.put (rootPage totalBlocks) (.btreeNode node)) rootMode true =
        some (number, entered) ∧
      s = superblockWrite (entered.put (rootPage totalBlocks) (.btreeNode root))
        { superblock with
          rootInode := number.getD (2 ^ 64 - 1), btreeRoot := rootPage totalBlocks } true := by
  have total : ready.totalBlocks = totalBlocks :=
    state.kept.totalBlocks.trans state.regions.totalBlocks
  have positive : rootPage totalBlocks ≠ 0 := by
    unfold rootPage
    omega
  have inside : rootPage totalBlocks < totalBlocks := by
    by_contra outside
    have full := state.filled.full (by omega)
    have noRoot : btreeNodeNew ready false = none := by
      rw [btreeNodeNew, btreeNodeCreate, full]
      rfl
    rw [formatRoot, noRoot] at run
    cases run
  obtain ⟨s1, alloc, filled1, kept1⟩ := state.filled.alloc (by rw [total]; exact inside)
  have total1 : s1.totalBlocks = totalBlocks := kept1.totalBlocks.trans total
  let node := freshNode (rootPage totalBlocks) false
    (s1.residue.nodeType (s1.mem (rootPage totalBlocks)))
  let rooted := s1.put (rootPage totalBlocks) (.btreeNode node)
  have new : btreeNodeNew ready false = some (rootPage totalBlocks, rooted) := by
    have inside1 : rootPage totalBlocks < s1.totalBlocks := by omega
    simp only [btreeNodeNew, btreeNodeCreate, alloc, positive, Store.get_of_lt inside1, if_false,
      Option.bind_eq_bind, Option.bind_some]
    rfl
  rw [formatRoot, new, Option.bind_eq_bind, Option.bind_some] at run
  change (inodeAllocate host rooted rootMode true).bind _ = _ at run
  cases allocate : inodeAllocate host rooted rootMode true with
  | none =>
    rw [allocate] at run
    cases run
  | some result =>
    obtain ⟨number, s2⟩ := result
    rw [allocate, Option.bind_some] at run
    change (btreeNodeModify s2 (rootPage totalBlocks) _).bind _ = _ at run
    cases load : btreeNodeLoad s2 (rootPage totalBlocks) with
    | none =>
      rw [btreeNodeModify, load] at run
      cases run
    | some former =>
      rw [btreeNodeModify, load] at run
      exact ⟨inside, s1, node, number, s2, { former with value := number.getD (2 ^ 64 - 1) },
        filled1, kept1, allocate, (Option.some.inj run).symm⟩

/-- `disk_format` leaves a counter of all blocks. -/
theorem formatRoot_counted {host : Host} {totalBlocks : Nat} {tagged ready : Store}
    {superblock : Superblock} (size : totalBlocks < 2 ^ 64)
    (state : RootReady totalBlocks tagged ready superblock)
    (run : formatRoot host superblock ready = some s) :
    formattedBlocks totalBlocks ≤ totalBlocks ∧ Filled s (formattedBlocks totalBlocks) ∧
      Counted totalBlocks 0 s := by
  obtain ⟨inside, s1, node, number, s2, root, filled1, kept1, allocate, rfl⟩ := state.steps run
  have behindBitmap : bitmapBlocks totalBlocks < journalStart totalBlocks := by
    unfold journalStart tableStart
    omega
  have positive : rootPage totalBlocks ≠ 0 := by
    unfold rootPage
    omega
  have total1 : s1.totalBlocks = totalBlocks :=
    kept1.totalBlocks.trans (state.kept.totalBlocks.trans state.regions.totalBlocks)
  let rooted := s1.put (rootPage totalBlocks) (.btreeNode node)
  obtain ⟨former, read, initial⟩ := state.former
  obtain ⟨former1, read1, size1, start1⟩ := kept1.superblock former read
  have rootBehind : bitmapBlocks totalBlocks < rootPage totalBlocks := by
    unfold rootPage
    omega
  have readRooted : superblockRead rooted = some former1 := by
    unfold superblockRead at read1 ⊢
    rw [Store.put_other _ _ _ _ (Ne.symm positive)]
    exact read1
  have kept2 : KeepsBelow former1.inodeBitmap rooted s2 := by
    rw [inodeAllocate, readRooted, Option.bind_eq_bind, Option.bind_some] at allocate
    exact inodeAllocateFrom_keepsBelow allocate
  rw [start1, initial.start] at kept2
  let s3 := s2.put (rootPage totalBlocks) (.btreeNode root)
  have page0 : s3.mem 0 = .super former1 := by
    have page := superblockRead_page readRooted
    rw [Store.put_other _ _ _ _ (Ne.symm positive),
      kept2.mem 0 (by omega) (fun slots tag => by rw [page] at tag; cases tag)]
    exact page
  have bitmapPages : ∀ block, 1 ≤ block → block ≤ bitmapBlocks totalBlocks →
      s3.mem block = s1.mem block := by
    intro block after before
    have apart : block ≠ rootPage totalBlocks := by omega
    have word : ∃ words, s1.mem block = .bitmap words := by
      have pnum : (block - 1) * usableBlockSize < totalBlocks ∧
          bitmapPage ((block - 1) * usableBlockSize) = block := by
        unfold bitmapBlocks at before
        unfold bitmapPage usableBlockSize
        omega
      obtain ⟨-, words, tag⟩ := filled1.bitmapped _ (by rw [total1]; exact pnum.1)
      rw [pnum.2] at tag
      exact ⟨words, tag⟩
    obtain ⟨words, tag⟩ := word
    have page : rooted.mem block = s1.mem block := Store.put_other _ _ _ _ apart
    rw [Store.put_other _ _ _ _ apart, kept2.mem block (by omega)
      (fun slots table => by rw [page, tag] at table; cases table), page]
  let final : Superblock := { superblock with
    rootInode := number.getD (2 ^ 64 - 1), btreeRoot := rootPage totalBlocks }
  have memFinal : (superblockWrite s3 final true).mem = (s3.put 0 (.super final)).mem :=
    superblockWrite_mem page0 _ _
  have totalFinal : (superblockWrite s3 final true).totalBlocks = s1.totalBlocks := by
    rw [superblockWrite_totalBlocks, Store.put_totalBlocks, kept2.totalBlocks]
    rfl
  have filled : Filled (superblockWrite s3 final true) (rootPage totalBlocks + 1) := by
    apply filled1.keeps totalFinal
    intro block after before
    rw [total1] at before
    rw [memFinal, Store.put_other _ _ _ _ (by omega)]
    exact bitmapPages block after before
  have sizeFinal : (superblockWrite s3 final true).totalBlocks = totalBlocks :=
    totalFinal.trans total1
  refine ⟨inside, filled, filled.bitmapped, sizeFinal, final, ?_, ?_, ?_⟩
  · apply superblockRead_of_page
    rw [memFinal, Store.put_same]
  · show superblock.freeBlocks < 2 ^ 64
    rw [state.freeBlocks]
    exact size
  · have count := filled.freeCount (by rw [sizeFinal]; exact inside)
    have counter : final.freeBlocks = totalBlocks := state.freeBlocks
    show final.freeBlocks + 2 * 0 ≡ (superblockWrite s3 final true).freeCount +
      (rootPage totalBlocks + 1) [MOD 2 ^ 64]
    rw [counter, count, sizeFinal]
    exact Nat.ModEq.refl _

/-- On a zeroed image `disk_format` leaves a counter of all blocks. -/
theorem diskFormat_counted {host : Host} {residue : Residue} {totalBlocks : Nat}
    {volumeName : CString} (size : totalBlocks < 2 ^ 64)
    (format : diskFormat host (zeroImage totalBlocks residue) volumeName = some (true, s)) :
    formattedBlocks totalBlocks ≤ totalBlocks ∧ Filled s (formattedBlocks totalBlocks) ∧
      Counted totalBlocks 0 s := by
  obtain ⟨-, tagged, ready, superblock, state, run⟩ := diskFormat_root format
  exact formatRoot_counted size state run

/-- The releases of a run. -/
def releases (calls : List Call) : Nat := (calls.filter fun call => call matches .release _).length

/-- Every release of a run is of a block that is allocated then. -/
def FreesAllocated : Store → List Call → Prop
  | _, [] => True
  | s, call :: calls =>
    (∀ pnum, call = .release pnum → pnum < s.totalBlocks ∧ s.bit pnum = some true) ∧
      ∀ result s', allocatorStep s call = some (result, s') → FreesAllocated s' calls

/-- What a call releases can be looked up. -/
instance Call.decidableReleases (s : Store) : (call : Call) →
    Decidable (∀ pnum, call = .release pnum → pnum < s.totalBlocks ∧ s.bit pnum = some true)
  | .take => isTrue nofun
  | .release pnum =>
    decidable_of_iff (pnum < s.totalBlocks ∧ s.bit pnum = some true)
      ⟨fun allocated _ same => Call.release.inj same ▸ allocated, fun all => all pnum rfl⟩

/-- A run can be performed. -/
instance FreesAllocated.decidable : (s : Store) → (calls : List Call) →
    Decidable (FreesAllocated s calls)
  | _, [] => isTrue trivial
  | s, call :: calls =>
    haveI := FreesAllocated.decidable
    decidable_of_iff ((∀ pnum, call = .release pnum → pnum < s.totalBlocks ∧ s.bit pnum = some true) ∧
        ∀ run ∈ allocatorStep s call, FreesAllocated run.2 calls)
      (and_congr_right' ⟨fun all result s' step => all (result, s') step,
        fun all run step => all run.1 run.2 step⟩)

/-- Releasing an allocated block adds it to the free ones. -/
theorem BitChange.freeCount_release {pnum : Nat} (change : BitChange s pnum false s')
    (inside : pnum < s.totalBlocks) (taken : s.bit pnum = some true) :
    s'.freeCount = s.freeCount + 1 := by
  have inserted : s'.freeSet = insert pnum s.freeSet := by
    ext other
    rw [Finset.mem_insert, mem_freeSet, mem_freeSet, change.totalBlocks, change.bits]
    by_cases same : other = pnum
    · simp [same, inside]
    · simp [same]
  have absent : pnum ∉ s.freeSet := by
    rw [mem_freeSet, taken]
    simp
  unfold Store.freeCount
  rw [inserted, Finset.card_insert_of_notMem absent]

/-- The decrement of the counter. -/
theorem decrementFree_modEq {superblock : Superblock} (small : superblock.freeBlocks < 2 ^ 64) :
    superblock.decrementFree.freeBlocks < 2 ^ 64 ∧
      superblock.decrementFree.freeBlocks + 1 ≡ superblock.freeBlocks [MOD 2 ^ 64] := by
  have less : superblock.decrementFree.freeBlocks =
      if superblock.freeBlocks = 0 then 2 ^ 64 - 1 else superblock.freeBlocks - 1 := rfl
  rw [less]
  by_cases zero : superblock.freeBlocks = 0
  · rw [if_pos zero, zero]
    exact ⟨by decide, by decide⟩
  · rw [if_neg zero]
    refine ⟨by omega, ?_⟩
    rw [show superblock.freeBlocks - 1 + 1 = superblock.freeBlocks by omega]

/-- Every call decrements the counter. -/
theorem BitChange.counter {pnum : Nat} {value : Bool} (change : BitChange s pnum value s')
    {superblock : Superblock} (read : superblockRead s = some superblock)
    (small : superblock.freeBlocks < 2 ^ 64) :
    ∃ superblock', superblockRead s' = some superblock' ∧ superblock'.freeBlocks < 2 ^ 64 ∧
      superblock'.freeBlocks + 1 ≡ superblock.freeBlocks [MOD 2 ^ 64] := by
  have read' := change.superblock
  rw [read] at read'
  exact ⟨superblock.decrementFree, read', decrementFree_modEq small⟩

/-- One call keeps the count, with one more release if it is one. -/
theorem allocatorStep_counted {totalBlocks released : Nat} (counted : Counted totalBlocks released s)
    {call : Call} {result : Nat}
    (allocated : ∀ pnum, call = .release pnum → pnum < s.totalBlocks ∧ s.bit pnum = some true)
    (step : allocatorStep s call = some (result, s')) :
    Counted totalBlocks (released + releases [call]) s' := by
  obtain ⟨superblock, read, small, count⟩ := counted.counter
  cases call with
  | take =>
    rcases allocPage_scan counted.bitmapped with
      ⟨pnum, s1, run, inside, clear, -, change⟩ | ⟨run, -⟩
    · obtain ⟨-, rfl⟩ := Prod.mk.inj (Option.some.inj (run.symm.trans step))
      obtain ⟨superblock', read', small', less⟩ := change.counter read small
      have free := change.freeCount inside clear
      refine ⟨change.bitmapped counted.bitmapped, change.totalBlocks.trans counted.size,
        superblock', read', small', ?_⟩
      have sum : superblock'.freeBlocks + 2 * released + 1 ≡
          s1.freeCount + formattedBlocks totalBlocks + 1 [MOD 2 ^ 64] := by
        calc superblock'.freeBlocks + 2 * released + 1
            = superblock'.freeBlocks + 1 + 2 * released := by omega
          _ ≡ superblock.freeBlocks + 2 * released [MOD 2 ^ 64] := less.add_right _
          _ ≡ s.freeCount + formattedBlocks totalBlocks [MOD 2 ^ 64] := count
          _ = s1.freeCount + formattedBlocks totalBlocks + 1 := by omega
      exact Nat.ModEq.add_right_cancel' 1 sum
    · obtain ⟨-, rfl⟩ := Prod.mk.inj (Option.some.inj (run.symm.trans step))
      exact ⟨counted.bitmapped, counted.size, superblock, read, small, count⟩
  | release pnum =>
    obtain ⟨inside, taken⟩ := allocated pnum rfl
    obtain ⟨s1, run, change⟩ := freePage_spec counted.bitmapped inside
    have same : s1 = s' := by
      rw [allocatorStep, run] at step
      exact (Prod.mk.inj (Option.some.inj step)).2
    subst same
    obtain ⟨superblock', read', small', less⟩ := change.counter read small
    have free := change.freeCount_release inside taken
    refine ⟨change.bitmapped counted.bitmapped, change.totalBlocks.trans counted.size,
      superblock', read', small', ?_⟩
    calc superblock'.freeBlocks + 2 * (released + 1)
        = superblock'.freeBlocks + 1 + (2 * released + 1) := by omega
      _ ≡ superblock.freeBlocks + (2 * released + 1) [MOD 2 ^ 64] := less.add_right _
      _ = superblock.freeBlocks + 2 * released + 1 := by omega
      _ ≡ s.freeCount + formattedBlocks totalBlocks + 1 [MOD 2 ^ 64] := count.add_right 1
      _ = s1.freeCount + formattedBlocks totalBlocks := by omega

/-- A run keeps the count. -/
theorem allocatorRun_counted {totalBlocks released : Nat} (counted : Counted totalBlocks released s)
    {calls : List Call} {results : List Nat} (allocated : FreesAllocated s calls)
    (run : allocatorRun s calls = some (results, s')) :
    Counted totalBlocks (released + releases calls) s' := by
  induction calls generalizing s released results with
  | nil =>
    obtain ⟨-, rfl⟩ := Prod.mk.inj (Option.some.inj run)
    exact counted
  | cons call calls ih =>
    rw [allocatorRun] at run
    cases step : allocatorStep s call with
    | none =>
      rw [step] at run
      cases run
    | some first =>
      obtain ⟨result, middle⟩ := first
      rw [step, Option.bind_eq_bind, Option.bind_some] at run
      change (allocatorRun middle calls).bind _ = _ at run
      cases rest : allocatorRun middle calls with
      | none =>
        rw [rest] at run
        cases run
      | some last =>
        obtain ⟨later, final⟩ := last
        rw [rest] at run
        obtain ⟨-, rfl⟩ := Prod.mk.inj (Option.some.inj run)
        have state := ih (allocatorStep_counted counted allocated.1 step)
          (allocated.2 result middle step) rest
        have sum : releases [call] + releases calls = releases (call :: calls) := by
          unfold releases
          rw [← List.length_append, ← List.filter_append, List.singleton_append]
        rw [Nat.add_assoc, sum] at state
        exact state

/-- The counter is exact if and only if two a release make the blocks of the format. -/
theorem Counted.exact {totalBlocks released : Nat} (counted : Counted totalBlocks released s)
    (small : totalBlocks < 2 ^ 64) (room : formattedBlocks totalBlocks ≤ totalBlocks) :
    (∃ superblock, superblockRead s = some superblock ∧ superblock.freeBlocks = s.freeCount) ↔
      2 * released % 2 ^ 64 = formattedBlocks totalBlocks := by
  obtain ⟨superblock, read, bound, count⟩ := counted.counter
  have free : s.freeCount ≤ totalBlocks := by
    rw [← counted.size, ← Finset.card_range s.totalBlocks]
    exact Finset.card_filter_le _ _
  unfold Nat.ModEq at count
  constructor
  · rintro ⟨other, read', exact⟩
    obtain rfl : superblock = other := Option.some.inj (read.symm.trans read')
    rw [exact] at count
    have cancelled : 2 * released ≡ formattedBlocks totalBlocks [MOD 2 ^ 64] :=
      Nat.ModEq.add_left_cancel' _ count
    rw [cancelled, Nat.mod_eq_of_lt (by omega)]
  · intro half
    refine ⟨superblock, read, ?_⟩
    omega

/-- After `disk_format` and any calls of `alloc_page` and of `free_page` of allocated blocks,
the counter is the number of clear bits if and only if twice the releases, in 64 bits, make the
number of blocks that `disk_format` allocates. -/
theorem freeBlocks_exact_iff {host : Host} {residue : Residue} {totalBlocks : Nat}
    {volumeName : CString} (size : totalBlocks < 2 ^ 64)
    (format : diskFormat host (zeroImage totalBlocks residue) volumeName = some (true, s))
    {calls : List Call} {results : List Nat} (allocated : FreesAllocated s calls)
    (run : allocatorRun s calls = some (results, s')) :
    (∃ superblock, superblockRead s' = some superblock ∧ superblock.freeBlocks = s'.freeCount) ↔
      2 * releases calls % 2 ^ 64 = formattedBlocks totalBlocks := by
  obtain ⟨room, -, counted⟩ := diskFormat_counted size format
  have final := allocatorRun_counted counted allocated run
  rw [Nat.zero_add] at final
  exact final.exact size room

end

/-- Two blocks are taken and released, twice. -/
def takeTwice : List Call :=
  [.take, .take, .release 8, .release 9, .take, .take, .release 9, .release 8]

/-- After four releases on an image of 200 blocks, of which `disk_format` allocates 8, the counter is
exact. -/
theorem freeBlocks_exact_iff_take :
    ∃ s results s', diskFormat ⟨1000, 1000, 0⟩ (zeroImage 200 ⟨fun _ => 0, fun _ _ => 0⟩) [] =
        some (true, s) ∧
      allocatorRun s takeTwice = some (results, s') ∧
      ∃ superblock, superblockRead s' = some superblock ∧ superblock.freeBlocks = s'.freeCount := by
  have computed : (diskFormat ⟨1000, 1000, 0⟩
      (zeroImage 200 ⟨fun _ => 0, fun _ _ => 0⟩) []).any (fun run =>
      decide (run.1 = true ∧ FreesAllocated run.2 takeTwice ∧
        (allocatorRun run.2 takeTwice).isSome = true)) = true := by
    decide +kernel
  obtain ⟨⟨done, s⟩, format, checked⟩ := (Option.any_eq_true _ _).mp computed
  obtain ⟨rfl, allocated, result⟩ := of_decide_eq_true checked
  obtain ⟨⟨results, s'⟩, run⟩ := Option.isSome_iff_exists.mp result
  exact ⟨s, results, s', format, run,
    (freeBlocks_exact_iff (by decide) format allocated run).mpr (by decide)⟩

/-- Right after `disk_format` of an image of 200 blocks the counter is 200, with 192 clear bits. -/
theorem freeBlocks_formatted_false :
    ∃ s superblock, diskFormat ⟨1000, 1000, 0⟩ (zeroImage 200 ⟨fun _ => 0, fun _ _ => 0⟩) [] =
        some (true, s) ∧ superblockRead s = some superblock ∧ superblock.freeBlocks = 200 ∧
      s.freeCount = 192 := by
  obtain ⟨s, format, -⟩ := diskFormat_phases ⟨1000, 1000, 0⟩ ⟨fun _ => 0, fun _ _ => 0⟩
    (⟨by decide, by decide, by decide⟩ : Formattable 200) (show [].length ≤ 31 by decide)
  obtain ⟨room, filled, counted⟩ := diskFormat_counted (by decide) format
  have blocks : formattedBlocks 200 = 8 := by decide
  have clear := filled.freeCount (by rw [counted.size]; exact room)
  rw [counted.size, blocks] at clear
  have free : s.freeCount = 192 := by omega
  obtain ⟨superblock, read, small, count⟩ := counted.counter
  rw [free, blocks] at count
  refine ⟨s, superblock, format, read, ?_, free⟩
  unfold Nat.ModEq at count
  omega

end Nbtrfs
