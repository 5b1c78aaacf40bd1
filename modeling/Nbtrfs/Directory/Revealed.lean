import Nbtrfs.Directory.Extended
import Nbtrfs.Namespace.Created

/-!
# What a new directory block reveals

The slots of a new directory block behind the entry that is filled in keep what the block held
before it was allocated. A slot there with a nonzero `active` flag is an entry to
`directory_exists_entry`, to `directory_list` and to `_link`, so the block can give the directory
names that nobody added.
-/

namespace Nbtrfs

/-- Whether `directory_exists_entry` finds a name. -/
def Live (s : Store) (path name : CString) : Prop :=
  ∃ entry, directoryExistsEntry s path name = some (some entry)

/-- What `_link` returns, and what a search of the target finds behind it. -/
def linkBinding (locals : Locals) (s : Store) (source target : CString) (writeThrough : Bool) :
    Option (Bool × Option InodeBtreePair) :=
  (link quietAppend locals s source target writeThrough).map fun (linked, s) =>
    (linked, itemSearch s target)

/-- Adding a name to a directory tells nothing of what a free block held: the readers and `_link`
have the same results for any two contents, and the name is the only new one. -/
def RevealsNothing (locals : Locals) (s : Store) (path name : CString) (targetInode type : Nat)
    (writeThrough : Bool) (block : Nat) : Prop :=
  ∀ former former' s1 s2,
    directoryAddEntry quietAppend locals (s.put block former) path name targetInode type
      writeThrough = some (true, s1) →
    directoryAddEntry quietAppend locals (s.put block former') path name targetInode type
      writeThrough = some (true, s2) →
    (∀ other, directoryExistsEntry s1 path other = directoryExistsEntry s2 path other) ∧
      directoryList s1 path = directoryList s2 path ∧
      (∀ source target through, parentPath target (countL target) = path →
        linkBinding locals s1 source target through = linkBinding locals s2 source target through) ∧
      ∀ other, 0 ∉ other → (Live s1 path other ↔ Live s path other ∨ other = name)

/-- A crowded directory and the free block that `alloc_page` hands out next. A name can be added,
and the path still leads to the directory, whatever that block holds. -/
structure Extends (locals : Locals) (s : Store) (path name : CString) (targetInode type : Nat)
    (writeThrough : Bool) (block : Nat) (pair : InodeBtreePair) (node : Inode) (m : Nat)
    (bytes : Nat → Nat → UInt8) : Prop where
  /-- The path leads to the directory. -/
  search : itemSearch s path = some pair
  /-- It is one. -/
  isDirectory : pair.isDirectory path = true
  /-- Its inode. -/
  number : node.inodeNumber = pair.inodeNumber
  /-- Its blocks. -/
  holding : Holding s node m bytes
  /-- They have no entry to use. -/
  crowded : Crowded m bytes
  /-- The next block. -/
  alloc : ∃ s1, allocPage s = some (block, s1)
  /-- It is one. -/
  nonzero : block ≠ 0
  /-- The name is a new one. -/
  absent : ¬ Live s path name
  /-- The path does not lead through the free block. -/
  around : ∀ content, itemSearch (s.put block (.data content)) path = some pair
  /-- With a free first slot the name is added. -/
  adds : ∀ content, entryActive content (entryOffset m 0) = false →
    ∃ s', directoryAddEntry quietAppend locals (s.put block (.data content)) path name targetInode
      type writeThrough = some (true, s') ∧ itemSearch s' path = some pair

/-- A block with nothing but a name in its second slot. -/
def forgedBlock (m : Nat) (name : CString) : Nat → UInt8 :=
  overlay (overlay (fun _ => 0) (entryOffset m 1 + nameOffset) (name ++ [0]))
    (entryOffset m 1 + activeOffset) [1]

/-- Names of two bytes, by number. -/
def twoBytes (k : Nat) : CString := [UInt8.ofNat (k / 255 + 1), UInt8.ofNat (k % 255 + 1)]

section

variable {locals : Locals} {s : Store} {path name : CString} {targetInode type block m : Nat}
  {writeThrough : Bool} {pair : InodeBtreePair} {node : Inode} {bytes : Nat → Nat → UInt8}

/-- A slot depends on its bytes only. -/
theorem slotHas_congr {former other : Nat → UInt8} {offset : Nat}
    (same : ∀ position, offset ≤ position → former position = other position) :
    slotHas former name offset = slotHas other name offset := by
  have named : segment former (offset + nameOffset) (name.length + 1) =
      segment other (offset + nameOffset) (name.length + 1) :=
    segment_congr fun index _ => same _ (by omega)
  have active : former (offset + activeOffset) = other (offset + activeOffset) := same _ (by omega)
  rw [slotHas, slotHas, nameMatches, nameMatches, entryActive, entryActive, named, active]

/-- The first slot of a forged block is free. -/
theorem forgedBlock_free (m : Nat) (name : CString) :
    entryActive (forgedBlock m name) (entryOffset m 0) = false := by
  have next : entryOffset m 1 = entryOffset m 0 + dirEntrySize := rfl
  have sizes : activeOffset < dirEntrySize := by decide
  have zero : forgedBlock m name (entryOffset m 0 + activeOffset) = 0 := by
    unfold forgedBlock
    rw [overlay_outside _ _ _ (Or.inl (by omega)), overlay_outside _ _ _ (Or.inl (by omega))]
  rw [entryActive, zero]
  rfl

/-- The second one has the name. -/
theorem forgedBlock_has (m : Nat) (short : name.length < nameMax) :
    slotHas (forgedBlock m name) name (entryOffset m 1) = true := by
  have apart : nameOffset + nameMax = activeOffset := rfl
  have named : segment (forgedBlock m name) (entryOffset m 1 + nameOffset) (name.length + 1) =
      name ++ [0] := by
    have below : segment (forgedBlock m name) (entryOffset m 1 + nameOffset) (name.length + 1) =
        segment (overlay (fun _ => 0) (entryOffset m 1 + nameOffset) (name ++ [0]))
          (entryOffset m 1 + nameOffset) (name.length + 1) :=
      segment_congr fun index small => overlay_outside _ _ _ (Or.inl (by omega))
    have whole := segment_overlay (fun _ => (0 : UInt8)) (entryOffset m 1 + nameOffset) (name ++ [0])
    rw [List.length_append, List.length_singleton] at whole
    rw [below, whole]
  have flag : forgedBlock m name (entryOffset m 1 + activeOffset) = 1 := by
    have inside := overlay_inside (overlay (fun _ => 0) (entryOffset m 1 + nameOffset) (name ++ [0]))
      (entryOffset m 1 + activeOffset) [1] (show 0 < [(1 : UInt8)].length by decide)
    exact inside
  rw [slotHas, nameMatches, named, entryActive, flag, decide_eq_true rfl]
  rfl

/-- The names of two bytes are strings of their own. -/
theorem twoBytes_injOn : Set.InjOn twoBytes (Finset.range 6700) := by
  intro k inside k' inside' same
  have below : k < 6700 := Finset.mem_range.mp inside
  have below' : k' < 6700 := Finset.mem_range.mp inside'
  obtain ⟨first, second⟩ := List.cons.inj same
  have high := congrArg UInt8.toNat first
  have low := congrArg UInt8.toNat (List.cons.inj second).1
  simp only [UInt8.toNat_ofNat'] at high low
  omega

/-- They have no zero byte. -/
theorem twoBytes_string {k : Nat} (small : k < 6700) : 0 ∉ twoBytes k := by
  intro inside
  have nonzero : ∀ n < 256, 0 < n → (0 : UInt8) ≠ UInt8.ofNat n := by
    intro n below positive same
    have value := congrArg UInt8.toNat same
    simp only [UInt8.toNat_ofNat'] at value
    rw [Nat.mod_eq_of_lt below] at value
    exact absurd value (Nat.ne_of_lt positive)
  rcases List.mem_cons.mp inside with first | rest
  · exact nonzero _ (by omega) (by omega) first
  · exact nonzero _ (by omega) (by omega) (List.mem_singleton.mp rest)

/-- Some name is in no slot of 511 blocks. -/
theorem exists_fresh_name (bytes : Nat → Nat → UInt8) (name : CString) (few : m ≤ pointersPerPage) :
    ∃ fresh : CString, 0 ∉ fresh ∧ fresh.length < nameMax ∧ fresh ≠ name ∧
      ∀ i < m, ∀ j < scanSlots, slotHas (bytes i) fresh (entryOffset i j) = false := by
  have slots : scanSlots = 13 ∧ pointersPerPage = 511 := ⟨rfl, rfl⟩
  let slotName := fun k => segment (bytes (k / scanSlots))
    (entryOffset (k / scanSlots) (k % scanSlots) + nameOffset) 2
  let taken := (Finset.range (scanSlots * m)).image slotName ∪ {name}
  have size : taken.card ≤ scanSlots * m + 1 := by
    calc
      taken.card ≤ ((Finset.range (scanSlots * m)).image slotName).card + ({name} : Finset _).card :=
        Finset.card_union_le _ _
      _ ≤ scanSlots * m + 1 := by
        have image : ((Finset.range (scanSlots * m)).image slotName).card ≤
            (Finset.range (scanSlots * m)).card := Finset.card_image_le
        rw [Finset.card_range] at image
        rw [Finset.card_singleton]
        omega
  have names : ((Finset.range 6700).image twoBytes).card = 6700 := by
    rw [Finset.card_image_of_injOn twoBytes_injOn, Finset.card_range]
  have most : scanSlots * m ≤ 13 * 511 := Nat.mul_le_mul slots.1.le (by omega)
  obtain ⟨fresh, isName, notTaken⟩ := Finset.exists_mem_notMem_of_card_lt_card
    (show taken.card < ((Finset.range 6700).image twoBytes).card by rw [names]; omega)
  obtain ⟨k, below, rfl⟩ := Finset.mem_image.mp isName
  have short : (twoBytes k).length < nameMax := show 2 < 256 by decide
  refine ⟨twoBytes k, twoBytes_string (Finset.mem_range.mp below), short, ?_, ?_⟩
  · rintro rfl
    exact notTaken (Finset.mem_union_right _ (Finset.mem_singleton_self _))
  · intro i inside j slot
    by_contra has
    apply notTaken
    apply Finset.mem_union_left
    rw [Bool.not_eq_false, slotHas, Bool.and_eq_true, nameMatches, decide_eq_true_eq] at has
    have whole : segment (bytes i) (entryOffset i j + nameOffset) 2 = twoBytes k := by
      have split := segment_add (bytes i) (entryOffset i j + nameOffset) 2 1
      rw [show 2 + 1 = (twoBytes k).length + 1 from rfl, has.1] at split
      exact (List.append_inj_left split.symm rfl)
    refine Finset.mem_image.mpr ⟨scanSlots * i + j, ?_, ?_⟩
    · rw [Finset.mem_range]
      have next : scanSlots * (i + 1) ≤ scanSlots * m := Nat.mul_le_mul_left _ inside
      rw [Nat.mul_succ] at next
      omega
    · have place : (scanSlots * i + j) / scanSlots = i ∧ (scanSlots * i + j) % scanSlots = j := by
        rw [slots.1] at slot ⊢
        omega
      dsimp only [slotName]
      rw [place.1, place.2, whole]

/-- What a free block holds does not matter to a directory, nor to `alloc_page`. -/
theorem Holding.forged (holding : Holding s node m bytes) {s1 : Store}
    (alloc : allocPage s = some (block, s1)) (nonzero : block ≠ 0) (content : Block) :
    Holding (s.put block content) node m bytes ∧
      ∃ s1, allocPage (s.put block content) = some (block, s1) := by
  obtain ⟨superblock, view⟩ := holding.view
  rcases allocPage_cases view.formatted alloc with ⟨zero, -, -⟩ | allocated
  · exact absurd zero nonzero
  have noPage := view.formatted.not_page allocated.free
  have samePages : SamePages s (s.put block content) :=
    ⟨rfl, fun pnum inside => Store.put_other _ _ _ _ (noPage pnum inside)⟩
  have change : ∀ page slot, Undisturbed (· = block) page slot s (s.put block content) :=
    fun page slot => undisturbed_put view.formatted nonzero noPage content
  obtain ⟨⟨freeBlocks, journalHead, view'⟩, pointer, kept⟩ := view.undisturbed change
    (fun i inside same => allocated.notTaken (view.set i inside) same)
    (fun linked same => allocated.notTaken (view.indirect linked).2.1 same)
    (fun same => allocated.notTaken view.tableSet same)
  refine ⟨⟨⟨_, view'⟩, fun i inside => ?_⟩, allocPage_same view.formatted samePages alloc nonzero⟩
  rw [pointer i, kept i inside, holding.data i inside]

/-- The inode of a holding is read. -/
theorem Holding.reload (holding : Holding s node m bytes)
    (number : node.inodeNumber = pair.inodeNumber) :
    inodeReload s pair.inodeNumber zeroInode = some node := by
  obtain ⟨superblock, view⟩ := holding.view
  rw [inodeReload, ← number, view.inodeRead]
  rfl

/-- `directory_exists_entry` scans the blocks of a directory. -/
theorem Holding.exists_eq (holding : Holding s node m bytes)
    (number : node.inodeNumber = pair.inodeNumber) (search : itemSearch s path = some pair)
    (isDirectory : pair.isDirectory path = true) (name : CString) :
    directoryExistsEntry s path name = existsEntryFrom s node name scanBlocks 0 0 0 := by
  rw [directoryExistsEntry, search, Option.bind_eq_bind, Option.bind_some, if_pos isDirectory,
    holding.reload number, Option.bind_eq_bind, Option.bind_some]

/-- With an `entry_count` of 0 nothing is found. -/
theorem existsEntryFrom_empty (holding : Holding s node m bytes) (positive : 0 < m)
    (empty : entryCount (bytes 0) = 0) (left : Nat) :
    existsEntryFrom s node name (left + 1) 0 0 0 = some none := by
  obtain ⟨mapped, get, nonzero, held⟩ := holding.get positive
  rw [existsEntryFrom, get, Option.bind_eq_bind, Option.bind_some]
  dsimp only
  rw [if_neg nonzero, held, Option.bind_eq_bind, Option.bind_some]
  dsimp only
  rw [if_pos rfl, empty]
  rfl

/-- A run of `directory_add_entry` with a block that holds some bytes, and the directory behind
it. -/
theorem Extends.run (extends' : Extends locals s path name targetInode type writeThrough block pair
      node m bytes) {content : Nat → UInt8}
    (free : entryActive content (entryOffset m 0) = false) :
    ∃ s' node' bytes', directoryAddEntry quietAppend locals (s.put block (.data content)) path name
        targetInode type writeThrough = some (true, s') ∧
      (∀ other, directoryExistsEntry s' path other = existsEntryFrom s' node' other scanBlocks 0 0 0) ∧
      Holding s' node' (min (m + 1) pointersPerPage) bytes' ∧
      entryCount (bytes' 0) = ((if m = 0 then 0 else entryCount (bytes 0)) + 1) % 2 ^ 16 ∧
      (∀ i < m, ∀ position, entryOffset i 0 ≤ position → bytes' i position = bytes i position) ∧
      (m < pointersPerPage → ∀ position, entryOffset m 1 ≤ position →
        bytes' m position = content position) := by
  obtain ⟨s1, alloc⟩ := extends'.alloc
  obtain ⟨holding, s2, alloc'⟩ := extends'.holding.forged alloc extends'.nonzero (.data content)
  obtain ⟨s', run, search⟩ := extends'.adds content free
  obtain ⟨node', bytes', number, holding', counted, former, stale⟩ :=
    directoryAddEntry_extended (extends'.around content) extends'.isDirectory
      (holding.reload extends'.number) holding extends'.crowded alloc' extends'.nonzero
      (Store.put_same _ _ _) free run
  refine ⟨s', node', bytes', run, fun other => ?_, holding', counted, former, stale⟩
  exact holding'.exists_eq (number.trans extends'.number) search extends'.isDirectory other

/-- Adding a name to a crowded directory reveals what the new block held, in every state: a name in
the second slot is found afterwards. Where `entry_count` wraps round to 0, or where the getter does
not see the new block, the added name is not found. -/
theorem directoryAddEntry_reveals (extends' : Extends locals s path name targetInode type
      writeThrough block pair node m bytes) (string : 0 ∉ name) :
    ¬ RevealsNothing locals s path name targetInode type writeThrough block := by
  intro reveals
  have few : m ≤ pointersPerPage := by
    obtain ⟨_, view⟩ := extends'.holding.view
    exact view.bound
  have enough : pointersPerPage + 1 < scanBlocks := by decide
  have positive : 0 < min (m + 1) pointersPerPage := by
    have some_pages : 0 < pointersPerPage := by decide
    omega
  have before := fun other => extends'.holding.exists_eq extends'.number extends'.search
    extends'.isDirectory other
  have blank : entryActive (fun _ => 0) (entryOffset m 0) = false := rfl
  have live : ∀ content s', entryActive content (entryOffset m 0) = false →
      directoryAddEntry quietAppend locals (s.put block (.data content)) path name targetInode type
        writeThrough = some (true, s') →
      ∀ other, 0 ∉ other → (Live s' path other ↔ Live s path other ∨ other = name) :=
    fun content s' _ run => (reveals _ _ s' s' run run).2.2.2
  by_cases wraps : m ≠ 0 ∧ entryCount (bytes 0) + 1 = 2 ^ 16
  · obtain ⟨s', node', bytes', run, after, holding', counted, -⟩ := extends'.run blank
    rw [if_neg wraps.1, wraps.2, Nat.mod_self] at counted
    obtain ⟨entry, found⟩ := (live _ s' blank run name string).mpr (Or.inr rfl)
    obtain ⟨left, rounds⟩ : ∃ left, scanBlocks = left + 1 := ⟨scanBlocks - 1, by omega⟩
    rw [after, rounds, existsEntryFrom_empty holding' positive counted] at found
    cases found
  have counted_more : scanSlots * m <
      ((if m = 0 then 0 else entryCount (bytes 0)) + 1) % 2 ^ 16 := by
    split
    case isTrue zero =>
      rw [zero]
      decide
    case isFalse later =>
      have most := extends'.crowded.count (Nat.pos_of_ne_zero later)
      have width := entryCount_lt (bytes 0)
      have noWrap : entryCount (bytes 0) + 1 ≠ 2 ^ 16 := fun wrap => wraps ⟨later, wrap⟩
      rw [Nat.mod_eq_of_lt (by omega)]
      omega
  rcases Nat.lt_or_eq_of_le few with small | whole
  · obtain ⟨fresh, freshString, short, differs, notTaken⟩ := exists_fresh_name bytes name few
    obtain ⟨s', node', bytes', run, after, holding', counted, -, stale⟩ :=
      extends'.run (forgedBlock_free m fresh)
    have has : slotHas (bytes' m) fresh (entryOffset m 1) = true := by
      rw [slotHas_congr (stale small), forgedBlock_has m short]
    have found : Live s' path fresh := by
      obtain ⟨entry, found⟩ := existsEntryFrom_found holding' (show m < min (m + 1) pointersPerPage
        by omega) (show 1 < scanSlots by decide) has (by rw [counted]; exact counted_more)
        (Nat.zero_le m) (show m < 0 + scanBlocks by omega)
        (fun wrong => absurd wrong (lt_irrefl 0)) (Nat.zero_le _)
      exact ⟨entry, (after fresh).trans found⟩
    rcases (live _ s' (forgedBlock_free m fresh) run fresh freshString).mp found with former | same
    · obtain ⟨entry, former⟩ := former
      rw [before] at former
      exact existsEntryFrom_absent extends'.holding notTaken (Nat.zero_le m) entry former
    · exact differs same
  · -- the added name is in a block that the getter does not see
    obtain ⟨s', node', bytes', run, after, holding', -, former, -⟩ := extends'.run blank
    have seen : min (m + 1) pointersPerPage = m := by omega
    rw [seen] at holding'
    have absent : ∀ i < m, ∀ j < scanSlots, slotHas (bytes' i) name (entryOffset i j) = false := by
      intro i inside j slot
      by_contra has
      rw [Bool.not_eq_false, slotHas_congr fun position behind =>
        former i inside position (by
          have first : entryOffset i 0 ≤ entryOffset i j := by
            unfold entryOffset
            omega
          omega)] at has
      have most := extends'.crowded.count (by omega)
      have below : scanSlots * (i + 1) ≤ scanSlots * m := Nat.mul_le_mul_left _ inside
      have next : scanSlots * (i + 1) = scanSlots * i + scanSlots := Nat.mul_succ _ _
      have slots : 0 < scanSlots := by decide
      obtain ⟨entry, found⟩ := existsEntryFrom_found extends'.holding inside slot has
        (by omega) (Nat.zero_le i) (show i < 0 + scanBlocks by omega)
        (fun wrong => absurd wrong (lt_irrefl 0)) (Nat.zero_le _)
      exact extends'.absent ⟨entry, (before name).trans found⟩
    obtain ⟨entry, found⟩ := (live _ s' blank run name string).mpr (Or.inr rfl)
    rw [after] at found
    exact existsEntryFrom_absent holding' absent (Nat.zero_le m) entry found

end

/-- The empty root directory as a file without blocks. -/
theorem emptyImage_view : FileView emptyImage emptyLayout zeroInode 0 where
  formatted := emptyForest_held.owned.formatted
  width := show 400 ≤ 2 ^ 64 by decide
  read := rfl
  table := show 3 < 400 by decide
  tableSet := by decide +kernel
  slot := ⟨_, rfl, rfl⟩
  indirect linked := absurd rfl linked
  unmapped index _ _ := by
    unfold blockPointer
    split
    · rfl
    · exact if_pos rfl
  nonzero _ below := absurd below (Nat.not_lt_zero _)
  inside _ below := absurd below (Nat.not_lt_zero _)
  set _ below := absurd below (Nat.not_lt_zero _)
  data _ below := absurd below (Nat.not_lt_zero _)
  distinct _ below := absurd below (Nat.not_lt_zero _)
  apart _ below := absurd below (Nat.not_lt_zero _)
  bound := Nat.zero_le _

/-- The first block of the root directory, whatever block 16 held. -/
theorem emptyImage_first (content : Nat → UInt8) :
    ∃ s1, directoryBlockAt quietAppend ⟨fun _ => false, fun _ => 0, fun _ _ => 0⟩
        (emptyImage.put 16 (.data content)) zeroInode 0 true =
          some (16, zeroInode.withDirect 0 16, s1) ∧
      s1.get 16 = some (.data (LittleEndian.store content 0 directoryBlockSize 0)) ∧
      ∃ s', placeEntry ⟨fun _ => false, fun _ => 0, fun _ _ => 0⟩ s1 ⟨0, 7⟩
          (zeroInode.withDirect 0 16) 16 (entryOffset 0 0) 1 [97] 1 fileTypeRegular = some s' ∧
        itemSearch s' [slash] = some ⟨0, 7⟩ := ⟨_, rfl, rfl, _, rfl, rfl⟩

/-- The name `a` can be added to the empty root directory. -/
theorem emptyImage_extends : Extends ⟨fun _ => false, fun _ => 0, fun _ _ => 0⟩ emptyImage [slash] [97]
    1 fileTypeRegular true 16 ⟨0, 7⟩ zeroInode 0 fun _ _ => 0 where
  search := rfl
  isDirectory := rfl
  number := rfl
  holding := ⟨⟨emptyLayout, emptyImage_view⟩, fun _ below => absurd below (Nat.not_lt_zero _)⟩
  crowded := ⟨fun _ below => absurd below (Nat.not_lt_zero _),
    fun positive => absurd positive (lt_irrefl 0)⟩
  alloc := ⟨_, rfl⟩
  nonzero := by decide
  absent := by
    rintro ⟨entry, found⟩
    have empty : directoryExistsEntry emptyImage [slash] [97] = some none := rfl
    rw [empty] at found
    cases found
  around _ := rfl
  adds content free := by
    obtain ⟨s1, enter, got, s', place, search⟩ := emptyImage_first content
    refine ⟨s', ?_, search⟩
    have flag : entryActive (LittleEndian.store content 0 directoryBlockSize 0) (entryOffset 0 0) =
        false := free
    have found : itemSearch (emptyImage.put 16 (.data content)) [slash] = some ⟨0, 7⟩ := rfl
    have reload : inodeReload (emptyImage.put 16 (.data content)) 0 zeroInode = some zeroInode := rfl
    have count : entryCount (LittleEndian.store content 0 directoryBlockSize 0) = 0 :=
      LittleEndian.load_store_same content 0 directoryBlockSize 0 (by decide)
    rw [directoryAddEntry, found, Option.bind_eq_bind, Option.bind_some, if_neg (by decide),
      if_pos (by decide)]
    dsimp only
    rw [reload, Option.bind_eq_bind, Option.bind_some, show scanBlocks = 65534 + 1 from rfl,
      addEntryFrom, enter, Option.bind_eq_bind, Option.bind_some]
    dsimp only
    rw [if_neg (by decide), got, Option.bind_eq_bind, Option.bind_some]
    dsimp only
    rw [if_pos rfl, count, addSlots_eq, addSlot_first flag]
    dsimp only
    rw [show (0 + 1) % 2 ^ 16 = 1 from rfl, place]
    rfl

/-- The block that becomes the first one of the root directory. -/
theorem directoryAddEntry_reveals_first : ¬ RevealsNothing ⟨fun _ => false, fun _ => 0, fun _ _ => 0⟩
    emptyImage [slash] [97] 1 fileTypeRegular true 16 :=
  directoryAddEntry_reveals emptyImage_extends (by decide)

/-- With a `b` in the second slot of the block that `a` is added to, the directory has a `b`. -/
theorem directoryAddEntry_reveals_false : ¬ RevealsNothing
    ⟨fun _ => false, fun _ => 0, fun _ _ => 0⟩ emptyImage [slash] [97] 1 fileTypeRegular true 16 := by
  intro reveals
  let added := fun content : Nat → UInt8 => directoryAddEntry quietAppend
    ⟨fun _ => false, fun _ => 0, fun _ _ => 0⟩ (emptyImage.put 16 (.data content)) [slash] [97] 1
    fileTypeRegular true
  let seen := fun content : Nat → UInt8 => (added content).bind fun (done, s) =>
    (directoryExistsEntry s [slash] [98]).map fun entry => (done, entry.isSome)
  have blank : seen (fun _ => 0) = some (true, false) := by decide +kernel
  have forged : seen (forgedBlock 0 [98]) = some (true, true) := by decide +kernel
  obtain ⟨⟨done, s1⟩, run, blank⟩ := Option.bind_eq_some_iff.mp blank
  obtain ⟨⟨done', s2⟩, run', forged⟩ := Option.bind_eq_some_iff.mp forged
  obtain ⟨entry, found, blank⟩ := Option.map_eq_some_iff.mp blank
  obtain ⟨entry', found', forged⟩ := Option.map_eq_some_iff.mp forged
  obtain ⟨rfl, none⟩ := Prod.mk.inj blank
  obtain ⟨rfl, some⟩ := Prod.mk.inj forged
  have same := (reveals _ _ s1 s2 run run').1 [98]
  rw [found, found'] at same
  rw [← Option.some.inj same, none] at some
  cases some

end Nbtrfs
