import Nbtrfs.Directory.Model
import Nbtrfs.Inode.BlockMap

/-!
# The two readers of a directory

`directory_exists_entry` and `directory_list`. They differ in the slots that they look at, in what
they count and in when they stop, and the list keeps the number of the block before when a lookup
assigns none. Over a directory whose `entry_count` is the number of its active slots, all of them
among the first 13 of their blocks, both see the active entries in the order of their slots.
-/

namespace Nbtrfs

/-- The active slots of a block, of those that entries are put into. -/
def activeSlots (bytes : Nat → UInt8) (i : Nat) : List Nat :=
  (List.range scanSlots).filter fun j => entryActive bytes (entryOffset i j)

/-- The active entries of a block. -/
def blockEntries (bytes : Nat → UInt8) (i : Nat) : List DirEntry :=
  (activeSlots bytes i).map fun j => readEntry bytes (entryOffset i j)

/-- The active entries of so many blocks from one on. -/
def entriesBetween (bytes : Nat → Nat → UInt8) (i count : Nat) : List DirEntry :=
  (List.range' i count).flatMap fun i => blockEntries (bytes i) i

/-- The active entries of a directory, in the order of their slots. -/
def directoryEntries (bytes : Nat → Nat → UInt8) (m : Nat) : List DirEntry :=
  entriesBetween bytes 0 m

/-- The entries from a block on are its own and those behind it. -/
theorem entriesBetween_succ (bytes : Nat → Nat → UInt8) (i count : Nat) :
    entriesBetween bytes i (count + 1) =
      blockEntries (bytes i) i ++ entriesBetween bytes (i + 1) count := by
  rw [entriesBetween, List.range'_succ, List.flatMap_cons, entriesBetween]

/-- A directory in its blocks 0 to `m - 1`, with the bytes of each behind the tag. -/
structure MappedDirectory (s : Store) (node : Inode) (m : Nat) (bytes : Nat → Nat → UInt8) :
    Prop where
  /-- The blocks are below index 511. -/
  few : m ≤ 511
  /-- They are mapped to data blocks. -/
  block : ∀ i < m, ∃ success pnum, inodeGetBlock s node i = some (success, some pnum) ∧
    pnum ≠ 0 ∧ s.get pnum = some (.data (bytes i))
  /-- No block is mapped behind them. -/
  ended : ∃ success mapped, inodeGetBlock s node m = some (success, mapped) ∧ assigned 0 mapped = 0
  /-- Only the first 13 slots of a block may be active. -/
  first : ∀ i < m, ∀ j, scanSlots ≤ j → j < listSlots →
    entryActive (bytes i) (entryOffset i j) = false
  /-- `entry_count` is the number of active slots. -/
  counted : 0 < m → entryCount (bytes 0) = (directoryEntries bytes m).length
  /-- It is not negative as an `int16_t`. -/
  limit : (directoryEntries bytes m).length ≤ 32767
  /-- Active names end within their fields. -/
  terminated : ∀ i < m, ∀ j ∈ activeSlots (bytes i) i,
    0 ∈ segment (bytes i) (entryOffset i j + nameOffset) nameMax
  /-- They are distinct. -/
  distinct : ((directoryEntries bytes m).map DirEntry.name).Nodup

/-- A byte string that holds the byte 0 is a string before it, the byte and a rest. -/
theorem exists_terminator {field : List UInt8} (terminated : 0 ∈ field) :
    ∃ rest, field = field.takeWhile (· ≠ 0) ++ 0 :: rest := by
  induction field with
  | nil => cases terminated
  | cons byte field ih =>
    by_cases zero : byte = 0
    · exact ⟨field, by simp [zero]⟩
    · have behind : 0 ∈ field := by
        rcases List.mem_cons.mp terminated with same | behind
        · exact absurd same.symm zero
        · exact behind
      obtain ⟨rest, split⟩ := ih behind
      refine ⟨rest, ?_⟩
      rw [List.takeWhile_cons_of_pos (by simpa using zero), List.cons_append, ← split]

/-- `strcmp` of a terminated name with a string says whether they are the same string. -/
theorem nameMatches_iff {bytes : Nat → UInt8} {offset : Nat} {name : CString} (string : 0 ∉ name)
    (terminated : 0 ∈ segment bytes (offset + nameOffset) nameMax) :
    nameMatches bytes offset name = true ↔ (readEntry bytes offset).name = name := by
  unfold nameMatches
  rw [decide_eq_true_eq]
  obtain ⟨rest, split⟩ := exists_terminator terminated
  have size : nameMax = 256 := rfl
  constructor
  · intro same
    by_cases short : name.length + 1 ≤ nameMax
    · obtain ⟨more, total⟩ := Nat.exists_eq_add_of_le short
      have field := segment_add bytes (offset + nameOffset) (name.length + 1) more
      rw [← total, same] at field
      show (segment bytes (offset + nameOffset) nameMax).takeWhile (· ≠ 0) = name
      rw [field, List.append_assoc, List.takeWhile_append_of_pos]
      · simp
      · intro byte inside
        have differs : byte ≠ 0 := fun zero => string (zero ▸ inside)
        simpa using differs
    · obtain ⟨more, total⟩ := Nat.exists_eq_add_of_le (show nameMax ≤ name.length by omega)
      have longer := segment_add bytes (offset + nameOffset) nameMax (more + 1)
      rw [show nameMax + (more + 1) = name.length + 1 by omega, same] at longer
      have field : segment bytes (offset + nameOffset) nameMax = name.take nameMax := by
        have taken := congrArg (List.take nameMax) longer
        rw [List.take_left' (segment_length _ _ _), List.take_append_of_le_length (by omega)]
          at taken
        exact taken.symm
      rw [field] at terminated
      exact absurd (List.mem_of_mem_take terminated) string
  · intro same
    have named : (segment bytes (offset + nameOffset) nameMax).takeWhile (· ≠ 0) = name := same
    rw [named] at split
    have lengths := congrArg List.length split
    rw [segment_length, List.length_append, List.length_cons] at lengths
    obtain ⟨more, total⟩ := Nat.exists_eq_add_of_le (show name.length + 1 ≤ nameMax by omega)
    have field := segment_add bytes (offset + nameOffset) (name.length + 1) more
    rw [← total, split] at field
    have taken := congrArg (List.take (name.length + 1)) field
    rw [List.take_left' (segment_length _ _ _), List.take_append, List.take_of_length_le (by omega)]
      at taken
    rw [← taken]
    simp

/-- The loop of `directory_list` over a block appends the active entries, as long as there is room
for them up to `entry_count`. -/
theorem listSlot_spec {bytes : Nat → UInt8} {i count left j : Nat} {entries : List DirEntry}
    (room : entries.length +
      ((List.range' j left).filter fun j => entryActive bytes (entryOffset i j)).length ≤ count) :
    listSlot bytes i count left j entries = entries ++
      ((List.range' j left).filter fun j => entryActive bytes (entryOffset i j)).map
        fun j => readEntry bytes (entryOffset i j) := by
  induction left generalizing j entries with
  | zero =>
    rw [listSlot, List.range'_zero, List.filter_nil, List.map_nil, List.append_nil]
  | succ left ih =>
    rw [listSlot]
    rw [List.range'_succ, List.filter_cons] at room ⊢
    by_cases more : entries.length < count
    · rw [if_pos more]
      cases active : entryActive bytes (entryOffset i j) with
      | true =>
        rw [active, if_pos rfl, List.length_cons] at room
        have appended : (entries ++ [readEntry bytes (entryOffset i j)]).length =
            entries.length + 1 := by
          rw [List.length_append, List.length_singleton]
        rw [if_pos rfl, if_pos rfl, ih (by omega), List.map_cons, List.append_assoc,
          List.singleton_append]
      | false =>
        rw [active, if_neg Bool.false_ne_true] at room
        rw [if_neg Bool.false_ne_true, if_neg Bool.false_ne_true, ih room]
    · have none_left : (if entryActive bytes (entryOffset i j) = true then
          j :: (List.range' (j + 1) left).filter fun j => entryActive bytes (entryOffset i j)
          else (List.range' (j + 1) left).filter fun j => entryActive bytes (entryOffset i j)) =
            [] := by
        apply List.eq_nil_of_length_eq_zero
        omega
      rw [if_neg more, none_left, List.map_nil, List.append_nil]

/-- The scan of a block stops at the first accepted slot. -/
theorem scanSlot_found (accept : Nat → Bool) (bytes : Nat → UInt8) (i left j count : Nat) :
    (scanSlot accept bytes i left j count).1 =
      (List.range' j left).find? fun j => accept (entryOffset i j) := by
  induction left generalizing j count with
  | zero => rfl
  | succ left ih =>
    rw [scanSlot, List.range'_succ]
    cases accepted : accept (entryOffset i j) with
    | true => rw [if_pos rfl, List.find?_cons_of_pos (by simpa using accepted)]
    | false =>
      rw [if_neg Bool.false_ne_true, ih, List.find?_cons_of_neg (by simpa using accepted)]

/-- The scan counts active slots of the block, the first one left out. -/
theorem scanSlot_counted (accept : Nat → Bool) (bytes : Nat → UInt8) (i left j count : Nat) :
    (scanSlot accept bytes i left j count).2 ≤ count +
      ((List.range' (j + 1) left).filter fun j => entryActive bytes (entryOffset i j)).length := by
  induction left generalizing j count with
  | zero => exact Nat.le_add_right _ _
  | succ left ih =>
    rw [scanSlot, List.range'_succ, List.filter_cons]
    split
    · exact Nat.le_add_right _ _
    · split
      · have rest := ih (j + 1) ((count + 1) % 2 ^ 16)
        have wrapped : (count + 1) % 2 ^ 16 ≤ count + 1 := Nat.mod_le _ _
        rw [List.length_cons]
        omega
      · exact ih (j + 1) count

section Block

variable {s : Store} {node : Inode} {m i : Nat} {bytes : Nat → Nat → UInt8}

/-- The slots that `directory_list` looks at behind the first 13 are not active. -/
theorem MappedDirectory.listed (directory : MappedDirectory s node m bytes) (inside : i < m) :
    ((List.range' 0 listSlots).filter fun j => entryActive (bytes i) (entryOffset i j)) =
      activeSlots (bytes i) i := by
  have slots : List.range' 0 listSlots = List.range scanSlots ++ [scanSlots] := rfl
  have last := directory.first i inside scanSlots le_rfl (by decide)
  rw [slots, List.filter_append, activeSlots]
  simp [last]

/-- The slots that `directory_exists_entry` counts are no more than the active ones. -/
theorem MappedDirectory.scanned (directory : MappedDirectory s node m bytes) (inside : i < m) :
    ((List.range' 1 scanSlots).filter fun j => entryActive (bytes i) (entryOffset i j)).length ≤
      (blockEntries (bytes i) i).length := by
  have last := directory.first i inside scanSlots le_rfl (by decide)
  have slots : List.range' 1 scanSlots = List.range' 1 (scanSlots - 1) ++ [scanSlots] := rfl
  have all : List.range scanSlots = 0 :: List.range' 1 (scanSlots - 1) := rfl
  rw [blockEntries, List.length_map, activeSlots, slots, all, List.filter_append, List.filter_cons]
  simp only [List.filter_cons, last, Bool.false_eq_true, if_false, List.filter_nil,
    List.append_nil]
  split
  · exact Nat.le_succ _
  · exact le_rfl

/-- The accepted slots are the active ones whose entries have the name. -/
theorem MappedDirectory.accepted (directory : MappedDirectory s node m bytes) (inside : i < m)
    {name : CString} (string : 0 ∉ name) :
    (((List.range' 0 scanSlots).find? fun j => nameMatches (bytes i) (entryOffset i j) name &&
      entryActive (bytes i) (entryOffset i j)).map fun j => readEntry (bytes i) (entryOffset i j)) =
      (blockEntries (bytes i) i).find? fun entry => decide (entry.name = name) := by
  rw [blockEntries, List.find?_map, activeSlots, List.find?_filter, ← List.range_eq_range']
  congr 1
  apply List.find?_congr
  intro j slot
  cases active : entryActive (bytes i) (entryOffset i j) with
  | false => simp
  | true =>
    have here : j ∈ activeSlots (bytes i) i := List.mem_filter.mpr ⟨slot, active⟩
    have same := nameMatches_iff string (directory.terminated i inside j here)
    simp only [Bool.and_true, Function.comp, true_and]
    rw [Bool.eq_iff_iff, same, decide_eq_true_iff, decide_eq_true_iff]

/-- The loop of `directory_list` from a block on appends the active entries behind. -/
theorem listEntriesFrom_spec (directory : MappedDirectory s node m bytes) {behind left former count : Nat}
    {entries : List DirEntry} (last : i + behind = m) (enough : behind < left)
    (start : i = 0 → former = 0)
    (stale : former ≠ 0 → ∃ content, s.get former = some (.data content))
    (total : 0 < i → count = (directoryEntries bytes m).length)
    (sofar : entries.length + (entriesBetween bytes i behind).length =
      (directoryEntries bytes m).length) :
    listEntriesFrom s node left i former count entries =
      some (entries ++ entriesBetween bytes i behind) := by
  induction behind generalizing i left former count entries with
  | zero =>
    obtain ⟨left, rfl⟩ := Nat.exists_eq_succ_of_ne_zero (Nat.ne_of_gt enough)
    have here : i = m := last
    have none_left : entriesBetween bytes i 0 = [] := rfl
    rw [none_left, List.length_nil, Nat.add_zero] at sofar
    obtain ⟨success, mapped, lookup, unmapped⟩ := directory.ended
    rw [none_left, List.append_nil, listEntriesFrom, here, lookup, Option.bind_eq_bind,
      Option.bind_some]
    by_cases zero : assigned former mapped = 0
    · simp only [if_pos zero]
    · have kept : assigned former mapped = former := by
        cases mapped with
        | none => rfl
        | some block => exact absurd unmapped zero
      rw [kept] at zero
      obtain ⟨content, held⟩ := stale zero
      have positive : i ≠ 0 := fun begin => zero (start begin)
      have reached : count = entries.length := by
        rw [sofar]
        exact total (Nat.pos_of_ne_zero positive)
      simp only [kept, if_neg zero]
      rw [held, Option.bind_eq_bind, Option.bind_some]
      dsimp only
      have later : ¬ m = 0 := here ▸ positive
      rw [if_neg later, if_pos reached]
  | succ behind ih =>
    obtain ⟨left, rfl⟩ := Nat.exists_eq_succ_of_ne_zero (show left ≠ 0 by omega)
    have inside : i < m := by omega
    obtain ⟨success, pnum, lookup, nonzero, held⟩ := directory.block i inside
    have counted : (if i = 0 then entryCount (bytes i) else count) =
        (directoryEntries bytes m).length := by
      split
      case isTrue first =>
        rw [first]
        exact directory.counted (by omega)
      case isFalse later => exact total (Nat.pos_of_ne_zero later)
    rw [entriesBetween_succ, List.length_append] at sofar
    have room : entries.length + ((List.range' 0 listSlots).filter fun j =>
        entryActive (bytes i) (entryOffset i j)).length ≤ (directoryEntries bytes m).length := by
      rw [directory.listed inside]
      rw [blockEntries, List.length_map] at sofar
      omega
    rw [listEntriesFrom, lookup, Option.bind_eq_bind, Option.bind_some, entriesBetween_succ]
    dsimp only [assigned, Option.getD_some]
    rw [if_neg nonzero, held, Option.bind_eq_bind, Option.bind_some]
    dsimp only
    rw [counted]
    by_cases reached : (directoryEntries bytes m).length = entries.length
    · have none_left : blockEntries (bytes i) i ++ entriesBetween bytes (i + 1) behind = [] := by
        apply List.eq_nil_of_length_eq_zero
        rw [List.length_append]
        omega
      rw [if_pos reached, none_left, List.append_nil]
    · rw [if_neg reached, listSlot_spec room, directory.listed inside]
      have appended : (entries ++ blockEntries (bytes i) i).length =
          entries.length + (blockEntries (bytes i) i).length := List.length_append
      rw [show List.map (fun j => readEntry (bytes i) (entryOffset i j)) (activeSlots (bytes i) i) =
        blockEntries (bytes i) i from rfl]
      rw [ih (by omega) (by omega) (by omega) (fun _ => ⟨bytes i, held⟩) (fun _ => rfl) (by omega),
        List.append_assoc]

/-- The loop of `directory_exists_entry` from a block on finds the first entry behind that has the
name. -/
theorem existsEntryFrom_spec (directory : MappedDirectory s node m bytes) {name : CString}
    (string : 0 ∉ name) {behind left number count : Nat} (last : i + behind = m)
    (enough : behind < left) (total : 0 < i → number = (directoryEntries bytes m).length)
    (sofar : count + (entriesBetween bytes i behind).length ≤ (directoryEntries bytes m).length) :
    existsEntryFrom s node name left i number count =
      some ((entriesBetween bytes i behind).find? fun entry => decide (entry.name = name)) := by
  induction behind generalizing i left number count with
  | zero =>
    obtain ⟨left, rfl⟩ := Nat.exists_eq_succ_of_ne_zero (Nat.ne_of_gt enough)
    have here : i = m := last
    obtain ⟨success, mapped, lookup, unmapped⟩ := directory.ended
    rw [existsEntryFrom, here, lookup, Option.bind_eq_bind, Option.bind_some]
    simp only [if_pos unmapped]
    rfl
  | succ behind ih =>
    obtain ⟨left, rfl⟩ := Nat.exists_eq_succ_of_ne_zero (show left ≠ 0 by omega)
    have inside : i < m := by omega
    obtain ⟨success, pnum, lookup, nonzero, held⟩ := directory.block i inside
    have counted : (if i = 0 then entryCount (bytes i) else number) =
        (directoryEntries bytes m).length := by
      split
      case isTrue first =>
        rw [first]
        exact directory.counted (by omega)
      case isFalse later => exact total (Nat.pos_of_ne_zero later)
    rw [entriesBetween_succ, List.length_append] at sofar
    rw [existsEntryFrom, lookup, Option.bind_eq_bind, Option.bind_some, entriesBetween_succ]
    dsimp only [assigned, Option.getD_some]
    rw [if_neg nonzero, held, Option.bind_eq_bind, Option.bind_some]
    dsimp only
    rw [counted]
    by_cases reached : countReached (directoryEntries bytes m).length count = true
    · -- the count is the number of all active slots, so none is left
      have equal : (directoryEntries bytes m).length = count := by
        unfold countReached at reached
        simp only [Bool.and_eq_true, decide_eq_true_eq] at reached
        exact reached.1
      have none_left : blockEntries (bytes i) i ++ entriesBetween bytes (i + 1) behind = [] := by
        apply List.eq_nil_of_length_eq_zero
        rw [List.length_append]
        omega
      rw [if_pos reached, none_left, List.find?_nil]
    · rw [if_neg reached, List.find?_append, ← directory.accepted inside string]
      have found := scanSlot_found (fun offset => nameMatches (bytes i) offset name &&
        entryActive (bytes i) offset) (bytes i) i scanSlots 0 count
      have more := scanSlot_counted (fun offset => nameMatches (bytes i) offset name &&
        entryActive (bytes i) offset) (bytes i) i scanSlots 0 count
      have most := directory.scanned inside
      rcases scan : scanSlot (fun offset => nameMatches (bytes i) offset name &&
        entryActive (bytes i) offset) (bytes i) i scanSlots 0 count with ⟨slot, later⟩
      rw [scan] at found more
      dsimp only at found more
      rw [← found]
      cases slot with
      | some j => rfl
      | none =>
        dsimp only
        rw [ih (by omega) (by omega) (fun _ => rfl) (by rw [Nat.zero_add] at more; omega)]
        rfl

/-- In entries with distinct names, the first one of a name is the only one. -/
theorem find?_name_iff {entries : List DirEntry} (distinct : (entries.map DirEntry.name).Nodup)
    (name : CString) (entry : DirEntry) :
    (entries.find? fun entry => decide (entry.name = name)) = some entry ↔
      entry ∈ entries ∧ entry.name = name := by
  constructor
  · intro found
    exact ⟨List.mem_of_find?_eq_some found, by simpa using List.find?_some found⟩
  · rintro ⟨inside, named⟩
    induction entries with
    | nil => cases inside
    | cons first rest ih =>
      rw [List.map_cons, List.nodup_cons] at distinct
      rcases List.mem_cons.mp inside with rfl | behind
      · rw [List.find?_cons_of_pos (by simpa using named)]
      · have differs : first.name ≠ name := by
          intro same
          apply distinct.1
          rw [same, ← named]
          exact List.mem_map_of_mem behind
        rw [List.find?_cons_of_neg (by simpa using differs)]
        exact ih distinct.2 behind

end Block

/-- In a directory whose `entry_count` is the number of its active slots, all among the first 13 of
their blocks and with distinct names, `directory_list` returns the active entries in the order of
their slots, and `directory_exists_entry` copies the one that has the name. -/
theorem directory_readers_agree {s : Store} {path : CString} {pair : InodeBtreePair} {node : Inode}
    {m : Nat} {bytes : Nat → Nat → UInt8} (search : itemSearch s path = some pair)
    (isDirectory : pair.isDirectory path = true)
    (read : inodeReload s pair.inodeNumber zeroInode = some node)
    (directory : MappedDirectory s node m bytes) :
    directoryList s path = some (directoryEntries bytes m) ∧
      ∀ name : CString, 0 ∉ name → ∃ copied, directoryExistsEntry s path name = some copied ∧
        ∀ entry, copied = some entry ↔ entry ∈ directoryEntries bytes m ∧ entry.name = name := by
  have enough : m < scanBlocks := lt_of_le_of_lt directory.few (by decide)
  constructor
  · have listed : listEntriesFrom s node scanBlocks 0 0 0 [] =
        some ([] ++ entriesBetween bytes 0 m) := by
      apply listEntriesFrom_spec directory (Nat.zero_add m) enough
      · exact fun _ => rfl
      · exact fun nonzero => absurd rfl nonzero
      · exact fun later => absurd later (lt_irrefl 0)
      · exact Nat.zero_add _
    rw [directoryList, search, Option.bind_eq_bind, Option.bind_some, if_pos isDirectory, read,
      Option.bind_eq_bind, Option.bind_some, listed]
    rfl
  · intro name string
    have copied : existsEntryFrom s node name scanBlocks 0 0 0 =
        some ((entriesBetween bytes 0 m).find? fun entry => decide (entry.name = name)) := by
      apply existsEntryFrom_spec directory string (Nat.zero_add m) enough
      · exact fun later => absurd later (lt_irrefl 0)
      · exact le_of_eq (Nat.zero_add _)
    refine ⟨_, ?_, find?_name_iff directory.distinct name⟩
    rw [directoryExistsEntry, search, Option.bind_eq_bind, Option.bind_some, if_pos isDirectory,
      read, Option.bind_eq_bind, Option.bind_some, copied]
    rfl

/-- Bytes with an active entry in a slot of a block. -/
def enterSlot (i : Nat) (bytes : Nat → UInt8) (entry : Nat × Nat × CString) : Nat → UInt8 :=
  let offset := entryOffset i entry.1
  let named := overlay bytes (offset + nameOffset) entry.2.2
  overlay (LittleEndian.store named offset 8 entry.2.1) (offset + activeOffset) [1]

/-- Two directory blocks with four names and holes between them: inode 3 as `a` and 5 as `bc` in the
slots 1 and 4 of the first block, 6 as `d` and 3 as `e` in the slots 0 and 2 of the other one. -/
def holedBlocks (i : Nat) : Nat → UInt8 :=
  if i = 0 then
    LittleEndian.store ([(1, 3, [97]), (4, 5, [98, 99])].foldl (enterSlot 0) fun _ => 0) 0
      directoryBlockSize 4
  else [(0, 6, [100]), (2, 3, [101])].foldl (enterSlot 1) fun _ => 0

/-- The inode of the directory. -/
def holedRoot : Inode := (zeroInode.withDirect 0 5).withDirect 1 6

/-- The small image with the blocks as those of the root directory. -/
def holedImage : Store :=
  (((smallImage holedRoot).put 5 (.data (holedBlocks 0))).put 6 (.data (holedBlocks 1))).put 7
    (.btreeNode (freshNode 7 false fileTypeDirectory))

/-- Both readers see the four entries. -/
theorem directory_readers_agree_holed :
    directoryList holedImage [slash] =
        some [⟨3, 0, [97], true⟩, ⟨5, 0, [98, 99], true⟩, ⟨6, 0, [100], true⟩, ⟨3, 0, [101], true⟩] ∧
      ∀ name : CString, 0 ∉ name →
        ∃ copied, directoryExistsEntry holedImage [slash] name = some copied ∧
          ∀ entry, copied = some entry ↔
            entry ∈ directoryEntries holedBlocks 2 ∧ entry.name = name := by
  have entries : directoryEntries holedBlocks 2 =
      [⟨3, 0, [97], true⟩, ⟨5, 0, [98, 99], true⟩, ⟨6, 0, [100], true⟩, ⟨3, 0, [101], true⟩] := by
    decide +kernel
  have slots : scanSlots = 13 ∧ listSlots = 14 := ⟨rfl, rfl⟩
  have directory : MappedDirectory holedImage holedRoot 2 holedBlocks := by
    constructor
    · decide
    · intro i inside
      obtain rfl | rfl : i = 0 ∨ i = 1 := by omega
      · exact ⟨true, 5, rfl, by decide, rfl⟩
      · exact ⟨true, 6, rfl, by decide, rfl⟩
    · exact ⟨false, some 0, rfl, rfl⟩
    · intro i inside j from13 below14
      obtain rfl : j = 13 := by omega
      obtain rfl | rfl : i = 0 ∨ i = 1 := by omega
      · decide +kernel
      · decide +kernel
    · intro _
      decide +kernel
    · rw [entries]
      decide
    · decide +kernel
    · rw [entries]
      decide
  have search : itemSearch holedImage [slash] = some ⟨0, 7⟩ := by decide +kernel
  obtain ⟨listed, copied⟩ := directory_readers_agree search (by decide) rfl directory
  exact ⟨listed.trans (congrArg some entries), copied⟩

end Nbtrfs
