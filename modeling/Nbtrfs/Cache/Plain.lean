import Nbtrfs.Cache.Pins
import Nbtrfs.Cache.Provenance

/-!
# Code on a plain array of blocks

Code over the cache, run on an array of blocks without slots: a call reads or replaces a block, and
pins and calls of `write_block` are counted. A page that is assigned through a pointer is written at
once, to the image or with `write_block`, as the file system's code does everywhere. A cache that
serves the array, and has a slot more than there are blocks pinned, runs such code to the same value
and serves the array behind it, whatever is evicted on the way.
-/

namespace Nbtrfs

variable {Page α β : Type}

/-- The blocks with one page replaced. -/
def withPage (blocks : Nat → Page) (pnum : Nat) (page : Page) : Nat → Page :=
  fun other => if other = pnum then page else blocks other

/-- The block that is replaced. -/
@[simp] theorem withPage_same (blocks : Nat → Page) (pnum : Nat) (page : Page) :
    withPage blocks pnum page pnum = page := if_pos rfl

/-- The other blocks are kept. -/
@[simp] theorem withPage_other (blocks : Nat → Page) (pnum other : Nat) (page : Page)
    (distinct : other ≠ pnum) : withPage blocks pnum page other = blocks other := if_neg distinct

/-- An array of blocks under running code. -/
structure BlockArray (Page : Type) where
  /-- The blocks. -/
  blocks : Nat → Page
  /-- The blocks that the code has pinned, once for each pin that it has not taken back. -/
  held : List Nat
  /-- The calls of `write_block` since the last sync. -/
  unsynced : Nat

/-- The array with one page replaced. -/
def BlockArray.put (array : BlockArray Page) (pnum : Nat) (page : Page) : BlockArray Page :=
  { array with blocks := withPage array.blocks pnum page }

/-- The array behind a call. -/
def BlockArray.after (array : BlockArray Page) : CacheCall Page → BlockArray Page
  | .get _ _ => array
  | .write buf _ pnum => { array.put pnum buf with unsynced := array.unsynced + 1 }
  | .pin _ pnum => { array with held := pnum :: array.held }
  | .unpin _ pnum => { array with held := array.held.erase pnum }
  | .sync => { array with unsynced := 0 }

/-- The pins leave one of the slots over, and they and the calls of `write_block` fit the counters of
a cache. -/
def BlockArray.Allows (slots : Nat) (array : BlockArray Page) : Prop :=
  array.held.dedup.length < slots ∧ array.held.length ≤ intMax ∧ 2 * array.unsynced ≤ intMax

/-- The bounds on an array are decidable. -/
instance (slots : Nat) (array : BlockArray Page) : Decidable (array.Allows slots) :=
  inferInstanceAs (Decidable (_ ∧ _ ∧ _))

/-- A run of code on an array of blocks for a cache with a number of slots: its value, and the array
behind it. -/
inductive CacheProgram.Plain (totalBlocks slots : Nat) :
    BlockArray Page → CacheProgram Page α → α → BlockArray Page → Prop
  /-- The code has ended. -/
  | done {array value} : Plain totalBlocks slots array (.done value) value array
  /-- A call. -/
  | call {array made next value after} : made.Below totalBlocks → (array.after made).Allows slots →
      Plain totalBlocks slots (array.after made) (next (arrayStep array.blocks made).1) value after →
      Plain totalBlocks slots array (.call made next) value after
  /-- A page is assigned and written to the image. -/
  | through {array pnum page next value after} : pnum < totalBlocks →
      Plain totalBlocks slots (array.put pnum page) next value after →
      Plain totalBlocks slots array (.assign pnum page (.flush pnum page next)) value after
  /-- A page is assigned and given to `write_block`. -/
  | behind {array pnum page inum next value after} : pnum < totalBlocks →
      (array.after (.write page inum pnum)).Allows slots →
      Plain totalBlocks slots (array.after (.write page inum pnum)) (next none) value after →
      Plain totalBlocks slots array (.assign pnum page (.call (.write page inum pnum) next)) value
        after
  /-- A page is written to the image as it is. -/
  | stored {array pnum next value after} : pnum < totalBlocks →
      Plain totalBlocks slots array next value after →
      Plain totalBlocks slots array (.flush pnum (array.blocks pnum) next) value after

section Array

variable {totalBlocks slots : Nat} {array mid after : BlockArray Page}

/-- The blocks behind a call. -/
theorem BlockArray.after_blocks (array : BlockArray Page) (call : CacheCall Page) :
    (array.after call).blocks = (arrayStep array.blocks call).2 := by
  cases call with
  | get | write | pin | unpin | sync => rfl

/-- Code that is put together from two parts. -/
theorem CacheProgram.Plain.bind {program : CacheProgram Page α} {next : α → CacheProgram Page β}
    {value : α} {value' : β} (first : program.Plain totalBlocks slots array value mid)
    (second : (next value).Plain totalBlocks slots mid value' after) :
    (program >>= next).Plain totalBlocks slots array value' after := by
  change (program.andThen next).Plain totalBlocks slots array value' after
  induction first with
  | done => exact second
  | call below allows _ ih => exact .call below allows (ih second)
  | through below _ ih => exact .through below (ih second)
  | behind below allows _ ih => exact .behind below allows (ih second)
  | stored below _ ih => exact .stored below (ih second)

end Array

section Image

variable {machine : Machine Page} {latest latest' : Nat → Page} {recent pending : List (Nat × Nat)}

/-- A change of the image that leaves no clean or absent block behind. -/
theorem Coherent.reimage (coherent : Coherent machine latest recent pending []) {image : Image Page}
    (total : image.totalBlocks = machine.image.totalBlocks)
    (present : ∀ block, pciLookup machine.cache.pci block ≠ none → latest' block = latest block ∧
      (image.block block = machine.image.block block ∨ image.block block = latest block))
    (absent : ∀ block, pciLookup machine.cache.pci block = none → image.block block = latest' block) :
    Coherent { machine with image } latest' recent pending [] where
  lru := coherent.lru
  gdl := coherent.gdl
  slots := coherent.slots
  fits := coherent.fits
  chained := coherent.chained
  resident node slot inside := by
    have here := coherent.resident node slot inside
    have held : pciLookup machine.cache.pci (machine.cache.entries slot).blockNumber ≠ none := by
      rw [here.found]
      exact Option.some_ne_none slot
    obtain ⟨content, block⟩ := present _ held
    exact here.frame total content block rfl fun _ listed _ _ => listed
  indexed := coherent.indexed
  absent := absent
  listed := coherent.listed
  idle := coherent.idle

/-- Writing a page over an absent block of the image. -/
theorem Coherent.put_absent (coherent : Coherent machine latest recent pending []) {pnum : Nat}
    (missing : pciLookup machine.cache.pci pnum = none) (page : Page) :
    Coherent { machine with image := machine.image.put pnum page } (withPage latest pnum page) recent
      pending [] := by
  refine coherent.reimage rfl (fun block held => ?_) fun block absent => ?_
  · have distinct : block ≠ pnum := by
      rintro rfl
      exact held missing
    exact ⟨withPage_other _ _ _ _ distinct, Or.inl (Image.put_other _ _ _ _ distinct)⟩
  · by_cases same : block = pnum
    · rw [same, Image.put_same, withPage_same]
    · rw [Image.put_other _ _ _ _ same, withPage_other _ _ _ _ same]
      exact coherent.absent block absent

/-- Writing a page to the image as it is. -/
theorem Coherent.put_latest (coherent : Coherent machine latest recent pending []) (pnum : Nat) :
    Coherent { machine with image := machine.image.put pnum (latest pnum) } latest recent pending [] := by
  have block : ∀ block, (machine.image.put pnum (latest pnum)).block block =
      machine.image.block block ∨ (machine.image.put pnum (latest pnum)).block block = latest block := by
    intro block
    by_cases same : block = pnum
    · rw [same, Image.put_same]
      exact Or.inr rfl
    · exact Or.inl (Image.put_other _ _ _ _ same)
  refine coherent.reimage rfl (fun other _ => ⟨rfl, block other⟩) fun other absent => ?_
  rcases block other with kept | new
  · rw [kept]
    exact coherent.absent other absent
  · exact new

/-- Assigning the page of a block and writing it to the image. -/
theorem Coherent.overwrite (coherent : Coherent machine latest recent pending []) {pnum : Nat}
    (reaches : machine.image.Reaches pnum) (page : Page) :
    ∃ image, diskWriteBlock (machine.assign pnum page).image pnum page = some image ∧
      Coherent { machine.assign pnum page with image } (withPage latest pnum page) recent pending
        [] := by
  have stored := diskWriteBlock_eq reaches page
  cases present : pciLookup machine.cache.pci pnum with
  | none =>
    have same : machine.assign pnum page = machine := by rw [Machine.assign, present]
    rw [same]
    exact ⟨_, stored, coherent.put_absent present page⟩
  | some slot =>
    obtain ⟨node, inside, block⟩ := coherent.hit present
    have here := coherent.resident node slot inside
    have assigned : machine.assign pnum page = { machine with
        cache := machine.cache.setEntry slot { machine.cache.entries slot with
          pageData := some page } } := by rw [Machine.assign, present]
    rw [assigned]
    refine ⟨_, stored, ?_⟩
    refine coherent.update inside { machine.cache.entries slot with pageData := some page }
      (machine.image.put pnum page) machine.cache.dirtyList coherent.gdl rfl (fun other distinct => ?_)
      (fun _ _ _ => id) (fun _ _ => Or.inl) rfl ⟨here.position, here.found, here.reaches, ?_, ?_,
        here.dirty⟩
    · rw [block] at distinct
      exact ⟨Image.put_other _ _ _ _ distinct, withPage_other _ _ _ _ distinct⟩
    · show some page = some (withPage latest pnum page (machine.cache.entries slot).blockNumber)
      rw [block, withPage_same]
    · intro _
      show (machine.image.put pnum page).block (machine.cache.entries slot).blockNumber =
        withPage latest pnum page (machine.cache.entries slot).blockNumber
      rw [block, Image.put_same, withPage_same]

end Image

section Assign

variable {tags : PageTags Page}

/-- `write_block` copies its buffer over a page that was assigned. -/
theorem writeBlock_assign (machine : Machine Page) (page : Page) (inum pnum : Nat) :
    writeBlock tags (machine.assign pnum page) page inum pnum =
      writeBlock tags machine page inum pnum := by
  cases present : pciLookup machine.cache.pci pnum with
  | none => rw [Machine.assign, present]
  | some slot =>
    have assigned : machine.assign pnum page = { machine with
        cache := machine.cache.setEntry slot { machine.cache.entries slot with
          pageData := some page } } := by rw [Machine.assign, present]
    have before : residentSlot tags machine inum pnum = some (slot, machine) := by
      rw [residentSlot, present]
    have present' : pciLookup (machine.assign pnum page).cache.pci pnum = some slot := by
      rw [assigned]
      exact present
    have behind : residentSlot tags (machine.assign pnum page) inum pnum =
        some (slot, machine.assign pnum page) := by
      rw [residentSlot, present']
    have copied : writeSlot tags (machine.assign pnum page).cache page inum pnum slot =
        writeSlot tags machine.cache page inum pnum slot := by
      rw [assigned, writeSlot, writeSlot]
      simp only [Cache.setEntry_same, Cache.setEntry_setEntry]
    rw [writeBlock, writeBlock, behind, before, Option.bind_eq_bind, Option.bind_some,
      Option.bind_eq_bind, Option.bind_some]
    dsimp only
    rw [copied, assigned]

end Assign

/-- A machine has the blocks of an array, and its counters are those of the array. -/
structure Serves (totalBlocks : Nat) (machine : Machine Page) (array : BlockArray Page) : Prop where
  /-- It has the blocks. -/
  coherent : ∃ recent pending, Coherent machine array.blocks recent pending []
  /-- The slots hold blocks of the image. -/
  sourced : Sourced (fun _ _ => True) totalBlocks machine
  /-- The addressing finds the blocks of the image. -/
  addressed : totalBlocks ≤ addressable
  /-- The pins are held by the code. -/
  pins : ∀ block, machine.pins block ≤ array.held.count block
  /-- The nodes of the global dirty list come from `write_block`. -/
  room : machine.cache.gdl.size ≤ 2 * array.unsynced
  /-- The array fits the cache. -/
  allows : array.Allows machine.cache.cacheSize

/-- The blocks of an image, with nothing pinned and nothing written. -/
def Image.array (image : Image Page) : BlockArray Page := ⟨image.block, [], 0⟩

section Serving

variable {tags : PageTags Page} {totalBlocks : Nat} {machine after : Machine Page}
  {array result : BlockArray Page} {recent pending : List (Nat × Nat)}

/-- A new cache serves the image. -/
theorem allocCache_serves (image : Image Page) {cacheSize : Nat} (fits : cacheSize ≤ intMax)
    (uninitialised : Nat → CacheEntry Page) (addressed : image.totalBlocks ≤ addressable)
    (nonempty : 0 < cacheSize) :
    Serves image.totalBlocks ⟨allocCache cacheSize uninitialised, image⟩ image.array where
  coherent := ⟨[], [], allocCache_coherent image cacheSize fits uninitialised⟩
  sourced := allocCache_sourced image cacheSize uninitialised fun _ => True.intro
  addressed := addressed
  pins _ := Nat.le_refl 0
  room := Nat.le_refl 0
  allows := ⟨nonempty, Nat.zero_le _, Nat.zero_le _⟩

/-- A block of the image is found. -/
theorem Serves.reaches (serves : Serves totalBlocks machine array) {pnum : Nat}
    (below : pnum < totalBlocks) : machine.image.Reaches pnum := by
  have addressed := serves.addressed
  refine ⟨?_, by omega⟩
  rw [serves.sourced.total]
  exact below

/-- There is a slot to evict where one is needed. -/
theorem Serves.hasVictim (serves : Serves totalBlocks machine array) (pnum : Nat) :
    machine.HasVictim pnum := by
  intro _ full
  obtain ⟨recent, pending, coherent⟩ := serves.coherent
  have tidy := coherent.tidy fun slot inside => by cases inside
  have holds : ∀ block, block ∈ array.held.dedup.filter (fun block => 0 < machine.pins block) ↔
      0 < machine.pins block := by
    intro block
    rw [List.mem_filter, List.mem_dedup, decide_eq_true_iff]
    refine ⟨And.right, fun positive => ⟨?_, positive⟩⟩
    have pins := serves.pins block
    exact List.count_pos_iff.mp (by omega)
  have fewer := serves.allows.1
  have length := List.length_filter_le (fun block => decide (0 < machine.pins block)) array.held.dedup
  obtain ⟨entry, inside, unpinned⟩ :=
    (tidy.unpinned_iff full ((List.nodup_dedup array.held).filter _) holds).mpr (by omega)
  have used : entry.2 ∈ recent.map Prod.snd := List.mem_map_of_mem inside
  have bound := List.mem_range.mp (tidy.slots.mem_iff.mp (List.mem_append_left _ used))
  exact ⟨entry.2, bound, beq_iff_eq.mpr unpinned⟩

/-- What a call asks for is there. -/
theorem Serves.permits {call : CacheCall Page} (serves : Serves totalBlocks machine array)
    (below : call.Below totalBlocks)
    (allows : (array.after call).Allows machine.cache.cacheSize) : Permits machine call := by
  obtain ⟨-, pinned, written⟩ := allows
  cases call with
  | get inum pnum => exact ⟨serves.reaches below, serves.hasVictim pnum⟩
  | unpin inum pnum => exact ⟨serves.reaches below, serves.hasVictim pnum⟩
  | write buf inum pnum =>
    refine ⟨serves.reaches below, serves.hasVictim pnum, ?_⟩
    have room := serves.room
    simp only [BlockArray.after] at written
    omega
  | pin inum pnum =>
    refine ⟨serves.reaches below, serves.hasVictim pnum, ?_⟩
    have pins := serves.pins pnum
    have length : array.held.count pnum ≤ array.held.length := List.count_le_length
    simp only [BlockArray.after, List.length_cons] at pinned
    omega
  | sync => exact True.intro

/-- `get_block` adds no node to the global dirty list. -/
theorem Tidy.get_size (tidy : Tidy machine recent pending) {inum pnum : Nat} {page : Page}
    (run : getBlock tags machine inum pnum = some (page, after)) :
    after.cache.gdl.size ≤ machine.cache.gdl.size := by
  cases present : pciLookup machine.cache.pci pnum with
  | some slot =>
    obtain ⟨left, former, right, lru, node, -, rfl, -, -⟩ := tidy.touch present run
    exact Nat.le_refl _
  | none =>
    obtain ⟨slot, ready, rest, pending', free, lru, node, -, -, -, -, tidy', unmarked⟩ :=
      tidy.miss present run
    rw [tidy'.gdl.size, tidy.gdl.size]
    rcases unmarked with rfl | ⟨-, before, mark, later, rfl, rfl⟩
    · exact Nat.le_refl _
    · rw [List.length_append, List.length_append, List.length_cons]
      omega

/-- Nor does finding the slot of a block. -/
theorem Tidy.resident_size (tidy : Tidy machine recent pending) {inum pnum slot : Nat}
    (run : residentSlot tags machine inum pnum = some (slot, after)) :
    after.cache.gdl.size ≤ machine.cache.gdl.size := by
  rw [residentSlot] at run
  cases present : pciLookup machine.cache.pci pnum with
  | some index =>
    rw [present] at run
    obtain ⟨-, rfl⟩ := Prod.mk.inj (Option.some.inj run)
    exact Nat.le_refl _
  | none =>
    rw [present] at run
    obtain ⟨⟨page, loaded⟩, get, run⟩ := Option.bind_eq_some_iff.mp run
    obtain ⟨index, -, run⟩ := Option.bind_eq_some_iff.mp run
    obtain ⟨-, rfl⟩ := Prod.mk.inj (Option.some.inj run)
    exact tidy.get_size get

/-- A call of `write_block` adds one node or two to the global dirty list, a sync empties it, and no
other call adds any. -/
theorem Tidy.step_size (tidy : Tidy machine recent pending) {call : CacheCall Page}
    {answer : Option Page} (room : machine.cache.gdl.size ≤ 2 * array.unsynced)
    (run : cacheStep tags machine call = some (answer, after)) :
    after.cache.gdl.size ≤ 2 * (array.after call).unsynced := by
  cases call with
  | get inum pnum =>
    obtain ⟨⟨page, after'⟩, get, result⟩ := Option.map_eq_some_iff.mp run
    obtain ⟨-, rfl⟩ := Prod.mk.inj result
    exact (tidy.get_size get).trans room
  | write buf inum pnum =>
    obtain ⟨after', write, result⟩ := Option.map_eq_some_iff.mp run
    obtain ⟨-, rfl⟩ := Prod.mk.inj result
    obtain ⟨⟨slot, ready⟩, resident, write⟩ := Option.bind_eq_some_iff.mp write
    obtain ⟨cache, copied, write⟩ := Option.bind_eq_some_iff.mp write
    obtain rfl := Option.some.inj write
    have before := (tidy.resident_size resident).trans room
    obtain ⟨recent', pending', -, stepped⟩ := tidy.resident resident
    obtain ⟨mark, marked, gdl, stored, -, -, ⟨first, added⟩, rfl⟩ :=
      writeSlot_some stepped.tidy.gdl copied
    rw [stepped.tidy.gdl.size] at before
    show gdl.size ≤ 2 * (array.unsynced + 1)
    rw [stored.size, List.length_cons, added]
    split
    · omega
    · rw [List.length_cons]
      omega
  | pin inum pnum =>
    obtain ⟨after', pin, result⟩ := Option.map_eq_some_iff.mp run
    obtain ⟨-, rfl⟩ := Prod.mk.inj result
    obtain ⟨⟨slot, ready⟩, resident, pin⟩ := Option.bind_eq_some_iff.mp pin
    obtain ⟨-, pin⟩ := Option.ite_none_right_eq_some.mp pin
    obtain rfl := Option.some.inj pin
    exact (tidy.resident_size resident).trans room
  | unpin inum pnum =>
    obtain ⟨after', unpin, result⟩ := Option.map_eq_some_iff.mp run
    obtain ⟨-, rfl⟩ := Prod.mk.inj result
    obtain ⟨⟨slot, ready⟩, resident, unpin⟩ := Option.bind_eq_some_iff.mp unpin
    obtain rfl := Option.some.inj unpin
    exact (tidy.resident_size resident).trans room
  | sync =>
    obtain ⟨after', sync, result⟩ := Option.map_eq_some_iff.mp run
    obtain ⟨-, rfl⟩ := Prod.mk.inj result
    rw [(tidy.syncLoop sync).tidy.gdl.size]
    exact Nat.zero_le _

/-- The pins of a machine stay below those that code holds. -/
theorem BlockArray.pins_after {pins : Nat → Nat} (held : ∀ block, pins block ≤ array.held.count block)
    (call : CacheCall Page) (block : Nat) :
    pinsAfter (pins block) block call ≤ (array.after call).held.count block := by
  have before := held block
  cases call with
  | pin inum pnum =>
    show (if block = pnum then _ else _) ≤ (pnum :: array.held).count block
    rw [List.count_cons]
    by_cases same : block = pnum
    · rw [if_pos same, if_pos (beq_iff_eq.mpr same.symm)]
      omega
    · rw [if_neg same]
      omega
  | unpin inum pnum =>
    show (if block = pnum then _ else _) ≤ (array.held.erase pnum).count block
    by_cases same : block = pnum
    · rw [if_pos same, same, List.count_erase_self, ← same]
      omega
    · rw [if_neg same, List.count_erase_of_ne same]
      exact before
  | get | write | sync => exact before

/-- A call on a machine that serves an array answers as the array does. -/
theorem Serves.step {call : CacheCall Page} (serves : Serves totalBlocks machine array)
    (below : call.Below totalBlocks)
    (allows : (array.after call).Allows machine.cache.cacheSize) :
    ∃ after, cacheStep tags machine call = some ((arrayStep array.blocks call).1, after) ∧
      Serves totalBlocks after (array.after call) ∧
      after.cache.cacheSize = machine.cache.cacheSize := by
  obtain ⟨recent, pending, coherent⟩ := serves.coherent
  obtain ⟨after, recent', pending', run, coherent', -⟩ :=
    cacheStep_coherent tags coherent call (serves.permits below allows)
  have tidy := coherent.tidy fun slot inside => by cases inside
  obtain ⟨recent'', pending'', stepped⟩ := tidy.step run
  have writes : call.Writes fun _ _ => True := by
    cases call with
    | get | write | pin | unpin | sync => exact True.intro
  rw [← BlockArray.after_blocks] at coherent'
  refine ⟨after, run, ⟨⟨recent', pending', coherent'⟩,
    (serves.sourced.step serves.addressed tidy below writes run).1, serves.addressed, fun block => ?_,
    tidy.step_size serves.room run, ?_⟩, stepped.cacheSize⟩
  · rw [stepped.pins]
    exact BlockArray.pins_after serves.pins call block
  · rw [stepped.cacheSize]
    exact allows

/-- Assigning a page and writing it to the image. -/
theorem Serves.overwrite (serves : Serves totalBlocks machine array) {pnum : Nat}
    (below : pnum < totalBlocks) (page : Page) :
    ∃ image, diskWriteBlock (machine.assign pnum page).image pnum page = some image ∧
      Serves totalBlocks { machine.assign pnum page with image } (array.put pnum page) ∧
      (machine.assign pnum page).cache.cacheSize = machine.cache.cacheSize := by
  obtain ⟨recent, pending, coherent⟩ := serves.coherent
  have tidy := coherent.tidy fun slot inside => by cases inside
  obtain ⟨image, stored, coherent'⟩ := coherent.overwrite (serves.reaches below) page
  have assigned := tidy.assign pnum page
  have flushed := assigned.tidy.flush stored
  have size := assigned.cacheSize
  have sourced := (serves.sourced.assign tidy True.intro).put serves.addressed below True.intro stored
  refine ⟨image, stored, ⟨⟨recent, pending, coherent'⟩, sourced, serves.addressed, fun block => ?_, ?_,
    ?_⟩, size⟩
  · rw [flushed.pins, assigned.pins]
    exact serves.pins block
  · rw [coherent'.gdl.size, ← coherent.gdl.size]
    exact serves.room
  · show array.Allows (machine.assign pnum page).cache.cacheSize
    rw [size]
    exact serves.allows

/-- Writing a page to the image as it is. -/
theorem Serves.flush (serves : Serves totalBlocks machine array) {pnum : Nat}
    (below : pnum < totalBlocks) :
    ∃ image, diskWriteBlock machine.image pnum (array.blocks pnum) = some image ∧
      Serves totalBlocks { machine with image } array := by
  obtain ⟨recent, pending, coherent⟩ := serves.coherent
  have stored := diskWriteBlock_eq (serves.reaches below) (array.blocks pnum)
  exact ⟨_, stored, ⟨recent, pending, coherent.put_latest pnum⟩,
    serves.sourced.put serves.addressed below True.intro stored, serves.addressed, serves.pins,
    serves.room, serves.allows⟩

/-- Code that runs on an array of blocks runs on every cache that serves the array. It ends with the
same value, and the cache serves the array behind it. -/
theorem CacheProgram.Plain.run {program : CacheProgram Page α} {value : α} {slots : Nat}
    (plain : program.Plain totalBlocks slots array value result)
    (serves : Serves totalBlocks machine array) (size : machine.cache.cacheSize = slots) :
    ∃ after, program.run tags machine = some (value, after) ∧ Serves totalBlocks after result ∧
      after.cache.cacheSize = slots := by
  induction plain generalizing machine with
  | done => exact ⟨machine, rfl, serves, size⟩
  | call below allows _ ih =>
    rw [← size] at allows
    obtain ⟨next, step, serves', size'⟩ := @Serves.step _ tags _ _ _ _ serves below allows
    obtain ⟨after, rest, final⟩ := ih serves' (size'.trans size)
    refine ⟨after, ?_, final⟩
    rw [CacheProgram.run, step]
    exact rest
  | through below _ ih =>
    obtain ⟨image, stored, serves', size'⟩ := serves.overwrite below _
    obtain ⟨after, rest, final⟩ := ih serves' (size'.trans size)
    refine ⟨after, ?_, final⟩
    rw [CacheProgram.run, CacheProgram.run, stored]
    exact rest
  | @behind _ pnum page inum _ _ _ below allows _ ih =>
    have call : (CacheCall.write page inum pnum).Below totalBlocks := below
    rw [← size] at allows
    obtain ⟨next, step, serves', size'⟩ := @Serves.step _ tags _ _ _ _ serves call allows
    obtain ⟨after, rest, final⟩ := ih serves' (size'.trans size)
    refine ⟨after, ?_, final⟩
    have same : cacheStep tags (machine.assign pnum page) (.write page inum pnum) =
        cacheStep tags machine (.write page inum pnum) :=
      congrArg (Option.map _) (writeBlock_assign machine page inum pnum)
    rw [CacheProgram.run, CacheProgram.run, same, step]
    exact rest
  | stored below _ ih =>
    obtain ⟨image, stored, serves'⟩ := serves.flush below
    obtain ⟨after, rest, final⟩ := ih serves' size
    refine ⟨after, ?_, final⟩
    rw [CacheProgram.run, stored]
    exact rest

/-- `cache_sync` on a machine that serves an array writes the array to the image. -/
theorem Serves.synced (serves : Serves totalBlocks machine array) :
    ∃ after, cacheSync tags machine = some after ∧
      Serves totalBlocks after { array with unsynced := 0 } ∧
      (∀ block, after.image.block block = array.blocks block) ∧
      ∀ slot < after.cache.cacheSize, (after.cache.entries slot).dirtyBit = false := by
  obtain ⟨recent, pending, coherent⟩ := serves.coherent
  obtain ⟨synced, run, coherent'⟩ := cacheSync_coherent tags coherent
  have step : cacheStep tags machine .sync = some (none, synced) := congrArg (Option.map _) run
  obtain ⟨after, step', serves', -⟩ := @Serves.step _ tags _ _ _ .sync serves True.intro
    ⟨serves.allows.1, serves.allows.2.1, Nat.zero_le _⟩
  obtain rfl : synced = after := (Prod.mk.inj (Option.some.inj (step.symm.trans step'))).2
  exact ⟨synced, run, serves', coherent'.image_latest, coherent'.all_clean⟩

end Serving

/-- From a new cache over an image, code that runs on the array of the image's blocks for as many slots
runs to the same value, and a sync behind it leaves the array on the image and no slot dirty. -/
theorem program_served (tags : PageTags Page) (image : Image Page) {cacheSize : Nat}
    (nonempty : 0 < cacheSize) (fits : cacheSize ≤ intMax) (uninitialised : Nat → CacheEntry Page)
    (addressed : image.totalBlocks ≤ addressable) {program : CacheProgram Page α} {value : α}
    {array : BlockArray Page}
    (plain : program.Plain image.totalBlocks cacheSize image.array value array) :
    ∃ after synced, program.run tags ⟨allocCache cacheSize uninitialised, image⟩ = some (value, after) ∧
      cacheSync tags after = some synced ∧
      (∀ block, synced.image.block block = array.blocks block) ∧
      ∀ slot < synced.cache.cacheSize, (synced.cache.entries slot).dirtyBit = false := by
  have serves := allocCache_serves image fits uninitialised addressed nonempty
  obtain ⟨after, run, serves', -⟩ := plain.run serves rfl
  obtain ⟨synced, sync, -, written, clean⟩ := @Serves.synced _ tags _ _ _ serves'
  exact ⟨after, synced, run, sync, written, clean⟩

/-- Two pages are read and replaced in the cache, one of them pinned. A third one is read and replaced on
the image too, and the first one is read again. The sum of what was read is the value. -/
def replaceThree : CacheProgram Nat Nat :=
  .call (.get 5 1) fun one => .assign 1 7 <| .call (.write 7 5 1) fun _ =>
    .call (.get 5 2) fun two => .call (.pin 5 2) fun _ => .assign 2 8 <| .call (.write 8 5 2) fun _ =>
      .call (.get 5 0) fun zero => .assign 0 9 <| .flush 0 9 <| .call (.unpin 5 2) fun _ =>
        .call (.get 5 1) fun again =>
          .done (one.getD 0 + two.getD 0 + zero.getD 0 + again.getD 0)

/-- Three blocks go through two slots, so the first page is evicted and read back. -/
theorem program_served_two_slots :
    ∃ after synced,
      replaceThree.run ⟨fun _ => true, fun _ => true⟩
        ⟨allocCache 2 fun _ => ⟨true, 3, 9, 9, some 9, some 9, some 9⟩, ⟨3, fun pnum => pnum⟩⟩ =
          some (10, after) ∧
      cacheSync ⟨fun _ => true, fun _ => true⟩ after = some synced ∧
      (synced.image.block 0 = 9 ∧ synced.image.block 1 = 7 ∧ synced.image.block 2 = 8) := by
  have plain : ∃ array, replaceThree.Plain 3 2 ⟨fun pnum => pnum, [], 0⟩ 10 array ∧
      array.blocks 0 = 9 ∧ array.blocks 1 = 7 ∧ array.blocks 2 = 8 := by
    refine ⟨_, .call ?_ ?_ (.behind ?_ ?_ (.call ?_ ?_ (.call ?_ ?_ (.behind ?_ ?_ (.call ?_ ?_
      (.through ?_ (.call ?_ ?_ (.call ?_ ?_ .done)))))))), ?_⟩
    all_goals decide
  obtain ⟨array, plain, zero, one, two⟩ := plain
  obtain ⟨after, synced, run, sync, written, -⟩ := program_served ⟨fun _ => true, fun _ => true⟩
    ⟨3, fun pnum => pnum⟩ (show 0 < 2 by decide) (show 2 ≤ intMax by decide)
    (fun _ => ⟨true, 3, 9, 9, some 9, some 9, some 9⟩) (by decide) plain
  exact ⟨after, synced, run, sync, (written 0).trans zero, (written 1).trans one,
    (written 2).trans two⟩

end Nbtrfs
