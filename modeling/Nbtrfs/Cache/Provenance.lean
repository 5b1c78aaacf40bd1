import Nbtrfs.Cache.Unsaved

/-!
# Where pages come from

A page moves between the image and a slot, and from the code into a slot or onto the image; the cache
makes none up. What holds of every page on the image and of every page that the code writes therefore
holds of every page that it reads, and of the image at every point at which it may be killed.
-/

namespace Nbtrfs

variable {Page α : Type}

/-- The block of a call lies below a number. -/
def CacheCall.Below (totalBlocks : Nat) : CacheCall Page → Prop
  | .get _ pnum | .write _ _ pnum | .pin _ pnum | .unpin _ pnum => pnum < totalBlocks
  | .sync => True

/-- Whether a call stays in the image is decidable. -/
instance (totalBlocks : Nat) (call : CacheCall Page) : Decidable (call.Below totalBlocks) :=
  match call with
  | .get _ pnum | .write _ _ pnum | .pin _ pnum | .unpin _ pnum =>
    inferInstanceAs (Decidable (pnum < totalBlocks))
  | .sync => isTrue True.intro

/-- The page that a call writes is one that its block may have. -/
def CacheCall.Writes (holds : Nat → Page → Prop) : CacheCall Page → Prop
  | .write buf _ pnum => holds pnum buf
  | .get _ _ | .pin _ _ | .unpin _ _ | .sync => True

/-- The page that a call returns is one that its block may have. -/
def CacheCall.Reads (holds : Nat → Page → Prop) (result : Option Page) : CacheCall Page → Prop
  | .get _ pnum => ∀ page, result = some page → holds pnum page
  | .write _ _ _ | .pin _ _ | .unpin _ _ | .sync => True

/-- A slot is not in use: it is free, or none of the array. -/
def Cache.Unused (cache : Cache Page) (slot : Nat) : Prop :=
  slot ∈ cache.freeList ∨ cache.cacheSize ≤ slot

/-- Every page on the image and in a slot is one that its block may have. -/
structure Sourced (holds : Nat → Page → Prop) (totalBlocks : Nat) (machine : Machine Page) : Prop
    where
  /-- The image has its size. -/
  total : machine.image.totalBlocks = totalBlocks
  /-- The pages on the image. -/
  image : ∀ block, holds block (machine.image.block block)
  /-- The pages in the slots, which are those of blocks of the image. -/
  slot : ∀ slot page, (machine.cache.entries slot).pageData = some page →
    (machine.cache.entries slot).blockNumber < totalBlocks ∧
      holds (machine.cache.entries slot).blockNumber page
  /-- A slot that is not in use holds no page. -/
  empty : ∀ slot, machine.cache.Unused slot → (machine.cache.entries slot).pageData = none

/-- A new cache holds no pages. -/
theorem allocCache_sourced {holds : Nat → Page → Prop} (image : Image Page) (cacheSize : Nat)
    (uninitialised : Nat → CacheEntry Page) (pages : ∀ block, holds block (image.block block)) :
    Sourced holds image.totalBlocks ⟨allocCache cacheSize uninitialised, image⟩ where
  total := rfl
  image := pages
  slot _ _ held := by cases held
  empty _ _ := rfl

section Steps

variable {tags : PageTags Page} {holds : Nat → Page → Prop} {totalBlocks : Nat}
  {machine after ready : Machine Page} {recent pending : List (Nat × Nat)}
  {inum pnum slot : Nat} {page : Page}

/-- A slot is in use or not. -/
theorem Tidy.used_iff (tidy : Tidy machine recent pending) :
    slot ∈ recent.map Prod.snd ↔ ¬ machine.cache.Unused slot := by
  constructor
  · rintro used (isFree | outside)
    · exact tidy.not_free used isFree
    · have bound := List.mem_range.mp (tidy.slots.mem_iff.mp (List.mem_append_left _ used))
      omega
  · intro used
    have bound : slot < machine.cache.cacheSize := by
      by_contra outside
      exact used (Or.inr (Nat.not_lt.mp outside))
    have inside := tidy.slots.mem_iff.mpr (List.mem_range.mpr bound)
    exact (List.mem_append.mp inside).resolve_right fun isFree => used (Or.inl isFree)

/-- Pages that blocks may have under another condition. -/
theorem Sourced.mono {holds' : Nat → Page → Prop} (sourced : Sourced holds totalBlocks machine)
    (weaker : ∀ block page, holds block page → holds' block page) :
    Sourced holds' totalBlocks machine where
  total := sourced.total
  image block := weaker block _ (sourced.image block)
  slot slot page held :=
    ⟨(sourced.slot slot page held).1, weaker _ page (sourced.slot slot page held).2⟩
  empty := sourced.empty

/-- A change of one slot in use that keeps its block, and its page unless a new one is given. -/
theorem Sourced.setEntry (sourced : Sourced holds totalBlocks machine) {cache : Cache Page}
    (entries : cache.entries = machine.cache.entries)
    (free : ∀ slot, cache.Unused slot → machine.cache.Unused slot) (used : ¬ machine.cache.Unused slot)
    {entry : CacheEntry Page}
    (block : entry.blockNumber = (machine.cache.entries slot).blockNumber)
    (content : entry.pageData = (machine.cache.entries slot).pageData ∨
      ∃ page, entry.pageData = some page ∧ entry.blockNumber < totalBlocks ∧
        holds entry.blockNumber page) :
    Sourced holds totalBlocks { machine with cache := cache.setEntry slot entry } where
  total := sourced.total
  image := sourced.image
  slot other page held := by
    by_cases same : other = slot
    · subst same
      rw [Cache.setEntry_same] at held ⊢
      rcases content with kept | ⟨new, held', below, pages⟩
      · rw [kept] at held
        rw [block]
        exact sourced.slot other page held
      · obtain rfl := Option.some.inj (held.symm.trans held')
        exact ⟨below, pages⟩
    · rw [Cache.setEntry_other _ _ _ _ same, entries] at held ⊢
      exact sourced.slot other page held
  empty other isUnused := by
    have isFree := free other isUnused
    have differs : other ≠ slot := by
      rintro rfl
      exact used isFree
    rw [Cache.setEntry_other _ _ _ _ differs, entries]
    exact sourced.empty other isFree

/-- Writing a page to a block of the image. -/
theorem Sourced.put (sourced : Sourced holds totalBlocks machine) (addressed : totalBlocks ≤ addressable)
    (below : pnum < totalBlocks) (pages : holds pnum page) {image : Image Page}
    (run : diskWriteBlock machine.image pnum page = some image) :
    Sourced holds totalBlocks { machine with image } := by
  have reaches : machine.image.Reaches pnum := by
    refine ⟨?_, by omega⟩
    rw [sourced.total]
    exact below
  rw [diskWriteBlock_eq reaches] at run
  obtain rfl := Option.some.inj run
  refine ⟨sourced.total, fun block => ?_, sourced.slot, sourced.empty⟩
  by_cases same : block = pnum
  · rw [same]
    show holds pnum ((machine.image.put pnum page).block pnum)
    rw [Image.put_same]
    exact pages
  · show holds block ((machine.image.put pnum page).block block)
    rw [Image.put_other _ _ _ _ same]
    exact sourced.image block

/-- The machine that a miss loads its block into. Only the emptied slot has changed. -/
theorem Sourced.readied {rest : List (Nat × Nat)} (sourced : Sourced holds totalBlocks machine)
    (addressed : totalBlocks ≤ addressable)
    (readied : Readied tags machine recent slot ready rest) :
    ready.image.totalBlocks = totalBlocks ∧ (∀ block, holds block (ready.image.block block)) ∧
      (∀ other, other ≠ slot → ready.cache.entries other = machine.cache.entries other) ∧
      ∀ other, ready.cache.Unused other → other = slot ∨ machine.cache.Unused other := by
  by_cases full : machine.cache.freeList = []
  · obtain ⟨-, evicted, -⟩ := readied.evicted full
    have was : ∀ other, ready.cache.Unused other → other = slot ∨ machine.cache.Unused other := by
      rintro other (isFree | outside)
      · rw [evicted.free] at isFree
        exact Or.inl (List.mem_singleton.mp isFree)
      · rw [evicted.cacheSize] at outside
        exact Or.inr (Or.inr outside)
    cases dirtyBit : (machine.cache.entries slot).dirtyBit with
    | false =>
      obtain ⟨same, -, -⟩ := evicted.clean dirtyBit
      rw [same]
      exact ⟨sourced.total, sourced.image, evicted.others, was⟩
    | true =>
      obtain ⟨page, held, stored, -⟩ := evicted.dirty dirtyBit
      obtain ⟨below, pages⟩ := sourced.slot slot page held
      have written := sourced.put addressed below pages stored
      exact ⟨written.total, written.image, evicted.others, was⟩
  · obtain ⟨rfl, -⟩ := readied.untouched full
    exact ⟨sourced.total, sourced.image, fun _ _ => rfl, fun _ => Or.inr⟩

/-- `get_block` returns a page that the block may have. -/
theorem Sourced.get (sourced : Sourced holds totalBlocks machine)
    (addressed : totalBlocks ≤ addressable) (tidy : Tidy machine recent pending)
    (below : pnum < totalBlocks) (run : getBlock tags machine inum pnum = some (page, after)) :
    Sourced holds totalBlocks after ∧ holds pnum page := by
  cases present : pciLookup machine.cache.pci pnum with
  | some slot =>
    obtain ⟨left, former, right, lru, node, -, rfl, held, -⟩ := tidy.touch present run
    obtain ⟨used, block⟩ := tidy.indexed pnum slot present
    obtain ⟨-, pages⟩ := sourced.slot slot page held
    rw [block] at pages
    exact ⟨@Sourced.setEntry _ _ _ _ slot sourced { machine.cache with lru } rfl
      (fun _ => id) (tidy.used_iff.mp used) _ rfl (Or.inl rfl), pages⟩
  | none =>
    obtain ⟨slot, ready, rest, pending', free, lru, node, readied, tidy', read, rfl, tidy'', -⟩ :=
      tidy.miss present run
    obtain ⟨total, image, others, was⟩ := sourced.readied addressed readied
    have reaches : ready.image.Reaches pnum := by
      refine ⟨?_, by omega⟩
      rw [total]
      exact below
    rw [diskReadBlock_eq reaches] at read
    obtain rfl := Option.some.inj read
    refine ⟨⟨total, image, fun other page held => ?_, fun other isFree => ?_⟩, image pnum⟩
    · by_cases same : other = slot
      · subst same
        rw [Machine.loaded_same] at held ⊢
        obtain rfl := Option.some.inj held
        exact ⟨below, image pnum⟩
      · rw [Machine.loaded_other _ _ _ _ _ _ _ _ _ same, others other same] at held ⊢
        exact sourced.slot other page held
    · have unused : ¬ other ∈ ((node, slot) :: rest).map Prod.snd := fun used =>
        tidy''.used_iff.mp used isFree
      rw [List.map_cons, List.mem_cons, not_or] at unused
      have before : ready.cache.Unused other := by
        by_contra used
        exact unused.2 (tidy'.used_iff.mpr used)
      rw [Machine.loaded_other _ _ _ _ _ _ _ _ _ unused.1, others other unused.1]
      exact sourced.empty other ((was other before).resolve_left unused.1)

/-- The slot of a block. -/
theorem Sourced.resident (sourced : Sourced holds totalBlocks machine)
    (addressed : totalBlocks ≤ addressable) (tidy : Tidy machine recent pending)
    (below : pnum < totalBlocks) (run : residentSlot tags machine inum pnum = some (slot, ready)) :
    Sourced holds totalBlocks ready := by
  rw [residentSlot] at run
  cases present : pciLookup machine.cache.pci pnum with
  | some index =>
    rw [present] at run
    obtain ⟨-, rfl⟩ := Prod.mk.inj (Option.some.inj run)
    exact sourced
  | none =>
    rw [present] at run
    obtain ⟨⟨page, loaded⟩, get, run⟩ := Option.bind_eq_some_iff.mp run
    obtain ⟨index, -, run⟩ := Option.bind_eq_some_iff.mp run
    obtain ⟨-, rfl⟩ := Prod.mk.inj (Option.some.inj run)
    exact (sourced.get addressed tidy below get).1

/-- `cache_sync` writes the pages of slots. -/
theorem Sourced.syncLoop {fuel : Nat} (sourced : Sourced holds totalBlocks machine)
    (addressed : totalBlocks ≤ addressable) (tidy : Tidy machine recent pending)
    (run : cacheSyncLoop tags fuel machine = some after) : Sourced holds totalBlocks after := by
  induction fuel generalizing machine pending with
  | zero => cases run
  | succ fuel ih =>
    rcases List.eq_nil_or_concat pending with rfl | ⟨marks, ⟨mark, slot⟩, rfl⟩
    · have empty : machine.cache.gdl.size = 0 := tidy.gdl.size
      rw [cacheSyncLoop, empty, if_neg (by omega)] at run
      obtain rfl := Option.some.inj run
      exact sourced
    · rw [List.concat_eq_append] at tidy
      obtain ⟨gdl, page, image, held, stored, run, tidy'⟩ := tidy.syncRound run
      obtain ⟨below, pages⟩ := sourced.slot slot page held
      have written := sourced.put addressed below pages stored
      have used : ¬ machine.cache.Unused slot := by
        intro unused
        rw [sourced.empty slot unused] at held
        cases held
      refine ih ?_ (tidy' _) run
      exact @Sourced.setEntry _ _ _ _ slot written
        { machine.cache with gdl, dirtyList := _ } rfl (fun _ => id) used _ rfl (Or.inl rfl)

/-- One call. -/
theorem Sourced.step (sourced : Sourced holds totalBlocks machine)
    (addressed : totalBlocks ≤ addressable) (tidy : Tidy machine recent pending)
    {call : CacheCall Page} {result : Option Page}
    (below : call.Below totalBlocks) (writes : call.Writes holds)
    (run : cacheStep tags machine call = some (result, after)) :
    Sourced holds totalBlocks after ∧ call.Reads holds result := by
  cases call with
  | get inum pnum =>
    obtain ⟨⟨page, after'⟩, get, result⟩ := Option.map_eq_some_iff.mp run
    obtain ⟨rfl, rfl⟩ := Prod.mk.inj result
    obtain ⟨sourced', pages⟩ := sourced.get addressed tidy below get
    refine ⟨sourced', fun page read => ?_⟩
    obtain rfl := Option.some.inj read
    exact pages
  | write buf inum pnum =>
    obtain ⟨after', write, result⟩ := Option.map_eq_some_iff.mp run
    obtain ⟨-, rfl⟩ := Prod.mk.inj result
    obtain ⟨⟨slot, ready⟩, resident, write⟩ := Option.bind_eq_some_iff.mp write
    obtain ⟨cache, copied, write⟩ := Option.bind_eq_some_iff.mp write
    obtain rfl := Option.some.inj write
    obtain ⟨recent', pending', found, stepped⟩ := tidy.resident resident
    obtain ⟨mark, marked, gdl, -, -, -, -, rfl⟩ := writeSlot_some stepped.tidy.gdl copied
    obtain ⟨used, block⟩ := stepped.tidy.indexed pnum slot found
    have there := sourced.resident addressed tidy below resident
    refine ⟨@Sourced.setEntry _ _ _ _ slot there
      { ready.cache with
        gdl, dirtyList := filedUnder tags ready.cache.dirtyList buf inum pnum } rfl (fun _ => id)
      (stepped.tidy.used_iff.mp used) _ rfl (Or.inr ⟨buf, rfl, ?_, ?_⟩), True.intro⟩
    · show (ready.cache.entries slot).blockNumber < totalBlocks
      rw [block]
      exact below
    · show holds (ready.cache.entries slot).blockNumber buf
      rw [block]
      exact writes
  | pin inum pnum =>
    obtain ⟨after', pin, result⟩ := Option.map_eq_some_iff.mp run
    obtain ⟨-, rfl⟩ := Prod.mk.inj result
    obtain ⟨⟨slot, ready⟩, resident, pin⟩ := Option.bind_eq_some_iff.mp pin
    obtain ⟨-, pin⟩ := Option.ite_none_right_eq_some.mp pin
    obtain rfl := Option.some.inj pin
    obtain ⟨recent', pending', found, stepped⟩ := tidy.resident resident
    obtain ⟨used, -⟩ := stepped.tidy.indexed pnum slot found
    exact ⟨(sourced.resident addressed tidy below resident).setEntry rfl
      (fun _ => id) (stepped.tidy.used_iff.mp used) rfl (Or.inl rfl), True.intro⟩
  | unpin inum pnum =>
    obtain ⟨after', unpin, result⟩ := Option.map_eq_some_iff.mp run
    obtain ⟨-, rfl⟩ := Prod.mk.inj result
    obtain ⟨⟨slot, ready⟩, resident, unpin⟩ := Option.bind_eq_some_iff.mp unpin
    obtain rfl := Option.some.inj unpin
    obtain ⟨recent', pending', found, stepped⟩ := tidy.resident resident
    obtain ⟨used, -⟩ := stepped.tidy.indexed pnum slot found
    exact ⟨(sourced.resident addressed tidy below resident).setEntry rfl
      (fun _ => id) (stepped.tidy.used_iff.mp used) rfl (Or.inl rfl), True.intro⟩
  | sync =>
    obtain ⟨after', sync, result⟩ := Option.map_eq_some_iff.mp run
    obtain ⟨-, rfl⟩ := Prod.mk.inj result
    exact ⟨sourced.syncLoop addressed tidy sync, True.intro⟩

/-- Assigning a page that the block may have. -/
theorem Sourced.assign (sourced : Sourced holds totalBlocks machine)
    (tidy : Tidy machine recent pending) (pages : holds pnum page) :
    Sourced holds totalBlocks (machine.assign pnum page) := by
  rw [Machine.assign]
  cases present : pciLookup machine.cache.pci pnum with
  | none => exact sourced
  | some slot =>
    obtain ⟨used, block⟩ := tidy.indexed pnum slot present
    obtain ⟨node, inside, -⟩ := tidy.hit present
    obtain ⟨former, held⟩ := (tidy.kept node slot inside).page
    refine sourced.setEntry rfl (fun _ => id) (tidy.used_iff.mp used) rfl
      (Or.inr ⟨page, rfl, (sourced.slot slot former held).1, ?_⟩)
    show holds (machine.cache.entries slot).blockNumber page
    rw [block]
    exact pages

end Steps

/-- The page that a call writes, with its block. -/
def CacheCall.written : CacheCall Page → List (Nat × Page)
  | .write buf _ pnum => [(pnum, buf)]
  | .get _ _ | .pin _ _ | .unpin _ _ | .sync => []

/-- The pages that the first actions of a program write, each with its block: with `write_block`,
through a pointer and with `disk_write_block`. -/
def CacheProgram.writtenFor (tags : PageTags Page) :
    Nat → Machine Page → CacheProgram Page α → List (Nat × Page)
  | 0, _, _ => []
  | _ + 1, _, done _ => []
  | _ + 1, _, undefined => []
  | count + 1, machine, call made next =>
    made.written ++ (cacheStep tags machine made).elim [] fun result =>
      writtenFor tags count result.2 (next result.1)
  | count + 1, machine, assign pnum page next =>
    (pnum, page) :: writtenFor tags count (machine.assign pnum page) next
  | count + 1, machine, flush pnum page next =>
    (pnum, page) :: (diskWriteBlock machine.image pnum page).elim [] fun image =>
      writtenFor tags count { machine with image } next

section Programs

variable {tags : PageTags Page} {holds : Nat → Page → Prop} {totalBlocks : Nat}
  {machine point : Machine Page} {recent pending : List (Nat × Nat)}

/-- Wherever code has come, what holds of every page before it and of every page that it has written
holds of every page. -/
theorem Sourced.runWritten (count : Nat) {program : CacheProgram Page α}
    {calls : List (CacheCall Page)} (sourced : Sourced holds totalBlocks machine)
    (addressed : totalBlocks ≤ addressable) (tidy : Tidy machine recent pending)
    (run : program.runFor tags count machine = some (calls, point))
    (below : ∀ call ∈ calls, call.Below totalBlocks)
    (written : ∀ entry ∈ program.writtenFor tags count machine,
      entry.1 < totalBlocks ∧ holds entry.1 entry.2) : Sourced holds totalBlocks point := by
  induction count generalizing machine recent pending program calls with
  | zero =>
    rw [CacheProgram.runFor] at run
    obtain ⟨-, rfl⟩ := Prod.mk.inj (Option.some.inj run)
    exact sourced
  | succ count ih =>
    cases program with
    | done value =>
      rw [CacheProgram.runFor] at run
      obtain ⟨-, rfl⟩ := Prod.mk.inj (Option.some.inj run)
      exact sourced
    | undefined => cases run
    | call made next =>
      rw [CacheProgram.runFor] at run
      obtain ⟨⟨page, stepped⟩, step, run⟩ := Option.bind_eq_some_iff.mp run
      obtain ⟨⟨later, last⟩, rest, run⟩ := Option.bind_eq_some_iff.mp run
      obtain ⟨rfl, rfl⟩ := Prod.mk.inj (Option.some.inj run)
      obtain ⟨recent', pending', change⟩ := tidy.step step
      have there : ∀ call ∈ later, call.Below totalBlocks :=
        fun call inside => below call (List.mem_cons_of_mem made inside)
      rw [CacheProgram.writtenFor, step, List.forall_mem_append] at written
      have writes : made.Writes holds := by
        cases made with
        | write buf inum pnum => exact (written.1 (pnum, buf) List.mem_cons_self).2
        | get inum pnum | pin inum pnum | unpin inum pnum | sync => exact True.intro
      obtain ⟨sourced', -⟩ :=
        sourced.step addressed tidy (below made List.mem_cons_self) writes step
      exact ih sourced' change.tidy rest there written.2
    | assign pnum page next =>
      rw [CacheProgram.runFor] at run
      rw [CacheProgram.writtenFor] at written
      exact ih (sourced.assign tidy (written (pnum, page) List.mem_cons_self).2)
        (tidy.assign pnum page).tidy run below
        fun entry inside => written entry (List.mem_cons_of_mem _ inside)
    | flush pnum page next =>
      rw [CacheProgram.runFor] at run
      obtain ⟨image, stored, run⟩ := Option.bind_eq_some_iff.mp run
      rw [CacheProgram.writtenFor, stored] at written
      obtain ⟨inside, pages⟩ := written (pnum, page) List.mem_cons_self
      exact ih (sourced.put addressed inside pages stored) (tidy.flush stored).tidy run below
        fun entry inside => written entry (List.mem_cons_of_mem _ inside)

end Programs

end Nbtrfs
