import Nbtrfs.Cache.Residency

/-!
# What is still dirty

Only `write_block` makes a block dirty. Code that does not call it leaves no block dirty that was
clean before, at any of its points, and the same holds of `cache_sync` after each of its rounds. As
long as such code finds its blocks in the cache it evicts nothing, and every dirty block stays dirty.
-/

namespace Nbtrfs

variable {Page α β : Type}

/-- The page of a block in the cache. -/
def Machine.page (machine : Machine Page) (block : Nat) : Option Page :=
  (pciLookup machine.cache.pci block).bind fun slot => (machine.cache.entries slot).pageData

/-- The block is in a slot that is marked for write-back. -/
def Machine.Dirty (machine : Machine Page) (block : Nat) : Prop :=
  ∃ slot, pciLookup machine.cache.pci block = some slot ∧
    (machine.cache.entries slot).dirtyBit = true

/-- No block is dirty that was clean. -/
def DirtiesNone (machine after : Machine Page) : Prop :=
  ∀ block, after.Dirty block → machine.Dirty block

section Operations

variable (tags : PageTags Page)

/-- One round of the loop of `cache_sync`: whether the loop goes on, and the machine after it. -/
def cacheSyncRound (machine : Machine Page) : Option (Bool × Machine Page) :=
  if 0 < machine.cache.gdl.size ∧ machine.cache.gdl.head ≠ none then do
    let cache := machine.cache
    let first ← cache.gdl.head
    let head ← cache.gdl.heap first
    let (popped, gdl) ← gdlPop cache.gdl (some head.prev)
    let index ← popped
    if cache.cacheSize ≤ index then some (false, { machine with cache := { cache with gdl } })
    else do
      let entry := cache.entries index
      let page ← entry.pageData
      let image ← diskWriteBlock machine.image entry.blockNumber page
      let dirtyList :=
        if tags.isData page then
          dlRemoveBlock cache.dirtyList entry.inodeNumber entry.blockNumber
        else cache.dirtyList
      some (true, machine.cleaned index gdl dirtyList image)
  else some (false, machine)

/-- The machine after the first rounds of `cache_sync`, so many or fewer. -/
def cacheSyncFor : Nat → Machine Page → Option (Machine Page)
  | 0, machine => some machine
  | count + 1, machine => do
    let (goesOn, machine) ← cacheSyncRound tags machine
    if goesOn then cacheSyncFor count machine else some machine

/-- The loop of `cache_sync`, round by round. -/
theorem cacheSyncLoop_succ (fuel : Nat) (machine : Machine Page) :
    cacheSyncLoop tags (fuel + 1) machine =
      (cacheSyncRound tags machine).bind fun round =>
        if round.1 then cacheSyncLoop tags fuel round.2 else some round.2 := by
  rw [cacheSyncLoop, cacheSyncRound]
  split
  · simp only [Option.bind_eq_bind, Option.bind_assoc]
    refine congrArg _ (funext fun first => congrArg _ (funext fun head => ?_))
    refine congrArg _ (funext fun popped => congrArg _ (funext fun index => ?_))
    split
    · rfl
    · simp only [Option.bind_assoc]
      rfl
  · rfl

/-- `cache_sync` is its rounds. -/
theorem cacheSyncFor_of_loop {fuel : Nat} {machine after : Machine Page}
    (run : cacheSyncLoop tags fuel machine = some after) :
    cacheSyncFor tags fuel machine = some after := by
  induction fuel generalizing machine with
  | zero => cases run
  | succ fuel ih =>
    rw [cacheSyncLoop_succ] at run
    obtain ⟨⟨goesOn, next⟩, round, run⟩ := Option.bind_eq_some_iff.mp run
    rw [cacheSyncFor, round, Option.bind_eq_bind, Option.bind_some]
    cases goesOn with
    | true => exact ih run
    | false => exact run

end Operations

section Steps

variable {tags : PageTags Page} {machine after ready : Machine Page}
  {recent pending : List (Nat × Nat)} {written : Bool} {inum pnum slot : Nat} {page : Page}

/-- Blocks stay in their slots, and no slot gets dirty. -/
theorem dirtiesNone_of_entries (index : after.cache.pci = machine.cache.pci)
    (bits : ∀ slot, (after.cache.entries slot).dirtyBit = true →
      (machine.cache.entries slot).dirtyBit = true) : DirtiesNone machine after := by
  rintro block ⟨slot, present, dirty⟩
  rw [index] at present
  exact ⟨slot, present, bits slot dirty⟩

/-- A change of one slot that does not make it dirty. -/
theorem dirtyBit_setEntry (cache : Cache Page) (slot : Nat) (entry : CacheEntry Page)
    (bit : entry.dirtyBit = true → (cache.entries slot).dirtyBit = true) (other : Nat)
    (dirty : ((cache.setEntry slot entry).entries other).dirtyBit = true) :
    (cache.entries other).dirtyBit = true := by
  by_cases same : other = slot
  · rw [same, Cache.setEntry_same] at dirty
    rw [same]
    exact bit dirty
  · rw [Cache.setEntry_other _ _ _ _ same] at dirty
    exact dirty

/-- `get_block` makes no block dirty: an eviction writes its block back, and a loaded block is
clean. -/
theorem Tidy.get_dirtiesNone (tidy : Tidy machine recent pending)
    (run : getBlock tags machine inum pnum = some (page, after)) : DirtiesNone machine after := by
  cases present : pciLookup machine.cache.pci pnum with
  | some slot =>
    obtain ⟨left, former, right, lru, node, rfl, rfl, -, -⟩ := tidy.touch present run
    apply dirtiesNone_of_entries
    · rfl
    · exact dirtyBit_setEntry { machine.cache with lru } slot
        { machine.cache.entries slot with lruPos := some node } id
  | none =>
    obtain ⟨slot, ready, rest, pending', free, lru, node, readied, -, -, rfl, -, -⟩ :=
      tidy.miss present run
    rintro block ⟨found, lookup, dirty⟩
    have inserted := Chains.lookup_insert hashmapBucket ready.cache.pci pnum block slot
    have differs : found ≠ slot := by
      rintro rfl
      rw [Machine.loaded_same] at dirty
      cases dirty
    rw [Machine.loaded_other _ _ _ _ _ _ _ _ _ differs] at dirty
    have older : pciLookup ready.cache.pci block = some found := by
      have loaded := inserted.symm.trans lookup
      by_cases same : block = pnum
      · rw [if_pos same] at loaded
        exact absurd (Option.some.inj loaded).symm differs
      · rw [if_neg same] at loaded
        exact loaded
    by_cases full : machine.cache.freeList = []
    · obtain ⟨-, change, -⟩ := readied.evicted full
      rw [change.others found differs] at dirty
      rw [change.forgets] at older
      split at older
      · cases older
      · exact ⟨found, older, dirty⟩
    · obtain ⟨rfl, -⟩ := readied.untouched full
      exact ⟨found, older, dirty⟩

/-- Finding the slot of a block makes no block dirty. -/
theorem Tidy.resident_dirtiesNone (tidy : Tidy machine recent pending)
    (run : residentSlot tags machine inum pnum = some (slot, ready)) :
    DirtiesNone machine ready := by
  rw [residentSlot] at run
  cases present : pciLookup machine.cache.pci pnum with
  | some index =>
    rw [present] at run
    obtain ⟨-, rfl⟩ := Prod.mk.inj (Option.some.inj run)
    exact fun _ dirty => dirty
  | none =>
    rw [present] at run
    obtain ⟨⟨page, loaded⟩, get, run⟩ := Option.bind_eq_some_iff.mp run
    obtain ⟨index, -, run⟩ := Option.bind_eq_some_iff.mp run
    obtain ⟨-, rfl⟩ := Prod.mk.inj (Option.some.inj run)
    exact tidy.get_dirtiesNone get

/-- A round of `cache_sync` makes no block dirty. -/
theorem cacheSyncRound_dirtiesNone {goesOn : Bool}
    (run : cacheSyncRound tags machine = some (goesOn, after)) : DirtiesNone machine after := by
  rw [cacheSyncRound] at run
  split at run
  · obtain ⟨first, -, run⟩ := Option.bind_eq_some_iff.mp run
    obtain ⟨head, -, run⟩ := Option.bind_eq_some_iff.mp run
    obtain ⟨⟨popped, gdl⟩, -, run⟩ := Option.bind_eq_some_iff.mp run
    obtain ⟨index, -, run⟩ := Option.bind_eq_some_iff.mp run
    split at run
    · obtain ⟨-, rfl⟩ := Prod.mk.inj (Option.some.inj run)
      exact dirtiesNone_of_entries rfl fun _ dirty => dirty
    · obtain ⟨page, -, run⟩ := Option.bind_eq_some_iff.mp run
      obtain ⟨image, -, run⟩ := Option.bind_eq_some_iff.mp run
      obtain ⟨-, rfl⟩ := Prod.mk.inj (Option.some.inj run)
      apply dirtiesNone_of_entries
      · rfl
      · exact dirtyBit_setEntry { machine.cache with gdl, dirtyList := _ } index
          { machine.cache.entries index with dirtyBit := false, gdlPos := none } nofun
  · obtain ⟨-, rfl⟩ := Prod.mk.inj (Option.some.inj run)
    exact fun _ dirty => dirty

/-- The rounds of `cache_sync` make no block dirty. -/
theorem cacheSyncFor_dirtiesNone {count : Nat}
    (run : cacheSyncFor tags count machine = some after) : DirtiesNone machine after := by
  induction count generalizing machine with
  | zero =>
    obtain rfl := Option.some.inj run
    exact fun _ dirty => dirty
  | succ count ih =>
    obtain ⟨⟨goesOn, next⟩, round, run⟩ := Option.bind_eq_some_iff.mp run
    have first := cacheSyncRound_dirtiesNone round
    cases goesOn with
    | true => exact fun block dirty => first block (ih run block dirty)
    | false =>
      obtain rfl := Option.some.inj run
      exact first

/-- A call other than `write_block` makes no block dirty. -/
theorem Tidy.step_dirtiesNone (tidy : Tidy machine recent pending) {call : CacheCall Page}
    {result : Option Page} (run : cacheStep tags machine call = some (result, after))
    (noWrite : ∀ buf inum pnum, call ≠ .write buf inum pnum) : DirtiesNone machine after := by
  cases call with
  | get inum pnum =>
    obtain ⟨⟨page, after'⟩, get, result⟩ := Option.map_eq_some_iff.mp run
    obtain ⟨-, rfl⟩ := Prod.mk.inj result
    exact tidy.get_dirtiesNone get
  | write buf inum pnum => exact absurd rfl (noWrite buf inum pnum)
  | pin inum pnum =>
    obtain ⟨after', pin, result⟩ := Option.map_eq_some_iff.mp run
    obtain ⟨-, rfl⟩ := Prod.mk.inj result
    obtain ⟨⟨slot, ready⟩, resident, pin⟩ := Option.bind_eq_some_iff.mp pin
    obtain ⟨-, pin⟩ := Option.ite_none_right_eq_some.mp pin
    obtain rfl := Option.some.inj pin
    have pinned : DirtiesNone ready { ready with
        cache := ready.cache.setEntry slot { ready.cache.entries slot with
          pinCount := (ready.cache.entries slot).pinCount + 1 } } :=
      dirtiesNone_of_entries rfl (dirtyBit_setEntry ready.cache slot _ id)
    exact fun block dirty => tidy.resident_dirtiesNone resident block (pinned block dirty)
  | unpin inum pnum =>
    obtain ⟨after', unpin, result⟩ := Option.map_eq_some_iff.mp run
    obtain ⟨-, rfl⟩ := Prod.mk.inj result
    obtain ⟨⟨slot, ready⟩, resident, unpin⟩ := Option.bind_eq_some_iff.mp unpin
    obtain rfl := Option.some.inj unpin
    have unpinned : DirtiesNone ready { ready with
        cache := ready.cache.setEntry slot { ready.cache.entries slot with
          pinCount := (ready.cache.entries slot).pinCount - 1 } } :=
      dirtiesNone_of_entries rfl (dirtyBit_setEntry ready.cache slot _ id)
    exact fun block dirty => tidy.resident_dirtiesNone resident block (unpinned block dirty)
  | sync =>
    obtain ⟨after', sync, result⟩ := Option.map_eq_some_iff.mp run
    obtain ⟨-, rfl⟩ := Prod.mk.inj result
    exact cacheSyncFor_dirtiesNone (cacheSyncFor_of_loop tags sync)

end Steps

/-- Code that does not call `write_block`. -/
def CacheProgram.WritesNone : CacheProgram Page α → Prop
  | done _ | undefined => True
  | call made next =>
    (∀ buf inum pnum, made ≠ .write buf inum pnum) ∧ ∀ page, (next page).WritesNone
  | assign _ _ next | flush _ _ next => next.WritesNone

/-- The blocks whose pages a run of a program writes or assigns. -/
def CacheProgram.changed (tags : PageTags Page) : Machine Page → CacheProgram Page α → List Nat
  | _, done _ | _, undefined => []
  | machine, call made next =>
    match cacheStep tags machine made with
    | none => []
    | some (page, after) =>
      match made with
      | .write _ _ pnum => pnum :: changed tags after (next page)
      | .get _ _ | .pin _ _ | .unpin _ _ | .sync => changed tags after (next page)
  | machine, assign pnum page next => pnum :: changed tags (machine.assign pnum page) next
  | machine, flush pnum page next =>
    match diskWriteBlock machine.image pnum page with
    | none => []
    | some image => changed tags { machine with image } next

section Programs

variable {tags : PageTags Page} {machine after : Machine Page} {recent pending : List (Nat × Nat)}

/-- Code without `write_block`, put together from two parts. -/
theorem CacheProgram.WritesNone.bind {program : CacheProgram Page α}
    {next : α → CacheProgram Page β} (first : program.WritesNone) (second : ∀ value, (next value).WritesNone) :
    (program >>= next).WritesNone := by
  change (program.andThen next).WritesNone
  induction program with
  | done value => exact second value
  | undefined => exact True.intro
  | call made rest ih => exact ⟨first.1, fun page => ih page (first.2 page)⟩
  | assign pnum page rest ih => exact ih first
  | flush pnum page rest ih => exact ih first

/-- A program that is put together from two parts runs them in order. -/
theorem CacheProgram.run_bind (program : CacheProgram Page α) (next : α → CacheProgram Page β)
    (machine : Machine Page) : (program >>= next).run tags machine =
      (program.run tags machine).bind fun (value, after) => (next value).run tags after := by
  change (program.andThen next).run tags machine = _
  induction program generalizing machine with
  | done value => rfl
  | undefined => rfl
  | call made rest ih =>
    rw [andThen, run, run]
    simp only [Option.bind_eq_bind, Option.bind_assoc]
    exact congrArg _ (funext fun result => ih result.1 result.2)
  | assign pnum page rest ih => exact ih (machine.assign pnum page)
  | flush pnum page rest ih =>
    rw [andThen, run, run]
    simp only [Option.bind_eq_bind, Option.bind_assoc]
    exact congrArg _ (funext fun image => ih { machine with image })

/-- A program that has run to its end has taken some number of actions. -/
theorem CacheProgram.runFor_of_run {program : CacheProgram Page α} {value : α}
    (run : program.run tags machine = some (value, after)) :
    ∃ count calls, program.runFor tags count machine = some (calls, after) := by
  induction program generalizing machine with
  | done value =>
    obtain ⟨-, rfl⟩ := Prod.mk.inj (Option.some.inj run)
    exact ⟨0, [], rfl⟩
  | undefined => cases run
  | call made next ih =>
    obtain ⟨⟨page, stepped⟩, step, run⟩ := Option.bind_eq_some_iff.mp run
    obtain ⟨count, calls, rest⟩ := ih page run
    refine ⟨count + 1, made :: calls, ?_⟩
    rw [runFor, step, Option.bind_eq_bind, Option.bind_some]
    simp only [rest, Option.bind_eq_bind, Option.bind_some]
  | assign pnum page next ih =>
    obtain ⟨count, calls, rest⟩ := ih run
    exact ⟨count + 1, calls, rest⟩
  | flush pnum page next ih =>
    rw [CacheProgram.run] at run
    obtain ⟨image, written, run⟩ := Option.bind_eq_some_iff.mp run
    obtain ⟨count, calls, rest⟩ := ih run
    refine ⟨count + 1, calls, ?_⟩
    rw [runFor, written, Option.bind_eq_bind, Option.bind_some]
    exact rest

/-- Code without `write_block` makes no block dirty, whichever its first actions. -/
theorem Tidy.runFor_dirtiesNone (count : Nat) {program : CacheProgram Page α}
    {calls : List (CacheCall Page)} (tidy : Tidy machine recent pending)
    (quiet : program.WritesNone) (run : program.runFor tags count machine = some (calls, after)) :
    DirtiesNone machine after := by
  induction count generalizing machine recent pending program calls with
  | zero =>
    rw [CacheProgram.runFor] at run
    obtain ⟨-, rfl⟩ := Prod.mk.inj (Option.some.inj run)
    exact fun _ dirty => dirty
  | succ count ih =>
    cases program with
    | done value =>
      rw [CacheProgram.runFor] at run
      obtain ⟨-, rfl⟩ := Prod.mk.inj (Option.some.inj run)
      exact fun _ dirty => dirty
    | undefined => cases run
    | call made next =>
      rw [CacheProgram.runFor] at run
      obtain ⟨⟨page, stepped⟩, step, run⟩ := Option.bind_eq_some_iff.mp run
      obtain ⟨⟨later, last⟩, rest, run⟩ := Option.bind_eq_some_iff.mp run
      obtain ⟨-, rfl⟩ := Prod.mk.inj (Option.some.inj run)
      obtain ⟨recent', pending', change⟩ := tidy.step step
      have first := tidy.step_dirtiesNone step quiet.1
      exact fun block dirty => first block (ih change.tidy (quiet.2 page) rest block dirty)
    | assign pnum page next =>
      rw [CacheProgram.runFor] at run
      obtain ⟨index, -, -, flags⟩ := machine.assign_frame pnum page
      have first : DirtiesNone machine (machine.assign pnum page) :=
        dirtiesNone_of_entries index fun slot dirty => (flags slot).1.symm.trans dirty
      have rest : next.WritesNone := quiet
      exact fun block dirty => first block (ih (tidy.assign pnum page).tidy rest run block dirty)
    | flush pnum page next =>
      rw [CacheProgram.runFor] at run
      obtain ⟨image, written, run⟩ := Option.bind_eq_some_iff.mp run
      have rest : next.WritesNone := quiet
      have first : DirtiesNone machine { machine with image } :=
        dirtiesNone_of_entries rfl fun _ dirty => dirty
      exact fun block dirty => first block (ih (tidy.flush written).tidy rest run block dirty)

/-- Changing the pins of the slot of a block marks no slot. -/
theorem Marked.repin {written : Bool} (marked : Marked machine recent pending written)
    {pnum slot : Nat} (present : pciLookup machine.cache.pci pnum = some slot) (pinCount : Nat) :
    Marked { machine with
      cache := machine.cache.setEntry slot { machine.cache.entries slot with pinCount } }
      recent pending written := by
  have bits : ∀ other, ((machine.cache.setEntry slot { machine.cache.entries slot with
      pinCount }).entries other).dirtyBit = true → (machine.cache.entries other).dirtyBit = true :=
    dirtyBit_setEntry machine.cache slot { machine.cache.entries slot with pinCount } id
  refine ⟨(marked.tidy.repin present pinCount).1, ?_, ?_, marked.nodes⟩
  · intro other isFree
    have clean := marked.idle other isFree
    by_contra dirty
    rw [bits other (Bool.eq_true_of_not_eq_false dirty)] at clean
    cases clean
  · exact fun other used dirty => marked.twice other used (bits other dirty)

/-- A call keeps the count of the nodes. -/
theorem Marked.cacheStep {written : Bool} (marked : Marked machine recent pending written)
    {call : CacheCall Page} {result : Option Page}
    (run : cacheStep tags machine call = some (result, after)) :
    ∃ recent' pending' written', Marked after recent' pending' written' := by
  cases call with
  | get inum pnum =>
    obtain ⟨⟨page, after'⟩, get, result⟩ := Option.map_eq_some_iff.mp run
    obtain ⟨-, rfl⟩ := Prod.mk.inj result
    obtain ⟨recent', pending', marked'⟩ := marked.get get
    exact ⟨recent', pending', written, marked'⟩
  | write buf inum pnum =>
    obtain ⟨after', write, result⟩ := Option.map_eq_some_iff.mp run
    obtain ⟨-, rfl⟩ := Prod.mk.inj result
    obtain ⟨recent', pending', marked'⟩ := marked.write write
    exact ⟨recent', pending', true, marked'⟩
  | pin inum pnum =>
    obtain ⟨after', pin, result⟩ := Option.map_eq_some_iff.mp run
    obtain ⟨-, rfl⟩ := Prod.mk.inj result
    obtain ⟨⟨slot, ready⟩, resident, pin⟩ := Option.bind_eq_some_iff.mp pin
    obtain ⟨-, pin⟩ := Option.ite_none_right_eq_some.mp pin
    obtain rfl := Option.some.inj pin
    obtain ⟨recent', pending', marked', present⟩ := marked.resident resident
    exact ⟨recent', pending', written, marked'.repin present _⟩
  | unpin inum pnum =>
    obtain ⟨after', unpin, result⟩ := Option.map_eq_some_iff.mp run
    obtain ⟨-, rfl⟩ := Prod.mk.inj result
    obtain ⟨⟨slot, ready⟩, resident, unpin⟩ := Option.bind_eq_some_iff.mp unpin
    obtain rfl := Option.some.inj unpin
    obtain ⟨recent', pending', marked', present⟩ := marked.resident resident
    exact ⟨recent', pending', written, marked'.repin present _⟩
  | sync =>
    obtain ⟨after', sync, result⟩ := Option.map_eq_some_iff.mp run
    obtain ⟨-, rfl⟩ := Prod.mk.inj result
    exact ⟨recent, [], false, Marked.syncLoop marked.tidy marked.idle sync⟩

/-- A program keeps the count of the nodes. -/
theorem Marked.program {written : Bool} {program : CacheProgram Page α} {value : α}
    (marked : Marked machine recent pending written)
    (run : program.run tags machine = some (value, after)) :
    ∃ recent' pending' written', Marked after recent' pending' written' := by
  induction program generalizing machine recent pending written with
  | done value =>
    obtain ⟨-, rfl⟩ := Prod.mk.inj (Option.some.inj run)
    exact ⟨recent, pending, written, marked⟩
  | undefined => cases run
  | call made next ih =>
    obtain ⟨⟨page, stepped⟩, step, run⟩ := Option.bind_eq_some_iff.mp run
    obtain ⟨recent', pending', written', marked'⟩ := marked.cacheStep step
    exact ih page marked' run
  | assign pnum page next ih => exact ih (marked.assign pnum page) run
  | flush pnum page next ih =>
    rw [CacheProgram.run] at run
    obtain ⟨image, stored, run⟩ := Option.bind_eq_some_iff.mp run
    exact ih ⟨(marked.tidy.flush stored).tidy, marked.idle, marked.twice, marked.nodes⟩ run

end Programs

/-- The pages, the dirty blocks and the image are the same. -/
structure Alike (machine after : Machine Page) : Prop where
  /-- The pages in the cache. -/
  page : ∀ block, after.page block = machine.page block
  /-- The dirty blocks. -/
  dirty : ∀ block, after.Dirty block ↔ machine.Dirty block
  /-- The image. -/
  image : after.image = machine.image
  /-- The slots. -/
  cacheSize : after.cache.cacheSize = machine.cache.cacheSize

/-- A page is replaced, in the cache and on the image. -/
structure Overwritten (block : Nat) (content : Page) (machine after : Machine Page) : Prop where
  /-- The page in the cache. -/
  page : after.page block = some content
  /-- The other pages in the cache. -/
  pages : ∀ other, other ≠ block → after.page other = machine.page other
  /-- The page on the image. -/
  image : after.image.block block = content
  /-- The other blocks of the image. -/
  images : ∀ other, other ≠ block → after.image.block other = machine.image.block other
  /-- The dirty blocks are the same. -/
  dirty : ∀ block, after.Dirty block ↔ machine.Dirty block
  /-- The image keeps its size. -/
  totalBlocks : after.image.totalBlocks = machine.image.totalBlocks
  /-- The cache keeps its slots. -/
  cacheSize : after.cache.cacheSize = machine.cache.cacheSize

section Resident

variable {tags : PageTags Page} {machine next after : Machine Page}
  {recent pending : List (Nat × Nat)} {block : Nat} {page : Page}

/-- What comes before a page is replaced. -/
theorem Alike.overwritten (same : Alike machine next)
    (written : Overwritten block page next after) : Overwritten block page machine after where
  page := written.page
  pages other distinct := (written.pages other distinct).trans (same.page other)
  image := written.image
  images other distinct := by
    rw [written.images other distinct, same.image]
  dirty block := (written.dirty block).trans (same.dirty block)
  totalBlocks := by rw [written.totalBlocks, same.image]
  cacheSize := written.cacheSize.trans same.cacheSize

/-- What comes after a page is replaced. -/
theorem Overwritten.alike (written : Overwritten block page machine next)
    (same : Alike next after) : Overwritten block page machine after where
  page := (same.page block).trans written.page
  pages other distinct := (same.page other).trans (written.pages other distinct)
  image := by rw [same.image, written.image]
  images other distinct := by rw [same.image, written.images other distinct]
  dirty block := (same.dirty block).trans (written.dirty block)
  totalBlocks := by rw [same.image, written.totalBlocks]
  cacheSize := same.cacheSize.trans written.cacheSize

/-- A change of one slot that keeps its page and whether it is dirty. -/
theorem alike_setEntry {lru : CircularList Nat} {slot : Nat} {entry : CacheEntry Page}
    (content : entry.pageData = (machine.cache.entries slot).pageData)
    (bit : entry.dirtyBit = (machine.cache.entries slot).dirtyBit) :
    Alike machine { machine with cache := { machine.cache with lru }.setEntry slot entry } := by
  have entries : ∀ other,
      (({ machine.cache with lru }.setEntry slot entry).entries other).pageData =
        (machine.cache.entries other).pageData ∧
      (({ machine.cache with lru }.setEntry slot entry).entries other).dirtyBit =
        (machine.cache.entries other).dirtyBit := by
    intro other
    by_cases same : other = slot
    · rw [same, Cache.setEntry_same]
      exact ⟨content, bit⟩
    · rw [Cache.setEntry_other _ _ _ _ same]
      exact ⟨rfl, rfl⟩
  refine ⟨fun block => ?_, fun block => ?_, rfl, rfl⟩
  · show (pciLookup machine.cache.pci block).bind _ = (pciLookup machine.cache.pci block).bind _
    exact congrArg _ (funext fun slot => (entries slot).1)
  · constructor
    · rintro ⟨found, lookup, dirty⟩
      exact ⟨found, lookup, (entries found).2.symm.trans dirty⟩
    · rintro ⟨found, lookup, dirty⟩
      exact ⟨found, lookup, (entries found).2.trans dirty⟩

/-- A block with a page in the cache is in a slot. -/
theorem Machine.slot_of_page (present : machine.page block = some page) :
    ∃ slot, pciLookup machine.cache.pci block = some slot ∧
      (machine.cache.entries slot).pageData = some page := Option.bind_eq_some_iff.mp present

/-- `get_block` of a block in the cache returns its page and changes nothing but the recency
list. -/
theorem Tidy.get_page (tidy : Tidy machine recent pending) (fits : machine.cache.cacheSize ≤ intMax)
    (present : machine.page block = some page) (inum : Nat) :
    ∃ after recent', getBlock tags machine inum block = some (page, after) ∧
      Tidy after recent' pending ∧ Alike machine after := by
  obtain ⟨slot, lookup, content⟩ := machine.slot_of_page present
  obtain ⟨node, inside, -⟩ := tidy.hit lookup
  have position := (tidy.kept node slot inside).position
  obtain ⟨left, right, split⟩ := List.append_of_mem inside
  have holds := tidy.lru
  rw [split] at holds
  obtain ⟨popped, pop, -, poppedHolds⟩ := lruPop_holds holds
  have length := tidy.slots.length_eq
  rw [split, List.length_append, List.length_map, List.length_append, List.length_cons,
    List.length_range] at length
  have room : (left ++ right).length < intMax := by
    rw [List.length_append]
    omega
  obtain ⟨pushed, push, -, -⟩ := lruPush_holds poppedHolds room slot
  have run : getBlock tags machine inum block =
      some (page, machine.touched slot pushed popped.fresh) := by
    simp [getBlock, lookup, position, pop, push, content, Machine.touched]
  obtain ⟨_, _, _, _, _, _, _, -, tidy'⟩ := tidy.touch lookup run
  exact ⟨_, _, run, tidy', alike_setEntry rfl rfl⟩

/-- `decrease_pin_count` of a block in the cache changes nothing but its pins. -/
theorem Tidy.unpin_page (tidy : Tidy machine recent pending)
    (present : machine.page block = some page) (inum : Nat) : ∃ after, decreasePinCount tags machine inum block = some after ∧
      Tidy after recent pending ∧ Alike machine after := by
  obtain ⟨slot, lookup, -⟩ := machine.slot_of_page present
  refine ⟨{ machine with
      cache := machine.cache.setEntry slot { machine.cache.entries slot with
        pinCount := (machine.cache.entries slot).pinCount - 1 } }, ?_, (tidy.repin lookup _).1, ?_⟩
  · rw [decreasePinCount, residentSlot, lookup]
    rfl
  · exact @alike_setEntry _ machine machine.cache.lru slot _ rfl rfl

/-- Assigning the page of a block in the cache and writing it to the image. -/
theorem Tidy.overwrite (tidy : Tidy machine recent pending) {former : Page}
    (present : machine.page block = some former) (reaches : machine.image.Reaches block)
    (page : Page) :
    ∃ image, diskWriteBlock (machine.assign block page).image block page = some image ∧
      Tidy { machine.assign block page with image } recent pending ∧
      Overwritten block page machine { machine.assign block page with image } := by
  obtain ⟨slot, lookup, -⟩ := machine.slot_of_page present
  have assigned : machine.assign block page = { machine with
      cache := machine.cache.setEntry slot { machine.cache.entries slot with
        pageData := some page } } := by
    rw [Machine.assign, lookup]
  have tidy' := (tidy.assign block page).tidy
  rw [assigned] at tidy' ⊢
  have written := diskWriteBlock_eq reaches page
  refine ⟨machine.image.put block page, written, (tidy'.flush written).tidy, ?_⟩
  have elsewhere : ∀ other found, other ≠ block → pciLookup machine.cache.pci other = some found →
      found ≠ slot := by
    rintro other found distinct lookup' rfl
    exact distinct
      ((tidy.indexed other found lookup').2.symm.trans (tidy.indexed block found lookup).2)
  refine ⟨?_, fun other distinct => ?_, Image.put_same _ _ _,
    fun other distinct => Image.put_other _ _ _ _ distinct, fun other => ?_, rfl, rfl⟩
  · show (pciLookup machine.cache.pci block).bind _ = _
    rw [lookup, Option.bind_some, Cache.setEntry_same]
  · show (pciLookup machine.cache.pci other).bind _ = (pciLookup machine.cache.pci other).bind _
    cases lookup' : pciLookup machine.cache.pci other with
    | none => rfl
    | some found =>
      rw [Option.bind_some, Option.bind_some,
        Cache.setEntry_other _ _ _ _ (elsewhere other found distinct lookup')]
  · have bits : ∀ found, ((machine.cache.setEntry slot
        { machine.cache.entries slot with pageData := some page }).entries found).dirtyBit =
          (machine.cache.entries found).dirtyBit := by
      intro found
      by_cases same : found = slot
      · rw [same, Cache.setEntry_same]
      · rw [Cache.setEntry_other _ _ _ _ same]
    constructor
    · rintro ⟨found, lookup', dirty⟩
      exact ⟨found, lookup', (bits found).symm.trans dirty⟩
    · rintro ⟨found, lookup', dirty⟩
      exact ⟨found, lookup', (bits found).trans dirty⟩

end Resident

end Nbtrfs
