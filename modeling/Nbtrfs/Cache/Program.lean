import Nbtrfs.Cache.Eviction

/-!
# Code over the cache

The file system's code sees the blocks only through the cache: it calls the cache's interface, assigns
through the page pointers that `get_block` returns and writes pages to the image with
`disk_write_block`. A `CacheProgram` is such code. What it does next may depend on the pages that it
has read.
-/

namespace Nbtrfs

/-- Code over the cache that ends with a value. -/
inductive CacheProgram (Page α : Type) where
  /-- The code has ended. -/
  | done (value : α)
  /-- The code has no defined result. -/
  | undefined
  /-- A call of the cache's interface. -/
  | call (call : CacheCall Page) (next : Option Page → CacheProgram Page α)
  /-- Assignments through the pointer to a block's page. -/
  | assign (pnum : Nat) (page : Page) (next : CacheProgram Page α)
  /-- `disk_write_block`. -/
  | flush (pnum : Nat) (page : Page) (next : CacheProgram Page α)

variable {Page α β : Type}

namespace CacheProgram

/-- Code followed by code that takes its value. -/
def andThen (next : α → CacheProgram Page β) : CacheProgram Page α → CacheProgram Page β
  | done value => next value
  | undefined => undefined
  | call made rest => call made fun page => (rest page).andThen next
  | assign pnum page rest => assign pnum page (rest.andThen next)
  | flush pnum page rest => flush pnum page (rest.andThen next)

/-- Programs run one behind the other. -/
instance : Monad (CacheProgram Page) where
  pure := done
  bind program next := program.andThen next

end CacheProgram

namespace Cached

/-- `get_block`. -/
def getBlock (inum pnum : Nat) : CacheProgram Page Page :=
  .call (.get inum pnum) fun page => page.elim .undefined .done

/-- `write_block`. -/
def writeBlock (buf : Page) (inum pnum : Nat) : CacheProgram Page Unit :=
  .call (.write buf inum pnum) fun _ => .done ()

/-- `increase_pin_count`. -/
def increasePinCount (inum pnum : Nat) : CacheProgram Page Unit :=
  .call (.pin inum pnum) fun _ => .done ()

/-- `decrease_pin_count`. -/
def decreasePinCount (inum pnum : Nat) : CacheProgram Page Unit :=
  .call (.unpin inum pnum) fun _ => .done ()

/-- Assignments through the pointer to a block's page. -/
def assignPage (pnum : Nat) (page : Page) : CacheProgram Page Unit := .assign pnum page (.done ())

/-- `disk_write_block`. -/
def diskWriteBlock (pnum : Nat) (page : Page) : CacheProgram Page Unit := .flush pnum page (.done ())

end Cached

/-- Assignments through the pointer to a block's page. The page of a clean slot is not released when
the slot is evicted; the pointer then leads to a page that is in no slot. -/
def Machine.assign (machine : Machine Page) (pnum : Nat) (page : Page) : Machine Page :=
  match pciLookup machine.cache.pci pnum with
  | some slot => { machine with
      cache := machine.cache.setEntry slot
        { machine.cache.entries slot with pageData := some page } }
  | none => machine

section Runs

variable (tags : PageTags Page)

/-- The first actions of a program, so many or fewer: the calls among them, and the machine after
them. -/
def CacheProgram.runFor : Nat → Machine Page → CacheProgram Page α →
    Option (List (CacheCall Page) × Machine Page)
  | 0, machine, _ => some ([], machine)
  | _ + 1, machine, done _ => some ([], machine)
  | _ + 1, _, undefined => none
  | count + 1, machine, call made next => do
    let (page, machine) ← cacheStep tags machine made
    let (calls, machine) ← runFor count machine (next page)
    some (made :: calls, machine)
  | count + 1, machine, assign pnum page next => runFor count (machine.assign pnum page) next
  | count + 1, machine, flush pnum page next => do
    let image ← Nbtrfs.diskWriteBlock machine.image pnum page
    runFor count { machine with image } next

/-- A whole program: its value, and the machine after it. -/
def CacheProgram.run : Machine Page → CacheProgram Page α → Option (α × Machine Page)
  | machine, done value => some (value, machine)
  | _, undefined => none
  | machine, call made next => do
    let (page, machine) ← cacheStep tags machine made
    run machine (next page)
  | machine, assign pnum page next => run (machine.assign pnum page) next
  | machine, flush pnum page next => do
    let image ← Nbtrfs.diskWriteBlock machine.image pnum page
    run { machine with image } next

end Runs

section Records

variable {tags : PageTags Page} {machine after : Machine Page} {recent pending : List (Nat × Nat)}
  {pnum : Nat} {page : Page}

/-- Assigning a page moves no slot and changes no pins. -/
theorem Tidy.assign (tidy : Tidy machine recent pending) (pnum : Nat) (page : Page) :
    Stepped recent none machine.pins machine.cache.cacheSize (machine.assign pnum page) recent
      pending := by
  rw [Machine.assign]
  cases present : pciLookup machine.cache.pci pnum with
  | none => exact ⟨tidy, rfl, fun _ => rfl, rfl⟩
  | some slot =>
    obtain ⟨used, -⟩ := tidy.indexed pnum slot present
    have bound : slot < machine.cache.cacheSize :=
      List.mem_range.mp (tidy.slots.mem_iff.mp (List.mem_append_left _ used))
    refine ⟨?_, rfl, ?_, rfl⟩
    · apply tidy.update { machine.cache.entries slot with pageData := some page } machine.image
        machine.cache.dirtyList tidy.gdl rfl (fun _ _ _ listed => listed)
        (fun _ listed => Or.inl listed) bound rfl
      intro node inside
      have here := tidy.kept node slot inside
      exact ⟨here.position, here.found, here.located, ⟨page, rfl⟩, here.dirty⟩
    · exact Machine.pins_congr rfl
        (pinCount_setEntry machine.cache slot { machine.cache.entries slot with pageData := some page }
          rfl)

/-- Writing a page to the image changes none of the cache's records. -/
theorem Tidy.flush (tidy : Tidy machine recent pending) {image : Image Page}
    (run : diskWriteBlock machine.image pnum page = some image) :
    Stepped recent none machine.pins machine.cache.cacheSize { machine with image } recent
      pending := by
  obtain ⟨place, -, rfl⟩ := Option.map_eq_some_iff.mp run
  have kept : ∀ node slot, (node, slot) ∈ recent →
      Kept (machine.image.put place page) machine.cache.pci pending (machine.cache.entries slot) node
        slot :=
    fun node slot inside => (tidy.kept node slot inside).frame rfl rfl fun _ listed => listed
  exact ⟨⟨tidy.lru, tidy.gdl, tidy.slots, tidy.chained, kept, tidy.indexed, tidy.marked⟩, rfl,
    fun _ => rfl, rfl⟩

/-- After the first actions of a program the records are in order, and the pins of every block are
what its calls make of them. -/
theorem Tidy.runFor (count : Nat) {program : CacheProgram Page α} {calls : List (CacheCall Page)}
    (tidy : Tidy machine recent pending)
    (run : program.runFor tags count machine = some (calls, after)) :
    ∃ recent' pending', Tidy after recent' pending' ∧
      (∀ block, after.pins block = pinsAfterRun (machine.pins block) block calls) ∧
      after.cache.cacheSize = machine.cache.cacheSize := by
  induction count generalizing machine recent pending program calls with
  | zero =>
    rw [CacheProgram.runFor] at run
    obtain ⟨rfl, rfl⟩ := Prod.mk.inj (Option.some.inj run)
    exact ⟨recent, pending, tidy, fun _ => rfl, rfl⟩
  | succ count ih =>
    cases program with
    | done value =>
      rw [CacheProgram.runFor] at run
      obtain ⟨rfl, rfl⟩ := Prod.mk.inj (Option.some.inj run)
      exact ⟨recent, pending, tidy, fun _ => rfl, rfl⟩
    | undefined => cases run
    | call made next =>
      rw [CacheProgram.runFor] at run
      obtain ⟨⟨page, stepped⟩, step, run⟩ := Option.bind_eq_some_iff.mp run
      obtain ⟨⟨later, last⟩, rest, run⟩ := Option.bind_eq_some_iff.mp run
      obtain ⟨rfl, rfl⟩ := Prod.mk.inj (Option.some.inj run)
      obtain ⟨recent', pending', change⟩ := tidy.step step
      obtain ⟨recent'', pending'', final, pins, size⟩ := ih change.tidy rest
      refine ⟨recent'', pending'', final, fun block => ?_, size.trans change.cacheSize⟩
      rw [pins, change.pins]
      rfl
    | assign pnum page next =>
      rw [CacheProgram.runFor] at run
      have change := tidy.assign pnum page
      obtain ⟨recent', pending', final, pins, size⟩ := ih change.tidy run
      refine ⟨recent', pending', final, fun block => ?_, size.trans change.cacheSize⟩
      rw [pins, change.pins]
    | flush pnum page next =>
      rw [CacheProgram.runFor] at run
      obtain ⟨image, written, run⟩ := Option.bind_eq_some_iff.mp run
      have change := tidy.flush written
      obtain ⟨recent', pending', final, pins, size⟩ := ih change.tidy run
      refine ⟨recent', pending', final, fun block => ?_, size⟩
      rw [pins, change.pins]

end Records

end Nbtrfs
