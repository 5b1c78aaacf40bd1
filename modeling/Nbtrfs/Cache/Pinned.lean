import Nbtrfs.Cache.Pins

/-!
# Pinned blocks stay

Code keeps the page pointer that `get_block` has returned and assigns through it later. As long as the
block has pins it stays in its slot, whatever other code does in between, so the pointer leads to the
block's page. Only pins help: a block that has none may be in another slot after one call.
-/

namespace Nbtrfs

variable {Page α β : Type}

section Steps

variable {tags : PageTags Page} {machine after ready : Machine Page}
  {recent pending : List (Nat × Nat)} {inum pnum block slot : Nat} {page : Page}

/-- `get_block` leaves a block with pins in its slot. -/
theorem Tidy.get_keeps (tidy : Tidy machine recent pending)
    (present : pciLookup machine.cache.pci block = some slot) (pinned : 0 < machine.pins block)
    (run : getBlock tags machine inum pnum = some (page, after)) :
    pciLookup after.cache.pci block = some slot := by
  cases lookup : pciLookup machine.cache.pci pnum with
  | some other =>
    obtain ⟨left, former, right, lru, node, -, rfl, -, -⟩ := tidy.touch lookup run
    exact present
  | none =>
    obtain ⟨free, ready, rest, pending', others, lru, node, readied, -, -, rfl, -, -⟩ :=
      tidy.miss lookup run
    have kept : pciLookup ready.cache.pci block = some slot := by
      by_cases full : machine.cache.freeList = []
      · obtain ⟨-, evicted, left, victim, right, whole, -⟩ := readied.evicted full
        have inside : (victim, free) ∈ recent := by
          rw [whole]
          exact List.mem_append_right _ List.mem_cons_self
        have forgotten := evicted.forgets block
        have differs : block ≠ (machine.cache.entries free).blockNumber := by
          rintro rfl
          rw [Machine.pins_of_lookup (tidy.kept victim free inside).found, evicted.unpinned] at pinned
          cases pinned
        rw [if_neg differs] at forgotten
        exact forgotten.trans present
      · obtain ⟨rfl, -⟩ := readied.untouched full
        exact present
    have inserted := Chains.lookup_insert hashmapBucket ready.cache.pci pnum block free
    have differs : block ≠ pnum := by
      rintro rfl
      rw [lookup] at present
      cases present
    rw [if_neg differs] at inserted
    exact inserted.trans kept

/-- So does finding the slot of a block. -/
theorem Tidy.resident_keeps (tidy : Tidy machine recent pending)
    (present : pciLookup machine.cache.pci block = some slot) (pinned : 0 < machine.pins block)
    {found : Nat} (run : residentSlot tags machine inum pnum = some (found, ready)) :
    pciLookup ready.cache.pci block = some slot := by
  rw [residentSlot] at run
  cases lookup : pciLookup machine.cache.pci pnum with
  | some index =>
    rw [lookup] at run
    obtain ⟨-, rfl⟩ := Prod.mk.inj (Option.some.inj run)
    exact present
  | none =>
    rw [lookup] at run
    obtain ⟨⟨page, loaded⟩, get, run⟩ := Option.bind_eq_some_iff.mp run
    obtain ⟨index, -, run⟩ := Option.bind_eq_some_iff.mp run
    obtain ⟨-, rfl⟩ := Prod.mk.inj (Option.some.inj run)
    exact tidy.get_keeps present pinned get

/-- `cache_sync` moves no block. -/
theorem Tidy.syncLoop_pci {fuel : Nat} (tidy : Tidy machine recent pending)
    (run : cacheSyncLoop tags fuel machine = some after) : after.cache.pci = machine.cache.pci := by
  induction fuel generalizing machine pending with
  | zero => cases run
  | succ fuel ih =>
    rcases List.eq_nil_or_concat pending with rfl | ⟨marks, ⟨mark, slot⟩, rfl⟩
    · have empty : machine.cache.gdl.size = 0 := tidy.gdl.size
      rw [cacheSyncLoop, empty, if_neg (by omega)] at run
      rw [Option.some.inj run]
    · rw [List.concat_eq_append] at tidy
      obtain ⟨gdl, page, image, -, -, run, tidy'⟩ := tidy.syncRound run
      have moved := ih (tidy' _) run
      exact moved

/-- No call moves a block with pins. -/
theorem Tidy.step_keeps (tidy : Tidy machine recent pending)
    (present : pciLookup machine.cache.pci block = some slot) (pinned : 0 < machine.pins block)
    {call : CacheCall Page} {result : Option Page}
    (run : cacheStep tags machine call = some (result, after)) :
    pciLookup after.cache.pci block = some slot := by
  cases call with
  | get inum pnum =>
    obtain ⟨⟨page, after'⟩, get, result⟩ := Option.map_eq_some_iff.mp run
    obtain ⟨-, rfl⟩ := Prod.mk.inj result
    exact tidy.get_keeps present pinned get
  | write buf inum pnum =>
    obtain ⟨after', write, result⟩ := Option.map_eq_some_iff.mp run
    obtain ⟨-, rfl⟩ := Prod.mk.inj result
    obtain ⟨⟨found, ready⟩, resident, write⟩ := Option.bind_eq_some_iff.mp write
    obtain ⟨cache, copied, write⟩ := Option.bind_eq_some_iff.mp write
    obtain rfl := Option.some.inj write
    obtain ⟨recent', pending', -, stepped⟩ := tidy.resident resident
    obtain ⟨mark, marked, gdl, -, -, -, -, rfl⟩ := writeSlot_some stepped.tidy.gdl copied
    have kept := tidy.resident_keeps present pinned resident
    exact kept
  | pin inum pnum =>
    obtain ⟨after', pin, result⟩ := Option.map_eq_some_iff.mp run
    obtain ⟨-, rfl⟩ := Prod.mk.inj result
    obtain ⟨⟨found, ready⟩, resident, pin⟩ := Option.bind_eq_some_iff.mp pin
    obtain ⟨-, pin⟩ := Option.ite_none_right_eq_some.mp pin
    obtain rfl := Option.some.inj pin
    have kept := tidy.resident_keeps present pinned resident
    exact kept
  | unpin inum pnum =>
    obtain ⟨after', unpin, result⟩ := Option.map_eq_some_iff.mp run
    obtain ⟨-, rfl⟩ := Prod.mk.inj result
    obtain ⟨⟨found, ready⟩, resident, unpin⟩ := Option.bind_eq_some_iff.mp unpin
    obtain rfl := Option.some.inj unpin
    have kept := tidy.resident_keeps present pinned resident
    exact kept
  | sync =>
    obtain ⟨after', sync, result⟩ := Option.map_eq_some_iff.mp run
    obtain ⟨-, rfl⟩ := Prod.mk.inj result
    rw [tidy.syncLoop_pci sync]
    exact present

end Steps

section Runs

variable {tags : PageTags Page} {machine point : Machine Page} {recent pending : List (Nat × Nat)}
  {block slot : Nat}

/-- A block that has pins in front of every call of some code stays in its slot. -/
theorem Tidy.runFor_keeps (count : Nat) {program : CacheProgram Page α}
    {calls : List (CacheCall Page)} (tidy : Tidy machine recent pending)
    (present : pciLookup machine.cache.pci block = some slot)
    (run : program.runFor tags count machine = some (calls, point))
    (pinned : ∀ made < calls.length,
      0 < pinsAfterRun (machine.pins block) block (calls.take made)) :
    pciLookup point.cache.pci block = some slot := by
  induction count generalizing machine recent pending program calls with
  | zero =>
    rw [CacheProgram.runFor] at run
    obtain ⟨-, rfl⟩ := Prod.mk.inj (Option.some.inj run)
    exact present
  | succ count ih =>
    cases program with
    | done value =>
      rw [CacheProgram.runFor] at run
      obtain ⟨-, rfl⟩ := Prod.mk.inj (Option.some.inj run)
      exact present
    | undefined => cases run
    | call made next =>
      rw [CacheProgram.runFor] at run
      obtain ⟨⟨page, stepped⟩, step, run⟩ := Option.bind_eq_some_iff.mp run
      obtain ⟨⟨later, last⟩, rest, run⟩ := Option.bind_eq_some_iff.mp run
      obtain ⟨rfl, rfl⟩ := Prod.mk.inj (Option.some.inj run)
      obtain ⟨recent', pending', change⟩ := tidy.step step
      have here : 0 < machine.pins block := pinned 0 (Nat.succ_pos _)
      refine ih change.tidy (tidy.step_keeps present here step) rest fun index small => ?_
      have there := pinned (index + 1) (Nat.succ_lt_succ small)
      rw [List.take_succ_cons, pinsAfterRun, List.foldl_cons] at there
      rw [change.pins]
      exact there
    | assign pnum page next =>
      rw [CacheProgram.runFor] at run
      have change := tidy.assign pnum page
      have kept : pciLookup (machine.assign pnum page).cache.pci block = some slot := by
        rw [Machine.assign]
        cases pciLookup machine.cache.pci pnum with
        | none => exact present
        | some other => exact present
      refine ih change.tidy kept run ?_
      rw [change.pins]
      exact pinned
    | flush pnum page next =>
      rw [CacheProgram.runFor] at run
      obtain ⟨image, stored, run⟩ := Option.bind_eq_some_iff.mp run
      have change := tidy.flush stored
      refine ih change.tidy present run ?_
      exact pinned

end Runs

/-- From a mount, code has come to a point where a block is in a slot. Whatever code runs from there
on, and as far as it runs, the block is still in the slot if it has pins in front of every call. -/
theorem pinned_stays (tags : PageTags Page) (image : Image Page) (cacheSize : Nat)
    (uninitialised : Nat → CacheEntry Page) {first : CacheProgram Page α}
    {second : CacheProgram Page β} {count more : Nat} {earlier calls : List (CacheCall Page)}
    {machine point : Machine Page}
    (before : first.runFor tags count ⟨allocCache cacheSize uninitialised, image⟩ =
      some (earlier, machine))
    {block slot : Nat} (present : pciLookup machine.cache.pci block = some slot)
    (run : second.runFor tags more machine = some (calls, point))
    (pinned : ∀ made < calls.length,
      0 < pinsAfterRun 0 block (earlier ++ calls.take made)) :
    pciLookup point.cache.pci block = some slot := by
  obtain ⟨recent, pending, tidy, pins, -⟩ :=
    (allocCache_tidy image cacheSize uninitialised).runFor count before
  refine tidy.runFor_keeps more present run fun made small => ?_
  have positive := pinned made small
  rw [pinsAfterRun, List.foldl_append] at positive
  rw [pins]
  exact positive

/-- Through two slots, a pinned block stays while two others come and go. -/
theorem pinned_stays_two_slots :
    ∃ earlier machine calls point,
      (CacheProgram.call (.pin 5 1) fun _ => .done ()).runFor ⟨fun _ => true, fun _ => true⟩ 1
        ⟨allocCache 2 fun _ => ⟨true, 3, 9, 9, some 9, some 9, some 9⟩, ⟨4, fun pnum => pnum⟩⟩ =
          some (earlier, machine) ∧
      pciLookup machine.cache.pci 1 = some 1 ∧
      (CacheProgram.call (.get 5 2) fun _ => .call (.get 5 3) fun _ => .done ()).runFor
        ⟨fun _ => true, fun _ => true⟩ 2 machine = some (calls, point) ∧
      pciLookup point.cache.pci 1 = some 1 := by
  have computed : ((CacheProgram.call (.pin 5 1) fun _ => .done ()).runFor
      ⟨fun _ => true, fun _ => true⟩ 1
        ⟨allocCache 2 fun _ => ⟨true, 3, 9, 9, some 9, some 9, some 9⟩, ⟨4, fun pnum => pnum⟩⟩).any
      (fun (reached : List (CacheCall Nat) × Machine Nat) =>
        ((CacheProgram.call (.get 5 2) fun _ => .call (.get 5 3) fun _ => .done ()).runFor
          ⟨fun _ => true, fun _ => true⟩ 2 reached.2).any
            fun (later : List (CacheCall Nat) × Machine Nat) =>
              decide (pciLookup reached.2.cache.pci 1 = some 1 ∧
                ∀ made < later.1.length,
                  0 < pinsAfterRun 0 1 (reached.1 ++ later.1.take made))) = true := by
    decide +kernel
  obtain ⟨⟨earlier, machine⟩, before, computed⟩ := (Option.any_eq_true _ _).mp computed
  obtain ⟨⟨calls, point⟩, run, computed⟩ := (Option.any_eq_true _ _).mp computed
  obtain ⟨present, pinned⟩ := of_decide_eq_true computed
  refine ⟨earlier, machine, calls, point, before, present, run, ?_⟩
  exact pinned_stays ⟨fun _ => true, fun _ => true⟩ ⟨4, fun pnum => pnum⟩ 2
    (fun _ => ⟨true, 3, 9, 9, some 9, some 9, some 9⟩) before present run pinned

end Nbtrfs
