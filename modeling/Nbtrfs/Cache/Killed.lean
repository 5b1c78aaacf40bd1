import Nbtrfs.Cache.Plain

/-!
# Killed behind a sync

After `cache_sync` the image holds the latest content of every block. Whatever code runs then, and
at whatever action it is killed, the image has in each block the content at the sync or a page that
the code has written to the block since: an eviction never brings older content back.
-/

namespace Nbtrfs

variable {Page α β : Type}

section

variable {tags : PageTags Page} {totalBlocks : Nat} {machine synced point : Machine Page}
  {array : BlockArray Page}

/-- After `cache_sync` every page on the image and in a slot is the latest one of its block. -/
theorem Serves.sourced_synced (serves : Serves totalBlocks machine array)
    (sync : cacheSync tags machine = some synced) :
    Sourced (fun block page => page = array.blocks block) totalBlocks synced ∧
      ∃ recent pending, Tidy synced recent pending := by
  obtain ⟨after, sync', served, image, -⟩ := @Serves.synced _ tags _ _ _ serves
  obtain rfl := Option.some.inj (sync.symm.trans sync')
  obtain ⟨recent, pending, coherent⟩ := served.coherent
  have tidy := coherent.tidy fun slot inside => by cases inside
  refine ⟨⟨served.sourced.total, image, fun slot page held => ?_, served.sourced.empty⟩, recent,
    pending, tidy⟩
  have below := (served.sourced.slot slot page held).1
  refine ⟨below, ?_⟩
  have used : ¬ synced.cache.Unused slot := by
    intro unused
    rw [served.sourced.empty slot unused] at held
    cases held
  obtain ⟨entry, inside, rfl⟩ := List.mem_map.mp (tidy.used_iff.mpr used)
  exact Option.some.inj (held.symm.trans (coherent.resident entry.1 entry.2 inside).page)

/-- Wherever code behind `cache_sync` has come, a block of the image has its content at the sync or a
page that the code has written to it. -/
theorem Serves.killed (serves : Serves totalBlocks machine array)
    (sync : cacheSync tags machine = some synced) {program : CacheProgram Page α} {count : Nat}
    {calls : List (CacheCall Page)} (run : program.runFor tags count synced = some (calls, point))
    (below : ∀ call ∈ calls, call.Below totalBlocks)
    (named : ∀ entry ∈ program.writtenFor tags count synced, entry.1 < totalBlocks) (block : Nat) :
    point.image.block block = array.blocks block ∨
      (block, point.image.block block) ∈ program.writtenFor tags count synced := by
  obtain ⟨sourced, recent, pending, tidy⟩ := serves.sourced_synced sync
  let holds := fun block page => page = array.blocks block ∨
    (block, page) ∈ program.writtenFor tags count synced
  have before : Sourced holds totalBlocks synced := sourced.mono fun _ _ => Or.inl
  exact (before.runWritten count serves.addressed tidy run below
    fun entry inside => ⟨named entry inside, Or.inr inside⟩).image block

end

/-- Code runs from a mount, and `cache_sync` behind it. Then other code runs and is killed at any of
its actions: the image has in each block the content that the first code left there, or a page that
the other code has written to the block. -/
theorem killed_after_sync (tags : PageTags Page) (image : Image Page) {cacheSize : Nat}
    (nonempty : 0 < cacheSize) (fits : cacheSize ≤ intMax) (uninitialised : Nat → CacheEntry Page)
    (addressed : image.totalBlocks ≤ addressable) {before : CacheProgram Page α} {value : α}
    {array : BlockArray Page}
    (plain : before.Plain image.totalBlocks cacheSize image.array value array)
    {machine synced point : Machine Page}
    (ran : before.run tags ⟨allocCache cacheSize uninitialised, image⟩ = some (value, machine))
    (sync : cacheSync tags machine = some synced) {after : CacheProgram Page β} {count : Nat}
    {calls : List (CacheCall Page)} (run : after.runFor tags count synced = some (calls, point))
    (below : ∀ call ∈ calls, call.Below image.totalBlocks)
    (named : ∀ entry ∈ after.writtenFor tags count synced, entry.1 < image.totalBlocks)
    (block : Nat) :
    point.image.block block = array.blocks block ∨
      (block, point.image.block block) ∈ after.writtenFor tags count synced := by
  have serves := allocCache_serves image fits uninitialised addressed nonempty
  obtain ⟨machine', run', serves', -⟩ := @CacheProgram.Plain.run _ _ tags _ _ _ _ _ _ _ plain serves rfl
  obtain rfl := (Prod.mk.inj (Option.some.inj (ran.symm.trans run'))).2
  exact serves'.killed sync run below named block

/-- Replace a block through the cache and read another one. -/
def replaceFirst (page : Nat) : CacheProgram Nat Unit :=
  .call (.get 5 1) fun _ => .assign 1 page <| .call (.write page 5 1) fun _ =>
    .call (.get 5 2) fun _ => .done ()

/-- Through one slot, the code is killed in front of the eviction that would bring its page to the
image. -/
theorem killed_after_sync_one_slot :
    ∃ machine synced calls point,
      (replaceFirst 7).run ⟨fun _ => true, fun _ => true⟩
        ⟨allocCache 1 fun _ => wildEntry, ⟨3, fun pnum => pnum⟩⟩ = some ((), machine) ∧
      cacheSync ⟨fun _ => true, fun _ => true⟩ machine = some synced ∧
      (replaceFirst 8).runFor ⟨fun _ => true, fun _ => true⟩ 3 synced = some (calls, point) ∧
      point.image.block 1 = 7 ∧
      (point.image.block 1 = 7 ∨ (1, point.image.block 1) ∈
        (replaceFirst 8).writtenFor ⟨fun _ => true, fun _ => true⟩ 3 synced) := by
  have plain : ∃ array, (replaceFirst 7).Plain 3 1 ⟨fun pnum => pnum, [], 0⟩ () array ∧
      array.blocks 1 = 7 := by
    refine ⟨_, .call ?_ ?_ (.behind ?_ ?_ (.call ?_ ?_ .done)), ?_⟩
    all_goals decide
  obtain ⟨array, plain, latest⟩ := plain
  have computed : ((replaceFirst 7).run ⟨fun _ => true, fun _ => true⟩
      ⟨allocCache 1 fun _ => wildEntry, ⟨3, fun pnum => pnum⟩⟩).any (fun ran =>
        (cacheSync ⟨fun _ => true, fun _ => true⟩ ran.2).any fun synced =>
          ((replaceFirst 8).runFor ⟨fun _ => true, fun _ => true⟩ 3 synced).any fun reached =>
            decide ((∀ call ∈ reached.1, call.Below 3) ∧ reached.2.image.block 1 = 7 ∧
              ∀ entry ∈ (replaceFirst 8).writtenFor ⟨fun _ => true, fun _ => true⟩ 3 synced,
                entry.1 < 3)) = true := by decide +kernel
  obtain ⟨⟨_, machine⟩, ran, computed⟩ := (Option.any_eq_true _ _).mp computed
  obtain ⟨synced, sync, computed⟩ := (Option.any_eq_true _ _).mp computed
  obtain ⟨⟨calls, point⟩, run, computed⟩ := (Option.any_eq_true _ _).mp computed
  obtain ⟨below, content, named⟩ := of_decide_eq_true computed
  refine ⟨machine, synced, calls, point, ran, sync, run, content, ?_⟩
  rw [← latest]
  exact killed_after_sync ⟨fun _ => true, fun _ => true⟩ ⟨3, fun pnum => pnum⟩
    (show 0 < 1 by decide) (show 1 ≤ intMax by decide) (fun _ => wildEntry) (by decide) plain ran sync
    run below named 1

end Nbtrfs
