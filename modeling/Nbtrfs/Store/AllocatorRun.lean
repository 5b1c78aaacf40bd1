import Nbtrfs.Store.Allocator
import Nbtrfs.Library.FirstFit

/-!
# Runs of the page allocator

`alloc_page` and `free_page` are a first-fit allocator of the blocks of the image: every run of
them, on any block bitmap, returns what the allocator on the set bits returns and changes the
bits as it does.
-/

namespace Nbtrfs

open FirstFit (Call)

/-- The blocks whose bit is set. -/
def Store.taken (s : Store) (pnum : Nat) : Bool := s.bit pnum = some true

/-- `alloc_page` or `free_page`, which returns nothing. -/
def allocatorStep (s : Store) : Call → Option (Nat × Store)
  | .take => allocPage s
  | .release pnum => (freePage s pnum).map fun s => (0, s)

/-- A run of calls, with their results. -/
def allocatorRun : Store → List Call → Option (List Nat × Store)
  | s, [] => some ([], s)
  | s, call :: calls => do
    let (result, s) ← allocatorStep s call
    let (results, s) ← allocatorRun s calls
    some (result :: results, s)

/-- A release names a block of the image other than block 0. -/
def CallPermits (totalBlocks : Nat) : Call → Prop
  | .take => True
  | .release pnum => 0 < pnum ∧ pnum < totalBlocks

section

variable {s s' : Store}

/-- A bit of a block bitmap is set or clear. -/
theorem Store.Bitmapped.bit (bitmapped : s.Bitmapped) {pnum : Nat} (inside : pnum < s.totalBlocks) :
    s.bit pnum = some (s.taken pnum) := by
  obtain ⟨-, words, page⟩ := bitmapped pnum inside
  have read : s.bit pnum = some (wordBit (words (pnum % usableBlockSize / 64))
      (pnum % usableBlockSize % 64)) := by
    unfold Store.bit
    rw [page]
    rfl
  rw [Store.taken, read]
  simp

/-- A changed bit changes the blocks in use. -/
theorem BitChange.taken {pnum : Nat} {value : Bool} (change : BitChange s pnum value s') :
    s'.taken = FirstFit.update s.taken pnum value := by
  funext other
  rw [Store.taken, FirstFit.update, change.bits]
  split
  · simp
  · rfl

/-- `alloc_page` takes the least free block. -/
theorem allocPage_first (bitmapped : s.Bitmapped) :
    ∃ result s', allocPage s = some (result, s') ∧ s'.Bitmapped ∧
      s'.totalBlocks = s.totalBlocks ∧
      FirstFit.step s.totalBlocks s.taken .take = (result, s'.taken) := by
  have inUse : ∀ pnum < s.totalBlocks, s.bit pnum ≠ some false → s.taken pnum = true := by
    intro pnum inside set
    rw [bitmapped.bit inside] at set
    cases value : s.taken pnum with
    | true => rfl
    | false =>
      rw [value] at set
      exact absurd rfl set
  rw [FirstFit.step]
  rcases allocPage_scan bitmapped with
    ⟨pnum, s', run, inside, clear, least, change⟩ | ⟨run, full⟩
  · have free : s.taken pnum = false := by
      rw [Store.taken, clear]
      simp
    have found : FirstFit.first s.taken s.totalBlocks = some pnum :=
      FirstFit.first_eq_some.mpr ⟨inside, free, fun other before =>
        inUse other (Nat.lt_trans before inside) (least other before)⟩
    rw [found]
    exact ⟨pnum, s', run, change.bitmapped bitmapped, change.totalBlocks, by rw [change.taken]⟩
  · have none : FirstFit.first s.taken s.totalBlocks = none :=
      FirstFit.first_eq_none.mpr fun pnum inside => inUse pnum inside (full pnum inside)
    rw [none]
    exact ⟨0, s, run, bitmapped, rfl, rfl⟩

/-- A call does what the first-fit allocator on the set bits does. -/
theorem allocatorStep_refines (bitmapped : s.Bitmapped) {call : Call}
    (permits : CallPermits s.totalBlocks call) :
    ∃ result s', allocatorStep s call = some (result, s') ∧ s'.Bitmapped ∧
      s'.totalBlocks = s.totalBlocks ∧
      FirstFit.step s.totalBlocks s.taken call = (result, s'.taken) := by
  cases call with
  | take => exact allocPage_first bitmapped
  | release pnum =>
    obtain ⟨s', run, change⟩ := freePage_spec bitmapped permits.2
    refine ⟨0, s', ?_, change.bitmapped bitmapped, change.totalBlocks, ?_⟩
    · rw [allocatorStep, run]
      rfl
    · rw [FirstFit.step, change.taken]

/-- A run does what the first-fit allocator on the set bits does. -/
theorem allocatorRun_refines (bitmapped : s.Bitmapped) {calls : List Call}
    (permits : ∀ call ∈ calls, CallPermits s.totalBlocks call) :
    ∃ results s', allocatorRun s calls = some (results, s') ∧
      FirstFit.run s.totalBlocks s.taken calls = (results, s'.taken) := by
  induction calls generalizing s with
  | nil => exact ⟨[], s, rfl, rfl⟩
  | cons call calls ih =>
    obtain ⟨result, middle, step, bitmapped', total, refined⟩ :=
      allocatorStep_refines bitmapped (permits call List.mem_cons_self)
    have rest : ∀ later ∈ calls, CallPermits middle.totalBlocks later := by
      intro later inside
      rw [total]
      exact permits later (List.mem_cons_of_mem call inside)
    obtain ⟨results, s', run, refines⟩ := ih bitmapped' rest
    refine ⟨result :: results, s', ?_, ?_⟩
    · rw [allocatorRun, step, Option.bind_eq_bind, Option.bind_some]
      show (allocatorRun middle calls).bind _ = _
      rw [run, Option.bind_some]
    · rw [total] at refines
      rw [FirstFit.run, refined]
      dsimp only
      rw [refines]

/-- The block allocator is exact over whole runs: each `alloc_page` returns the least block whose
bit is clear and sets that bit only, or returns 0 and changes no bit if there is none, each
`free_page` clears the block's bit only, and a block that was handed out is handed out again only
after it was freed. -/
theorem allocatorRun_exact (bitmapped : s.Bitmapped) {calls : List Call}
    (permits : ∀ call ∈ calls, CallPermits s.totalBlocks call) :
    ∃ results s', allocatorRun s calls = some (results, s') ∧
      FirstFit.run s.totalBlocks s.taken calls = (results, s'.taken) ∧
      FirstFit.ReleasedBetween calls results := by
  obtain ⟨results, s', run, refines⟩ := allocatorRun_refines bitmapped permits
  have released := @FirstFit.run_released s.totalBlocks s.taken calls
  rw [refines] at released
  exact ⟨results, s', run, refines, released⟩

end

/-- An image of four blocks, of which block 0 and the bitmap are allocated. -/
def fourBlocks : Store where
  totalBlocks := 4
  mem block := if block = 1 then .bitmap fun _ => 3#64 else .untagged fun _ => 0
  disk _ := .untagged fun _ => 0
  residue := ⟨fun _ => 0, fun _ _ => 0⟩

/-- Blocks 2 and 3 are handed out, then there is none; block 2 is handed out again once it is
freed. -/
theorem allocatorRun_exact_four :
    ∃ results s', allocatorRun fourBlocks [.take, .take, .take, .release 2, .take] =
        some (results, s') ∧
      FirstFit.run 4 fourBlocks.taken [.take, .take, .take, .release 2, .take] =
        (results, s'.taken) ∧
      FirstFit.ReleasedBetween [.take, .take, .take, .release 2, .take] results := by
  have page : ∀ pnum < 4, bitmapPage pnum = 1 := by decide
  have bitmapped : fourBlocks.Bitmapped := by
    intro pnum inside
    rw [page pnum inside]
    exact ⟨show 1 < 4 by decide, _, rfl⟩
  apply allocatorRun_exact bitmapped
  intro call inside
  simp only [List.mem_cons, List.not_mem_nil, or_false] at inside
  rcases inside with rfl | rfl | rfl | rfl | rfl
  · trivial
  · trivial
  · trivial
  · exact ⟨by decide, show 2 < 4 by decide⟩
  · trivial

/-- The results of that run. -/
example : (allocatorRun fourBlocks [.take, .take, .take, .release 2, .take]).map Prod.fst =
    some [2, 3, 0, 0, 2] := by decide +kernel

end Nbtrfs
