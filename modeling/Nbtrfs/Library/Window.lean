import Mathlib.Tactic

/-!
# Ring buffers and their windows

A ring has a fixed number of slots and a head, the slot that is overwritten next. Its window is
the list of its contents from the head on, the oldest first. Overwriting the slot at the head and
moving on drops the front of the window and adds the new content at its end, so what a run of
overwrites drops, followed by the window, is the first window followed by what was added.
-/

namespace Nbtrfs

universe u

variable {α : Type u}

/-- The slot after the head. -/
def nextSlot (size head : Nat) : Nat := if head + 1 = size then 0 else head + 1

/-- The contents of the slots from the head on. -/
structure Window (size head : Nat) (slots : Nat → α) (window : List α) : Prop where
  /-- The head is a slot. -/
  head_lt : head < size
  /-- Every slot has its place. -/
  length : window.length = size
  /-- The slots stand in order behind the head. -/
  slot : ∀ i < size, window[i]? = some (slots ((head + i) % size))

/-- The next slot is a slot. -/
theorem nextSlot_lt {size head : Nat} (inside : head < size) : nextSlot size head < size := by
  unfold nextSlot
  split
  · omega
  · omega

/-- The next slot is one further, round the ring. -/
theorem nextSlot_eq_mod {size head : Nat} (inside : head < size) :
    nextSlot size head = (head + 1) % size := by
  unfold nextSlot
  split
  case isTrue wraps => rw [wraps, Nat.mod_self]
  case isFalse => exact (Nat.mod_eq_of_lt (by omega)).symm

/-- Going on from the next slot. -/
theorem nextSlot_add_mod {size head : Nat} (inside : head < size) (i : Nat) :
    (nextSlot size head + i) % size = (head + (i + 1)) % size := by
  rw [nextSlot_eq_mod inside, Nat.mod_add_mod, Nat.add_assoc, Nat.add_comm 1 i]

/-- Going on from the head by the distance to a slot leads to the slot. -/
theorem slot_around {size head slot : Nat} (small : head < size) (inside : slot < size) :
    (head + (slot + size - head) % size) % size = slot := by
  rw [Nat.add_mod_mod, show head + (slot + size - head) = slot + size by omega, Nat.add_mod_right,
    Nat.mod_eq_of_lt inside]

section

variable {size head : Nat} {slots slots' : Nat → α} {window : List α}

/-- The front of the window is the content of the head. -/
theorem Window.front (shown : Window size head slots window) :
    ∃ rest, window = slots head :: rest := by
  have positive : 0 < size := Nat.lt_of_le_of_lt (Nat.zero_le _) shown.head_lt
  have first := shown.slot 0 positive
  rw [Nat.add_zero, Nat.mod_eq_of_lt shown.head_lt] at first
  cases window with
  | nil => cases first
  | cons front rest =>
    obtain rfl : front = slots head := Option.some.inj first
    exact ⟨rest, rfl⟩

/-- Overwriting the head drops the front and adds the new content. -/
theorem Window.push (shown : Window size head slots window) {front new : α} {rest : List α}
    (split : window = front :: rest) (here : slots' head = new)
    (other : ∀ index < size, index ≠ head → slots' index = slots index) :
    Window size (nextSlot size head) slots' (rest ++ [new]) := by
  have head_lt := shown.head_lt
  have length := shown.length
  rw [split, List.length_cons] at length
  refine ⟨nextSlot_lt head_lt, ?_, ?_⟩
  · rw [List.length_append, List.length_singleton]
    exact length
  · intro i inside
    have place := nextSlot_add_mod head_lt i
    rw [place]
    by_cases last : i + 1 = size
    · rw [last, Nat.add_mod_right, Nat.mod_eq_of_lt head_lt, here]
      have position : i = rest.length := by omega
      rw [position, List.getElem?_append_right (Nat.le_refl _), Nat.sub_self]
      rfl
    · have kept := shown.slot (i + 1) (by omega)
      rw [split, List.getElem?_cons_succ] at kept
      rw [List.getElem?_append_left (by omega), kept]
      congr 1
      have apart : (head + (i + 1)) % size ≠ head := by
        intro same
        by_cases wraps : head + (i + 1) < size
        · rw [Nat.mod_eq_of_lt wraps] at same
          omega
        · rw [Nat.mod_eq_sub_mod (by omega), Nat.mod_eq_of_lt (by omega)] at same
          omega
      exact (other _ (Nat.mod_lt _ (by omega)) apart).symm

/-- Slots of one content. -/
theorem Window.replicate {content : α} (positive : 0 < size)
    (same : ∀ index < size, slots index = content) :
    Window size 0 slots (List.replicate size content) := by
  refine ⟨positive, List.length_replicate, fun i inside => ?_⟩
  rw [same _ (Nat.mod_lt _ positive), List.getElem?_replicate, if_pos inside]

end

/-- What a step of a run drops and keeps, followed by what it adds. -/
theorem window_step {dropped window former added : List α} {front new : α} {rest : List α}
    (before : dropped ++ window = former ++ added) (split : window = front :: rest) :
    (dropped ++ [front]) ++ (rest ++ [new]) = former ++ (added ++ [new]) := by
  calc (dropped ++ [front]) ++ (rest ++ [new])
      = (dropped ++ front :: rest) ++ [new] := by simp
    _ = (former ++ added) ++ [new] := by rw [← split, before]
    _ = former ++ (added ++ [new]) := List.append_assoc _ _ _

end Nbtrfs
