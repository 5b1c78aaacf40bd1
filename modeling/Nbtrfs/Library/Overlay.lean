import Mathlib.Tactic

/-!
# Copies into an array

A finite piece laid over an array at a position, as `memcpy` does. Laying one piece behind the
other is laying their concatenation, so a copy in pieces is one copy.
-/

namespace Nbtrfs

universe u

/-- The array with a piece laid over it at a position. -/
def overlay {α : Type u} (array : Nat → α) (position : Nat) (piece : List α) : Nat → α :=
  fun index =>
    if position ≤ index then (piece[index - position]?).getD (array index) else array index

/-- The elements of an array from a position on. -/
def segment {α : Type u} (array : Nat → α) (position count : Nat) : List α :=
  (List.range count).map fun index => array (position + index)

section

variable {α : Type u}

/-- Inside the piece the elements are those of the piece. -/
theorem overlay_inside (array : Nat → α) (position : Nat) (piece : List α) {index : Nat}
    (small : index < piece.length) : overlay array position piece (position + index) = piece[index] := by
  rw [overlay, if_pos (Nat.le_add_right _ _), Nat.add_sub_cancel_left,
    List.getElem?_eq_getElem small, Option.getD_some]

/-- Outside the piece the array is kept. -/
theorem overlay_outside (array : Nat → α) (position : Nat) (piece : List α) {index : Nat}
    (outside : index < position ∨ position + piece.length ≤ index) :
    overlay array position piece index = array index := by
  unfold overlay
  split
  case isTrue after =>
    have past : piece.length ≤ index - position := by omega
    rw [List.getElem?_eq_none past, Option.getD_none]
  case isFalse => rfl

/-- An element under the piece does not matter. -/
theorem overlay_congr {array other : Nat → α} (position : Nat) (piece : List α) {index : Nat}
    (same : index < position ∨ position + piece.length ≤ index → array index = other index) :
    overlay array position piece index = overlay other position piece index := by
  by_cases outside : index < position ∨ position + piece.length ≤ index
  · rw [overlay_outside _ _ _ outside, overlay_outside _ _ _ outside, same outside]
  · obtain ⟨offset, rfl⟩ : ∃ offset, index = position + offset := ⟨index - position, by omega⟩
    have small : offset < piece.length := by omega
    rw [overlay_inside _ _ _ small, overlay_inside _ _ _ small]

/-- An empty piece changes nothing. -/
@[simp] theorem overlay_nil (array : Nat → α) (position : Nat) :
    overlay array position [] = array := by
  funext index
  exact overlay_outside array position [] (by rw [List.length_nil]; omega)

/-- A copy in two pieces is one copy. -/
theorem overlay_append (array : Nat → α) (position : Nat) (first second : List α) :
    overlay array position (first ++ second) =
      overlay (overlay array position first) (position + first.length) second := by
  funext index
  by_cases before : index < position
  · rw [overlay_outside _ _ _ (Or.inl before), overlay_outside _ _ _ (Or.inl (by omega)),
      overlay_outside _ _ _ (Or.inl before)]
  · obtain ⟨offset, rfl⟩ : ∃ offset, index = position + offset := ⟨index - position, by omega⟩
    by_cases inFirst : offset < first.length
    · have small : offset < (first ++ second).length := by
        rw [List.length_append]
        omega
      rw [overlay_inside _ _ _ small, overlay_outside _ _ _ (Or.inl (by omega)),
        overlay_inside _ _ _ inFirst, List.getElem_append_left inFirst]
    · by_cases inSecond : offset < first.length + second.length
      · have small : offset < (first ++ second).length := by rwa [List.length_append]
        have rest : offset - first.length < second.length := by omega
        have place : position + offset = position + first.length + (offset - first.length) := by
          omega
        rw [overlay_inside _ _ _ small, List.getElem_append_right (by omega), place,
          overlay_inside _ _ _ rest]
      · rw [overlay_outside _ _ _ (Or.inr (by rw [List.length_append]; omega)),
          overlay_outside _ _ _ (Or.inr (by omega)), overlay_outside _ _ _ (Or.inr (by omega))]

/-- A segment has the number of elements asked for. -/
@[simp] theorem segment_length (array : Nat → α) (position count : Nat) :
    (segment array position count).length = count := by
  rw [segment, List.length_map, List.length_range]

/-- No elements. -/
@[simp] theorem segment_zero (array : Nat → α) (position : Nat) : segment array position 0 = [] := rfl

/-- A segment in two parts. -/
theorem segment_add (array : Nat → α) (position first second : Nat) :
    segment array position (first + second) =
      segment array position first ++ segment array (position + first) second := by
  unfold segment
  rw [List.range_add, List.map_append, List.map_map]
  congr 1
  apply List.map_congr_left
  intro index _
  show array (position + (first + index)) = array (position + first + index)
  rw [Nat.add_assoc]

/-- A segment depends on its elements only. -/
theorem segment_congr {array other : Nat → α} {position otherPosition count : Nat}
    (same : ∀ index < count, array (position + index) = other (otherPosition + index)) :
    segment array position count = segment other otherPosition count := by
  apply List.map_congr_left
  intro index inside
  exact same index (List.mem_range.mp inside)

/-- The segment under a piece is the piece. -/
theorem segment_overlay (array : Nat → α) (position : Nat) (piece : List α) :
    segment (overlay array position piece) position piece.length = piece := by
  apply List.ext_getElem
  · exact segment_length _ _ _
  · intro index _ small
    simp only [segment, List.getElem_map, List.getElem_range]
    exact overlay_inside array position piece small

end

end Nbtrfs
