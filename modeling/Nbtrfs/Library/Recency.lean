import Mathlib.Tactic

/-!
# Move to front

A list in the order of use, the most recent first. Using a value moves it to the front. After any
uses the list holds what was used, and one value stands before another if and only if its last use
is the later one.
-/

namespace Recency

variable {α : Type} [DecidableEq α]

/-- Move a value to the front, or put it there. -/
def touch (order : List α) (value : α) : List α := value :: order.erase value

/-- A list in the order of the last uses. `used` are the uses, the last one first. -/
structure Ordered (used order : List α) : Prop where
  /-- The list holds what was used. -/
  mem : ∀ value, value ∈ order ↔ value ∈ used
  /-- An earlier place is a later last use. -/
  sorted : order.Pairwise fun newer older => used.idxOf newer < used.idxOf older

/-- Nothing was used. -/
theorem Ordered.nil : Ordered ([] : List α) [] := ⟨by simp, List.Pairwise.nil⟩

/-- No value occurs twice. -/
theorem Ordered.nodup {used order : List α} (ordered : Ordered used order) : order.Nodup :=
  ordered.sorted.imp fun less same => by
    rw [same] at less
    exact Nat.lt_irrefl _ less

/-- One more use. -/
theorem Ordered.touch {used order : List α} (ordered : Ordered used order) (value : α) :
    Ordered (value :: used) (touch order value) := by
  have later : ∀ other, other ≠ value →
      (value :: used).idxOf other = used.idxOf other + 1 := by
    intro other differs
    rw [List.idxOf_cons_ne _ (Ne.symm differs)]
  have others : ∀ other ∈ order.erase value, other ≠ value := by
    intro other inside
    exact (ordered.nodup.mem_erase_iff.mp inside).1
  constructor
  · intro other
    unfold Recency.touch
    rw [List.mem_cons, List.mem_cons, ordered.nodup.mem_erase_iff, ordered.mem]
    by_cases same : other = value
    · simp [same]
    · simp [same]
  · refine List.pairwise_cons.mpr ⟨?_, ?_⟩
    · intro other inside
      rw [later other (others other inside), List.idxOf_cons_self]
      exact Nat.succ_pos _
    · apply (ordered.sorted.sublist List.erase_sublist).imp_of_mem
      intro newer older newerInside olderInside less
      rw [later newer (others newer newerInside), later older (others older olderInside)]
      exact Nat.succ_lt_succ less

/-- Among the values that satisfy a test, the last in the list was used least recently. -/
theorem Ordered.last {used left right : List α} {value : α} {test : α → Bool}
    (ordered : Ordered used (left ++ value :: right)) (rejected : ∀ other ∈ right, test other = false)
    {other : α} (inside : other ∈ left ++ value :: right) (passes : test other = true) :
    used.idxOf other ≤ used.idxOf value := by
  rcases List.mem_append.mp inside with before | after
  · have less := (List.pairwise_append.mp ordered.sorted).2.2 other before value List.mem_cons_self
    exact Nat.le_of_lt less
  · rcases List.mem_cons.mp after with same | behind
    · rw [same]
    · rw [rejected other behind] at passes
      cases passes

end Recency
