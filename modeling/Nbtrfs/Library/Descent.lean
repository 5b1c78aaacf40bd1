import Mathlib.Data.List.Chain
import Mathlib.Data.List.Nodup
import Mathlib.Logic.Relation

/-!
# Descents

Walks along a relation. A walk from a point comes to an end, or takes no more than some number of
steps. Where finitely many points are reached and none is reached from itself, a walk takes fewer
steps than there are points.
-/

namespace Descent

open Relation

variable {Point : Type} {below : Point → Point → Prop}

/-- Every walk from a point comes to an end. -/
def Finishes (below : Point → Point → Prop) (point : Point) : Prop :=
  Acc (fun later earlier => below earlier later) point

/-- No walk from a point takes more than a number of steps. -/
def Within (below : Point → Point → Prop) : Nat → Point → Prop
  | 0, point => ∀ next, ¬ below point next
  | steps + 1, point => ∀ next, below point next → Within below steps next

/-- A walk that finishes from every next point finishes. -/
theorem finishes_of_next {point : Point} (next : ∀ later, below point later → Finishes below later) :
    Finishes below point :=
  Acc.intro point next

/-- A walk finishes from every later point. -/
theorem Finishes.reach {point later : Point} (finishes : Finishes below point)
    (reached : ReflTransGen below point later) : Finishes below later := by
  induction reached with
  | refl => exact finishes
  | tail _ step ih => exact ih.inv step

/-- A point from which a walk finishes is not reached from itself. -/
theorem Finishes.acyclic {point : Point} (finishes : Finishes below point) :
    ¬ TransGen below point point := by
  induction finishes with
  | intro point _ ih =>
    intro cycle
    obtain ⟨next, step, rest⟩ := TransGen.head'_iff.mp cycle
    rcases reflTransGen_iff_eq_or_transGen.mp rest with same | further
    · rw [← same] at step
      exact ih point step cycle
    · exact ih next step (further.tail step)

/-- A walk goes along another relation, or takes a step that is not of that relation. -/
theorem along_or_apart (other : Point → Point → Prop) {point later : Point}
    (walk : TransGen below point later) :
    TransGen other point later ∨ ∃ here next, ReflTransGen below point here ∧ below here next ∧
      ¬ other here next ∧ ReflTransGen below next later := by
  induction walk with
  | @single later step =>
    by_cases same : other point later
    · exact Or.inl (TransGen.single same)
    · exact Or.inr ⟨point, later, ReflTransGen.refl, step, same, ReflTransGen.refl⟩
  | @tail middle later before step ih =>
    rcases ih with along | ⟨here, next, reached, apart, differs, rest⟩
    · by_cases same : other middle later
      · exact Or.inl (along.tail same)
      · exact Or.inr ⟨middle, later, before.to_reflTransGen, step, same, ReflTransGen.refl⟩
    · exact Or.inr ⟨here, next, reached, apart, differs, rest.tail step⟩

/-- A bounded walk finishes. -/
theorem Within.finishes {steps : Nat} {point : Point} (within : Within below steps point) :
    Finishes below point := by
  induction steps generalizing point with
  | zero => exact finishes_of_next fun later step => absurd step (within later)
  | succ steps ih => exact finishes_of_next fun later step => ih (within later step)

/-- A walk that is not bounded has a path of more steps. -/
theorem exists_path_of_not_within {steps : Nat} {point : Point}
    (unbounded : ¬ Within below steps point) :
    ∃ path, List.IsChain below (point :: path) ∧ path.length = steps + 1 := by
  induction steps generalizing point with
  | zero =>
    have step : ¬ ∀ next, ¬ below point next := unbounded
    obtain ⟨next, step⟩ := not_forall_not.mp step
    exact ⟨[next], by simpa using step, rfl⟩
  | succ steps ih =>
    have step : ¬ ∀ next, below point next → Within below steps next := unbounded
    obtain ⟨next, notHere⟩ := not_forall.mp step
    obtain ⟨step, further⟩ := Classical.not_imp.mp notHere
    obtain ⟨path, chain, length⟩ := ih further
    refine ⟨next :: path, ?_, by rw [List.length_cons, length]⟩
    exact List.isChain_cons_cons.mpr ⟨step, chain⟩

/-- The points of a path are reached from its first one. -/
theorem reached_of_path {point : Point} {path : List Point}
    (chain : List.IsChain below (point :: path)) {later : Point} (inside : later ∈ point :: path) :
    ReflTransGen below point later := by
  induction path generalizing point with
  | nil =>
    rw [List.mem_singleton] at inside
    rw [inside]
  | cons next path ih =>
    obtain ⟨step, rest⟩ := List.isChain_cons_cons.mp chain
    rcases List.mem_cons.mp inside with here | further
    · rw [here]
    · exact ReflTransGen.head step (ih rest further)

/-- A path without cycles passes no point twice. -/
theorem nodup_of_path {point : Point} {path : List Point}
    (chain : List.IsChain below (point :: path))
    (acyclic : ∀ later, ReflTransGen below point later → ¬ TransGen below later later) :
    (point :: path).Nodup := by
  induction path generalizing point with
  | nil => exact List.nodup_singleton point
  | cons next path ih =>
    obtain ⟨step, rest⟩ := List.isChain_cons_cons.mp chain
    rw [List.nodup_cons]
    constructor
    · intro again
      have back := reached_of_path rest again
      exact acyclic point ReflTransGen.refl (TransGen.head' step back)
    · exact ih rest fun later reached => acyclic later (ReflTransGen.head step reached)

/-- Without cycles a walk takes fewer steps than there are points. -/
theorem within_of_acyclic {point : Point} (points : List Point)
    (inside : ∀ later, ReflTransGen below point later → later ∈ points)
    (acyclic : ∀ later, ReflTransGen below point later → ¬ TransGen below later later) :
    Within below (points.length - 1) point := by
  by_contra unbounded
  obtain ⟨path, chain, length⟩ := exists_path_of_not_within unbounded
  have most := (nodup_of_path chain acyclic).length_le_of_subset
    fun later isLater => inside later (reached_of_path chain isLater)
  rw [List.length_cons] at most
  omega

/-- A walk that finishes takes fewer steps than there are points. -/
theorem Finishes.within {point : Point} (finishes : Finishes below point) (points : List Point)
    (inside : ∀ later, ReflTransGen below point later → later ∈ points) :
    Within below (points.length - 1) point :=
  within_of_acyclic points inside fun _ reached => (finishes.reach reached).acyclic

end Descent
