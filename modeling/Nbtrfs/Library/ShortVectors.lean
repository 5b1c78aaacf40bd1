import Mathlib.Algebra.BigOperators.Ring.Finset
import Mathlib.Algebra.Order.BigOperators.Ring.Finset
import Mathlib.Data.Int.Order.Lemmas
import Mathlib.Tactic.Ring

/-!
# Vectors that are too short for a congruence

The integer vectors on which a linear form is divisible by a modulus make a lattice. A dual basis of it
bounds its vectors from below: each coordinate in the basis is an integer that a short vector makes
smaller than one. Three matrices of numbers are checked once, and no vector has to be looked for.
-/

namespace ShortVectors

variable {n : Nat}

/-- A dual basis of the vectors on which a form is divisible by a modulus, good for entries up to a
bound. -/
structure Certificate (modulus : Int) (form : Fin n → Int) (bound : Int) where
  /-- The basis, by columns. -/
  basis : Fin n → Fin n → Int
  /-- The dual basis, times the modulus, by rows. -/
  dual : Fin n → Fin n → Int
  /-- The multiples of the form that the rows are congruent to. -/
  scale : Fin n → Int
  /-- They are. -/
  congruent : ∀ j i, modulus ∣ dual j i - scale j * form i
  /-- The bases are dual. -/
  inverse : ∀ i k, ∑ j, basis i j * dual j k = if i = k then modulus else 0
  /-- On the rows short vectors are smaller than the modulus. -/
  small : ∀ j, (∑ i, |dual j i|) * bound < modulus

variable {modulus bound : Int} {form : Fin n → Int} (certificate : Certificate modulus form bound)

include certificate

/-- Each row of the dual basis vanishes on a short vector. -/
theorem Certificate.row {vector : Fin n → Int}
    (short : ∀ i, |vector i| ≤ bound) (divides : modulus ∣ ∑ i, form i * vector i) (j : Fin n) :
    ∑ i, certificate.dual j i * vector i = 0 := by
  apply Int.eq_zero_of_abs_lt_dvd (m := modulus)
  · have split : ∑ i, certificate.dual j i * vector i =
        ∑ i, (certificate.dual j i - certificate.scale j * form i) * vector i +
          certificate.scale j * ∑ i, form i * vector i := by
      rw [Finset.mul_sum, ← Finset.sum_add_distrib]
      exact Finset.sum_congr rfl fun i _ => by ring
    rw [split]
    exact dvd_add
      (Finset.dvd_sum fun i _ => Dvd.dvd.mul_right (certificate.congruent j i) (vector i))
      (Dvd.dvd.mul_left divides _)
  · calc |∑ i, certificate.dual j i * vector i|
        ≤ ∑ i, |certificate.dual j i * vector i| := Finset.abs_sum_le_sum_abs _ _
      _ ≤ ∑ i, |certificate.dual j i| * bound := by
        refine Finset.sum_le_sum fun i _ => ?_
        rw [abs_mul]
        exact mul_le_mul_of_nonneg_left (short i) (abs_nonneg _)
      _ = (∑ i, |certificate.dual j i|) * bound := (Finset.sum_mul _ _ _).symm
      _ < modulus := certificate.small j

/-- A short vector on which the form is divisible by the modulus is zero. -/
theorem Certificate.eq_zero (positive : 0 < modulus) {vector : Fin n → Int}
    (short : ∀ i, |vector i| ≤ bound) (divides : modulus ∣ ∑ i, form i * vector i) (i : Fin n) :
    vector i = 0 := by
  have rows := certificate.row short divides
  have scaled : modulus * vector i = 0 := by
    calc modulus * vector i = ∑ k, (if i = k then modulus else 0) * vector k := by
          rw [Finset.sum_congr rfl fun k _ => ite_mul (i = k) modulus 0 (vector k)]
          simp
      _ = ∑ k, (∑ j, certificate.basis i j * certificate.dual j k) * vector k := by
          exact Finset.sum_congr rfl fun k _ => by rw [certificate.inverse]
      _ = ∑ j, certificate.basis i j * ∑ k, certificate.dual j k * vector k := by
          simp only [Finset.sum_mul, Finset.mul_sum, mul_assoc]
          exact Finset.sum_comm
      _ = 0 := by
          refine Finset.sum_eq_zero fun j _ => ?_
          rw [rows j, mul_zero]
  exact (mul_eq_zero.mp scaled).resolve_left (ne_of_gt positive)

end ShortVectors
