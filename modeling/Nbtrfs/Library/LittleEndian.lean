import Mathlib.Tactic

/-!
# Little-endian words in a byte memory

Reading and writing a word of some number of bytes at an address of a byte memory. A word that
fits its bytes reads back, and disjoint words do not affect each other.
-/

namespace LittleEndian

/-- The word of a number of bytes at an address. -/
def load (memory : Nat → UInt8) (address : Nat) : Nat → Nat
  | 0 => 0
  | width + 1 => (memory address).toNat + 256 * load memory (address + 1) width

/-- The memory after a word is written at an address. -/
def store (memory : Nat → UInt8) (address width value : Nat) : Nat → UInt8 :=
  fun other =>
    if address ≤ other ∧ other < address + width then UInt8.ofNat (value / 256 ^ (other - address))
    else memory other

/-- A word depends on its bytes only. -/
theorem load_congr {memory other : Nat → UInt8} (address width : Nat)
    (same : ∀ i, address ≤ i → i < address + width → memory i = other i) :
    load memory address width = load other address width := by
  induction width generalizing address with
  | zero => rfl
  | succ width ih =>
    have first : memory address = other address := same address (Nat.le_refl _) (by omega)
    have rest : load memory (address + 1) width = load other (address + 1) width := by
      apply ih
      intro i after before
      exact same i (by omega) (by omega)
    rw [load, load, first, rest]

/-- A word is below the bound of its width. -/
theorem load_lt (memory : Nat → UInt8) (address width : Nat) :
    load memory address width < 256 ^ width := by
  induction width generalizing address with
  | zero => exact Nat.one_pos
  | succ width ih =>
    have digit : (memory address).toNat < 256 := UInt8.toNat_lt _
    have rest := ih (address + 1)
    rw [load, Nat.pow_succ]
    omega

/-- A word whose bytes are the digits of a value is the value, up to what fits. -/
theorem load_digits {memory : Nat → UInt8} (address width value : Nat)
    (digits : ∀ i < width, memory (address + i) = UInt8.ofNat (value / 256 ^ i)) :
    load memory address width = value % 256 ^ width := by
  induction width generalizing address value with
  | zero => rw [load, Nat.pow_zero, Nat.mod_one]
  | succ width ih =>
    have first : (memory address).toNat = value % 256 := by
      have digit := digits 0 (by omega)
      rw [Nat.add_zero, Nat.pow_zero, Nat.div_one] at digit
      rw [digit, UInt8.toNat_ofNat']
    have rest : load memory (address + 1) width = value / 256 % 256 ^ width := by
      apply ih
      intro i small
      have digit := digits (i + 1) (by omega)
      rw [Nat.pow_succ', ← Nat.div_div_eq_div_mul] at digit
      rw [show address + 1 + i = address + (i + 1) by omega]
      exact digit
    rw [load, first, rest, Nat.pow_succ', Nat.mod_mul]

/-- A written word that fits reads back. -/
theorem load_store_same (memory : Nat → UInt8) (address width value : Nat)
    (fits : value < 256 ^ width) :
    load (store memory address width value) address width = value := by
  have digits : ∀ i < width, store memory address width value (address + i) =
      UInt8.ofNat (value / 256 ^ i) := by
    intro i small
    rw [store, if_pos ⟨by omega, by omega⟩, Nat.add_sub_cancel_left]
  rw [load_digits address width value digits, Nat.mod_eq_of_lt fits]

/-- A disjoint word is kept. -/
theorem load_store_disjoint (memory : Nat → UInt8) (address width value other size : Nat)
    (disjoint : other + size ≤ address ∨ address + width ≤ other) :
    load (store memory address width value) other size = load memory other size := by
  apply load_congr
  intro i after before
  rw [store, if_neg (by omega)]

/-- The bytes of a word are its digits. -/
theorem load_digit (memory : Nat → UInt8) (address width : Nat) {i : Nat} (small : i < width) :
    UInt8.ofNat (load memory address width / 256 ^ i) = memory (address + i) := by
  induction width generalizing address i with
  | zero => exact absurd small (Nat.not_lt_zero i)
  | succ width ih =>
    have byte : (memory address).toNat < 256 := (memory address).toNat_lt
    rw [load]
    cases i with
    | zero =>
      rw [Nat.pow_zero, Nat.div_one]
      apply UInt8.toNat_inj.mp
      rw [UInt8.toNat_ofNat', show address + 0 = address from rfl]
      omega
    | succ i =>
      have shift : ((memory address).toNat + 256 * load memory (address + 1) width) / 256 =
          load memory (address + 1) width := by omega
      rw [Nat.pow_succ', ← Nat.div_div_eq_div_mul, shift, ih (address + 1) (by omega)]
      congr 1
      omega

/-- Writing a word where it was read changes nothing. -/
theorem store_load (memory : Nat → UInt8) (address width : Nat) :
    store memory address width (load memory address width) = memory := by
  funext other
  unfold store
  by_cases inside : address ≤ other ∧ other < address + width
  · have digit := @load_digit memory address width (other - address) (by omega)
    rw [if_pos inside, digit]
    congr 1
    omega
  · rw [if_neg inside]

/-- A word of zero bytes is 0. -/
theorem load_zero (address width : Nat) : load (fun _ => 0) address width = 0 := by
  induction width generalizing address with
  | zero => rfl
  | succ width ih => rw [load, ih, UInt8.toNat_zero]

end LittleEndian
