import Mathlib.Tactic

/-!
# First-fit allocation

An allocator of numbered slots that always takes the least slot that is free. A result of 0
stands for failure, so slot 0 must be in use from the start. What has been taken is not taken
again before it is released.
-/

namespace FirstFit

/-- A call of an allocator. -/
inductive Call where
  /-- Take a slot. -/
  | take
  /-- Release a slot. -/
  | release (index : Nat)

/-- The slots in use, with one of them changed. -/
def update (taken : Nat → Bool) (index : Nat) (value : Bool) : Nat → Bool :=
  fun other => if other = index then value else taken other

/-- The least free slot below a bound. -/
def first (taken : Nat → Bool) (bound : Nat) : Option Nat :=
  (List.range bound).find? fun index => !taken index

/-- One call: its result and the slots in use after it. -/
def step (bound : Nat) (taken : Nat → Bool) : Call → Nat × (Nat → Bool)
  | .take => match first taken bound with
    | some index => (index, update taken index true)
    | none => (0, taken)
  | .release index => (0, update taken index false)

/-- A run of calls: the results and the slots in use after it. -/
def run (bound : Nat) : (Nat → Bool) → List Call → List Nat × (Nat → Bool)
  | taken, [] => ([], taken)
  | taken, call :: calls =>
    let (result, taken) := step bound taken call
    let (results, taken) := run bound taken calls
    (result :: results, taken)

/-- A slot that two calls of a run hand out is released between them. -/
def ReleasedBetween (calls : List Call) (results : List Nat) : Prop :=
  ∀ (earlier later index : Nat), earlier < later → index ≠ 0 →
    results[earlier]? = some index → results[later]? = some index →
    ∃ released, earlier < released ∧ released < later ∧ calls[released]? = some (.release index)

variable {bound : Nat} {taken : Nat → Bool}

/-- The least free slot is free, and the ones before it are in use. -/
theorem first_eq_some {index : Nat} :
    first taken bound = some index ↔
      index < bound ∧ taken index = false ∧ ∀ other < index, taken other = true := by
  rw [first, List.find?_range_eq_some]
  simp only [Bool.not_eq_true', List.mem_range, Bool.not_not]
  constructor
  · rintro ⟨free, inside, before⟩
    exact ⟨inside, free, before⟩
  · rintro ⟨inside, free, before⟩
    exact ⟨free, inside, before⟩

/-- There is no free slot if all are in use. -/
theorem first_eq_none : first taken bound = none ↔ ∀ index < bound, taken index = true := by
  rw [first, List.find?_range_eq_none]
  simp

/-- A slot in use is not the result of a call. -/
theorem step_ne {index : Nat} (inUse : taken index = true) (nonzero : index ≠ 0) (call : Call) :
    (step bound taken call).1 ≠ index := by
  cases call with
  | release other => exact Ne.symm nonzero
  | take =>
    rw [step]
    cases found : first taken bound with
    | none => exact Ne.symm nonzero
    | some other =>
      rintro rfl
      rw [(first_eq_some.mp found).2.1] at inUse
      cases inUse

/-- A slot in use stays in use unless it is released. -/
theorem step_keeps {index : Nat} (inUse : taken index = true) {call : Call}
    (kept : call ≠ .release index) : (step bound taken call).2 index = true := by
  cases call with
  | release other =>
    have distinct : index ≠ other := fun same => kept (by rw [same])
    exact (if_neg distinct).trans inUse
  | take =>
    rw [step]
    cases first taken bound with
    | none => exact inUse
    | some other =>
      show (if index = other then true else taken index) = true
      rw [inUse, ite_self]

/-- A result that is not 0 is in use after the call. -/
theorem step_takes {call : Call} (nonzero : (step bound taken call).1 ≠ 0) :
    (step bound taken call).2 (step bound taken call).1 = true := by
  cases call with
  | release other => exact absurd rfl nonzero
  | take =>
    rw [step] at nonzero ⊢
    cases found : first taken bound with
    | none =>
      rw [found] at nonzero
      exact absurd rfl nonzero
    | some index => exact if_pos rfl

/-- A slot in use is not handed out by a run that does not release it first. -/
theorem run_kept {index : Nat} (inUse : taken index = true) (nonzero : index ≠ 0)
    {calls : List Call} {position : Nat}
    (handed : (run bound taken calls).1[position]? = some index) :
    ∃ released < position, calls[released]? = some (.release index) := by
  induction calls generalizing taken position with
  | nil => simp [run] at handed
  | cons call calls ih =>
    cases position with
    | zero => exact absurd (Option.some.inj handed) (step_ne inUse nonzero call)
    | succ position =>
      by_cases here : call = .release index
      · exact ⟨0, Nat.succ_pos _, by rw [here]; rfl⟩
      · have later : (run bound (step bound taken call).2 calls).1[position]? = some index := handed
        obtain ⟨released, before, call⟩ := ih (step_keeps inUse here) later
        exact ⟨released + 1, Nat.succ_lt_succ before, call⟩

/-- Between two calls that hand out a slot it is released. -/
theorem run_released (taken : Nat → Bool) (calls : List Call) :
    ReleasedBetween calls (run bound taken calls).1 := by
  intro earlier later index before nonzero first second
  induction calls generalizing taken earlier later with
  | nil => simp [run] at first
  | cons call calls ih =>
    obtain ⟨later, rfl⟩ := Nat.exists_eq_succ_of_ne_zero (Nat.ne_zero_of_lt before)
    have rest : (run bound (step bound taken call).2 calls).1[later]? = some index := second
    cases earlier with
    | zero =>
      have result : (step bound taken call).1 = index := Option.some.inj first
      have inUse := @step_takes bound taken call (by rw [result]; exact nonzero)
      rw [result] at inUse
      obtain ⟨released, below, release⟩ := run_kept inUse nonzero rest
      exact ⟨released + 1, Nat.succ_pos _, Nat.succ_lt_succ below, release⟩
    | succ earlier =>
      obtain ⟨released, after, below, release⟩ :=
        ih _ earlier later (Nat.lt_of_succ_lt_succ before) first rest
      exact ⟨released + 1, Nat.succ_lt_succ after, Nat.succ_lt_succ below, release⟩

end FirstFit
