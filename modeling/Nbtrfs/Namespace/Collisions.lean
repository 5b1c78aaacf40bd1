import Mathlib.Data.LawfulXor.Basic
import Nbtrfs.Library.ShortVectors
import Nbtrfs.Namespace.Path

/-!
# Which names collide

`path_hash` on names that are alike. A byte changes a state in its low eight bits only, and the
factor moves these changes far apart: over six bytes in a row no two choices lead to one state, which
a dual basis of six numbers shows. Bytes that follow keep states apart. So names of one length that
differ within six bytes in a row have different hashes.
-/

namespace Nbtrfs

/-- The FNV prime. -/
def hashFactor : Nat := 0x100000001b3

/-- One round of `path_hash`. -/
def hashStep (hash : Nat) (char : UInt8) : Nat := (hash ^^^ char.toNat) * hashFactor % 2 ^ 64

/-- The state that bytes lead to. -/
def hashFrom (hash : Nat) (path : CString) : Nat := path.foldl hashStep hash

/-- The hash of a path folds its characters from the offset basis on. -/
theorem pathHash_eq (path : CString) : pathHash path = hashFrom 0xcbf29ce484222325 path := rfl

/-- Hashing goes on behind a front part. -/
theorem hashFrom_append (hash : Nat) (front back : CString) :
    hashFrom hash (front ++ back) = hashFrom (hashFrom hash front) back := List.foldl_append

/-- A step stays in 64 bits. -/
theorem hashStep_lt (hash : Nat) (char : UInt8) : hashStep hash char < 2 ^ 64 :=
  Nat.mod_lt _ (by decide)

/-- A state has 64 bits. -/
theorem hashFrom_lt {hash : Nat} (small : hash < 2 ^ 64) (path : CString) :
    hashFrom hash path < 2 ^ 64 := by
  induction path generalizing hash with
  | nil => exact small
  | cons char path ih => exact ih (hashStep_lt hash char)

/-- What a byte adds to a state in front of the multiplication. -/
def hashDrift (hash : Nat) (char : UInt8) : Int := ((hash ^^^ char.toNat : Nat) : Int) - hash

/-- A byte changes the low eight bits. -/
theorem hashDrift_small (hash : Nat) (char : UInt8) : |hashDrift hash char| ≤ 255 := by
  have byte : char.toNat < 2 ^ 8 := char.toNat_lt
  have high : (hash ^^^ char.toNat) / 2 ^ 8 = hash / 2 ^ 8 := by
    rw [Nat.xor_div_two_pow, Nat.div_eq_of_lt byte, Nat.xor_zero]
  have first := Nat.div_add_mod hash (2 ^ 8)
  have second := Nat.div_add_mod (hash ^^^ char.toNat) (2 ^ 8)
  have low := Nat.mod_lt hash (show 2 ^ 8 > 0 by decide)
  have low' := Nat.mod_lt (hash ^^^ char.toNat) (show 2 ^ 8 > 0 by decide)
  rw [high] at second
  rw [hashDrift, abs_le]
  omega

/-- A state and what is added to it determine the byte. -/
theorem hashDrift_inj {hash : Nat} {char char' : UInt8}
    (same : hashDrift hash char = hashDrift hash char') : char = char' := by
  have equal : hash ^^^ char.toNat = hash ^^^ char'.toNat := by
    unfold hashDrift at same
    omega
  exact UInt8.toNat_inj.mp ((xor_right_involutive hash).injective equal)

/-- A round is linear in the state and what the byte adds to it. -/
theorem hashStep_modEq (hash : Nat) (char : UInt8) :
    (hashStep hash char : Int) ≡ (hash + hashDrift hash char) * hashFactor [ZMOD 2 ^ 64] := by
  have sum : (hash : Int) + hashDrift hash char = ((hash ^^^ char.toNat : Nat) : Int) := by
    unfold hashDrift
    omega
  rw [sum, hashStep, Int.natCast_mod, Int.natCast_mul]
  exact Int.mod_modEq _ _

/-- The factor is odd, so a round keeps states apart. -/
theorem hashStep_inj {first second : Nat} {char : UInt8} (small : first < 2 ^ 64)
    (small' : second < 2 ^ 64) (same : hashStep first char = hashStep second char) :
    first = second := by
  have odd : Nat.Coprime (2 ^ 64) hashFactor := by decide +kernel
  have equal : (first ^^^ char.toNat) ≡ (second ^^^ char.toNat) [MOD 2 ^ 64] :=
    Nat.ModEq.cancel_right_of_coprime odd same
  have byte : char.toNat < 2 ^ 64 := lt_trans char.toNat_lt (by decide)
  have exact' := Nat.ModEq.eq_of_lt_of_lt equal (Nat.xor_lt_two_pow small byte)
    (Nat.xor_lt_two_pow small' byte)
  exact (xor_left_involutive char.toNat).injective exact'

/-- The same bytes behind two states lead to one state only from one state. -/
theorem hashFrom_inj {first second : Nat} (small : first < 2 ^ 64) (small' : second < 2 ^ 64)
    (back : CString) : hashFrom first back = hashFrom second back ↔ first = second := by
  constructor
  · intro same
    induction back generalizing first second with
    | nil => exact same
    | cons char back ih =>
      exact hashStep_inj small small' (ih (hashStep_lt _ _) (hashStep_lt _ _) same)
  · rintro rfl
    rfl

/-- The differences between what two lists of bytes add to their states. -/
def hashDrifts : Nat → Nat → CString → CString → List Int
  | first, second, char :: path, char' :: path' =>
    (hashDrift first char - hashDrift second char') ::
      hashDrifts (hashStep first char) (hashStep second char') path path'
  | _, _, _, _ => []

/-- The differences are small. -/
theorem hashDrifts_small {first second : Nat} {path path' : CString} :
    ∀ drift ∈ hashDrifts first second path path', |drift| ≤ 510 := by
  induction path generalizing first second path' with
  | nil => intro drift inside; cases inside
  | cons char path ih =>
    cases path' with
    | nil => intro drift inside; cases inside
    | cons char' path' =>
      intro drift inside
      rcases List.mem_cons.mp inside with rfl | later
      · have one := hashDrift_small first char
        have other := hashDrift_small second char'
        rw [abs_le] at one other ⊢
        omega
      · exact ih drift later

/-- There is one for each byte. -/
theorem hashDrifts_length {first second : Nat} {path path' : CString}
    (length : path.length = path'.length) :
    (hashDrifts first second path path').length = path.length := by
  induction path generalizing first second path' with
  | nil => rfl
  | cons char path ih =>
    cases path' with
    | nil => cases length
    | cons char' path' =>
      rw [hashDrifts, List.length_cons, List.length_cons, ih (Nat.succ.inj length)]

/-- The difference of the states at the end, by Horner's rule. -/
theorem hashFrom_sub {first second : Nat} {path path' : CString}
    (length : path.length = path'.length) :
    (hashFrom first path : Int) - hashFrom second path' ≡
      (hashDrifts first second path path').foldl (fun sum drift => (sum + drift) * hashFactor)
        (first - second) [ZMOD 2 ^ 64] := by
  have congr : ∀ (drifts : List Int) {sum sum' : Int}, sum ≡ sum' [ZMOD 2 ^ 64] →
      drifts.foldl (fun sum drift => (sum + drift) * hashFactor) sum ≡
        drifts.foldl (fun sum drift => (sum + drift) * hashFactor) sum' [ZMOD 2 ^ 64] := by
    intro drifts
    induction drifts with
    | nil => exact id
    | cons drift drifts ih =>
      intro sum sum' same
      exact ih (Int.ModEq.mul_right _ (Int.ModEq.add_right _ same))
  induction path generalizing first second path' with
  | nil =>
    cases path' with
    | nil => rfl
    | cons char' path' => cases length
  | cons char path ih =>
    cases path' with
    | nil => cases length
    | cons char' path' =>
      refine (ih (Nat.succ.inj length)).trans (congr _ ?_)
      have step := (hashStep_modEq first char).sub (hashStep_modEq second char')
      have sum : (first + hashDrift first char) * (hashFactor : Int) -
          (second + hashDrift second char') * hashFactor =
            (first - second + (hashDrift first char - hashDrift second char')) * hashFactor := by ring
      rw [sum] at step
      exact step

/-- Bytes that add the same to one state are the same. -/
theorem eq_of_hashDrifts {hash : Nat} {path path' : CString} (length : path.length = path'.length)
    (zero : ∀ drift ∈ hashDrifts hash hash path path', drift = 0) : path = path' := by
  induction path generalizing hash path' with
  | nil =>
    cases path' with
    | nil => rfl
    | cons char' path' => cases length
  | cons char path ih =>
    cases path' with
    | nil => cases length
    | cons char' path' =>
      have first := zero _ List.mem_cons_self
      obtain rfl : char = char' := hashDrift_inj (sub_eq_zero.mp first)
      rw [ih (Nat.succ.inj length) fun drift inside => zero drift (List.mem_cons_of_mem _ inside)]

/-- What six differences are multiplied with. -/
def sixPowers (i : Fin 6) : Int := (hashFactor : Int) ^ (6 - (i : Nat))

/-- No six differences of this size cancel out. -/
def sixCertificate : ShortVectors.Certificate (2 ^ 64) sixPowers 510 where
  basis := ![
    ![-498, 715, 135, -653, -281, -459],
    ![48, 684, 939, 106, -995, 926],
    ![1232, 713, 191, -943, 551, 356],
    ![-181, 133, 970, 348, 1392, 387],
    ![-811, -943, -527, -1115, -95, 1225],
    ![132, -544, 638, -697, -338, -847]]
  dual := ![
    ![-10117495039556816, 644476066068496, 7704392091402160, -4253954618046064,
      -3431600937981904, 2518874921680656],
    ![10753435092956894, 1503490379027114, 2833942984976814, -84464088609638,
      -3509890893664258, -8107455562062582],
    ![-964417354571113, 6415703093100941, -1237812376006721, 6915764390345669,
      -1040540266766169, 8671412534092605],
    ![-6302646686563376, 1535281643037936, -5452110822838448, 559839306353520,
      -5164142811992368, -4410605614494224],
    ![1150927258463695, -6373219910648459, 2407835907481655, 7420022407511405,
      521531150890079, -2434785518635867],
    ![-4482579670404340, 5247281785750212, 1973864442898476, 1178876700584228,
      4977183758088268, -5046382459189116]]
  scale := ![4102797547569945776, 4562491563806612942, 7698100873003003727, 4580056007442358864,
    -3043126869017570233, 5853314620625283948]
  congruent := by decide +kernel
  inverse := by decide +kernel
  small := by decide +kernel

/-- Six bytes behind one state that lead to one state are the same. -/
theorem hashFrom_six {hash : Nat} {path path' : CString} (six : path.length = 6)
    (length : path'.length = 6) (same : hashFrom hash path = hashFrom hash path') :
    path = path' := by
  have lengths : path.length = path'.length := six.trans length.symm
  apply eq_of_hashDrifts lengths
  have count := @hashDrifts_length hash hash path path' lengths
  have small := @hashDrifts_small hash hash path path'
  have ends := @hashFrom_sub hash hash path path' lengths
  rw [same, sub_self, sub_self] at ends
  rw [six] at count
  generalize hashDrifts hash hash path path' = drifts at count small ends
  obtain ⟨a, b, c, d, e, f, rfl⟩ : ∃ a b c d e f, drifts = [a, b, c, d, e, f] := by
    match drifts, count with
    | [a, b, c, d, e, f], _ => exact ⟨a, b, c, d, e, f, rfl⟩
  have divides : (2 ^ 64 : Int) ∣ ∑ i, sixPowers i * ![a, b, c, d, e, f] i := by
    have horner : ∑ i, sixPowers i * ![a, b, c, d, e, f] i =
        [a, b, c, d, e, f].foldl (fun sum drift => (sum + drift) * (hashFactor : Int)) 0 := by
      simp only [Fin.sum_univ_six, sixPowers, List.foldl_cons, List.foldl_nil]
      simp
      ring
    rw [horner]
    exact (Int.modEq_zero_iff_dvd).mp ends.symm
  have short : ∀ i, |![a, b, c, d, e, f] i| ≤ 510 := by
    intro i
    fin_cases i
    all_goals exact small _ (by simp)
  have zero := sixCertificate.eq_zero (by decide) short divides
  intro drift inside
  obtain ⟨i, rfl⟩ : ∃ i, ![a, b, c, d, e, f] i = drift := by
    simp only [List.mem_cons, List.not_mem_nil, or_false] at inside
    rcases inside with rfl | rfl | rfl | rfl | rfl | rfl
    exacts [⟨0, rfl⟩, ⟨1, rfl⟩, ⟨2, rfl⟩, ⟨3, rfl⟩, ⟨4, rfl⟩, ⟨5, rfl⟩]
  exact zero i

/-- At most six bytes behind one state that lead to one state are the same. -/
theorem hashFrom_window {hash : Nat} {path path' : CString} (length : path.length = path'.length)
    (few : path.length ≤ 6) (same : hashFrom hash path = hashFrom hash path') : path = path' := by
  have padded : path ++ List.replicate (6 - path.length) 0 =
      path' ++ List.replicate (6 - path.length) 0 := by
    refine @hashFrom_six hash _ _ ?_ ?_ ?_
    · rw [List.length_append, List.length_replicate]
      omega
    · rw [List.length_append, List.length_replicate]
      omega
    · rw [hashFrom_append, hashFrom_append, same]
  exact List.append_cancel_right padded

/-- Names of one length that differ within six bytes in a row have different hashes. -/
theorem pathHash_window (front back : CString) {middle middle' : CString}
    (length : middle.length = middle'.length) (few : middle.length ≤ 6) (differ : middle ≠ middle') :
    pathHash (front ++ middle ++ back) ≠ pathHash (front ++ middle' ++ back) := by
  have start : (0xcbf29ce484222325 : Nat) < 2 ^ 64 := by decide
  have state := hashFrom_lt start front
  intro same
  rw [pathHash_eq, pathHash_eq, hashFrom_append, hashFrom_append, hashFrom_append, hashFrom_append,
    hashFrom_inj (hashFrom_lt state middle) (hashFrom_lt state middle')] at same
  exact differ (hashFrom_window length few same)

/-- The names `file01.txt` and `file02.txt`. -/
theorem pathHash_window_numbers :
    pathHash ([102, 105, 108, 101] ++ [48, 49] ++ [46, 116, 120, 116]) ≠
      pathHash ([102, 105, 108, 101] ++ [48, 50] ++ [46, 116, 120, 116]) :=
  pathHash_window [102, 105, 108, 101] [46, 116, 120, 116] (by decide) (by decide) (by decide)

end Nbtrfs
