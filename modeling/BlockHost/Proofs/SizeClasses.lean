import BlockHost.Heap.SizeClass
import Mathlib.Order.Fin.Basic

/-!
# Size classes bracket sizes

A class is known by its least size, and the least sizes go up: `2 ^ 5`, then five, six and seven
eighths of `2 ^ 6`, then `2 ^ 6`, and so on. So a class number is a mantissa of four to seven
and an exponent, and `Nat.log2` and one division recover both from any size.

From then on a size and a class are compared only by where the class begins. The classes that begin
at or below a size are those up to the one under which it is filed (`lower_le_iff`), and those that
begin at or above it are those from which a request for it looks (`le_lower_iff`). So a block that is
filed under the class that a request looks from, or under a later one, is large enough for the
request (`le_of_ceil_le_floor`).
-/

namespace BlockHost.SizeClass

/-- The least size of a class, by its number. -/
def leastSize (n : Nat) : Nat :=
  (4 + n % 4) * 2 ^ (n / 4 + 3)

theorem lower_eq (c : SizeClass) : c.lower = leastSize c.val := by
  have hpow : 2 ^ (c.val / 4 + firstPower) = 4 * 2 ^ (c.val / 4 + 3) := by
    rw [show c.val / 4 + firstPower = c.val / 4 + 3 + 1 + 1 from rfl, Nat.pow_succ, Nat.pow_succ]
    omega
  rw [lower, leastSize, Nat.add_mul, hpow]
  rfl

theorem leastSize_lt_succ (n : Nat) : leastSize n < leastSize (n + 1) := by
  have hpos : 0 < 2 ^ (n / 4 + 3) := Nat.pow_pos (by omega)
  unfold leastSize
  rcases Nat.lt_or_ge (n % 4) 3 with hlt | hge
  · rw [show (n + 1) / 4 = n / 4 by omega, show (n + 1) % 4 = n % 4 + 1 by omega]
    exact Nat.mul_lt_mul_of_pos_right (by omega) hpos
  · have hdouble : 2 ^ (n / 4 + 3 + 1) = 2 ^ (n / 4 + 3) * 2 := Nat.pow_succ _ _
    rw [show (n + 1) / 4 + 3 = n / 4 + 3 + 1 by omega, show (n + 1) % 4 = 0 by omega,
      show n % 4 = 3 by omega, hdouble]
    omega

theorem leastSize_mono {m n : Nat} (h : m ≤ n) : leastSize m ≤ leastSize n := by
  induction h with
  | refl => exact Nat.le_refl _
  | step _ ih => exact Nat.le_trans ih (Nat.le_of_lt (leastSize_lt_succ _))

/-- The class of a size begins at or below the size and ends above it. The range of block sizes is
what keeps the class number clear of the last class. -/
theorem floor_bracket {size : Nat} (hlow : leastBlock ≤ size) (hhigh : size < 2 ^ 32) :
    (floor size).val < classCount - 1 ∧ leastSize (floor size).val ≤ size ∧
      size < leastSize ((floor size).val + 1) := by
  have hne : size ≠ 0 := by
    unfold leastBlock at hlow
    omega
  have hlog5 : 5 ≤ Nat.log2 size := (Nat.le_log2 hne).2 hlow
  have hlog32 : Nat.log2 size < 32 := (Nat.log2_lt hne).2 hhigh
  obtain ⟨k, hk⟩ : ∃ k, Nat.log2 size = k + 2 := ⟨Nat.log2 size - 2, by omega⟩
  have hself := Nat.log2_self_le hne
  have hnext := Nat.lt_log2_self (n := size)
  rw [hk, Nat.pow_add] at hself
  rw [hk, show k + 2 + 1 = k + 3 from rfl, Nat.pow_add] at hnext
  have hpos : 0 < 2 ^ k := Nat.pow_pos (by omega)
  -- The mantissa is what is left of the size after the division, between four and seven.
  have hfour : 4 ≤ size / 2 ^ k := (Nat.le_div_iff_mul_le hpos).2 (by omega)
  have height : size / 2 ^ k < 8 := (Nat.div_lt_iff_lt_mul hpos).2 (by omega)
  have hval : (floor size).val = (k + 2 - 5) * 4 + (size / 2 ^ k - 4) := by
    simp only [floor, hk, firstPower, classCount, Nat.add_sub_cancel]
    omega
  have hleast : leastSize (floor size).val = size / 2 ^ k * 2 ^ k := by
    rw [hval, leastSize, show ((k + 2 - 5) * 4 + (size / 2 ^ k - 4)) / 4 + 3 = k by omega,
      show 4 + ((k + 2 - 5) * 4 + (size / 2 ^ k - 4)) % 4 = size / 2 ^ k by omega]
  have hsucc : leastSize ((floor size).val + 1) = (size / 2 ^ k + 1) * 2 ^ k := by
    rw [hval, leastSize]
    rcases Nat.lt_or_ge (size / 2 ^ k) 7 with hlt | hge
    · rw [show ((k + 2 - 5) * 4 + (size / 2 ^ k - 4) + 1) / 4 + 3 = k by omega,
        show 4 + ((k + 2 - 5) * 4 + (size / 2 ^ k - 4) + 1) % 4 = size / 2 ^ k + 1 by omega]
    · rw [show ((k + 2 - 5) * 4 + (size / 2 ^ k - 4) + 1) / 4 + 3 = k + 1 by omega,
        show 4 + ((k + 2 - 5) * 4 + (size / 2 ^ k - 4) + 1) % 4 = 4 by omega,
        show size / 2 ^ k = 7 by omega, Nat.pow_succ]
      omega
  refine ⟨?_, ?_, ?_⟩
  · rw [hval]
    unfold classCount
    omega
  · rw [hleast]
    exact Nat.div_mul_le_self _ _
  · rw [hsucc]
    exact (Nat.div_lt_iff_lt_mul hpos).1 (Nat.lt_succ_self _)

theorem lower_strictMono : StrictMono lower := by
  intro c d hlt
  rw [lower_eq, lower_eq]
  exact Nat.lt_of_lt_of_le (leastSize_lt_succ c.val) (leastSize_mono hlt)

/-- A class begins at most a quarter above the one before. -/
theorem four_leastSize_succ_le (n : Nat) : 4 * leastSize (n + 1) ≤ 5 * leastSize n := by
  unfold leastSize
  rcases Nat.lt_or_ge (n % 4) 3 with hlt | hge
  · rw [show (n + 1) / 4 = n / 4 by omega, show (n + 1) % 4 = n % 4 + 1 by omega,
      ← Nat.mul_assoc, ← Nat.mul_assoc]
    exact Nat.mul_le_mul_right _ (by omega)
  · rw [show (n + 1) / 4 + 3 = n / 4 + 3 + 1 by omega, show (n + 1) % 4 = 0 by omega,
      show n % 4 = 3 by omega, Nat.pow_succ]
    omega

/-! ## Sizes of blocks -/

/-- The sizes that a block can have. -/
def sizes : Set Nat :=
  {size | leastBlock ≤ size ∧ size < 2 ^ 32}

/-- The number of the class under which a block is filed, before it is cut to that of the last class. -/
def number (size : Nat) : Nat :=
  (Nat.log2 size - firstPower) * 4 + size / 2 ^ (Nat.log2 size - 2) % 4

section Sizes

variable {size larger : Nat} {c d least : SizeClass}

/-- The class of a block is not the last one, so that its number has not been cut and there is a class
behind it. -/
theorem number_lt (hsize : size ∈ sizes) :
    (floor size).val = number size ∧ number size + 1 < classCount := by
  obtain ⟨hclass, -, -⟩ := floor_bracket hsize.1 hsize.2
  have hcut : (floor size).val = min (number size) (classCount - 1) := rfl
  omega

/-- The classes that begin at or below a size are those up to the one under which it is filed. -/
theorem lower_le_iff (hsize : size ∈ sizes) : c.lower ≤ size ↔ c ≤ floor size := by
  obtain ⟨-, hbegins, hends⟩ := floor_bracket hsize.1 hsize.2
  rw [lower_eq]
  constructor
  · intro hle
    refine Nat.le_of_not_lt fun hlt => ?_
    have hbeyond := leastSize_mono (Nat.succ_le_of_lt hlt)
    rw [Nat.succ_eq_add_one] at hbeyond
    omega
  · intro hle
    exact Nat.le_trans (leastSize_mono hle) hbegins

theorem lower_floor_le (hsize : size ∈ sizes) : (floor size).lower ≤ size :=
  (lower_le_iff hsize).2 le_rfl

theorem floor_mono (hsize : size ∈ sizes) (hlarger : larger ∈ sizes) (hle : size ≤ larger) :
    floor size ≤ floor larger :=
  (lower_le_iff hlarger).1 (Nat.le_trans (lower_floor_le hsize) hle)

/-- A request looks from the class of its size when the class begins with it, and else from the next. -/
theorem ceil_cases (hsize : size ∈ sizes) : ∃ least, ceil size = some least ∧
    (least = floor size ∧ least.lower = size ∨
      least.val = (floor size).val + 1 ∧ (floor size).lower < size) := by
  obtain ⟨hnumber, hlt⟩ := number_lt hsize
  rw [← hnumber] at hlt
  rw [ceil]
  by_cases hle : size ≤ (floor size).lower
  · exact ⟨floor size, if_pos hle, .inl ⟨rfl, Nat.le_antisymm (lower_floor_le hsize) hle⟩⟩
  · exact ⟨_, (if_neg hle).trans (dif_pos hlt), .inr ⟨rfl, Nat.lt_of_not_le hle⟩⟩

/-- The classes that begin at or above a size are those from which a request for it looks. -/
theorem le_lower_iff (hsize : size ∈ sizes) (hceil : ceil size = some least) :
    size ≤ c.lower ↔ least ≤ c := by
  obtain ⟨found, hfound, hcases⟩ := ceil_cases hsize
  obtain rfl := Option.some.inj (hfound.symm.trans hceil)
  rcases hcases with ⟨-, hlower⟩ | ⟨hnext, hbelow⟩
  · rw [← hlower]
    exact lower_strictMono.le_iff_le
  · -- The size lies between where its class begins and where the next one does.
    obtain ⟨-, -, hends⟩ := floor_bracket hsize.1 hsize.2
    rw [← hnext, ← lower_eq] at hends
    constructor
    · intro hle
      have hafter : floor size < c := lower_strictMono.lt_iff_lt.1 (Nat.lt_of_lt_of_le hbelow hle)
      exact Nat.le_trans (Nat.le_of_eq hnext) hafter
    · intro hle
      exact Nat.le_trans (Nat.le_of_lt hends) (lower_strictMono.monotone hle)

/-- The class from which a request looks begins at most a quarter above it. -/
theorem four_lower_le_of_ceil (hsize : size ∈ sizes) (hceil : ceil size = some least) :
    4 * least.lower ≤ 5 * size := by
  have hbegins := lower_floor_le hsize
  obtain ⟨found, hfound, hcases⟩ := ceil_cases hsize
  obtain rfl := Option.some.inj (hfound.symm.trans hceil)
  rcases hcases with ⟨-, hlower⟩ | ⟨hnext, -⟩
  · omega
  · have hstep := four_leastSize_succ_le (floor size).val
    rw [← hnext, ← lower_eq, ← lower_eq] at hstep
    omega

end Sizes

/-- A block filed under the class that a request looks from, or under a later one, suffices. -/
theorem le_of_ceil_le_floor {need size : Nat} (hneed : leastBlock ≤ need) (hneed' : need < 2 ^ 32)
    (hsize : leastBlock ≤ size) (hsize' : size < 2 ^ 32) {c : SizeClass}
    (hc : ceil need = some c) (hle : c ≤ floor size) : need ≤ size :=
  calc need ≤ c.lower := (le_lower_iff ⟨hneed, hneed'⟩ hc).2 le_rfl
    _ ≤ size := (lower_le_iff ⟨hsize, hsize'⟩).2 hle

end BlockHost.SizeClass
