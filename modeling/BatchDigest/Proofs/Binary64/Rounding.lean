import Mathlib

/-!
# Rounding to doubles

A double is a sign, a mantissa of up to 53 bits and an exponent from -1074 on. What an operation
computes is a mantissa with two residual bits, which together tell where the exact result stands
(`Locates`); the mantissa is shifted until it has 53 bits or its exponent is the smallest one, and
then rounded to the nearest mantissa. So a result that is not negative is off by half a unit of its
last place at most, and exact when the result is a multiple of that unit (`Rounds`). The relative
error is 2⁻⁵³ then, except where the unit is the smallest one.
-/

namespace BatchDigest.Binary64

open Float.Model
open Float.Model.UnpackedFloat (Sign Accuracy ExtendedMantissa shiftToExponent shiftToTargetExponent
  roundWithAccuracy)

/-! ## Mantissas with residual bits -/

/-- A mantissa with its residual bits tells where a number stands, in units of its last place. -/
def Locates : ExtendedMantissa → ℚ → Prop
  | ⟨m, false, false⟩, x => x = m
  | ⟨m, false, true⟩, x => m < x ∧ x < m + 1 / 2
  | ⟨m, true, false⟩, x => x = m + 1 / 2
  | ⟨m, true, true⟩, x => m + 1 / 2 < x ∧ x < m + 1

namespace Locates

variable {em : ExtendedMantissa} {x : ℚ}

/-- The mantissa is the number without its fraction. -/
theorem bounds (located : Locates em x) : (em.mantissa : ℚ) ≤ x ∧ x < em.mantissa + 1 := by
  obtain ⟨m, roundBit, stickyBit⟩ := em
  cases roundBit <;> cases stickyBit <;> simp only [Locates] at located <;>
    constructor <;> simp only [located] <;> linarith

/-- A bit that is dropped from the mantissa is kept in the residual bits. -/
theorem shiftRightOne (located : Locates em x) : Locates em.shiftRightOne (x / 2) := by
  obtain ⟨m, roundBit, stickyBit⟩ := em
  have parts : ((m / 2 : ℕ) : ℚ) * 2 + (m % 2 : ℕ) = m := by exact_mod_cast Nat.div_add_mod' m 2
  -- The dropped bit becomes the round bit, and the old residual bits the sticky bit.
  rcases Nat.mod_two_eq_zero_or_one m with even | odd
  · rw [even, Nat.cast_zero] at parts
    cases roundBit <;> cases stickyBit <;> simp [Locates] at located <;>
      simp [Locates, ExtendedMantissa.shiftRightOne, even] <;> (try constructor) <;> linarith
  · rw [odd, Nat.cast_one] at parts
    cases roundBit <;> cases stickyBit <;> simp [Locates] at located <;>
      simp [Locates, ExtendedMantissa.shiftRightOne, odd] <;> (try constructor) <;> linarith

theorem shiftRight (located : Locates em x) (n : ℕ) : Locates (em >>> n) (x / 2 ^ n) := by
  induction n with
  | zero =>
    rw [pow_zero, div_one]
    exact located
  | succ n ih =>
    rw [pow_succ, ← div_div]
    exact ih.shiftRightOne

/-- The rounded mantissa is a nearest one. -/
theorem near (located : Locates em x) : |(em.roundedMantissa : ℚ) - x| ≤ 1 / 2 := by
  obtain ⟨m, roundBit, stickyBit⟩ := em
  have parity : (m % 2 : ℕ) = (0 : ℚ) ∨ (m % 2 : ℕ) = (1 : ℚ) := by
    rcases Nat.mod_two_eq_zero_or_one m with even | odd
    · exact .inl (by rw [even]; rfl)
    · exact .inr (by rw [odd]; rfl)
  rw [abs_le]
  cases roundBit <;> cases stickyBit <;>
    simp only [Locates, ExtendedMantissa.roundedMantissa, ExtendedMantissa.accuracy,
      Accuracy.roundToNearestEven] at located ⊢ <;> push_cast at parity ⊢ <;>
    constructor <;> rcases parity with parity | parity <;> linarith

/-- A number without a fraction is its own mantissa. -/
theorem roundedMantissa_natCast {n : ℕ} (located : Locates em n) : em.roundedMantissa = n := by
  have near := abs_le.1 located.near
  have upper : (em.roundedMantissa : ℚ) < n + 1 := by linarith
  have lower : (n : ℚ) < em.roundedMantissa + 1 := by linarith
  have upper' : em.roundedMantissa < n + 1 := by exact_mod_cast upper
  have lower' : n < em.roundedMantissa + 1 := by exact_mod_cast lower
  omega

end Locates

/-! ## Doubles and their values -/

/-- Zero, or a finite number with a positive sign. -/
def NonNeg : UnpackedFloat → Prop
  | .zero _ => True
  | .finite .positive _ _ _ => True
  | _ => False

/-- A finite number is in the form of a double when its mantissa has 53 bits, or fewer at the
smallest exponent. How large the exponent is does not matter. -/
def Canonical : UnpackedFloat → Prop
  | .finite _ m e _ => m < 2 ^ 53 ∧ -1074 ≤ e ∧ (2 ^ 52 ≤ m ∨ e = -1074)
  | _ => True

/-- The number that is meant, zero for what is not finite. -/
def value : UnpackedFloat → ℚ
  | .finite s m e _ => s.apply m * 2 ^ e
  | _ => 0

@[simp] theorem value_zero (s : Sign) : value (.zero s) = 0 := rfl

@[simp] theorem value_positive (m : ℕ) (e : ℤ) (positive : 0 < m) :
    value (.finite .positive m e positive) = m * 2 ^ e := rfl

theorem two_zpow_pos (e : ℤ) : (0 : ℚ) < 2 ^ e := zpow_pos (by norm_num) e

theorem value_nonneg {u : UnpackedFloat} (nonneg : NonNeg u) : 0 ≤ value u := by
  match u, nonneg with
  | .zero _, _ => exact le_refl _
  | .finite .positive m e _, _ => exact mul_nonneg (Nat.cast_nonneg m) (two_zpow_pos e).le

/-- **A double is a rounded number.** The unit of its last place is a power of two: the smallest
one, or small against the number. The double is off by half the unit at most, and not at all when
the number is a multiple of the unit. -/
structure Rounds (x : ℚ) (u : UnpackedFloat) : Prop where
  nonneg : NonNeg u
  canonical : Canonical u
  precise : ∃ t : ℤ, -1074 ≤ t ∧ (t = -1074 ∨ 2 ^ (t + 52) ≤ x) ∧ |value u - x| ≤ 2 ^ (t - 1) ∧
    ∀ n : ℕ, x = n * 2 ^ t → value u = x

/-- The exponent that a mantissa is shifted to. -/
theorem targetExponent_eq (m : ℕ) (e : ℤ) :
    Format.binary64.targetExponent (totalExponent m e) = max (m.log2 + e - 52) (-1074) := by
  simp only [Format.targetExponent, totalExponent, Format.mantissaBits, Format.minExponent]
  norm_num
  omega

theorem shiftToTargetExponent_eq (m : ℕ) (e : ℤ) (acc : Accuracy) :
    shiftToTargetExponent .binary64 m e acc =
      (ExtendedMantissa.ofMantissaAndAccuracy m acc >>> (max (m.log2 + e - 52) (-1074) - e).toNat,
        e + (max (m.log2 + e - 52) (-1074) - e).toNat) := by
  unfold shiftToTargetExponent
  rw [targetExponent_eq]
  rfl

/-- A mantissa that fits is not shifted any more. -/
private theorem shift_fitting {m : ℕ} {e : ℤ} (fits : m < 2 ^ 53) (low : -1074 ≤ e) :
    shiftToTargetExponent .binary64 m e .exact = (⟨m, false, false⟩, e) := by
  have bits : m.log2 ≤ 52 := by
    by_cases zero : m = 0
    · subst zero
      decide
    · have := (Nat.log2_lt zero).2 fits
      omega
  have still : (max (m.log2 + e - 52) (-1074) - e).toNat = 0 := by omega
  rw [shiftToTargetExponent_eq, still, Nat.cast_zero, add_zero]
  rfl

/-- A mantissa that was rounded up to one bit more is shifted by one place. -/
private theorem shift_carry {e : ℤ} (low : -1074 ≤ e) :
    shiftToTargetExponent .binary64 (2 ^ 53) e .exact = (⟨2 ^ 52, false, false⟩, e + 1) := by
  have once : (max (((2 ^ 53 : ℕ).log2 : ℤ) + e - 52) (-1074) - e).toNat = 1 := by
    rw [Nat.log2_two_pow]
    omega
  rw [shiftToTargetExponent_eq, once]
  rfl

/-- What a rounded mantissa becomes: its value is kept, and it is in the form of a double. -/
private theorem finish {m : ℕ} {e t : ℤ} {acc : Accuracy} {em : ExtendedMantissa}
    (first : shiftToTargetExponent .binary64 m e acc = (em, t)) (low : -1074 ≤ t)
    (upper : em.roundedMantissa ≤ 2 ^ 53) (lower : 2 ^ 52 ≤ em.roundedMantissa ∨ t = -1074) :
    let u := roundWithAccuracy .binary64 .positive m e acc
    NonNeg u ∧ Canonical u ∧ value u = em.roundedMantissa * 2 ^ t := by
  dsimp only
  unfold roundWithAccuracy
  rw [first]
  dsimp only
  generalize em.roundedMantissa = r at upper lower
  rcases upper.lt_or_eq with fits | rfl
  · rw [shift_fitting fits low]
    dsimp only
    split_ifs with zero
    · exact ⟨trivial, trivial, by rw [zero, Nat.cast_zero, zero_mul]; rfl⟩
    · exact ⟨trivial, ⟨fits, low, lower⟩, rfl⟩
  · rw [shift_carry low]
    dsimp only
    rw [dif_neg (by decide)]
    refine ⟨trivial, ⟨by decide, by omega, .inl (Nat.le_refl _)⟩, ?_⟩
    rw [value_positive, zpow_add_one₀ (by norm_num)]
    push_cast
    ring

/-- **Rounding rounds.** A number that a mantissa and its accuracy locate is rounded to a double
when the mantissa has at least as many bits as a double. -/
theorem rounds_roundWithAccuracy {m : ℕ} {e : ℤ} {acc : Accuracy} {x : ℚ}
    (located : Locates (.ofMantissaAndAccuracy m acc) x)
    (low : e ≤ max (m.log2 + e - 52) (-1074)) :
    Rounds (x * 2 ^ e) (roundWithAccuracy .binary64 .positive m e acc) := by
  obtain ⟨t, unit⟩ : ∃ t : ℤ, max (m.log2 + e - 52) (-1074) = t := ⟨_, rfl⟩
  obtain ⟨k, shift⟩ := Int.eq_ofNat_of_zero_le (by omega : 0 ≤ t - e)
  have first := shiftToTargetExponent_eq m e acc
  rw [unit, shift, Int.toNat_natCast, ← shift, add_sub_cancel] at first
  have shifted := located.shiftRight k
  obtain ⟨y, place⟩ : ∃ y, x / 2 ^ k = y := ⟨_, rfl⟩
  have number : x * 2 ^ e = y * 2 ^ t := by
    rw [← place, show t = e + k by omega, zpow_add₀ (by norm_num), zpow_natCast]
    field_simp
  rw [place] at shifted
  have mantissa : (ExtendedMantissa.ofMantissaAndAccuracy m acc).mantissa = m := by
    cases acc with
    | exact => rfl
    | inexact order => cases order <;> rfl
  obtain ⟨below, above⟩ := located.bounds
  rw [mantissa] at below above
  -- The number has 53 bits before its unit, or the unit is the smallest one.
  have upper : y < 2 ^ 53 := by
    have bits : 2 ^ (m.log2 + 1) ≤ 2 ^ (53 + k) := Nat.pow_le_pow_right (by decide) (by omega)
    have bound : (m : ℚ) + 1 ≤ 2 ^ (53 + k) := by
      exact_mod_cast Nat.le_trans Nat.lt_log2_self bits
    rw [← place, div_lt_iff₀ (by positivity), ← pow_add]
    linarith
  have lower : 2 ^ 52 ≤ y ∨ t = -1074 := by
    by_cases smallest : t = -1074
    · exact .inr smallest
    · have bits : m.log2 = 52 + k := by omega
      have positive : m ≠ 0 := by
        rintro rfl
        rw [Nat.log2_zero] at bits
        omega
      have bound : (2 : ℚ) ^ (52 + k) ≤ m := by
        rw [← bits]
        exact_mod_cast Nat.log2_self_le positive
      rw [← place, le_div_iff₀ (by positivity), ← pow_add]
      exact .inl (bound.trans below)
  generalize ExtendedMantissa.ofMantissaAndAccuracy m acc >>> k = em at first shifted
  have near := abs_le.1 shifted.near
  obtain ⟨nonneg, canonical, kept⟩ := finish first (by omega)
    (by
      have bound : (em.roundedMantissa : ℚ) < 2 ^ 53 + 1 := by linarith
      have : em.roundedMantissa < 2 ^ 53 + 1 := by exact_mod_cast bound
      omega)
    (by
      refine lower.imp_left fun bits => ?_
      have bound : (2 ^ 52 : ℚ) < em.roundedMantissa + 1 := by linarith
      have : 2 ^ 52 < em.roundedMantissa + 1 := by exact_mod_cast bound
      omega)
  rw [number]
  refine ⟨nonneg, canonical, t, by omega, ?_, ?_, ?_⟩
  · refine lower.symm.imp_right fun bits => ?_
    rw [zpow_add₀ (by norm_num), mul_comm]
    exact mul_le_mul_of_nonneg_right (by exact_mod_cast bits) (two_zpow_pos t).le
  · rw [kept, ← sub_mul, abs_mul, abs_of_pos (two_zpow_pos t), zpow_sub_one₀ (by norm_num),
      mul_comm ((2 : ℚ) ^ t)]
    exact mul_le_mul_of_nonneg_right (by rw [← one_div]; exact shifted.near) (two_zpow_pos t).le
  · intro n whole
    have same : y = n := mul_right_cancel₀ (two_zpow_pos t).ne' whole
    rw [same] at shifted
    rw [kept, shifted.roundedMantissa_natCast, same]

/-! ## Rounding errors -/

namespace Rounds

variable {x : ℚ} {u : UnpackedFloat}

/-- A unit of the last place that is not the smallest one is small against the number. -/
private theorem half_unit_le {t : ℤ} (bits : 2 ^ (t + 52) ≤ x) :
    (2 : ℚ) ^ (t - 1) ≤ x / 2 ^ 53 := by
  rw [le_div_iff₀ (by positivity), ← zpow_natCast, ← zpow_add₀ (by norm_num)]
  exact (congrArg _ (by norm_num; ring)).trans_le bits

/-- Half a unit of the smallest place comes on top of the relative error. -/
theorem error (rounds : Rounds x u) (nonneg : 0 ≤ x) :
    |value u - x| ≤ x / 2 ^ 53 + 2 ^ (-1075 : ℤ) := by
  obtain ⟨t, -, smallest | bits, near, -⟩ := rounds.precise
  · rw [smallest] at near
    exact near.trans (le_add_of_nonneg_left (by positivity))
  · exact (near.trans (half_unit_le bits)).trans (le_add_of_nonneg_right (two_zpow_pos _).le)

/-- A multiple of the smallest unit is rounded with the relative error alone. -/
theorem error_of_whole (rounds : Rounds x u) {n : ℕ} (whole : x = n * 2 ^ (-1074 : ℤ)) :
    |value u - x| ≤ x / 2 ^ 53 := by
  obtain ⟨t, -, smallest | bits, near, exact'⟩ := rounds.precise
  · rw [smallest] at exact'
    rw [exact' n whole, sub_self, abs_zero, whole]
    have := two_zpow_pos (-1074)
    positivity
  · exact near.trans (half_unit_le bits)

/-- A number with 53 bits at most is not changed. -/
theorem exact (rounds : Rounds x u) {m : ℕ} {e : ℤ} (fits : m < 2 ^ 53) (low : -1074 ≤ e)
    (number : x = m * 2 ^ e) : value u = x := by
  obtain ⟨t, -, bits, -, exact'⟩ := rounds.precise
  have unit : t ≤ e := by
    rcases bits with smallest | bits
    · omega
    · have bound : (2 : ℚ) ^ (t + 52) < 2 ^ (e + 53) := by
        refine bits.trans_lt ?_
        rw [number, zpow_add₀ (by norm_num), mul_comm]
        exact mul_lt_mul_of_pos_left (by exact_mod_cast fits) (two_zpow_pos e)
      have := (zpow_lt_zpow_iff_right₀ (by norm_num : (1 : ℚ) < 2)).1 bound
      omega
  obtain ⟨k, shift⟩ := Int.eq_ofNat_of_zero_le (by omega : 0 ≤ e - t)
  refine exact' (m * 2 ^ k) ?_
  rw [number, show e = k + t by omega, zpow_add₀ (by norm_num), zpow_natCast]
  push_cast
  ring

/-- A double rounds its own value. -/
theorem self (nonneg : NonNeg u) (canonical : Canonical u) : Rounds (value u) u := by
  refine ⟨nonneg, canonical, ?_⟩
  match u, nonneg, canonical with
  | .zero _, _, _ => exact ⟨-1074, le_refl _, .inl rfl, by simp, fun _ _ => rfl⟩
  | .finite .positive m e _, _, ⟨_, low, bits⟩ =>
    refine ⟨e, low, ?_, by rw [sub_self, abs_zero]; exact (two_zpow_pos _).le, fun _ _ => rfl⟩
    refine bits.symm.imp_right fun bits => ?_
    rw [value_positive, zpow_add₀ (by norm_num), mul_comm]
    exact mul_le_mul_of_nonneg_right (by exact_mod_cast bits) (two_zpow_pos e).le

end Rounds

end BatchDigest.Binary64
