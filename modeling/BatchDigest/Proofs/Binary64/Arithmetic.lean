import BatchDigest.Proofs.Binary64.Packing

/-!
# Arithmetic of doubles that are not negative

Sums, products and quotients of doubles that are not negative are the exact results, rounded
(`rounds_add`, `rounds_mul`, `rounds_div`). A sum, and a product with a natural number, are
multiples of the smallest unit, so they keep the relative error even where the result has few bits.
A conversion to a natural number drops the fraction and stops at the largest word.
-/

namespace BatchDigest.Binary64

open Float.Model
open Float.Model.UnpackedFloat

/-! ## Operations on mantissas and exponents -/

/-- Whatever has no residual bits is located where it is. -/
theorem locates_exact (m : ℕ) : Locates (.ofMantissaAndAccuracy m .exact) m := rfl

theorem log2_shiftLeft {m : ℕ} (positive : 0 < m) (k : ℕ) : (m <<< k).log2 = m.log2 + k := by
  have shifted := Nat.mul_pos positive (Nat.two_pow_pos k)
  rw [Nat.shiftLeft_eq]
  refine (Nat.log2_eq_iff (Nat.ne_of_gt shifted)).2 ⟨?_, ?_⟩
  · rw [Nat.pow_add]
    exact Nat.mul_le_mul_right _ (Nat.log2_self_le (Nat.ne_of_gt positive))
  · rw [Nat.add_right_comm, Nat.pow_add]
    exact Nat.mul_lt_mul_of_pos_right Nat.lt_log2_self (Nat.two_pow_pos k)

theorem shiftLeft_mul_zpow (m k : ℕ) (e : ℤ) :
    ((m <<< k : ℕ) : ℚ) * 2 ^ (e - k) = m * 2 ^ e := by
  rw [Nat.shiftLeft_eq, Nat.cast_mul, Nat.cast_pow, Nat.cast_ofNat, mul_assoc, ← zpow_natCast,
    ← zpow_add₀ (by norm_num), add_sub_cancel]

/-- A mantissa of any length is rounded. -/
theorem rounds_round {m : ℕ} (positive : 0 < m) (e : ℤ) :
    Rounds (m * 2 ^ e) (UnpackedFloat.round .binary64 .positive m e) := by
  obtain ⟨k, shift⟩ : ∃ k, (e - max (m.log2 + e - 52) (-1074)).toNat = k := ⟨_, rfl⟩
  have located := rounds_roundWithAccuracy (e := e - k) (locates_exact (m <<< k)) (by
    rw [log2_shiftLeft positive]
    omega)
  rw [shiftLeft_mul_zpow] at located
  unfold UnpackedFloat.round decreaseExponent
  rw [targetExponent_eq]
  dsimp only
  rw [shift]
  exact located

theorem rounds_zero (s : Sign) : Rounds 0 (.zero s) :=
  .self (u := .zero s) trivial trivial

/-- A natural number is normalized to a double. -/
theorem rounds_normalize {n : ℕ} (positive : 0 < n) (e : ℤ) :
    Rounds (n * 2 ^ e) (UnpackedFloat.normalize .binary64 n e .positive) := by
  have order : compare (n : ℤ) 0 = .gt := Int.compare_eq_gt.2 (by omega)
  unfold UnpackedFloat.normalize
  rw [order]
  exact rounds_round positive e

/-- A natural number is converted to the nearest double. -/
theorem rounds_ofNat (n : ℕ) : Rounds n (UnpackedFloat.ofNat .binary64 n) := by
  rcases Nat.eq_zero_or_pos n with rfl | positive
  · rw [Nat.cast_zero]
    exact rounds_zero .positive
  · have rounds := rounds_normalize positive 0
    rwa [zpow_zero, mul_one] at rounds

variable {a b : UnpackedFloat}

/-- **A sum is the exact sum, rounded.** -/
theorem rounds_add (ha : NonNeg a) (hb : NonNeg b) (ca : Canonical a) (cb : Canonical b) :
    Rounds (value a + value b) (UnpackedFloat.add .binary64 a b) := by
  match a, ha, b, hb with
  | .zero s, _, .zero s', _ =>
    rw [value_zero, value_zero, add_zero]
    cases s <;> cases s' <;> exact rounds_zero _
  | .zero _, _, .finite .positive m e _, _ =>
    rw [value_zero, zero_add]
    exact .self trivial cb
  | .finite .positive m e _, _, .zero _, _ =>
    rw [value_zero, add_zero]
    exact .self trivial ca
  | .finite .positive m e hm, _, .finite .positive n d hn, _ =>
    obtain ⟨k, left⟩ := Int.eq_ofNat_of_zero_le (by omega : 0 ≤ e - min e d)
    obtain ⟨l, right⟩ := Int.eq_ofNat_of_zero_le (by omega : 0 ≤ d - min e d)
    have positive : 0 < (m <<< k) + (n <<< l) := by
      rw [Nat.shiftLeft_eq]
      exact Nat.add_pos_left (Nat.mul_pos hm (Nat.two_pow_pos k)) _
    have rounds := rounds_normalize positive (min e d)
    have number : ((m <<< k + n <<< l : ℕ) : ℚ) * 2 ^ min e d = m * 2 ^ e + n * 2 ^ d := by
      rw [← shiftLeft_mul_zpow m k, ← shiftLeft_mul_zpow n l, ← left, ← right, sub_sub_cancel,
        sub_sub_cancel, Nat.cast_add, add_mul]
    rw [number] at rounds
    unfold UnpackedFloat.add decreaseExponent
    dsimp only
    rw [left, right]
    exact rounds

/-- The exact product of two doubles has at least as many bits as a double. -/
private theorem product_low {m n : ℕ} {e d : ℤ} {hm : 0 < m} {hn : 0 < n}
    (ca : Canonical (.finite .positive m e hm)) (cb : Canonical (.finite .positive n d hn)) :
    e + d ≤ max ((m * n).log2 + (e + d) - 52) (-1074) := by
  obtain ⟨_, low, bits⟩ := ca
  obtain ⟨_, low', bits'⟩ := cb
  -- The factors of a product with fewer bits have fewer bits too, and so the smallest exponent.
  by_cases full : 2 ^ 52 ≤ m * n
  · have := (Nat.le_log2 (Nat.ne_of_gt (Nat.mul_pos hm hn))).2 full
    omega
  · have left := Nat.le_mul_of_pos_right m hn
    have right := Nat.le_mul_of_pos_left n hm
    omega

/-- **A product is the exact product, rounded.** -/
theorem rounds_mul (ha : NonNeg a) (hb : NonNeg b) (ca : Canonical a) (cb : Canonical b) :
    Rounds (value a * value b) (UnpackedFloat.mul .binary64 a b) := by
  match a, ha, b, hb with
  | .zero s, _, .zero s', _ =>
    rw [value_zero, zero_mul]
    exact rounds_zero _
  | .zero s, _, .finite .positive m e _, _ =>
    rw [value_zero, zero_mul]
    exact rounds_zero _
  | .finite .positive m e _, _, .zero s, _ =>
    rw [value_zero, mul_zero]
    exact rounds_zero _
  | .finite .positive m e hm, _, .finite .positive n d hn, _ =>
    have rounds := rounds_roundWithAccuracy (locates_exact (m * n)) (product_low ca cb)
    rw [Nat.cast_mul, zpow_add₀ (by norm_num), mul_mul_mul_comm] at rounds
    exact rounds

/-! ## Quotients -/

/-- A quotient and what its remainder tells locate the fraction. -/
theorem locates_fraction (m : ℕ) {n : ℕ} (positive : 0 < n) :
    Locates (.ofMantissaAndAccuracy (m / n) (accuracyOfFraction (m % n) n)) (m / n) := by
  have parts : (m : ℚ) = (m / n : ℕ) * n + (m % n : ℕ) := by
    exact_mod_cast (Nat.div_add_mod' m n).symm
  have denominator : (0 : ℚ) < n := by exact_mod_cast positive
  have remainder : ((m % n : ℕ) : ℚ) < n := by exact_mod_cast Nat.mod_lt m positive
  generalize m / n = q at parts ⊢
  generalize m % n = r at parts remainder ⊢
  have fraction : (m : ℚ) / n = q + r / n := by
    rw [parts, add_div, mul_div_cancel_right₀ _ denominator.ne']
  rw [fraction]
  unfold accuracyOfFraction
  split_ifs with zero
  · simp [Locates, ExtendedMantissa.ofMantissaAndAccuracy, zero]
  · have some : (0 : ℚ) < r / n := div_pos (by exact_mod_cast Nat.pos_of_ne_zero zero) denominator
    have less : (r : ℚ) / n < 1 := (div_lt_one denominator).2 remainder
    -- The residual bits come from a comparison of the remainder with half the divisor.
    cases order : compare (2 * r) n with
    | lt =>
      have half : (2 * r : ℚ) < n := by exact_mod_cast Nat.compare_eq_lt.1 order
      have : (r : ℚ) / n < 1 / 2 := by
        rw [div_lt_iff₀ denominator]
        linarith
      exact ⟨by linarith, by linarith⟩
    | eq =>
      have half : (2 * r : ℚ) = n := by exact_mod_cast Nat.compare_eq_eq.1 order
      have : (r : ℚ) / n = 1 / 2 := by
        rw [div_eq_iff denominator.ne']
        linarith
      show (q : ℚ) + r / n = q + 1 / 2
      rw [this]
    | gt =>
      have half : (n : ℚ) < 2 * r := by exact_mod_cast Nat.compare_eq_gt.1 order
      have : 1 / 2 < (r : ℚ) / n := by
        rw [lt_div_iff₀ denominator]
        linarith
      exact ⟨by linarith, by linarith⟩

/-- The mantissa that is divided is shifted so far that the quotient has at least as many bits as a
double. -/
private theorem quotient_low {m n s : ℕ} {e d : ℤ} (hm : 0 < m) (hn : 0 < n)
    (enough : e - d - s ≤ max (m.log2 + e - n.log2 - d - 53) (-1074)) :
    e - d - s ≤ max (((m <<< s) / n).log2 + (e - d - s) - 52) (-1074) := by
  rcases le_max_iff.1 enough with bits | smallest
  · have shifted : n.log2 + 53 ≤ (m <<< s).log2 := by
      rw [log2_shiftLeft hm]
      omega
    have positive : m <<< s ≠ 0 := by
      rw [Nat.shiftLeft_eq]
      exact Nat.ne_of_gt (Nat.mul_pos hm (Nat.two_pow_pos s))
    have quotient : 2 ^ 52 ≤ (m <<< s) / n := by
      refine (Nat.le_div_iff_mul_le hn).2 ?_
      calc 2 ^ 52 * n ≤ 2 ^ 52 * 2 ^ (n.log2 + 1) :=
            Nat.mul_le_mul_left _ (Nat.le_of_lt Nat.lt_log2_self)
        _ = 2 ^ (n.log2 + 53) := by rw [← Nat.pow_add]; congr 1; omega
        _ ≤ m <<< s := (Nat.le_log2 positive).1 shifted
    have := (Nat.le_log2 (by omega : (m <<< s) / n ≠ 0)).2 quotient
    omega
  · omega

/-- **A quotient is the exact quotient, rounded.** -/
theorem rounds_div (ha : NonNeg a) (hb : NonNeg b) (positive : 0 < value b) :
    Rounds (value a / value b) (UnpackedFloat.div .binary64 a b) := by
  match a, ha, b, hb with
  | _, _, .zero _, _ => exact absurd positive (lt_irrefl _)
  | .zero s, _, .finite .positive m e _, _ =>
    rw [value_zero, zero_div]
    exact rounds_zero _
  | .finite .positive m e hm, _, .finite .positive n d hn, _ =>
    have target : Format.binary64.targetExponent (totalExponent m e - totalExponent n d) =
        max (m.log2 + e - n.log2 - d - 53) (-1074) := by
      simp only [Format.targetExponent, totalExponent, Format.mantissaBits, Format.minExponent]
      norm_num
      omega
    obtain ⟨s, shift⟩ := Int.eq_ofNat_of_zero_le
      (by omega : 0 ≤ e - d - min (e - d) (max (m.log2 + e - n.log2 - d - 53) (-1074)))
    have place : min (e - d) (max (m.log2 + e - n.log2 - d - 53) (-1074)) = e - d - s := by omega
    have core : divCore .binary64 m e n d =
        ((m <<< s) / n, e - d - s, accuracyOfFraction ((m <<< s) % n) n) := by
      unfold divCore
      rw [target]
      dsimp only
      rw [shift, place, Int.toNat_natCast]
    have rounds := rounds_roundWithAccuracy (locates_fraction (m <<< s) hn)
      (quotient_low hm hn (e := e) (d := d) (s := s) (by omega))
    have number : ((m <<< s : ℕ) : ℚ) / n * 2 ^ (e - d - s) = m * 2 ^ e / (n * 2 ^ d) := by
      rw [div_mul_eq_mul_div, shiftLeft_mul_zpow, zpow_sub₀ (by norm_num)]
      field_simp
    rw [number] at rounds
    have quotient : UnpackedFloat.div .binary64 (.finite .positive m e hm)
        (.finite .positive n d hn) = roundWithAccuracy .binary64 .positive
          (divCore .binary64 m e n d).1 (divCore .binary64 m e n d).2.1
          (divCore .binary64 m e n d).2.2 := rfl
    rw [quotient, core]
    exact rounds

/-! ## Natural numbers -/

/-- A conversion to an integer drops the fraction. -/
theorem toInt_eq_floor {u : UnpackedFloat} (nonneg : NonNeg u) (least most : ℤ) :
    u.toInt least most = ⌊value u⌋₊ := by
  match u, nonneg with
  | .zero s, _ => simp [toInt]
  | .finite .positive m e hm, _ =>
    obtain ⟨k, up⟩ : ∃ k, (e - 0).toNat = k := ⟨_, rfl⟩
    obtain ⟨l, down⟩ : ∃ l, (0 - (e - k)).toNat = l := ⟨_, rfl⟩
    have located := (locates_exact (m <<< k)).shiftRight l
    have number : ((m <<< k : ℕ) : ℚ) / 2 ^ l = m * 2 ^ e := by
      rw [← shiftLeft_mul_zpow m k e, show e - (k : ℤ) = -(l : ℤ) by omega, zpow_neg, zpow_natCast]
      rfl
    rw [number] at located
    have mantissa : ⌊(m : ℚ) * 2 ^ e⌋₊ =
        (ExtendedMantissa.ofMantissaAndAccuracy (m <<< k) .exact >>> l).mantissa :=
      (Nat.floor_eq_iff (value_nonneg (u := .finite .positive m e hm) trivial)).2 located.bounds
    rw [value_positive, mantissa, ← down, ← up]
    rfl

/-! ## Operations on doubles -/

/-- The number that a double stands for, zero for what is not finite. -/
def toRat (x : Float) : ℚ :=
  value x.toModel.unpack

/-- A finite double without a negative value. -/
def IsNonneg (x : Float) : Prop :=
  NonNeg x.toModel.unpack

theorem toRat_nonneg {x : Float} (nonneg : IsNonneg x) : 0 ≤ toRat x :=
  value_nonneg nonneg

/-- **A double is the rounded number `q`**, and does not overflow. -/
def Approximates (x : Float) (q : ℚ) : Prop :=
  Rounds q x.toModel.unpack

variable {x y : Float} {q : ℚ}

theorem Approximates.of_isFinite {u : UnpackedFloat} (rounds : Rounds q u)
    (packed : x.toModel = Float.Model.pack u) (finite : x.isFinite = true) : Approximates x q := by
  have unpacked : x.toModel.unpack = u := by
    rw [packed]
    refine unpack_pack_of_isFinite rounds.nonneg rounds.canonical ?_
    rw [← packed]
    exact finite
  unfold Approximates
  rwa [unpacked]

/-- A number that is far from the largest double does not overflow. -/
theorem Approximates.of_le {u : UnpackedFloat} (rounds : Rounds q u)
    (packed : x.toModel = Float.Model.pack u) (nonneg : 0 ≤ q) (small : q ≤ 2 ^ 64) :
    Approximates x q := by
  have error := (abs_le.1 (rounds.error nonneg)).2
  have relative : q / 2 ^ 53 ≤ q := div_le_self nonneg (by norm_num)
  have absolute : (2 : ℚ) ^ (-1075 : ℤ) ≤ 1 := zpow_le_one_of_nonpos₀ (by norm_num) (by norm_num)
  have largest : (2 : ℚ) ^ (66 : ℤ) ≤ 2 ^ (1024 : ℤ) :=
    zpow_le_zpow_right₀ (by norm_num) (by norm_num)
  have unpacked : x.toModel.unpack = u := by
    rw [packed]
    refine unpack_pack rounds.nonneg rounds.canonical (lt_of_lt_of_le ?_ largest)
    calc value u ≤ q + q + 1 := by linarith
      _ ≤ 2 ^ 64 + 2 ^ 64 + 1 := by linarith
      _ < 2 ^ (66 : ℤ) := by norm_num
  unfold Approximates
  rwa [unpacked]

theorem approximates_add (hx : IsNonneg x) (hy : IsNonneg y) (finite : (x + y).isFinite = true) :
    Approximates (x + y) (toRat x + toRat y) :=
  .of_isFinite (rounds_add hx hy (canonical_unpack _) (canonical_unpack _)) rfl finite

theorem approximates_mul (hx : IsNonneg x) (hy : IsNonneg y) (finite : (x * y).isFinite = true) :
    Approximates (x * y) (toRat x * toRat y) :=
  .of_isFinite (rounds_mul hx hy (canonical_unpack _) (canonical_unpack _)) rfl finite

theorem approximates_div (hx : IsNonneg x) (hy : IsNonneg y) (positive : 0 < toRat y)
    (small : toRat x / toRat y ≤ 2 ^ 64) : Approximates (x / y) (toRat x / toRat y) :=
  .of_le (rounds_div hx hy positive) rfl (div_nonneg (toRat_nonneg hx) positive.le) small

/-- A natural number with 53 bits at most is converted exactly. -/
theorem approximates_ofNat {n : ℕ} (fits : n < 2 ^ 53) :
    IsNonneg n.toUInt64.toFloat ∧ toRat n.toUInt64.toFloat = n := by
  have word : n.toUInt64.toNat = n := UInt64.toNat_ofNat_of_lt' (Nat.lt_trans fits (by decide))
  have bound : (n : ℚ) ≤ 2 ^ 64 := by exact_mod_cast (by omega : n ≤ 2 ^ 64)
  have rounds := rounds_ofNat n.toUInt64.toNat
  have near : Approximates n.toUInt64.toFloat n.toUInt64.toNat :=
    .of_le rounds rfl (Nat.cast_nonneg _) (by rwa [word])
  rw [word] at near
  exact ⟨near.nonneg, near.exact (e := 0) fits (by norm_num) (by simp)⟩

/-- A conversion to a word drops the fraction. -/
theorem toUInt64_eq_floor (nonneg : IsNonneg x) (small : toRat x < 2 ^ 64) :
    x.toUInt64.toNat = ⌊toRat x⌋₊ := by
  have floor : ⌊toRat x⌋₊ < UInt64.size :=
    (Nat.floor_lt (toRat_nonneg nonneg)).2 (lt_of_lt_of_eq small (by norm_num [UInt64.size]))
  have converted : x.toUInt64 = UInt64.ofNatClamp ⌊toRat x⌋₊ := by
    show UInt64.ofNatClamp (x.toModel.unpack.toInt 0 (UInt64.size - 1)).toNat = _
    rw [toInt_eq_floor nonneg]
    rfl
  rw [converted]
  unfold UInt64.ofNatClamp
  rw [dif_pos floor]
  rfl

end BatchDigest.Binary64
