import BatchDigest.Proofs.Binary64.Arithmetic

/-!
# Errors of sums, products and quotients

A sum of two doubles that are not negative has the relative error of one rounding, whatever the
doubles are, and so has a product with a natural number: both are multiples of the smallest unit. A
quotient may be off by half the smallest unit more. A sum of a list of doubles is rounded once for
each of them, and its relative error grows by that (`foldl_add_error`). What overflows stays
infinite or no number: no sum on the way to a finite one overflows (`isFinite_of_foldl_add`), and a
product that does is the largest word when it is divided and converted (`toUInt64_of_isInfinite`).
-/

namespace BatchDigest.Binary64

open Float.Model

/-- The relative error of one rounding. -/
def roundoff : ℚ :=
  1 / 2 ^ 53

theorem roundoff_pos : 0 < roundoff := by
  unfold roundoff
  positivity

variable {x y : Float}

/-! ## Which doubles are finite -/

theorem lt_zero_iff : x < 0 ↔ x.toModel.unpack.lt (.zero .positive) = true :=
  decide_eq_true_iff

theorem le_zero_iff : x ≤ 0 ↔ x.toModel.unpack.le (.zero .positive) = true :=
  decide_eq_true_iff

/-- A finite double that is not below zero has no negative value. -/
theorem isNonneg_of_isFinite (finite : x.isFinite = true) (least : ¬ x < 0) : IsNonneg x := by
  change x.toModel.unpack.isFinite = true at finite
  rw [lt_zero_iff] at least
  unfold IsNonneg
  cases number : x.toModel.unpack with
  | notANumber =>
    rw [number] at finite
    cases finite
  | infinity s =>
    rw [number] at finite
    cases finite
  | zero s => trivial
  | finite s m e positive =>
    cases s with
    | positive => trivial
    | negative =>
      rw [number] at least
      exact absurd rfl least

/-- A double above zero has a positive value. -/
theorem toRat_pos (nonneg : IsNonneg x) (least : ¬ x ≤ 0) : 0 < toRat x := by
  rw [le_zero_iff] at least
  unfold IsNonneg at nonneg
  unfold toRat
  cases number : x.toModel.unpack with
  | notANumber =>
    rw [number] at nonneg
    cases nonneg
  | infinity s =>
    rw [number] at nonneg
    cases nonneg
  | zero s =>
    rw [number] at least
    exact absurd rfl least
  | finite s m e positive =>
    cases s with
    | positive => exact mul_pos (Nat.cast_pos.2 positive) (two_zpow_pos e)
    | negative =>
      rw [number] at nonneg
      cases nonneg

theorem isNonneg_zero : IsNonneg 0 :=
  show NonNeg (.zero .positive) from trivial

theorem toRat_zero : toRat 0 = 0 :=
  rfl

/-- What is added to an infinity leaves it, or no number. -/
theorem add_infinity (s : UnpackedFloat.Sign) (b : UnpackedFloat) :
    UnpackedFloat.add .binary64 (.infinity s) b = .infinity s ∨
      UnpackedFloat.add .binary64 (.infinity s) b = .notANumber := by
  cases b with
  | notANumber => exact .inr rfl
  | infinity s' => cases s <;> cases s' <;> first | exact .inl rfl | exact .inr rfl
  | zero s' => exact .inl rfl
  | finite s' m e positive => exact .inl rfl

/-- A sum is finite only if what is added to is. -/
theorem isFinite_of_add (finite : (x + y).isFinite = true) : x.isFinite = true := by
  change (Float.Model.pack (.add .binary64 x.toModel.unpack y.toModel.unpack)).unpack.isFinite =
    true at finite
  show x.toModel.unpack.isFinite = true
  generalize y.toModel.unpack = b at finite
  cases number : x.toModel.unpack with
  | notANumber =>
    rw [number, show UnpackedFloat.add .binary64 .notANumber b = .notANumber by cases b <;> rfl]
      at finite
    exact finite
  | infinity s =>
    rw [number] at finite
    rcases add_infinity s b with same | none
    · rw [same] at finite
      cases s <;> exact finite
    · rw [none] at finite
      exact finite
  | zero s => rfl
  | finite s m e positive => rfl

/-- No sum on the way to a finite one overflows. -/
theorem isFinite_of_foldl_add {numbers : List Float}
    (finite : (numbers.foldl (· + ·) x).isFinite = true) : x.isFinite = true := by
  induction numbers generalizing x with
  | nil => exact finite
  | cons y rest ih => exact isFinite_of_add (ih finite)

/-! ## Overflow -/

/-- What is not negative overflows to infinity. -/
def IsInfinite (x : Float) : Prop :=
  x.toModel.unpack = .infinity .positive

/-- A number that does not fit in a double becomes infinite. -/
theorem isInfinite_of_rounds {q : ℚ} {u : UnpackedFloat} (rounds : Rounds q u)
    (packed : x.toModel = Float.Model.pack u) (overflow : ¬ x.isFinite = true) : IsInfinite x := by
  change ¬ x.toModel.unpack.isFinite = true at overflow
  unfold IsInfinite
  rw [packed] at overflow ⊢
  match u, rounds.nonneg, rounds.canonical with
  | .zero s, _, _ => cases s <;> exact absurd rfl overflow
  | .finite .positive m e positive, _, canonical =>
    by_cases large : 971 < e
    · exact unpack_pack_large large
    · rw [unpack_pack_finite canonical (by omega)] at overflow
      exact absurd rfl overflow

/-- A product that is not finite is infinite. -/
theorem isInfinite_mul (hx : IsNonneg x) (hy : IsNonneg y) (overflow : ¬ (x * y).isFinite = true) :
    IsInfinite (x * y) :=
  isInfinite_of_rounds (rounds_mul hx hy (canonical_unpack _) (canonical_unpack _)) rfl overflow

theorem isInfinite_div (hx : IsInfinite x) (hy : IsNonneg y) (positive : 0 < toRat y) :
    IsInfinite (x / y) := by
  show (Float.Model.pack (.div .binary64 x.toModel.unpack y.toModel.unpack)).unpack = _
  unfold IsInfinite at hx
  unfold IsNonneg at hy
  unfold toRat at positive
  rw [hx]
  match y.toModel.unpack, hy, positive with
  | .zero _, _, positive => exact absurd positive (lt_irrefl _)
  | .finite .positive m e above, _, _ =>
    have quotient : UnpackedFloat.div .binary64 (.infinity .positive)
        (.finite .positive m e above) = .infinity .positive := rfl
    rw [quotient]
    rfl

theorem toUInt64_of_isInfinite (hx : IsInfinite x) : x.toUInt64.toNat = 2 ^ 64 - 1 := by
  show (UInt64.ofNatClamp (x.toModel.unpack.toInt 0 (UInt64.size - 1)).toNat).toNat = _
  unfold IsInfinite at hx
  rw [hx]
  rfl

/-! ## One operation -/

/-- A double has 53 bits at most, from the smallest unit on. -/
theorem exists_mantissa (nonneg : IsNonneg x) :
    ∃ (m : ℕ) (e : ℤ), m < 2 ^ 53 ∧ -1074 ≤ e ∧ toRat x = m * 2 ^ e := by
  have canonical := canonical_unpack x.toModel
  unfold IsNonneg at nonneg
  unfold toRat
  match x.toModel.unpack, nonneg, canonical with
  | .zero s, _, _ => exact ⟨0, 0, by decide, by decide, by simp⟩
  | .finite .positive m e _, _, ⟨fits, low, _⟩ => exact ⟨m, e, fits, low, rfl⟩

/-- A double is a multiple of the smallest unit. -/
theorem exists_units (nonneg : IsNonneg x) : ∃ n : ℕ, toRat x = n * 2 ^ (-1074 : ℤ) := by
  obtain ⟨m, e, -, low, number⟩ := exists_mantissa nonneg
  obtain ⟨k, shift⟩ := Int.eq_ofNat_of_zero_le (by omega : 0 ≤ e + 1074)
  refine ⟨m * 2 ^ k, ?_⟩
  rw [number, show e = k + -1074 by omega, zpow_add₀ (by norm_num), zpow_natCast, Nat.cast_mul,
    Nat.cast_pow, Nat.cast_ofNat, mul_assoc]

theorem add_error (hx : IsNonneg x) (hy : IsNonneg y) (finite : (x + y).isFinite = true) :
    |toRat (x + y) - (toRat x + toRat y)| ≤ roundoff * (toRat x + toRat y) := by
  obtain ⟨m, hm⟩ := exists_units hx
  obtain ⟨n, hn⟩ := exists_units hy
  have whole : toRat x + toRat y = (m + n : ℕ) * 2 ^ (-1074 : ℤ) := by
    rw [hm, hn, Nat.cast_add, add_mul]
  rw [roundoff, one_div_mul_eq_div]
  exact (approximates_add hx hy finite).error_of_whole whole

theorem mul_error {n : ℕ} (hx : IsNonneg x) (number : toRat x = n) (hy : IsNonneg y)
    (finite : (x * y).isFinite = true) :
    |toRat (x * y) - n * toRat y| ≤ roundoff * (n * toRat y) := by
  obtain ⟨m, hm⟩ := exists_units hy
  have whole : toRat x * toRat y = (n * m : ℕ) * 2 ^ (-1074 : ℤ) := by
    rw [number, hm, Nat.cast_mul, mul_assoc]
  rw [roundoff, one_div_mul_eq_div, ← number]
  exact (approximates_mul hx hy finite).error_of_whole whole

theorem div_error (hx : IsNonneg x) (hy : IsNonneg y) (positive : 0 < toRat y)
    (small : toRat x / toRat y ≤ 2 ^ 64) :
    |toRat (x / y) - toRat x / toRat y| ≤
      roundoff * (toRat x / toRat y) + 2 ^ (-1075 : ℤ) := by
  rw [roundoff, one_div_mul_eq_div]
  exact (approximates_div hx hy positive small).error (div_nonneg (toRat_nonneg hx) positive.le)

/-- The sum of two doubles with one value is not rounded. -/
theorem toRat_add_of_eq (hx : IsNonneg x) (hy : IsNonneg y) (same : toRat x = toRat y)
    (finite : (x + y).isFinite = true) : toRat (x + y) = 2 * toRat y := by
  obtain ⟨m, e, fits, low, number⟩ := exists_mantissa hy
  have doubled : toRat x + toRat y = m * 2 ^ (e + 1) := by
    rw [same, number, zpow_add_one₀ (by norm_num)]
    ring
  have sum : toRat (x + y) = toRat x + toRat y :=
    (approximates_add hx hy finite).exact fits (by omega) doubled
  rw [sum, same, two_mul]

/-- Zero is nothing when it is added. -/
theorem toRat_zero_add (hx : IsNonneg x) (finite : (0 + x).isFinite = true) :
    toRat (0 + x) = toRat x := by
  obtain ⟨m, e, fits, low, number⟩ := exists_mantissa hx
  have sum := approximates_add isNonneg_zero hx finite
  rw [toRat_zero, zero_add] at sum
  exact sum.exact fits low number

/-! ## Sums of lists -/

theorem map_toRat_nonneg {numbers : List Float} (nonneg : ∀ y ∈ numbers, IsNonneg y) :
    ∀ q ∈ numbers.map toRat, 0 ≤ q :=
  List.forall_mem_map.2 fun y mem => toRat_nonneg (nonneg y mem)

/-- **The relative error of a sum** of doubles grows with each of them. -/
theorem foldl_add_error {numbers : List Float} (hx : IsNonneg x)
    (nonneg : ∀ y ∈ numbers, IsNonneg y) (finite : (numbers.foldl (· + ·) x).isFinite = true) :
    IsNonneg (numbers.foldl (· + ·) x) ∧
    |toRat (numbers.foldl (· + ·) x) - (toRat x + (numbers.map toRat).sum)| ≤
      ((1 + roundoff) ^ numbers.length - 1) * (toRat x + (numbers.map toRat).sum) := by
  induction numbers generalizing x with
  | nil => exact ⟨hx, by simp⟩
  | cons y rest ih =>
    obtain ⟨hy, others⟩ := List.forall_mem_cons.1 nonneg
    have first : (x + y).isFinite = true := isFinite_of_foldl_add finite
    have near := abs_le.1 (add_error hx hy first)
    obtain ⟨result, rest_near⟩ := ih (approximates_add hx hy first).nonneg others finite
    refine ⟨result, ?_⟩
    rw [List.foldl_cons, List.map_cons, List.sum_cons, List.length_cons, pow_succ]
    have grow : 0 ≤ (1 + roundoff) ^ rest.length - 1 :=
      sub_nonneg.2 (one_le_pow₀ (by linarith [roundoff_pos]))
    have others_nonneg : 0 ≤ (rest.map toRat).sum := List.sum_nonneg (map_toRat_nonneg others)
    generalize toRat (rest.foldl (· + ·) (x + y)) = result at rest_near ⊢
    generalize (rest.map toRat).sum = others at rest_near others_nonneg ⊢
    generalize (1 + roundoff) ^ rest.length = growth at grow rest_near ⊢
    -- the first rounding, and the others from what it left
    have start : toRat (x + y) + others ≤ (1 + roundoff) * (toRat x + (toRat y + others)) := by
      linarith [mul_nonneg roundoff_pos.le others_nonneg, near.2]
    calc |result - (toRat x + (toRat y + others))|
        = |(result - (toRat (x + y) + others)) + (toRat (x + y) - (toRat x + toRat y))| := by
          congr 1
          ring
      _ ≤ |result - (toRat (x + y) + others)| + |toRat (x + y) - (toRat x + toRat y)| :=
          abs_add_le _ _
      _ ≤ (growth - 1) * ((1 + roundoff) * (toRat x + (toRat y + others))) +
            roundoff * (toRat x + (toRat y + others)) := by
          refine add_le_add (rest_near.trans (mul_le_mul_of_nonneg_left start grow)) ?_
          refine (abs_le.2 near).trans ?_
          linarith [mul_nonneg roundoff_pos.le others_nonneg]
      _ = (growth * (1 + roundoff) - 1) * (toRat x + (toRat y + others)) := by ring

end BatchDigest.Binary64
