import Mathlib.Analysis.Complex.Basic
import BatchDigest.Kernel.Md5
import BatchDigest.Proofs.Kernel.Rfc1321

/-!
# The sines of MD5

A constant of MD5 is the whole part of 4294967296 times the absolute value of a sine. To tell which,
the points of the unit circle at the angles 1, 2 and so on are followed in integers, with 64 bits of
fractions (`turned`). The first of them is from the exponential series (`near_first`). Each turn by
it adds at most four units to the error (`near_turned`), and up to 64 the sines keep away from the
next whole parts by much more (`whole_parts`). So the constants of the kernel are those of the
document (`sine_eq`).
-/

namespace BatchDigest.Rfc1321

open Complex (I)

/-- A point of the plane in units of `2 ^ -64`. -/
abbrev Point := ℤ × ℤ

/-- The radius of the unit circle. -/
def radius : ℤ := 2 ^ 64

/-- A point as a complex number. -/
def toComplex (p : Point) : ℂ :=
  p.1 + p.2 * I

/-- The exact point at the angle of a number. -/
noncomputable def circle (k : Nat) : ℂ :=
  radius * Complex.exp (k * I)

/-- The point at the angle 1, rounded down. -/
def first : Point :=
  (9966818358784711825, 15522399902203605024)

/-- A point turned by the angle 1, rounded down. -/
def turn (p : Point) : Point :=
  ((p.1 * first.1 - p.2 * first.2) / radius, (p.1 * first.2 + p.2 * first.1) / radius)

/-- The point at the angle of a number, up to what was rounded. -/
def turned (k : Nat) : Point :=
  turn^[k] (radius, 0)

/-! ## The first point -/

/-- The powers of the imaginary unit. -/
def power : Nat → ℚ × ℚ
  | 0 => (1, 0)
  | m + 1 => (-(power m).2, (power m).1)

theorem power_eq (m : Nat) : ((power m).1 : ℂ) + (power m).2 * I = I ^ m := by
  induction m with
  | zero => simp [power]
  | succ m ih =>
    rw [pow_succ, ← ih, add_mul, mul_assoc, Complex.I_mul_I]
    simp only [power]
    push_cast
    ring

/-- The first terms of the exponential series at the imaginary unit. -/
def series : Nat → ℚ × ℚ
  | 0 => (0, 0)
  | n + 1 => ((series n).1 + (power n).1 / n.factorial, (series n).2 + (power n).2 / n.factorial)

theorem series_eq (n : Nat) :
    ((series n).1 : ℂ) + (series n).2 * I = ∑ m ∈ Finset.range n, I ^ m / m.factorial := by
  induction n with
  | zero => simp [series]
  | succ n ih =>
    rw [Finset.sum_range_succ, ← ih, ← power_eq]
    simp only [series]
    push_cast
    ring

/-- With 24 terms the series differs from the first point by what was rounded. -/
theorem series_bound :
    |first.1 - radius * (series 24).1| + |first.2 - radius * (series 24).2| +
      radius * (25 * ((Nat.factorial 24 : ℚ) * 24)⁻¹) ≤ 2 := by
  decide +kernel

theorem norm_radius : ‖(radius : ℂ)‖ = radius := by
  rw [Complex.norm_intCast, Int.cast_abs.symm]
  rfl

theorem radius_pos : (0 : ℝ) < radius := by
  rw [Int.cast_pos]
  decide

theorem norm_pair_le (x y : ℝ) : ‖(x + y * I : ℂ)‖ ≤ |x| + |y| := by
  have bound := Complex.norm_le_abs_re_add_abs_im (x + y * I)
  simpa using bound

theorem near_first : ‖toComplex first - circle 1‖ ≤ 2 := by
  have tail : ‖Complex.exp I - ∑ m ∈ Finset.range 24, I ^ m / m.factorial‖ ≤
      25 * ((Nat.factorial 24 : ℝ) * 24)⁻¹ := by
    have bound := Complex.exp_bound (x := I) (n := 24) (by rw [Complex.norm_I]) (by decide)
    rw [Complex.norm_I, one_pow, one_mul] at bound
    exact_mod_cast bound
  rw [← series_eq] at tail
  have bound := (Rat.cast_le (K := ℝ)).2 series_bound
  push_cast at bound
  have parts : toComplex first - circle 1 =
      ((first.1 - radius * (series 24).1 : ℝ) + (first.2 - radius * (series 24).2 : ℝ) * I) -
        radius * (Complex.exp I - ((series 24).1 + (series 24).2 * I)) := by
    unfold toComplex circle
    push_cast
    rw [one_mul]
    ring
  rw [parts]
  refine le_trans (norm_sub_le _ _) (le_trans (add_le_add (norm_pair_le _ _) ?_) bound)
  rw [norm_mul, norm_radius]
  exact mul_le_mul_of_nonneg_left tail radius_pos.le

/-- The first point does not lie outside of the circle. -/
theorem norm_first_le : ‖toComplex first‖ ≤ radius := by
  have inside : first.1 * first.1 + first.2 * first.2 ≤ radius * radius := by decide
  have inside : (first.1 * first.1 + first.2 * first.2 : ℝ) ≤ radius * radius := by
    exact_mod_cast inside
  have square : ‖toComplex first‖ ^ 2 = first.1 * first.1 + first.2 * first.2 := by
    rw [Complex.sq_norm, Complex.normSq_apply]
    simp [toComplex]
  refine le_of_sq_le_sq ?_ radius_pos.le
  rw [square, sq]
  exact inside

/-! ## Turning -/

/-- What is rounded down is less than two units. -/
theorem near_turn (p : Point) :
    ‖toComplex p * toComplex first - radius * toComplex (turn p)‖ ≤ 2 * radius := by
  have rest : ∀ n : ℤ, |((n % radius : ℤ) : ℝ)| ≤ radius := by
    intro n
    have low : 0 ≤ n % radius := Int.emod_nonneg n (by decide)
    have high : n % radius < radius := Int.emod_lt_of_pos n (by decide)
    rw [abs_of_nonneg (Int.cast_nonneg low)]
    exact Int.cast_le.2 high.le
  have parts : toComplex p * toComplex first - radius * toComplex (turn p) =
      (((p.1 * first.1 - p.2 * first.2) % radius : ℤ) : ℝ) +
        (((p.1 * first.2 + p.2 * first.1) % radius : ℤ) : ℝ) * I := by
    rw [Int.emod_def, Int.emod_def]
    unfold toComplex turn
    push_cast
    ring_nf
    rw [Complex.I_sq]
    ring
  rw [parts, two_mul]
  exact (norm_pair_le _ _).trans (add_le_add (rest _) (rest _))

theorem circle_succ (k : Nat) : radius * circle (k + 1) = circle k * circle 1 := by
  unfold circle
  rw [Nat.cast_add, Nat.cast_one, add_mul, Complex.exp_add]
  ring

theorem norm_circle (k : Nat) : ‖circle k‖ = radius := by
  unfold circle
  rw [norm_mul, norm_radius]
  have unit := Complex.norm_exp_ofReal_mul_I k
  rw [Complex.ofReal_natCast] at unit
  rw [unit, mul_one]

/-- **Each turn adds at most four units to the error.** -/
theorem near_turned (k : Nat) : ‖toComplex (turned k) - circle k‖ ≤ 4 * k := by
  induction k with
  | zero => simp [turned, toComplex, circle]
  | succ k ih =>
    have next : turned (k + 1) = turn (turned k) := Function.iterate_succ_apply' _ _ _
    have parts : radius * (toComplex (turned (k + 1)) - circle (k + 1)) =
        (toComplex (turned k) - circle k) * toComplex first +
          circle k * (toComplex first - circle 1) -
          (toComplex (turned k) * toComplex first - radius * toComplex (turn (turned k))) := by
      rw [mul_sub, circle_succ, next]
      ring
    have bound : radius * ‖toComplex (turned (k + 1)) - circle (k + 1)‖ ≤
        radius * (4 * ((k + 1 : Nat) : ℝ)) :=
      calc radius * ‖toComplex (turned (k + 1)) - circle (k + 1)‖
          = ‖(radius : ℂ) * (toComplex (turned (k + 1)) - circle (k + 1))‖ := by
            rw [norm_mul, norm_radius]
        _ ≤ ‖toComplex (turned k) - circle k‖ * ‖toComplex first‖ +
              ‖circle k‖ * ‖toComplex first - circle 1‖ +
              ‖toComplex (turned k) * toComplex first - radius * toComplex (turn (turned k))‖ := by
            rw [parts, ← norm_mul, ← norm_mul]
            exact (norm_sub_le _ _).trans (add_le_add_left (norm_add_le _ _) _)
        _ ≤ 4 * k * radius + radius * 2 + 2 * radius := by
            rw [norm_circle]
            refine add_le_add (add_le_add ?_ ?_) (near_turn _)
            · exact mul_le_mul ih norm_first_le (norm_nonneg _) (by positivity)
            · exact mul_le_mul_of_nonneg_left near_first radius_pos.le
        _ = radius * (4 * ((k + 1 : Nat) : ℝ)) := by
            push_cast
            ring
    exact le_of_mul_le_mul_left bound radius_pos

theorem near_sin (k : Nat) : |((turned k).2 : ℝ) - radius * Real.sin k| ≤ 4 * k := by
  have height : (toComplex (turned k) - circle k).im = (turned k).2 - radius * Real.sin k := by
    have angle := Complex.exp_ofReal_mul_I_im k
    rw [Complex.ofReal_natCast] at angle
    unfold toComplex circle
    simp [angle]
  rw [← height]
  exact (Complex.abs_im_le_norm _).trans (near_turned k)

/-! ## Whole parts -/

/-- The sines of the first 64 numbers keep away from the next whole parts. -/
theorem whole_parts : ∀ i : Fin 64,
    let whole : ℤ := (Md5.roundConstants.get i).toNat
    let error : ℤ := 4 * (i.val + 1)
    whole * 2 ^ 32 + error ≤ |(turned (i.val + 1)).2| ∧
      |(turned (i.val + 1)).2| + error < (whole + 1) * 2 ^ 32 := by
  decide +kernel

/-- **The constants of the kernel are the sines of the document.** -/
theorem sine_eq (i : Fin 64) : sine i = (Md5.roundConstants.get i).toBitVec := by
  obtain ⟨low, high⟩ := whole_parts i
  generalize (Md5.roundConstants.get i) = constant at low high ⊢
  have low := (Int.cast_le (R := ℝ)).2 low
  have high := (Int.cast_lt (R := ℝ)).2 high
  push_cast at low high
  have near := (abs_abs_sub_abs_le _ _).trans (near_sin (i.val + 1))
  rw [abs_mul, abs_of_pos radius_pos, abs_le] at near
  push_cast at near
  have size : (radius : ℝ) = 4294967296 * 4294967296 := by
    unfold radius
    norm_num
  rw [size] at near
  have whole : ⌊4294967296 * |Real.sin (i.val + 1)|⌋₊ = constant.toNat := by
    refine (Nat.floor_eq_iff (by positivity)).2 ⟨?_, ?_⟩
    · linarith [near.1]
    · linarith [near.2]
  unfold sine
  rw [whole]
  refine BitVec.eq_of_toNat_eq ?_
  rw [BitVec.toNat_ofNat]
  exact Nat.mod_eq_of_lt constant.toNat_lt

end BatchDigest.Rfc1321
