import BatchDigest.Proofs.Batch.Partition
import BatchDigest.Proofs.Binary64.Errors
import BatchDigest.Proofs.Configuration.Accepted

/-!
# Slices are in proportion to the weights

The share of a runner is computed in doubles. The sum of up to a thousand weights, the product of
the batch with a weight, and their quotient are each rounded, and the fraction is dropped. Together
this keeps a share within two records of the exact one (`share_near`), and the shares of the first
runners do not run past the end of the batch (`sum_shares_take_le`). So each runner but the last
gets its share (`partition_proportional`).

This needs products that do not overflow. A product that does is infinite, the share that comes out
of it is the largest word, and the runner gets whatever is left of the batch (`stop_of_overflow`).
Even without that, two runners with one weight may get counts that are two apart: where the batch is
even and the product is rounded down, the quotient may fall short of the half, and a whole record is
dropped with the fraction (`partition_not_proportional`).
-/

namespace BatchDigest.Slice

open Binary64

/-- The sum of the weights without any rounding. -/
def exactTotal (weights : List Float) : ℚ :=
  (weights.map toRat).sum

/-- The part of `batch` records that is due to a weight among others, without any rounding. -/
def quota (batch : ℕ) (weight : Float) (weights : List Float) : ℚ :=
  batch * toRat weight / exactTotal weights

/-- The product of the batch with a weight does not overflow. -/
def Multiplies (batch : ℕ) (weight : Float) : Prop :=
  (batch.toUInt64.toFloat * weight).isFinite = true

/-- Weights that runners are accepted with, up to a thousand. -/
structure Proper (weights : List Float) : Prop where
  nonneg : ∀ w ∈ weights, IsNonneg w
  finite : (totalWeight weights).isFinite = true
  above : ¬ totalWeight weights ≤ 0
  few : weights.length ≤ 1000

theorem isNonneg_of_isFitWeight {w : Float} (fit : Runner.isFitWeight w = true) : IsNonneg w := by
  unfold Runner.isFitWeight at fit
  rw [Bool.and_eq_true, Bool.not_eq_true', decide_eq_false_iff_not] at fit
  exact isNonneg_of_isFinite fit.1 fit.2

theorem proper_of_check {runners : List (String × Float)} (accepted : Runner.check runners = .ok ())
    (few : runners.length ≤ 1000) : Proper (runners.map (·.2)) := by
  obtain ⟨-, fit, above, finite⟩ := (Runner.check_eq_ok_iff runners).1 accepted
  refine ⟨fun w mem => ?_, finite, above, by rwa [List.length_map]⟩
  obtain ⟨pair, inside, rfl⟩ := List.mem_map.1 mem
  exact isNonneg_of_isFitWeight (fit pair inside)

/-! ## Rounded quotients -/

/-- Many roundings together, by Bernoulli's inequality. -/
theorem one_add_pow_mul_le {u : ℚ} (least : 0 ≤ u) (most : u ≤ 1) (n : ℕ) :
    (1 + u) ^ n * (1 - n * u) ≤ 1 := by
  have bernoulli := one_add_mul_le_pow (a := -u) (by linarith) n
  calc (1 + u) ^ n * (1 - n * u) ≤ (1 + u) ^ n * (1 + -u) ^ n :=
        mul_le_mul_of_nonneg_left (by linarith) (by positivity)
    _ = ((1 + u) * (1 + -u)) ^ n := (mul_pow _ _ _).symm
    _ ≤ 1 := pow_le_one₀ (mul_nonneg (by linarith) (by linarith)) (by linarith [mul_self_nonneg u])

theorem growth_le {n : ℕ} (few : n ≤ 1000) : (1 + roundoff) ^ n - 1 ≤ 1 / 2 ^ 42 := by
  have small : (n : ℚ) * roundoff ≤ 1 / 2 ^ 43 := by
    have bound : (n : ℚ) ≤ 1000 := by exact_mod_cast few
    unfold roundoff
    linarith
  have together := one_add_pow_mul_le roundoff_pos.le (by unfold roundoff; norm_num) n
  have positive : 0 < (1 + roundoff) ^ n := pow_pos (by linarith [roundoff_pos]) n
  generalize (1 + roundoff) ^ n = growth at together positive ⊢
  have bound : growth * (1 - 1 / 2 ^ 43) ≤ 1 :=
    (mul_le_mul_of_nonneg_left (by linarith) positive.le).trans together
  linarith

variable {weights : List Float} {batch : ℕ} {w : Float}

namespace Proper

/-- The rounded sum is close to the exact one. -/
theorem total_near (proper : Proper weights) :
    IsNonneg (totalWeight weights) ∧ 0 < exactTotal weights ∧
      |toRat (totalWeight weights) - exactTotal weights| ≤ exactTotal weights / 2 ^ 42 := by
  obtain ⟨nonneg, error⟩ := foldl_add_error isNonneg_zero proper.nonneg proper.finite
  rw [toRat_zero, zero_add] at error
  have least : 0 ≤ exactTotal weights := List.sum_nonneg (map_toRat_nonneg proper.nonneg)
  have near : |toRat (totalWeight weights) - exactTotal weights| ≤ exactTotal weights / 2 ^ 42 := by
    refine error.trans ?_
    rw [div_eq_mul_one_div, mul_comm]
    exact mul_le_mul_of_nonneg_left (growth_le proper.few) least
  refine ⟨nonneg, least.lt_of_ne fun zero => ?_, near⟩
  -- an exact sum of zero would not be rounded to a positive one
  have positive := toRat_pos nonneg proper.above
  rw [← zero, zero_div, sub_zero] at near
  exact absurd near (not_le.2 (abs_pos_of_pos positive))

theorem toRat_le (proper : Proper weights) (mem : w ∈ weights) : toRat w ≤ exactTotal weights :=
  List.single_le_sum (map_toRat_nonneg proper.nonneg) _ (List.mem_map_of_mem mem)

end Proper

/-- A quotient of two numbers with small relative errors. -/
theorem quotient_error {a p total s : ℚ} (least : 0 ≤ a) (positive : 0 < total)
    (product : |p - a| ≤ roundoff * a) (sum : |s - total| ≤ total / 2 ^ 42) :
    0 < s ∧ |p / s - a / total| ≤ a / total / 2 ^ 41 := by
  have lower : (1 - 1 / 2 ^ 42) * total ≤ s := by linarith [(abs_le.1 sum).1]
  have above : 0 < s := lt_of_lt_of_le (mul_pos (by norm_num) positive) lower
  refine ⟨above, ?_⟩
  -- Over one denominator the two errors stand apart: that of the product and that of the sum.
  have cross : |p * total - s * a| ≤ (roundoff + 1 / 2 ^ 42) * (a * total) := by
    calc |p * total - s * a| = |(p - a) * total + -((s - total) * a)| := by
          congr 1
          ring
      _ ≤ |p - a| * total + |s - total| * a := by
          refine (abs_add_le _ _).trans (le_of_eq ?_)
          rw [abs_neg, abs_mul, abs_mul, abs_of_pos positive, abs_of_nonneg least]
      _ ≤ roundoff * a * total + total / 2 ^ 42 * a :=
          add_le_add (mul_le_mul_of_nonneg_right product positive.le)
            (mul_le_mul_of_nonneg_right sum least)
      _ = (roundoff + 1 / 2 ^ 42) * (a * total) := by ring
  rw [div_sub_div _ _ above.ne' positive.ne', abs_div, abs_of_pos (mul_pos above positive),
    div_le_iff₀ (mul_pos above positive)]
  refine cross.trans ?_
  have scale : (roundoff + 1 / 2 ^ 42) * total ≤ s / 2 ^ 41 := by
    rw [le_div_iff₀ (by positivity)]
    refine le_trans ?_ lower
    rw [mul_right_comm]
    exact mul_le_mul_of_nonneg_right (by unfold roundoff; norm_num) positive.le
  calc (roundoff + 1 / 2 ^ 42) * (a * total) = (roundoff + 1 / 2 ^ 42) * total * a := by ring
    _ ≤ s / 2 ^ 41 * a := mul_le_mul_of_nonneg_right scale least
    _ = a / total / 2 ^ 41 * (s * total) := by field_simp

/-- A quota is at most the batch. -/
theorem quota_bounds (batch : ℕ) (proper : Proper weights) (mem : w ∈ weights) :
    0 ≤ quota batch w weights ∧ quota batch w weights ≤ batch := by
  obtain ⟨-, positive, -⟩ := proper.total_near
  have least := toRat_nonneg (proper.nonneg w mem)
  refine ⟨by unfold quota; positivity, ?_⟩
  unfold quota
  rw [div_le_iff₀ positive]
  exact mul_le_mul_of_nonneg_left (proper.toRat_le mem) (Nat.cast_nonneg batch)

/-- **A quotient in doubles is close to the quota.** -/
theorem quotient_near (proper : Proper weights) (mem : w ∈ weights) (word : batch < 2 ^ 32)
    (fits : Multiplies batch w) :
    IsNonneg (batch.toUInt64.toFloat * w / totalWeight weights) ∧
      |toRat (batch.toUInt64.toFloat * w / totalWeight weights) - quota batch w weights| ≤
        quota batch w weights / 2 ^ 40 + 1 / 2 ^ 20 := by
  obtain ⟨count_nonneg, count⟩ := approximates_ofNat (n := batch) (by omega)
  obtain ⟨total_nonneg, positive, total⟩ := proper.total_near
  have nonneg := proper.nonneg w mem
  have product := mul_error count_nonneg count nonneg fits
  have product_nonneg := (approximates_mul count_nonneg nonneg fits).nonneg
  obtain ⟨above, quotient⟩ := quotient_error
    (mul_nonneg (Nat.cast_nonneg batch) (toRat_nonneg nonneg)) positive product total
  obtain ⟨least, most⟩ := quota_bounds batch proper mem
  have bound : (batch : ℚ) ≤ 2 ^ 32 := by exact_mod_cast word.le
  have near : |toRat (batch.toUInt64.toFloat * w) / toRat (totalWeight weights) -
      quota batch w weights| ≤ quota batch w weights / 2 ^ 41 := quotient
  have upper := (abs_le.1 near).2
  have small : toRat (batch.toUInt64.toFloat * w) / toRat (totalWeight weights) ≤ 2 ^ 64 := by
    linarith
  -- The last rounding comes on top of those of the product and of the sum.
  have rounded := div_error product_nonneg total_nonneg above small
  refine ⟨(approximates_div product_nonneg total_nonneg above small).nonneg, ?_⟩
  have tiny : (2 : ℚ) ^ (-1075 : ℤ) ≤ 1 / 2 ^ 20 := by
    have := zpow_le_zpow_right₀ (by norm_num : (1 : ℚ) ≤ 2) (by norm_num : (-1075 : ℤ) ≤ -20)
    norm_num at this ⊢
    exact this
  refine (abs_sub_le _ _ _).trans ((add_le_add rounded near).trans ?_)
  unfold roundoff
  linarith

/-- A share is a rounded quotient without its fraction. -/
theorem share_near (proper : Proper weights) (mem : w ∈ weights) (word : batch < 2 ^ 32)
    (fits : Multiplies batch w) :
    (share batch w (totalWeight weights) : ℚ) ≤
        quota batch w weights * (1 + 1 / 2 ^ 40) + 1 / 2 ^ 20 ∧
      |(share batch w (totalWeight weights) : ℚ) - quota batch w weights| < 1 + 1 / 64 := by
  obtain ⟨nonneg, near⟩ := quotient_near proper mem word fits
  obtain ⟨lower, upper⟩ := abs_le.1 near
  obtain ⟨least, most⟩ := quota_bounds batch proper mem
  have bound : (batch : ℚ) ≤ 2 ^ 32 := by exact_mod_cast word.le
  have floor : share batch w (totalWeight weights) =
      ⌊toRat (batch.toUInt64.toFloat * w / totalWeight weights)⌋₊ :=
    toUInt64_eq_floor nonneg (by linarith)
  obtain ⟨below, above⟩ := (Nat.floor_eq_iff (toRat_nonneg nonneg)).1 floor.symm
  refine ⟨by linarith, abs_lt.2 ⟨by linarith, by linarith⟩⟩

/-- The share that comes out of a product that overflows is the largest word. -/
theorem share_of_overflow (proper : Proper weights) (mem : w ∈ weights) (word : batch < 2 ^ 32)
    (overflow : ¬ Multiplies batch w) : share batch w (totalWeight weights) = Size.largest := by
  obtain ⟨count_nonneg, -⟩ := approximates_ofNat (n := batch) (by omega)
  obtain ⟨total_nonneg, -, -⟩ := proper.total_near
  have product := isInfinite_mul count_nonneg (proper.nonneg w mem) overflow
  exact toUInt64_of_isInfinite
    (isInfinite_div product total_nonneg (toRat_pos total_nonneg proper.above))

/-! ## Boundaries -/

private theorem le_largest (word : batch < 2 ^ 32) : batch ≤ Size.largest :=
  Nat.le_trans word.le (by decide)

/-- As long as the shares are not past the end of the batch, each runner but the last gets its
share. -/
theorem count_of_cutFrom (total : Float) (size : batch ≤ Size.largest) (runner start : ℕ) {i : ℕ}
    (later : i + 1 < weights.length)
    (room : start + ((weights.take (i + 1)).map (share batch · total)).sum ≤ batch) :
    ∃ s, (cutFrom batch total runner start weights)[i]? = some s ∧ s.runner = runner + i ∧
      s.count = share batch weights[i] total := by
  induction weights generalizing runner start i with
  | nil => cases later
  | cons weight rest ih =>
    cases rest with
    | nil =>
      rw [List.length_singleton] at later
      omega
    | cons next rest =>
      rw [List.take_succ_cons, List.map_cons, List.sum_cons] at room
      -- Neither the largest word nor the end of the batch cuts the first share off.
      have boundary : min (Size.addSaturating (share batch weight total) start) batch =
          share batch weight total + start := by
        rw [min_addSaturating size]
        omega
      have cut : cutFrom batch total runner start (weight :: next :: rest) =
          ⟨runner, start, share batch weight total⟩ ::
            cutFrom batch total (runner + 1) (share batch weight total + start) (next :: rest) := by
        rw [cutFrom, boundary, Nat.add_sub_cancel]
        exact List.cons_ne_nil _ _
      rw [cut]
      cases i with
      | zero => exact ⟨_, rfl, rfl, rfl⟩
      | succ i =>
        obtain ⟨s, found, number, count⟩ := ih (runner + 1) (share batch weight total + start)
          (Nat.lt_of_succ_lt_succ later) (by omega)
        exact ⟨s, found, by omega, count⟩

/-- The shares of some of the runners are close to what is due to them together. -/
theorem sum_shares_le (proper : Proper weights) (word : batch < 2 ^ 32) {chosen : List Float}
    (inside : chosen ⊆ weights) (fits : ∀ w ∈ chosen, Multiplies batch w) :
    ((chosen.map (share batch · (totalWeight weights))).sum : ℚ) ≤
      batch * exactTotal chosen / exactTotal weights * (1 + 1 / 2 ^ 40) +
        chosen.length / 2 ^ 20 := by
  induction chosen with
  | nil => simp [exactTotal]
  | cons weight rest ih =>
    obtain ⟨mem, others⟩ := List.cons_subset.1 inside
    obtain ⟨fit, fits⟩ := List.forall_mem_cons.1 fits
    obtain ⟨first, -⟩ := share_near proper mem word fit
    have rest_near := ih others fits
    have parts : batch * exactTotal (weight :: rest) / exactTotal weights =
        quota batch weight weights + batch * exactTotal rest / exactTotal weights := by
      unfold quota
      rw [show exactTotal (weight :: rest) = toRat weight + exactTotal rest from List.sum_cons,
        mul_add, add_div]
    rw [List.map_cons, List.sum_cons, List.length_cons, parts, Nat.cast_add, Nat.cast_succ, add_mul,
      add_div]
    linarith

/-- The shares of the first runners do not run past the end of the batch. -/
theorem sum_shares_take_le (proper : Proper weights) (word : batch < 2 ^ 32) {i : ℕ}
    (fits : ∀ w ∈ weights.take i, Multiplies batch w) :
    ((weights.take i).map (share batch · (totalWeight weights))).sum ≤ batch := by
  obtain ⟨-, positive, -⟩ := proper.total_near
  have near := sum_shares_le proper word (List.take_subset i weights) fits
  have part : exactTotal (weights.take i) ≤ exactTotal weights :=
    ((List.take_sublist i weights).map toRat).sum_le_sum (map_toRat_nonneg proper.nonneg)
  have due : batch * exactTotal (weights.take i) / exactTotal weights ≤ batch := by
    rw [div_le_iff₀ positive]
    exact mul_le_mul_of_nonneg_left part (Nat.cast_nonneg batch)
  -- What the roundings add up to is less than one record, and shares are whole.
  have few : ((weights.take i).length : ℚ) ≤ 1000 := by
    exact_mod_cast (List.length_take_le' i weights).trans proper.few
  have bound : (batch : ℚ) ≤ 2 ^ 32 := by exact_mod_cast word.le
  generalize ((weights.take i).map (share batch · (totalWeight weights))).sum = taken at near ⊢
  have less : (taken : ℚ) < batch + 1 := by linarith
  exact Nat.le_of_lt_succ (by exact_mod_cast less)

/-- Each runner but the last gets its share. -/
theorem count_of_partition (proper : Proper weights) (word : batch < 2 ^ 32) {i : ℕ}
    (later : i + 1 < weights.length) (fits : ∀ w ∈ weights.take (i + 1), Multiplies batch w) :
    ∃ s, (partition weights batch)[i]? = some s ∧ s.runner = i ∧
      s.count = share batch weights[i] (totalWeight weights) := by
  obtain ⟨s, found, runner, count⟩ := count_of_cutFrom (totalWeight weights) (le_largest word) 0 0
    later (by rw [Nat.zero_add]; exact sum_shares_take_le proper word fits)
  exact ⟨s, found, by omega, count⟩

/-- A runner whose product overflows gets all that is left of the batch. -/
theorem stop_of_overflow (proper : Proper weights) (word : batch < 2 ^ 32) {i : ℕ}
    (later : i + 1 < weights.length) (overflow : ¬ Multiplies batch weights[i]) :
    ∃ s, (partition weights batch)[i]? = some s ∧ s.runner = i ∧ s.stop = batch := by
  have inside : i < (partition weights batch).length := by
    rw [length_partition]
    omega
  have found := List.getElem?_eq_getElem inside
  generalize (partition weights batch)[i] = s at found
  obtain ⟨ordered, count⟩ := boundary_of_cutFrom (le_largest word) (Nat.zero_le batch) found
  have all : boundary batch (totalWeight weights) weights i s.offset = batch := by
    have weight : weights.getD i 0 = weights[i] := by
      rw [List.getD_eq_getElem?_getD, List.getElem?_eq_getElem, Option.getD_some]
    rw [boundary, if_neg (by omega), weight,
      share_of_overflow proper (List.getElem_mem _) word overflow]
    exact Nat.min_eq_right (Nat.le_add_right_of_le (le_largest word))
  rw [all] at ordered count
  refine ⟨s, found, runner_of_partition found, ?_⟩
  unfold stop
  omega

/-! ## Two runners with one weight -/

/-- The product of the batch with a weight is not rounded. -/
def MultipliesExactly (batch : ℕ) (weight : Float) : Prop :=
  toRat (batch.toUInt64.toFloat * weight) = batch * toRat weight

theorem exactTotal_pair (w : Float) : exactTotal [w, w] = 2 * toRat w := by
  rw [two_mul]
  exact congrArg (toRat w + ·) (add_zero (toRat w))

/-- The sum of two equal weights is not rounded. -/
theorem toRat_totalWeight_pair (proper : Proper [w, w]) :
    toRat (totalWeight [w, w]) = 2 * toRat w := by
  have nonneg := proper.nonneg w List.mem_cons_self
  have first : (0 + w).isFinite = true := isFinite_of_add proper.finite
  exact toRat_add_of_eq (approximates_add isNonneg_zero nonneg first).nonneg nonneg
    (toRat_zero_add nonneg first) proper.finite

/-- Half of an even batch is not rounded either, unless the product is. -/
theorem share_of_multipliesExactly (proper : Proper [w, w]) {half : ℕ} (word : 2 * half < 2 ^ 32)
    (fits : Multiplies (2 * half) w) (exact' : MultipliesExactly (2 * half) w) :
    share (2 * half) w (totalWeight [w, w]) = half := by
  obtain ⟨count_nonneg, -⟩ := approximates_ofNat (n := 2 * half) (by omega)
  obtain ⟨total_nonneg, -, -⟩ := proper.total_near
  have above := toRat_pos total_nonneg proper.above
  have product := approximates_mul count_nonneg (proper.nonneg w List.mem_cons_self) fits
  have number : toRat ((2 * half).toUInt64.toFloat * w) / toRat (totalWeight [w, w]) = half := by
    rw [toRat_totalWeight_pair proper] at above ⊢
    rw [exact', div_eq_iff above.ne', Nat.cast_mul, Nat.cast_ofNat]
    ring
  have bound : (half : ℚ) ≤ 2 ^ 64 := by exact_mod_cast (by omega : half ≤ 2 ^ 64)
  have quotient := approximates_div product.nonneg total_nonneg above (by rwa [number])
  rw [number] at quotient
  have value : toRat ((2 * half).toUInt64.toFloat * w / totalWeight [w, w]) = half :=
    quotient.exact (e := 0) (m := half) (by omega) (by norm_num) (by simp)
  have below : (half : ℚ) < 2 ^ 64 := by exact_mod_cast (by omega : half < 2 ^ 64)
  have floor := toUInt64_eq_floor quotient.nonneg (by rwa [value])
  rw [value, Nat.floor_natCast] at floor
  exact floor

/-- The counts of two runners with one weight. -/
theorem counts_of_pair (proper : Proper [w, w]) (word : batch < 2 ^ 32)
    (fits : Multiplies batch w) :
    ∃ first second, partition [w, w] batch = [first, second] ∧
      |(first.count : ℤ) - second.count| ≤ 2 ∧
      (Odd batch ∨ MultipliesExactly batch w → |(first.count : ℤ) - second.count| ≤ 1) := by
  have room := sum_shares_take_le proper word (i := 1) (by simpa using fits)
  simp only [List.take_succ_cons, List.take_zero, List.map_cons, List.map_nil, List.sum_cons,
    List.sum_nil, Nat.add_zero] at room
  have boundary : min (Size.addSaturating (share batch w (totalWeight [w, w])) 0) batch =
      share batch w (totalWeight [w, w]) := by
    rw [min_addSaturating (le_largest word)]
    omega
  have cut : partition [w, w] batch = [⟨0, 0, share batch w (totalWeight [w, w])⟩,
      ⟨1, share batch w (totalWeight [w, w]), batch - share batch w (totalWeight [w, w])⟩] := by
    rw [partition, cutFrom, boundary, cutFrom, Nat.sub_zero]
    exact List.cons_ne_nil _ _
  obtain ⟨-, near⟩ := share_near proper List.mem_cons_self word fits
  have half : quota batch w [w, w] = batch / 2 := by
    obtain ⟨-, positive, -⟩ := proper.total_near
    unfold quota
    rw [exactTotal_pair] at positive ⊢
    rw [div_eq_div_iff positive.ne' (by norm_num)]
    ring
  refine ⟨_, _, cut, ?_⟩
  dsimp only
  have exactly : MultipliesExactly batch w → Even batch →
      2 * share batch w (totalWeight [w, w]) = batch := by
    rintro exact' ⟨k, rfl⟩
    rw [← two_mul] at word fits exact' ⊢
    rw [share_of_multipliesExactly proper word fits exact']
  generalize share batch w (totalWeight [w, w]) = c at *
  -- Twice the share is at most two away from the batch, and so are the counts from each other.
  rw [half] at near
  obtain ⟨lower, upper⟩ := abs_lt.1 near
  have least : batch < 2 * c + 3 := by
    have : (batch : ℚ) < 2 * c + 3 := by linarith
    exact_mod_cast this
  have most : 2 * c < batch + 3 := by
    have : (2 * c : ℚ) < batch + 3 := by linarith
    exact_mod_cast this
  refine ⟨abs_le.2 ⟨by omega, by omega⟩, fun precise => ?_⟩
  rcases Nat.even_or_odd batch with even | odd
  · have same := exactly (precise.resolve_left (Nat.not_odd_iff_even.2 even)) even
    exact abs_le.2 ⟨by omega, by omega⟩
  · obtain ⟨k, odd⟩ := odd
    exact abs_le.2 ⟨by omega, by omega⟩

/-! ## What holds, and what does not -/

/-- **Slices are in proportion to the weights** that runners are accepted with. Each runner but the
last gets less than two records more or less than is due to it, as long as no product up to its own
overflows; one whose product does overflow gets all that is left. Two runners with one weight get
counts that are two apart at most, and one where the batch is odd or the product is not rounded. -/
theorem partition_proportional (runners : List (String × Float)) (batch : ℕ)
    (accepted : Runner.check runners = .ok ()) (few : runners.length ≤ 1000)
    (word : batch < 2 ^ 32) :
    let weights := runners.map (·.2)
    (∀ (i : ℕ) (later : i + 1 < weights.length),
      (∀ w ∈ weights.take (i + 1), Multiplies batch w) →
      ∃ s, (partition weights batch)[i]? = some s ∧ s.runner = i ∧
        |(s.count : ℚ) - quota batch weights[i] weights| < 2) ∧
    (∀ (i : ℕ) (later : i + 1 < weights.length), ¬ Multiplies batch weights[i] →
      ∃ s, (partition weights batch)[i]? = some s ∧ s.runner = i ∧ s.stop = batch) ∧
    ∀ w, weights = [w, w] → Multiplies batch w →
      ∃ first second, partition weights batch = [first, second] ∧
        |(first.count : ℤ) - second.count| ≤ 2 ∧
        (Odd batch ∨ MultipliesExactly batch w → |(first.count : ℤ) - second.count| ≤ 1) := by
  intro weights
  have proper : Proper weights := proper_of_check accepted few
  refine ⟨fun i later fits => ?near, fun i later => stop_of_overflow proper word later,
    fun w same fits => ?equal⟩
  case near =>
    obtain ⟨s, found, runner, count⟩ := count_of_partition proper word later fits
    have mem : weights[i] ∈ weights.take (i + 1) :=
      List.mem_take_iff_getElem.2 ⟨i, by omega, rfl⟩
    obtain ⟨-, near⟩ := share_near proper (List.getElem_mem _) word (fits _ mem)
    rw [← count] at near
    exact ⟨s, found, runner, near.trans (by norm_num)⟩
  case equal =>
    rw [same] at proper ⊢
    exact counts_of_pair proper word fits

theorem eq_ok_of_isOk {ε : Type} {x : Except ε Unit} (ok : x.isOk = true) : x = .ok () := by
  cases x with
  | error e => cases ok
  | ok => rfl

/-- Seven records for two runners with one weight; and a product that overflows. -/
theorem partition_proportional_pairs :
    (Runner.check [("a", 3), ("b", 3)] = .ok () ∧ Multiplies 7 3 ∧
      (∃ s, (partition [3, 3] 7)[0]? = some s ∧ s.runner = 0 ∧
        |(s.count : ℚ) - quota 7 3 [3, 3]| < 2) ∧
      ∃ first second, partition [3, 3] 7 = [first, second] ∧
        |(first.count : ℤ) - second.count| ≤ 1) ∧
    Runner.check [("a", 1e308), ("b", 7e307)] = .ok () ∧ ¬ Multiplies 10 1e308 ∧
      ∃ s, (partition [1e308, 7e307] 10)[0]? = some s ∧ s.runner = 0 ∧ s.stop = 10 := by
  have accepted : Runner.check [("a", 3), ("b", 3)] = .ok () := eq_ok_of_isOk (by decide +kernel)
  have fits : Multiplies 7 3 := by
    unfold Multiplies
    decide +kernel
  have heavy : Runner.check [("a", 1e308), ("b", 7e307)] = .ok () :=
    eq_ok_of_isOk (by decide +kernel)
  have overflow : ¬ Multiplies 10 1e308 := by
    unfold Multiplies
    decide +kernel
  obtain ⟨near, -, equal⟩ := partition_proportional _ 7 accepted (by decide) (by decide)
  obtain ⟨-, rest, -⟩ := partition_proportional _ 10 heavy (by decide) (by decide)
  obtain ⟨first, second, cut, -, apart⟩ := equal 3 rfl fits
  exact ⟨⟨accepted, fits, near 0 (by decide) (by simpa using fits), first, second, cut,
    apart (.inl (by decide))⟩, heavy, overflow, rest 0 (by decide) overflow⟩

/-- **Slices may be out of proportion.** Of two weights that are accepted, the first takes all ten
records, although less than six are due to it: ten times its weight is infinite. And of six records,
two runners with one weight get two and four: six times the weight is rounded down. -/
theorem partition_not_proportional :
    (Runner.check [("a", 1e308), ("b", 7e307)] = .ok () ∧
      partition [1e308, 7e307] 10 = [⟨0, 0, 10⟩, ⟨1, 10, 0⟩] ∧
      2 ≤ |(10 : ℚ) - quota 10 1e308 [1e308, 7e307]|) ∧
    Runner.check [("a", 6004799503160662), ("b", 6004799503160662)] = .ok () ∧
      partition [6004799503160662, 6004799503160662] 6 = [⟨0, 0, 2⟩, ⟨1, 2, 4⟩] :=
  ⟨⟨eq_ok_of_isOk (by decide +kernel), by decide +kernel, by decide +kernel⟩,
    eq_ok_of_isOk (by decide +kernel), by decide +kernel⟩

end BatchDigest.Slice
