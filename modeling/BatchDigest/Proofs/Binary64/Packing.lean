import BatchDigest.Proofs.Binary64.Rounding

/-!
# Doubles in bits

The bits of a double hold a sign, an exponent and a mantissa whose first bit is left out when it is
set. What they hold is always in the form of a double, and what is in that form is read back from
its bits unless its exponent is too large; then the bits hold an infinity.
-/

namespace BatchDigest.Binary64

open Float.Model
open Float.Model.UnpackedFloat

/-- A mantissa of 52 bits, with the bit that is left out. -/
theorem toNat_implicit (mantissa : BitVec 52) :
    (1#1 ++ mantissa).toNat = 2 ^ 52 + mantissa.toNat := by
  rw [BitVec.toNat_append, ← Nat.shiftLeft_add_eq_or_of_lt mantissa.isLt]
  rfl

/-- What the three fields of a double hold. -/
def ofFields (sign : Sign) (exponent : BitVec 11) (mantissa : BitVec 52) : UnpackedFloat :=
  if exponent = -1#11 then
    if mantissa = 0#52 then .infinity sign else .notANumber
  else if exponent = 0#11 then
    if zero : mantissa = 0#52 then .zero sign
    else .finite sign mantissa.toNat (exponent.toNat - 1075 + 1) (by
      simpa [BitVec.toNat_pos, BitVec.pos_iff_ne_zero])
  else .finite sign (1#1 ++ mantissa).toNat (exponent.toNat - 1075) (by
    rw [toNat_implicit]
    omega)

theorem unpack_eq_ofFields (f : Float.Model) : f.unpack =
    ofFields (.ofBitVec (@unpackSign .binary64 f.toBits.toBitVec))
      (@unpackExponent .binary64 f.toBits.toBitVec)
      (@unpackMantissa .binary64 f.toBits.toBitVec) :=
  rfl

/-- What bits hold is in the form of a double. -/
theorem canonical_unpack (f : Float.Model) : Canonical f.unpack := by
  rw [unpack_eq_ofFields]
  generalize @unpackExponent .binary64 f.toBits.toBitVec = exponent
  generalize @unpackMantissa .binary64 f.toBits.toBitVec = mantissa
  have bound : mantissa.toNat < 2 ^ 52 := mantissa.isLt
  unfold ofFields
  split_ifs with special infinite subnormal zero
  · trivial
  · trivial
  · trivial
  · subst subnormal
    exact ⟨by omega, by decide, .inr (by decide)⟩
  · have positive : exponent.toNat ≠ 0 := fun zero => subnormal (BitVec.eq_of_toNat_eq zero)
    have implicit := toNat_implicit mantissa
    exact ⟨by omega, by omega, .inl (by omega)⟩

private theorem unpackSign_packComponents {spec : Format} (sign : Sign)
    (exponent : BitVec spec.exponentBits) (mantissa : BitVec spec.mantissaBitsWithoutImplicit) :
    unpackSign (packComponents spec sign exponent mantissa) = sign.toBitVec := by
  refine BitVec.eq_of_getLsbD_eq fun i inside => ?_
  obtain rfl : i = 0 := by omega
  simp [unpackSign, packComponents, BitVec.getLsbD_append, BitVec.getElem_append]

private theorem ofBitVec_toBitVec (sign : Sign) : Sign.ofBitVec sign.toBitVec = sign := by
  cases sign <;> rfl

/-- Packed fields are read back. -/
theorem unpack_packComponents (sign : Sign) (exponent : BitVec 11) (mantissa : BitVec 52) :
    UnpackedFloat.unpack .binary64 (packComponents .binary64 sign exponent mantissa) =
      ofFields sign exponent mantissa := by
  show ofFields (.ofBitVec (unpackSign (packComponents .binary64 sign exponent mantissa)))
    (unpackExponent (packComponents .binary64 sign exponent mantissa))
    (unpackMantissa (packComponents .binary64 sign exponent mantissa)) = _
  rw [unpackSign_packComponents, unpackExponent_packComponents, unpackMantissa_packComponents,
    ofBitVec_toBitVec]

theorem unpack_pack_eq (u : UnpackedFloat) :
    (Float.Model.pack u).unpack = UnpackedFloat.unpack .binary64 (UnpackedFloat.pack .binary64 u) :=
  rfl

theorem finite_congr {sign : Sign} {m n : ℕ} {d e : ℤ} {positive : 0 < m} {positive' : 0 < n}
    (mantissa : m = n) (exponent : d = e) :
    UnpackedFloat.finite sign m d positive = .finite sign n e positive' := by
  subst mantissa exponent
  rfl

/-- The bits of a finite number, by the size of its exponent and of its mantissa. -/
theorem pack_finite (sign : Sign) (m : ℕ) (e : ℤ) (positive : 0 < m) :
    UnpackedFloat.pack .binary64 (.finite sign m e positive) =
      if 2 ^ 11 ≤ (e + 1075).toNat + 1 then packedInfinity .binary64 sign
      else if m.log2 + 1 = 53 then
        packComponents .binary64 sign (BitVec.ofNat 11 (e + 1075).toNat) (BitVec.ofNat 52 m)
      else packComponents .binary64 sign 0 (BitVec.ofNat 52 m) := by
  have bias : e + (Format.binary64.exponentBias : ℤ) + (52 : ℕ) = e + 1075 := by
    show e + (1023 : ℕ) + (52 : ℕ) = e + 1075
    omega
  rw [← bias]
  rfl

/-- What is in the form of a double is read back from its bits. -/
theorem unpack_pack_finite {sign : Sign} {m : ℕ} {e : ℤ} {positive : 0 < m}
    (canonical : Canonical (.finite sign m e positive)) (small : e ≤ 971) :
    (Float.Model.pack (.finite sign m e positive)).unpack = .finite sign m e positive := by
  obtain ⟨fits, low, bits⟩ := canonical
  obtain ⟨biased, place⟩ := Int.eq_ofNat_of_zero_le (by omega : 0 ≤ e + 1075)
  have log : m.log2 + 1 = 53 ↔ 2 ^ 52 ≤ m := by
    have lower := Nat.le_log2 (Nat.ne_of_gt positive) (k := 52)
    have upper := Nat.log2_lt (Nat.ne_of_gt positive) (k := 53)
    omega
  rw [unpack_pack_eq, pack_finite, place, Int.toNat_natCast, if_neg (by omega)]
  by_cases normal : 2 ^ 52 ≤ m
  · have exponent : (BitVec.ofNat 11 biased).toNat = biased :=
      Nat.mod_eq_of_lt (by omega)
    have mantissa : (BitVec.ofNat 52 m).toNat = m - 2 ^ 52 := by
      show m % 2 ^ 52 = _
      omega
    rw [if_pos (log.2 normal), unpack_packComponents, ofFields, if_neg, if_neg]
    · exact finite_congr (by rw [toNat_implicit, mantissa]; omega) (by rw [exponent]; omega)
    · intro zero
      have := congrArg BitVec.toNat zero
      rw [exponent] at this
      change biased = 0 at this
      omega
    · intro ones
      have := congrArg BitVec.toNat ones
      rw [exponent] at this
      change biased = 2047 at this
      omega
  · have mantissa : (BitVec.ofNat 52 m).toNat = m := Nat.mod_eq_of_lt (by omega)
    rw [if_neg (fun full => normal (log.1 full)), unpack_packComponents, ofFields,
      if_neg (by decide), if_pos (show (0 : BitVec 11) = 0#11 from rfl), dif_neg]
    · exact finite_congr mantissa (by
        show (0 : ℤ) - 1075 + 1 = e
        omega)
    · intro zero
      have := congrArg BitVec.toNat zero
      rw [mantissa] at this
      change m = 0 at this
      omega

/-- A number whose exponent is too large becomes an infinity. -/
theorem unpack_pack_large {sign : Sign} {m : ℕ} {e : ℤ} {positive : 0 < m} (large : 971 < e) :
    (Float.Model.pack (.finite sign m e positive)).unpack = .infinity sign := by
  rw [unpack_pack_eq, pack_finite, if_pos (by omega)]
  cases sign <;> rfl

/-- A double that is not too large has an exponent that is not too large. -/
theorem exponent_le {m : ℕ} {e : ℤ} {positive : 0 < m}
    (canonical : Canonical (.finite .positive m e positive))
    (small : (m : ℚ) * 2 ^ e < 2 ^ (1024 : ℤ)) : e ≤ 971 := by
  obtain ⟨_, _, bits⟩ := canonical
  by_contra large
  have full : 2 ^ 52 ≤ m := by omega
  have least : (2 : ℚ) ^ (52 : ℤ) ≤ m := by exact_mod_cast full
  have bound : (2 : ℚ) ^ (1024 : ℤ) ≤ m * 2 ^ e :=
    calc (2 : ℚ) ^ (1024 : ℤ) ≤ 2 ^ (52 + e) := zpow_le_zpow_right₀ (by norm_num) (by omega)
      _ = 2 ^ (52 : ℤ) * 2 ^ e := zpow_add₀ (by norm_num) _ _
      _ ≤ m * 2 ^ e := mul_le_mul_of_nonneg_right least (two_zpow_pos e).le
  exact absurd (bound.trans_lt small) (lt_irrefl _)

variable {u : UnpackedFloat}

/-- **A number in the form of a double is read back from its bits** when it is not too large. -/
theorem unpack_pack (nonneg : NonNeg u) (canonical : Canonical u)
    (small : value u < 2 ^ (1024 : ℤ)) : (Float.Model.pack u).unpack = u := by
  cases u with
  | zero sign => cases sign <;> rfl
  | infinity sign => cases nonneg
  | notANumber => cases nonneg
  | finite sign m e positive =>
    cases sign with
    | negative => cases nonneg
    | positive => exact unpack_pack_finite canonical (exponent_le canonical small)

/-- What is finite in bits is read back from them. -/
theorem unpack_pack_of_isFinite (nonneg : NonNeg u) (canonical : Canonical u)
    (finite : (Float.Model.pack u).unpack.isFinite = true) : (Float.Model.pack u).unpack = u := by
  match u, nonneg, canonical with
  | .zero sign, _, _ => cases sign <;> rfl
  | .finite .positive m e positive, _, canonical =>
    by_cases large : 971 < e
    · rw [unpack_pack_large large] at finite
      cases finite
    · exact unpack_pack_finite canonical (by omega)

end BatchDigest.Binary64
