import BatchDigest.Proofs.Batch.Partition
import BatchDigest.Proofs.Batch.Results

/-!
# Sizes that no word is too small for

A batch is given by two 32-bit words, the length of its records and their number. Offsets and
lengths in bytes are products of these, of the digest size, and of what the batch is cut into, and
they are computed in three ways: by a product that stops at the largest word when memory is asked
for, by one that wraps when bytes are copied, and by one that is checked when the kernel starts.
All three come to the same, which is the product of the numbers (`Size.Exact`), because a slice does
not reach past the end of its batch and a digest is not longer than 64 bytes.
-/

namespace BatchDigest

/-- However it is computed, the product is that of the numbers. -/
structure Size.Exact (a b : Nat) : Prop where
  small : a * b < 2 ^ 64
  checked : Size.mul? a b = some (a * b)
  saturating : Size.mulSaturating a b = a * b
  wrapping : (UInt64.ofNat a * UInt64.ofNat b).toNat = a * b

namespace Size

variable {a b : Nat}

theorem lt_iff_le_largest : a < 2 ^ 64 ↔ a ≤ largest :=
  Nat.lt_succ_iff

theorem exact_of_lt (small : a * b < 2 ^ 64) : Exact a b where
  small := small
  checked := mul?_eq_some_iff.2 ⟨lt_iff_le_largest.1 small, rfl⟩
  saturating := Nat.min_eq_left (lt_iff_le_largest.1 small)
  wrapping := by
    rw [UInt64.toNat_mul, UInt64.toNat_ofNat', UInt64.toNat_ofNat', ← Nat.mul_mod,
      Nat.mod_eq_of_lt small]

/-- Two 32-bit words have a product of 64 bits at most. -/
theorem exact_of_words (first : a < 2 ^ 32) (second : b < 2 ^ 32) : Exact a b :=
  exact_of_lt <| calc
    a * b < 2 ^ 32 * 2 ^ 32 := Nat.mul_lt_mul'' first second
    _ = 2 ^ 64 := rfl

/-- A sum of 64 bits at most does not wrap. -/
theorem toNat_add_of_lt (small : a + b < 2 ^ 64) :
    (UInt64.ofNat a + UInt64.ofNat b).toNat = a + b := by
  rw [UInt64.toNat_add, UInt64.toNat_ofNat', UInt64.toNat_ofNat', ← Nat.add_mod,
    Nat.mod_eq_of_lt small]

end Size

/-- Every size that hashing a slice takes is exact, for records of one length and digests of one
size. -/
structure Slice.Exact (s : Slice) (recordLength size : Nat) : Prop where
  /-- One past the last record. -/
  stop : s.offset + s.count < 2 ^ 64
  stopWord : (UInt64.ofNat s.offset + UInt64.ofNat s.count).toNat = s.stop
  /-- The bytes of the records. -/
  input : Size.Exact recordLength s.count
  /-- The bytes of the digests. -/
  output : Size.Exact size s.count
  /-- The first byte of the records. -/
  first : Size.Exact s.offset recordLength
  /-- One past the last byte of the records. -/
  last : Size.Exact s.stop recordLength
  /-- The first byte of the digests. -/
  target : Size.Exact s.offset size
  /-- One past the last byte of the digests. -/
  finish : Size.Exact s.stop size
  /-- A slice with records asks for at least one byte of each. -/
  asked : 1 ≤ max (Size.mulSaturating recordLength s.count) 1 ∧
    (0 < s.count → 1 ≤ Size.mulSaturating size s.count)

/-- **The sizes of a slice are exact** when the length and the number of the records are 32-bit
words, whatever the weights by which the batch is cut. -/
theorem Slice.exact_of_mem_partition {a : Algorithm} (supported : a.isSupported)
    {recordLength count : Nat} (length : recordLength < 2 ^ 32) (batch : count < 2 ^ 32)
    {weights : List Float} {s : Slice} (mem : s ∈ partition weights count) :
    s.Exact recordLength a.digestSize := by
  obtain ⟨some, few⟩ := Algorithm.digestSize_bounds supported
  have size : a.digestSize < 2 ^ 32 := Nat.lt_of_le_of_lt few (by decide)
  have inside : s.stop ≤ count :=
    (bounds_of_mem_cutFrom (Nat.le_of_lt (Nat.lt_trans batch (by decide))) weights
      (Nat.zero_le count) mem).2
  have stop : s.stop < 2 ^ 32 := Nat.lt_of_le_of_lt inside batch
  have offset : s.offset < 2 ^ 32 := Nat.lt_of_le_of_lt (Nat.le_add_right _ _) stop
  have records : s.count < 2 ^ 32 := Nat.lt_of_le_of_lt (Nat.le_add_left _ _) stop
  have sum : s.offset + s.count < 2 ^ 64 := Nat.lt_trans stop (by decide)
  have output : Size.Exact a.digestSize s.count := Size.exact_of_words size records
  refine ⟨sum, Size.toNat_add_of_lt sum, Size.exact_of_words length records, output,
    Size.exact_of_words offset length, Size.exact_of_words stop length,
    Size.exact_of_words offset size, Size.exact_of_words stop size, Nat.le_max_right _ _, ?_⟩
  intro filled
  rw [output.saturating]
  exact Nat.mul_pos some filled

end BatchDigest
