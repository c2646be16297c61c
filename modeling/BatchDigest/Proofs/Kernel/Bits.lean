import Mathlib.Algebra.Order.Group.Nat
import Mathlib.Data.List.GetD
import Mathlib.Data.List.OfFn
import Mathlib.Data.Nat.Digits.Defs
import BatchDigest.Proofs.Kernel.Total

/-!
# Bits of words and byte strings

Standards of hash functions speak of strings of bits, of words of bits or of the numbers that words
write. A byte string is read here as a string of bits, the lowest bit of each byte first, and a word
through the bits of its number. With this reading the little-endian word at an offset is a piece of
the string, and turning a word moves its bits along.
-/

namespace BatchDigest

namespace Bytes

/-! ## Strings of bits -/

/-- The bits of a string, the lowest bit of each byte first. -/
def bits (bytes : Bytes) : List Bool :=
  bytes.flatMap fun byte => List.ofFn fun i : Fin 8 => byte.toNat.testBit i

@[simp] theorem bits_nil : bits [] = [] := rfl

theorem bits_append (a b : Bytes) : bits (a ++ b) = bits a ++ bits b :=
  List.flatMap_append

theorem bits_cons (byte : UInt8) (bytes : Bytes) :
    bits (byte :: bytes) = (List.ofFn fun i : Fin 8 => byte.toNat.testBit i) ++ bits bytes :=
  List.flatMap_cons

@[simp] theorem length_bits (bytes : Bytes) : (bits bytes).length = 8 * bytes.length := by
  induction bytes with
  | nil => rfl
  | cons byte bytes ih =>
    rw [bits_cons, List.length_append, List.length_ofFn, ih, List.length_cons]
    omega

theorem bits_take (count : Nat) (bytes : Bytes) :
    bits (bytes.take count) = (bits bytes).take (8 * count) := by
  by_cases inside : count ≤ bytes.length
  · have front : (bits (bytes.take count)).length = 8 * count := by
      rw [length_bits, List.length_take, Nat.min_eq_left inside]
    have parts : bits bytes = bits (bytes.take count) ++ bits (bytes.drop count) := by
      rw [← bits_append, List.take_append_drop]
    rw [parts, List.take_left' front]
  · rw [List.take_of_length_le (by omega), List.take_of_length_le (by rw [length_bits]; omega)]

theorem bits_drop (count : Nat) (bytes : Bytes) :
    bits (bytes.drop count) = (bits bytes).drop (8 * count) := by
  have parts : bits (bytes.take count) ++ bits (bytes.drop count) = bits bytes := by
    rw [← bits_append, List.take_append_drop]
  rw [bits_take] at parts
  have halves := List.take_append_drop (8 * count) (bits bytes)
  exact List.append_cancel_left (parts.trans halves.symm)

theorem bits_zeros (count : Nat) : bits (zeros count) = List.replicate (8 * count) false := by
  induction count with
  | zero => rfl
  | succ count ih =>
    have first : zeros (count + 1) = 0 :: zeros count := List.replicate_succ
    rw [first, bits_cons, ih, Nat.mul_succ, Nat.add_comm, ← List.replicate_append_replicate]
    rfl

/-- A string is determined by its bits. -/
theorem bits_injective {a b : Bytes} (same : bits a = bits b) : a = b := by
  induction a generalizing b with
  | nil =>
    have length := congrArg List.length same
    rw [length_bits, length_bits, List.length_nil] at length
    exact (List.eq_nil_of_length_eq_zero (by omega)).symm
  | cons byte a ih =>
    cases b with
    | nil =>
      have length := congrArg List.length same
      rw [length_bits, length_bits, List.length_nil, List.length_cons] at length
      omega
    | cons other b =>
      rw [bits_cons, bits_cons] at same
      obtain ⟨first, rest⟩ := List.append_inj same (by rw [List.length_ofFn, List.length_ofFn])
      have bit := congrFun (List.ofFn_injective first)
      have equal : byte.toNat = other.toNat := by
        refine Nat.eq_of_testBit_eq fun i => ?_
        by_cases inside : i < 8
        · exact bit ⟨i, inside⟩
        · have high : 2 ^ 8 ≤ 2 ^ i := Nat.pow_le_pow_right (by decide) (by omega)
          rw [Nat.testBit_lt_two_pow (Nat.lt_of_lt_of_le byte.toNat_lt high),
            Nat.testBit_lt_two_pow (Nat.lt_of_lt_of_le other.toNat_lt high)]
      rw [UInt8.toNat_inj.1 equal, ih rest]

/-! ## Numbers and words -/

theorem littleEndian_cons (byte : UInt8) (bytes : Bytes) :
    littleEndian (byte :: bytes) = byte.toNat + 256 * littleEndian bytes := rfl

theorem littleEndian_eq_ofDigits (bytes : Bytes) :
    littleEndian bytes = Nat.ofDigits 256 (bytes.map UInt8.toNat) := by
  induction bytes with
  | nil => rfl
  | cons byte bytes ih =>
    rw [littleEndian_cons, ih, List.map_cons, Nat.ofDigits_cons]

/-- The bits of the number that a string writes are those of the string. -/
theorem testBit_littleEndian (bytes : Bytes) (k : Nat) :
    (littleEndian bytes).testBit k = (bits bytes).getD k false := by
  induction bytes generalizing k with
  | nil => exact Nat.zero_testBit k
  | cons byte bytes ih =>
    have small : byte.toNat < 2 ^ 8 := byte.toNat_lt
    have first : (List.ofFn fun i : Fin 8 => byte.toNat.testBit i).length = 8 := List.length_ofFn
    rw [littleEndian_cons, Nat.add_comm, show (256 : Nat) = 2 ^ 8 from rfl,
      Nat.testBit_two_pow_mul_add _ small, bits_cons]
    by_cases inside : k < 8
    · rw [if_pos inside, List.getD_append _ _ _ _ (by omega), List.getD_eq_getElem?_getD,
        List.getElem?_ofFn, dif_pos inside]
      rfl
    · rw [if_neg inside, List.getD_append_right _ _ _ _ (by omega), first, ih]

/-- The lowest bytes of a number write what they keep of it. -/
theorem littleEndian_ofNatLE (count value : Nat) :
    littleEndian (ofNatLE count value) = value % 256 ^ count := by
  induction count generalizing value with
  | zero => rw [Nat.pow_zero, Nat.mod_one]; rfl
  | succ count ih =>
    have byte : value.toUInt8.toNat = value % 256 := rfl
    show value.toUInt8.toNat + 256 * littleEndian (ofNatLE count (value / 256)) = _
    rw [ih, byte, Nat.pow_succ', Nat.mod_mul]

/-- The byte of a number at a place. -/
theorem getElem_ofNatLE {count i : Nat} (value : Nat) (inside : i < (ofNatLE count value).length) :
    (ofNatLE count value)[i] = UInt8.ofNat (value / 256 ^ i) := by
  induction count generalizing value i with
  | zero => exact absurd inside (Nat.not_lt_zero i)
  | succ count ih =>
    cases i with
    | zero =>
      rw [Nat.pow_zero, Nat.div_one]
      rfl
    | succ i =>
      rw [Nat.pow_succ', ← Nat.div_div_eq_div_mul]
      exact ih (value / 256) (Nat.lt_of_succ_lt_succ inside)

/-- A word is read back from where it was written. -/
theorem word64LE_ofNatLE (word : UInt64) (rest : Bytes) :
    word64LE (ofNatLE 8 word.toNat ++ rest) = word := by
  unfold word64LE
  have small : word.toNat < 256 ^ 8 := word.toNat_lt
  rw [List.take_left' (length_ofNatLE 8 _), littleEndian_ofNatLE, Nat.mod_eq_of_lt small]
  exact UInt64.ofNat_toNat

/-- The bytes from the place of an item on, of items of equal size. -/
theorem drop_flatMap {α : Type} {write : α → Bytes} {size : Nat}
    (sizes : ∀ item, (write item).length = size) {items : List α} {i : Nat}
    (inside : i < items.length) :
    (items.flatMap write).drop (size * i) =
      write items[i] ++ (items.drop (i + 1)).flatMap write := by
  have front : ((items.take i).flatMap write).length = size * i := by
    rw [length_flatMap size sizes, List.length_take, Nat.min_eq_left (Nat.le_of_lt inside)]
  have parts : items.flatMap write =
      (items.take i).flatMap write ++ (items.drop i).flatMap write := by
    rw [← List.flatMap_append, List.take_append_drop]
  rw [parts, List.drop_left' front, List.drop_eq_getElem_cons inside, List.flatMap_cons]

/-- A word of a row is read back by its number. -/
theorem word64LE_ofWords64LE {words : List UInt64} {i : Nat} (inside : i < words.length)
    (rest : Bytes) : word64LE ((ofWords64LE words ++ rest).drop (8 * i)) = words[i] := by
  have place : 8 * i ≤ (ofWords64LE words).length := by
    rw [length_ofWords64LE]
    omega
  rw [List.drop_append_of_le_length place]
  unfold ofWords64LE
  rw [drop_flatMap (fun _ => length_ofNatLE 8 _) inside, List.append_assoc, word64LE_ofNatLE]

/-- A row of words is read back. -/
theorem words64LE_ofWords64LE {n : Nat} (words : Vector UInt64 n) (rest : Bytes) :
    words64LE n (ofWords64LE words.toList ++ rest) = words := by
  refine Vector.ext ?_
  intro i inside
  unfold words64LE
  rw [Vector.getElem_ofFn, word64LE_ofWords64LE (by simpa using inside)]
  exact Vector.getElem_toList _

/-- A word of 32 bits is read back from where it was written. -/
theorem word32LE_ofNatLE (word : UInt32) (rest : Bytes) :
    word32LE (ofNatLE 4 word.toNat ++ rest) = word := by
  unfold word32LE
  have small : word.toNat < 256 ^ 4 := word.toNat_lt
  rw [List.take_left' (length_ofNatLE 4 _), littleEndian_ofNatLE, Nat.mod_eq_of_lt small]
  exact UInt32.ofNat_toNat

/-- A word of 32 bits of a row is read back by its number. -/
theorem word32LE_ofWords32LE {words : List UInt32} {i : Nat} (inside : i < words.length)
    (rest : Bytes) : word32LE ((ofWords32LE words ++ rest).drop (4 * i)) = words[i] := by
  have place : 4 * i ≤ (ofWords32LE words).length := by
    rw [length_ofWords32LE]
    omega
  rw [List.drop_append_of_le_length place]
  unfold ofWords32LE
  rw [drop_flatMap (fun _ => length_ofNatLE 4 _) inside, List.append_assoc, word32LE_ofNatLE]

/-- A row of words of 32 bits is read back. -/
theorem words32LE_ofWords32LE {n : Nat} (words : Vector UInt32 n) (rest : Bytes) :
    words32LE n (ofWords32LE words.toList ++ rest) = words := by
  refine Vector.ext ?_
  intro i inside
  unfold words32LE
  rw [Vector.getElem_ofFn, word32LE_ofWords32LE (by simpa using inside)]
  exact Vector.getElem_toList _

/-- The bits of the word at the front. -/
theorem testBit_word64LE (bytes : Bytes) {z : Nat} (inside : z < 64) :
    (word64LE bytes).toNat.testBit z = (bits bytes).getD z false := by
  have number : (word64LE bytes).toNat = littleEndian (bytes.take 8) % 2 ^ 64 :=
    UInt64.toNat_ofNat'
  rw [number, Nat.testBit_mod_two_pow, decide_eq_true inside, Bool.true_and, testBit_littleEndian,
    bits_take, List.getD_eq_getElem?_getD, List.getD_eq_getElem?_getD,
    List.getElem?_take_of_lt inside]

/-- Eight bytes are determined by the word that they write. -/
theorem word64LE_injective {a b : Bytes} (left : a.length = 8) (right : b.length = 8)
    (same : word64LE a = word64LE b) : a = b := by
  refine bits_injective (List.ext_getElem (by rw [length_bits, length_bits, left, right]) ?_)
  intro z inA inB
  have inside : z < 64 := by rwa [length_bits, left] at inA
  have bit := testBit_word64LE a inside
  rw [same, testBit_word64LE b inside, List.getD_eq_getElem _ _ inA,
    List.getD_eq_getElem _ _ inB] at bit
  exact bit.symm

/-- The bits of a row of words, word after word. -/
theorem getD_bits_ofWords64LE {words : List UInt64} {i z : Nat} (row : i < words.length)
    (inside : z < 64) :
    (bits (ofWords64LE words)).getD (64 * i + z) false = words[i].toNat.testBit z := by
  rw [← word64LE_ofWords64LE row [], testBit_word64LE _ inside, List.append_nil, bits_drop,
    List.getD_eq_getElem?_getD, List.getD_eq_getElem?_getD, List.getElem?_drop]
  congr 2
  omega

end Bytes

/-! ## Operations on words -/

/-- An entry of a row that is made from its number. -/
theorem get_ofFn {α : Type} {n : Nat} (make : Fin n → α) (i : Fin n) :
    (Vector.ofFn make).get i = make i :=
  Vector.getElem_ofFn i.isLt

/-- A row with another entry at a place. -/
theorem get_setAt {α : Type} {n : Nat} (row : Vector α n) (place : Fin n) (value : α) :
    (Bytes.setAt row place value).get = Function.update row.get place value := by
  funext i
  unfold Bytes.setAt
  rw [Function.update_apply]
  show (row.set place.val value place.isLt)[i.val] = _
  rw [Vector.getElem_set]
  by_cases same : i = place
  · rw [if_pos (congrArg Fin.val same.symm), if_pos same]
  · have other : place.val ≠ i.val := fun equal => same (Fin.ext equal.symm)
    rw [if_neg other, if_neg same]
    rfl

theorem testBit_xor64 (a b : UInt64) (z : Nat) :
    (a ^^^ b).toNat.testBit z = (a.toNat.testBit z ^^ b.toNat.testBit z) := by
  rw [UInt64.toNat_xor, Nat.testBit_xor]

theorem testBit_and64 (a b : UInt64) (z : Nat) :
    (a &&& b).toNat.testBit z = (a.toNat.testBit z && b.toNat.testBit z) := by
  rw [UInt64.toNat_and, Nat.testBit_and]

theorem testBit_not64 (a : UInt64) {z : Nat} (inside : z < 64) :
    (~~~a).toNat.testBit z = !a.toNat.testBit z := by
  rw [← UInt64.toNat_toBitVec, ← UInt64.toNat_toBitVec, UInt64.toBitVec_not, BitVec.testBit_toNat,
    BitVec.testBit_toNat, BitVec.getLsbD_not, decide_eq_true inside, Bool.true_and]

/-- An amount below the width is what a shift shifts by. -/
private theorem shiftAmount {amount : Nat} (small : amount < 64) :
    ((UInt64.ofNat amount).toBitVec % 64).toNat = amount := by
  have fits : amount < UInt64.size := Nat.lt_trans small (by decide)
  rw [BitVec.toNat_umod, UInt64.toNat_toBitVec, UInt64.toNat_ofNat_of_lt' fits]
  exact Nat.mod_eq_of_lt small

/-- What is left of the width is the shift to the other side. -/
private theorem restAmount {amount : Nat} (small : amount < 64) :
    64 - UInt64.ofNat amount = UInt64.ofNat (64 - amount) := by
  rw [UInt64.ofNat_sub (Nat.le_of_lt small)]
  rfl

/-- A word turned to the left is turned in a cycle of 64 places. -/
theorem toBitVec_rotateLeft64 (a : UInt64) {amount : Nat} (positive : 0 < amount)
    (small : amount < 64) :
    (Bytes.rotateLeft64 a (UInt64.ofNat amount)).toBitVec = a.toBitVec.rotateLeft amount := by
  unfold Bytes.rotateLeft64
  rw [restAmount small, UInt64.toBitVec_or, UInt64.toBitVec_shiftLeft, UInt64.toBitVec_shiftRight,
    BitVec.shiftLeft_eq', BitVec.ushiftRight_eq', shiftAmount small, shiftAmount (by omega),
    BitVec.rotateLeft_def, Nat.mod_eq_of_lt small]

/-- A word turned to the right is turned in a cycle of 64 places. -/
theorem toBitVec_rotateRight64 (a : UInt64) {amount : Nat} (positive : 0 < amount)
    (small : amount < 64) :
    (Bytes.rotateRight64 a (UInt64.ofNat amount)).toBitVec = a.toBitVec.rotateRight amount := by
  unfold Bytes.rotateRight64
  rw [restAmount small, UInt64.toBitVec_or, UInt64.toBitVec_shiftLeft, UInt64.toBitVec_shiftRight,
    BitVec.shiftLeft_eq', BitVec.ushiftRight_eq', shiftAmount small, shiftAmount (by omega),
    BitVec.rotateRight_def, Nat.mod_eq_of_lt small]

/-- Turning a word to the left moves each bit to a higher place of the cycle. -/
theorem testBit_rotateLeft64 (a : UInt64) {amount : Nat} (positive : 0 < amount)
    (small : amount < 64) (z : Fin 64) :
    (Bytes.rotateLeft64 a (UInt64.ofNat amount)).toNat.testBit z =
      a.toNat.testBit (z - Fin.ofNat 64 amount : Fin 64) := by
  rw [← UInt64.toNat_toBitVec, ← UInt64.toNat_toBitVec, toBitVec_rotateLeft64 a positive small,
    BitVec.testBit_toNat, BitVec.testBit_toNat, BitVec.getLsbD_rotateLeft,
    Nat.mod_eq_of_lt small]
  have place : (z - Fin.ofNat 64 amount : Fin 64).val = (64 - amount + z.val) % 64 := by
    rw [Fin.sub_def]
    show (64 - amount % 64 + z.val) % 64 = _
    rw [Nat.mod_eq_of_lt small]
  have inside := z.isLt
  rw [place]
  by_cases wraps : z.val < amount
  · rw [decide_eq_true wraps, cond_true, Nat.mod_eq_of_lt (by omega)]
  · rw [decide_eq_false wraps, cond_false, decide_eq_true inside, Bool.true_and]
    congr 1
    omega

/-- An amount below the width is what a shift of 32 bits shifts by. -/
private theorem shiftAmount32 {amount : Nat} (small : amount < 32) :
    ((UInt32.ofNat amount).toBitVec % 32).toNat = amount := by
  have fits : amount < UInt32.size := Nat.lt_trans small (by decide)
  rw [BitVec.toNat_umod, UInt32.toNat_toBitVec, UInt32.toNat_ofNat_of_lt' fits]
  exact Nat.mod_eq_of_lt small

/-- What is left of a width of 32 bits is the shift to the other side. -/
private theorem restAmount32 {amount : Nat} (small : amount < 32) :
    32 - UInt32.ofNat amount = UInt32.ofNat (32 - amount) := by
  rw [UInt32.ofNat_sub (Nat.le_of_lt small)]
  rfl

/-- A word of 32 bits turned to the left is turned in a cycle of 32 places. -/
theorem toBitVec_rotateLeft32 (a : UInt32) {amount : Nat} (positive : 0 < amount)
    (small : amount < 32) :
    (Bytes.rotateLeft32 a (UInt32.ofNat amount)).toBitVec = a.toBitVec.rotateLeft amount := by
  unfold Bytes.rotateLeft32
  rw [restAmount32 small, UInt32.toBitVec_or, UInt32.toBitVec_shiftLeft, UInt32.toBitVec_shiftRight,
    BitVec.shiftLeft_eq', BitVec.ushiftRight_eq', shiftAmount32 small, shiftAmount32 (by omega),
    BitVec.rotateLeft_def, Nat.mod_eq_of_lt small]

/-- A word of 32 bits turned to the right is turned in a cycle of 32 places. -/
theorem toBitVec_rotateRight32 (a : UInt32) {amount : Nat} (positive : 0 < amount)
    (small : amount < 32) :
    (Bytes.rotateRight32 a (UInt32.ofNat amount)).toBitVec = a.toBitVec.rotateRight amount := by
  unfold Bytes.rotateRight32
  rw [restAmount32 small, UInt32.toBitVec_or, UInt32.toBitVec_shiftLeft, UInt32.toBitVec_shiftRight,
    BitVec.shiftLeft_eq', BitVec.ushiftRight_eq', shiftAmount32 small, shiftAmount32 (by omega),
    BitVec.rotateRight_def, Nat.mod_eq_of_lt small]

/-- A word of 32 bits shifted to the right. -/
theorem toBitVec_shiftRight32 (a : UInt32) {amount : Nat} (small : amount < 32) :
    (a >>> UInt32.ofNat amount).toBitVec = a.toBitVec >>> amount := by
  rw [UInt32.toBitVec_shiftRight, BitVec.ushiftRight_eq', shiftAmount32 small]

end BatchDigest
