import Mathlib.Data.Fintype.Basic
import Mathlib.Tactic.FinCases
import BatchDigest.Proofs.Kernel.Words

/-!
# The kernel of SHA-256 is that of FIPS 180-4

Rows of machine words and rows of words of bits are compressed alike (`wordsOf_compress`). The
kernel fills a row of 64 words from the front, and each word that it writes is that of the
recurrence (`wordsOf_schedule`). It never builds the padded message: it takes the complete blocks
from the record and closes what is left in a buffer of two blocks, and these are the blocks of the
padded message one after the other (`finalState_eq`). The words of whatever tables were staged are
the constants and the initial value of the hash (`digest_eq_sha256`).
-/

namespace BatchDigest

namespace Sha256

open Bytes (rotateRight32)
open Fips180 (Word)
open Words32

variable {n : Nat}

/-! ## Functions of words -/

/-- Rotations by the amounts of the functions. -/
theorem toBitVec_turns (x : UInt32) :
    ((rotateRight32 x 7).toBitVec = x.toBitVec.rotateRight 7 ∧
      (rotateRight32 x 18).toBitVec = x.toBitVec.rotateRight 18 ∧
      (rotateRight32 x 17).toBitVec = x.toBitVec.rotateRight 17 ∧
      (rotateRight32 x 19).toBitVec = x.toBitVec.rotateRight 19) ∧
    ((rotateRight32 x 6).toBitVec = x.toBitVec.rotateRight 6 ∧
      (rotateRight32 x 11).toBitVec = x.toBitVec.rotateRight 11 ∧
      (rotateRight32 x 25).toBitVec = x.toBitVec.rotateRight 25) ∧
    (rotateRight32 x 2).toBitVec = x.toBitVec.rotateRight 2 ∧
      (rotateRight32 x 13).toBitVec = x.toBitVec.rotateRight 13 ∧
      (rotateRight32 x 22).toBitVec = x.toBitVec.rotateRight 22 := by
  have turn : ∀ amount : Nat, 0 < amount → amount < 32 →
      (rotateRight32 x (UInt32.ofNat amount)).toBitVec = x.toBitVec.rotateRight amount :=
    fun _ positive small => toBitVec_rotateRight32 x positive small
  exact ⟨⟨turn 7 (by decide) (by decide), turn 18 (by decide) (by decide),
    turn 17 (by decide) (by decide), turn 19 (by decide) (by decide)⟩,
    ⟨turn 6 (by decide) (by decide), turn 11 (by decide) (by decide),
    turn 25 (by decide) (by decide)⟩, turn 2 (by decide) (by decide),
    turn 13 (by decide) (by decide), turn 22 (by decide) (by decide)⟩

/-- Shifts by the amounts of the functions. -/
theorem toBitVec_shifts (x : UInt32) :
    (x >>> 3).toBitVec = x.toBitVec >>> 3 ∧ (x >>> 10).toBitVec = x.toBitVec >>> 10 :=
  ⟨toBitVec_shiftRight32 x (by decide), toBitVec_shiftRight32 x (by decide)⟩

/-! ## The message schedule -/

/-- **The schedule of a block** is that of the recurrence. -/
theorem wordsOf_schedule (block : Bytes) (t : Fin 64) :
    wordsOf (schedule block) t = Fips180.schedule (Fips180.words block) t := by
  have first : Scheduled (Fips180.schedule (Fips180.words block)) 16
      (Bytes.words32BE 16 block ++ Vector.replicate 48 (0 : UInt32) : Vector UInt32 64) :=
    scheduled_block block _ fun t inside => by rw [Fips180.schedule, dif_pos inside]
  have all : Scheduled (Fips180.schedule (Fips180.words block)) (48 + 16) (schedule block) := by
    unfold schedule
    refine foldl_keeps (fun i => Scheduled (Fips180.schedule (Fips180.words block)) (i + 16))
      first ?_
    intro i w known
    rw [Nat.add_right_comm]
    refine known.set ?_
    have late : ¬ i.val + 16 < 16 := by omega
    rw [Fips180.schedule, dif_neg late]
    simp only [UInt32.toBitVec_add, UInt32.toBitVec_xor, toBitVec_turns, toBitVec_shifts,
      toBitVec_get]
    rw [known.word (by omega), known.word (by omega), known.word (by omega),
      known.word (by omega)]
    rw [show i.val + 16 - 2 = i.val + 14 by omega, show i.val + 16 - 7 = i.val + 9 by omega,
      show i.val + 16 - 15 = i.val + 1 by omega, Nat.add_sub_cancel]
    unfold Fips180.sigma0 Fips180.sigma1
    ac_rfl
  exact all t t.isLt

/-! ## Compression -/

theorem wordsOf_round (v : Vector UInt32 8) (constant word : UInt32) :
    wordsOf (round v constant word) =
      Fips180.round constant.toBitVec word.toBitVec (wordsOf v) := by
  have row : ∀ a b c d e f g h : UInt32, wordsOf #v[a, b, c, d, e, f, g, h] =
      ![a.toBitVec, b.toBitVec, c.toBitVec, d.toBitVec, e.toBitVec, f.toBitVec, g.toBitVec,
        h.toBitVec] := by
    intro a b c d e f g h
    funext i
    fin_cases i <;> rfl
  unfold round Fips180.round
  dsimp only
  rw [row]
  simp only [UInt32.toBitVec_add, UInt32.toBitVec_xor, UInt32.toBitVec_and, UInt32.toBitVec_not,
    toBitVec_turns]
  rfl

/-- **The compression of a block** is that of the standard. -/
theorem wordsOf_compress (constants : Vector UInt32 64) (state : Vector UInt32 8) (block : Bytes) :
    wordsOf (compress constants state block) =
      Fips180.compress (wordsOf constants) (wordsOf state) (Fips180.words block) := by
  have rounds : wordsOf (Fin.foldl 64
        (fun v i => round v (constants.get i) ((schedule block).get i)) state) =
      (List.finRange 64).foldl (fun v t => Fips180.round (wordsOf constants t)
        (Fips180.schedule (Fips180.words block) t) v) (wordsOf state) := by
    rw [Fin.foldl_eq_finRange_foldl]
    refine (List.foldl_hom wordsOf ?_).symm
    intro v t
    rw [wordsOf_round, toBitVec_get, toBitVec_get, wordsOf_schedule]
  funext i
  unfold compress Fips180.compress
  dsimp only
  rw [wordsOf_zipWith_add, rounds, BitVec.add_comm]

/-- **The state that a record leaves** is the hash with the constants and the initial value of the
tables. -/
theorem finalState_eq (tables : Tables) {record : Bytes} (short : record.length < 2 ^ 61) :
    finalState tables record =
      .ok (Fips180.hash (wordsOf tables.constants) (wordsOf tables.initial) record) := by
  have folded := LengthPadding.foldBlocks_padded (compress tables.constants) tables.initial short
  have same : ∀ (blocks : List Bytes) (state : Vector UInt32 8),
      wordsOf (blocks.foldl (compress tables.constants) state) =
        blocks.foldl (fun h block => Fips180.compress (wordsOf tables.constants) h
          (Fips180.words block)) (wordsOf state) :=
    fun blocks state => (List.foldl_hom wordsOf fun _ _ => (wordsOf_compress _ _ _).symm).symm
  unfold finalState Fips180.hash
  dsimp only
  rw [folded]
  show Except.ok (Bytes.ofWords32BE (Vector.toList _)) = _
  rw [ofWords32BE_wordsOf, same]

/-! ## The staged tables -/

/-- The word of a blob with a number, the lowest byte first. -/
def stagedWord (staged : Bytes) (i : Nat) : Word :=
  BitVec.ofNat 32 (Nat.ofDigits 256 (((staged.drop (4 * i)).take 4).map UInt8.toNat))

theorem wordsOf_words32LE (staged : Bytes) :
    wordsOf (Bytes.words32LE n staged) = fun i => stagedWord staged i.val := by
  funext i
  unfold wordsOf Bytes.words32LE stagedWord
  rw [get_ofFn, ← Bytes.littleEndian_eq_ofDigits]
  rfl

/-- Tables are the words of the blob that they were loaded from. -/
theorem wordsOf_of_load {staged : Bytes} {tables : Tables} (loaded : load staged = .ok tables) :
    wordsOf tables.constants = (fun t => stagedWord staged t.val) ∧
      wordsOf tables.initial = fun i => stagedWord staged (64 + i.val) := by
  unfold load at loaded
  split at loaded
  · obtain rfl := Except.ok.inj loaded
    refine ⟨wordsOf_words32LE staged, ?_⟩
    rw [wordsOf_words32LE]
    funext i
    unfold stagedWord
    rw [List.drop_drop, Nat.mul_add]
  · cases loaded

/-- The primes of the constants, counted out. -/
def primes : List Nat := [
  2, 3, 5, 7, 11, 13, 17, 19, 23, 29, 31, 37, 41, 43, 47, 53, 59, 61, 67, 71, 73, 79, 83, 89, 97,
  101, 103, 107, 109, 113, 127, 131, 137, 139, 149, 151, 157, 163, 167, 173, 179, 181, 191, 193,
  197, 199, 211, 223, 227, 229, 233, 239, 241, 251, 257, 263, 269, 271, 277, 281, 283, 293, 307,
  311]

/-- A small prime has no divisor below 18. -/
theorem prime_iff {p : Nat} (small : p < 312) :
    p.Prime ↔ 2 ≤ p ∧ ∀ m < 18, 2 ≤ m → m * m ≤ p → ¬ m ∣ p := by
  rw [Nat.prime_def_le_sqrt]
  refine and_congr_right fun _ => ⟨?_, ?_⟩
  · intro coprime m _ two fits
    exact coprime m two (Nat.le_sqrt.2 fits)
  · intro coprime m two fits
    have square := Nat.le_sqrt.1 fits
    refine coprime m ?_ two square
    by_contra large
    have more : 18 * 18 ≤ m * m := Nat.mul_le_mul (by omega) (by omega)
    omega

theorem prime_eq (t : Nat) : Fips180.prime t = primes.getD t 0 := by
  have tests : (List.range 312).filter Nat.Prime =
      (List.range 312).filter fun p => 2 ≤ p ∧ ∀ m < 18, 2 ≤ m → m * m ≤ p → ¬ m ∣ p := by
    refine List.filter_congr ?_
    intro p mem
    rw [decide_eq_decide]
    exact prime_iff (List.mem_range.1 mem)
  have same : (List.range 312).filter Nat.Prime = primes := by
    rw [tests]
    decide +kernel
  unfold Fips180.prime
  rw [same]

/-- Each constant is the fraction of a cube root, whatever its whole part. -/
theorem root_bounds :
    ∀ t : Fin 64, ∃ whole : Fin 7,
      let root := whole.val * 2 ^ 32 + (roundConstants.get t).toNat
      root ^ 3 ≤ primes.getD t 0 * 2 ^ 96 ∧ primes.getD t 0 * 2 ^ 96 < (root + 1) ^ 3 := by
  decide +kernel

theorem wordsOf_roundConstants : wordsOf roundConstants = Fips180.constant := by
  funext t
  obtain ⟨whole, low, high⟩ := root_bounds t
  unfold Fips180.constant
  rw [prime_eq, Fips180.cubeRoot_eq low high]
  refine BitVec.eq_of_toNat_eq ?_
  rw [BitVec.toNat_ofNat, Nat.mul_add_mod']
  exact (Nat.mod_eq_of_lt (roundConstants.get t).toNat_lt).symm

/-- Each word of the initial value is the fraction of a square root. -/
theorem initial_bounds :
    ∀ i : Fin 8, ∃ whole : Fin 5,
      let root := whole.val * 2 ^ 32 + (initialValue.get i).toNat
      root * root ≤ primes.getD i 0 * 2 ^ 64 ∧
        primes.getD i 0 * 2 ^ 64 < (root + 1) * (root + 1) := by
  decide +kernel

theorem wordsOf_initialValue : wordsOf initialValue = Fips180.initial := by
  funext i
  obtain ⟨whole, bounds⟩ := initial_bounds i
  unfold Fips180.initial
  rw [prime_eq, ← Nat.eq_sqrt.2 bounds]
  refine BitVec.eq_of_toNat_eq ?_
  rw [BitVec.toNat_ofNat, Nat.mul_add_mod']
  exact (Nat.mod_eq_of_lt (initialValue.get i).toNat_lt).symm

/-- What is staged is loaded as the constants and the initial value. -/
theorem load_blob :
    ∃ staged, kernel.blob = .ok staged ∧ load staged = .ok ⟨roundConstants, initialValue⟩ := by
  have first : (Bytes.ofWords32LE roundConstants.toList).length = 256 := by
    rw [Bytes.length_ofWords32LE, Vector.length_toList]
  have second : (Bytes.ofWords32LE initialValue.toList).length = 32 := by
    rw [Bytes.length_ofWords32LE, Vector.length_toList]
  have parts : blob = Bytes.ofWords32LE roundConstants.toList ++
      (Bytes.ofWords32LE initialValue.toList ++ []) := by
    rw [List.append_nil]
    exact List.flatMap_append
  have constants := Bytes.words32LE_ofWords32LE roundConstants
    (Bytes.ofWords32LE initialValue.toList ++ [])
  have initial := Bytes.words32LE_ofWords32LE initialValue []
  refine ⟨blob, rfl, ?_⟩
  unfold load
  rw [parts, constants, List.drop_left' first, initial, if_pos]
  rw [List.append_nil, List.length_append, first, second]

end Sha256

/-- **The kernel of SHA-256 is that of FIPS 180-4.** -/
theorem digest_eq_sha256 (record : Bytes) (short : record.length < 2 ^ 61) :
    (∀ staged tables, Algorithm.sha256.kernel.load staged = .ok tables →
      Algorithm.sha256.kernel.digest tables record =
        .ok (Fips180.hash (fun t => Sha256.stagedWord staged t.val)
          (fun i => Sha256.stagedWord staged (64 + i.val)) record)) ∧
    (∃ blob tables, Algorithm.sha256.tableBlob [] = .ok blob ∧
      Algorithm.sha256.kernel.load blob = .ok tables ∧
      Algorithm.sha256.kernel.digest tables record = .ok (Fips180.sha256 record)) ∧
    ∃ last, LengthPadding.closing (Bytes.tail 64 record)
        (Bytes.ofNatBE 8 (LengthPadding.bitLength record)) = .ok last ∧
      Fips180.blocks (Fips180.padded record) = Bytes.blocks 64 record ++ last ∧
      last.length = if record.length % 64 < 56 then 1 else 2 := by
  have digest : ∀ tables : Sha256.Tables, Sha256.kernel.digest tables record =
      .ok (Fips180.hash (Words32.wordsOf tables.constants) (Words32.wordsOf tables.initial)
        record) := fun tables =>
    Kernel.digest_eq_hash (k := Sha256.kernel) (Sha256.finalState_ok tables record)
      (Sha256.finalState_eq tables short)
  obtain ⟨blob, staged, loaded⟩ := Sha256.load_blob
  refine ⟨?_, ⟨blob, _, staged, loaded, ?_⟩, ?_⟩
  · intro staged tables loaded
    obtain ⟨constants, initial⟩ := Sha256.wordsOf_of_load loaded
    rw [← constants, ← initial]
    exact digest tables
  · refine (digest _).trans ?_
    rw [Sha256.wordsOf_roundConstants, Sha256.wordsOf_initialValue]
    rfl
  · have size := Bytes.length_ofNatBE 8 (LengthPadding.bitLength record)
    obtain ⟨last, closed, blocks, count⟩ :=
      LengthPadding.blocks_closing size (LengthPadding.zeroCount_fills record.length)
    refine ⟨last, closed, ?_, count⟩
    rw [← blocks, LengthPadding.blocks_eq, LengthPadding.field_eq short]
    rfl

/-- A record of 56 bytes, behind which the length does not fit in the block. -/
theorem digest_sha256_two_blocks :
    (Bytes.zeros 56).length < 2 ^ 61 ∧
    (∃ blob tables, Algorithm.sha256.tableBlob [] = .ok blob ∧
      Algorithm.sha256.kernel.load blob = .ok tables ∧
      Algorithm.sha256.kernel.digest tables (Bytes.zeros 56) =
        .ok (Fips180.sha256 (Bytes.zeros 56))) ∧
    ∃ last, LengthPadding.closing (Bytes.tail 64 (Bytes.zeros 56))
        (Bytes.ofNatBE 8 (LengthPadding.bitLength (Bytes.zeros 56))) = .ok last ∧
      last.length = 2 := by
  have short : (Bytes.zeros 56).length < 2 ^ 61 := by decide
  obtain ⟨-, standard, last, closed, -, count⟩ := digest_eq_sha256 (Bytes.zeros 56) short
  refine ⟨short, standard, last, closed, count.trans ?_⟩
  decide

end BatchDigest
