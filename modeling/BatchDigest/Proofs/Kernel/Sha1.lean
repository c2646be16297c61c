import Mathlib.Data.Fintype.Basic
import Mathlib.Tactic.FinCases
import BatchDigest.Proofs.Kernel.Words

/-!
# The kernel of SHA-1 is that of FIPS 180-4

Rounds, schedules and blocks are those of the standard (`wordsOf_round`, `wordsOf_schedule`,
`wordsOf_compress`), and the blocks are those of the padded message. Nothing is staged, so the
kernel hashes every record of which the length in bits is a word of 64 bits (`digest_eq_sha1`).
-/

namespace BatchDigest

namespace Sha1

open Bytes (rotateLeft32)
open Fips180 (Word)
open Words32

/-! ## Functions of words -/

/-- Rotations by the amounts of the rounds and of the schedule. -/
theorem toBitVec_turns (x : UInt32) :
    (rotateLeft32 x 5).toBitVec = x.toBitVec.rotateLeft 5 ∧
      (rotateLeft32 x 30).toBitVec = x.toBitVec.rotateLeft 30 ∧
      (rotateLeft32 x 1).toBitVec = x.toBitVec.rotateLeft 1 :=
  ⟨toBitVec_rotateLeft32 x (by decide) (by decide), toBitVec_rotateLeft32 x (by decide) (by decide),
    toBitVec_rotateLeft32 x (by decide) (by decide)⟩

/-- What is chosen from two words has no bit twice. -/
theorem choice_eq (x y z : Word) : x &&& y ||| ~~~x &&& z = Fips180.choice x y z := by
  unfold Fips180.choice
  refine BitVec.eq_of_getLsbD_eq fun i inside => ?_
  simp only [BitVec.getLsbD_or, BitVec.getLsbD_xor, BitVec.getLsbD_and, BitVec.getLsbD_not, inside]
  cases x.getLsbD i <;> simp

/-- A bit that two pairs of words have is one that all three words have. -/
theorem majority_eq (x y z : Word) :
    x &&& y ||| x &&& z ||| y &&& z = Fips180.majority x y z := by
  unfold Fips180.majority
  refine BitVec.eq_of_getLsbD_eq fun i inside => ?_
  simp only [BitVec.getLsbD_or, BitVec.getLsbD_xor, BitVec.getLsbD_and]
  cases x.getLsbD i <;> cases y.getLsbD i <;> cases z.getLsbD i <;> rfl

/-- The constants of the four groups of rounds are square roots. -/
theorem sqrt_eq (group : Fin 4) :
    Nat.sqrt ((![2, 3, 5, 10] : Fin 4 → Nat) group * 2 ^ 60) =
      (![0x5a827999, 0x6ed9eba1, 0x8f1bbcdc, 0xca62c1d6] : Fin 4 → Nat) group := by
  have bounds : ∀ group : Fin 4,
      let root := (![0x5a827999, 0x6ed9eba1, 0x8f1bbcdc, 0xca62c1d6] : Fin 4 → Nat) group
      root * root ≤ (![2, 3, 5, 10] : Fin 4 → Nat) group * 2 ^ 60 ∧
        (![2, 3, 5, 10] : Fin 4 → Nat) group * 2 ^ 60 < (root + 1) * (root + 1) := by
    decide
  exact (Nat.eq_sqrt.2 (bounds group)).symm

/-- The function and the constant of a round. -/
theorem toBitVec_selection (t : Fin 80) (b c d : UInt32) :
    (selection t b c d).1.toBitVec = Fips180.function1 t b.toBitVec c.toBitVec d.toBitVec ∧
      (selection t b c d).2.toBitVec = Fips180.constant1 t := by
  have inside := t.isLt
  unfold selection Fips180.function1 Fips180.constant1
  rw [sqrt_eq]
  have place : ∀ group : Fin 4, t.val / 20 = group.val →
      (⟨t.val / 20, by omega⟩ : Fin 4) = group := fun _ same => Fin.ext same
  by_cases first : t.val < 20
  · rw [if_pos first, place 0 (by omega)]
    exact ⟨choice_eq _ _ _, rfl⟩
  · rw [if_neg first]
    by_cases second : t.val < 40
    · rw [if_pos second, place 1 (by omega)]
      exact ⟨rfl, rfl⟩
    · rw [if_neg second]
      by_cases third : t.val < 60
      · rw [if_pos third, place 2 (by omega)]
        exact ⟨majority_eq _ _ _, rfl⟩
      · rw [if_neg third, place 3 (by omega)]
        exact ⟨rfl, rfl⟩

/-! ## The message schedule -/

/-- **The schedule of a block** is that of the recurrence. -/
theorem wordsOf_schedule (block : Bytes) (t : Fin 80) :
    wordsOf (schedule block) t = Fips180.schedule1 (Fips180.words block) t := by
  have first : Scheduled (Fips180.schedule1 (Fips180.words block)) 16
      (Bytes.words32BE 16 block ++ Vector.replicate 64 (0 : UInt32) : Vector UInt32 80) :=
    scheduled_block block _ fun t inside => by rw [Fips180.schedule1, dif_pos inside]
  have all : Scheduled (Fips180.schedule1 (Fips180.words block)) (64 + 16) (schedule block) := by
    unfold schedule
    refine foldl_keeps (fun i => Scheduled (Fips180.schedule1 (Fips180.words block)) (i + 16))
      first ?_
    intro i w known
    rw [Nat.add_right_comm]
    refine known.set ?_
    have late : ¬ i.val + 16 < 16 := by omega
    rw [Fips180.schedule1, dif_neg late]
    simp only [toBitVec_turns, UInt32.toBitVec_xor, toBitVec_get]
    rw [known.word (by omega), known.word (by omega), known.word (by omega),
      known.word (by omega)]
    rw [show i.val + 16 - 3 = i.val + 13 by omega, show i.val + 16 - 8 = i.val + 8 by omega,
      show i.val + 16 - 14 = i.val + 2 by omega, Nat.add_sub_cancel]
  exact all t t.isLt

/-! ## Compression -/

theorem wordsOf_round (v : Vector UInt32 5) (t : Fin 80) (word : UInt32) :
    wordsOf (round v t word) =
      Fips180.round1 (Fips180.function1 t) (Fips180.constant1 t) word.toBitVec (wordsOf v) := by
  have row : ∀ a b c d e : UInt32, wordsOf #v[a, b, c, d, e] =
      ![a.toBitVec, b.toBitVec, c.toBitVec, d.toBitVec, e.toBitVec] := by
    intro a b c d e
    funext i
    fin_cases i <;> rfl
  obtain ⟨function, constant⟩ := toBitVec_selection t v[1] v[2] v[3]
  unfold round Fips180.round1
  dsimp only
  rw [row]
  simp only [UInt32.toBitVec_add, toBitVec_turns, function, constant]
  rfl

/-- **The compression of a block** is that of the standard. -/
theorem wordsOf_compress (state : Vector UInt32 5) (block : Bytes) :
    wordsOf (compress state block) =
      Fips180.compress1 (wordsOf state) (Fips180.words block) := by
  have rounds : wordsOf (Fin.foldl 80 (fun v t => round v t.val ((schedule block).get t)) state) =
      (List.finRange 80).foldl (fun v t => Fips180.round1 (Fips180.function1 t)
        (Fips180.constant1 t) (Fips180.schedule1 (Fips180.words block) t) v) (wordsOf state) := by
    rw [Fin.foldl_eq_finRange_foldl]
    refine (List.foldl_hom wordsOf ?_).symm
    intro v t
    rw [wordsOf_round, toBitVec_get, wordsOf_schedule]
  funext i
  unfold compress Fips180.compress1
  dsimp only
  rw [wordsOf_zipWith_add, rounds, BitVec.add_comm]

theorem wordsOf_initialValue : wordsOf initialValue = Fips180.initial1 := by
  funext i
  fin_cases i <;> rfl

/-- **The state that a record leaves** is its hash. -/
theorem finalState_eq {record : Bytes} (short : record.length < 2 ^ 61) :
    finalState record = .ok (Fips180.sha1 record) := by
  have folded := LengthPadding.foldBlocks_padded compress initialValue short
  have same : ∀ (blocks : List Bytes) (state : Vector UInt32 5),
      wordsOf (blocks.foldl compress state) =
        blocks.foldl (fun h block => Fips180.compress1 h (Fips180.words block)) (wordsOf state) :=
    fun blocks state => (List.foldl_hom wordsOf fun _ _ => (wordsOf_compress _ _).symm).symm
  unfold finalState Fips180.sha1
  dsimp only
  rw [folded]
  show Except.ok (Bytes.ofWords32BE (Vector.toList _)) = _
  rw [ofWords32BE_wordsOf, same, wordsOf_initialValue]

end Sha1

/-- **The kernel of SHA-1 is that of FIPS 180-4.** -/
theorem digest_eq_sha1 (tables : Algorithm.sha1.kernel.Tables) (record : Bytes)
    (short : record.length < 2 ^ 61) :
    Algorithm.sha1.kernel.digest tables record = .ok (Fips180.sha1 record) :=
  Kernel.digest_eq_hash (k := Sha1.kernel) (Sha1.finalState_ok record) (Sha1.finalState_eq short)

end BatchDigest
