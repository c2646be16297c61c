import Mathlib.Tactic.FinCases
import BatchDigest.Proofs.Kernel.Sines
import BatchDigest.Proofs.Kernel.Words

/-!
# The kernel of MD5 is that of RFC 1321

The document changes one of four registers in place, the next one in each operation. The kernel
shifts its four working words instead, so that it always changes the same one: its words are the
registers from another place on (`Shifted`). After 64 rounds they are in place again, and blocks are
taken in alike (`wordsOf_compress`). Nothing is staged and no record is too long, as of its length
in bits the lowest 64 bits are used (`digest_eq_md5`).
-/

namespace BatchDigest

namespace Bytes

/-- The lowest bytes of a number do not depend on what is above them. -/
theorem ofNatLE_mod (count value : Nat) :
    ofNatLE count (value % 256 ^ count) = ofNatLE count value := by
  induction count generalizing value with
  | zero => rfl
  | succ count ih =>
    have rest : value % 256 ^ (count + 1) / 256 = value / 256 % 256 ^ count := by
      rw [Nat.pow_succ', Nat.mod_mul_right_div_self]
    have low : (value % 256 ^ (count + 1)).toUInt8 = value.toUInt8 := by
      refine UInt8.toNat_inj.1 ?_
      show value % 256 ^ (count + 1) % 256 = value % 256
      exact Nat.mod_mod_of_dvd value (Dvd.intro_left (256 ^ count) rfl)
    show (value % 256 ^ (count + 1)).toUInt8 :: ofNatLE count _ = _
    rw [low, rest, ih]
    rfl

theorem ofNatLE_eq (count value : Nat) : ofNatLE count value = Rfc1321.bytesOf count value := by
  refine List.ext_getElem ?_ ?_
  · rw [length_ofNatLE]
    exact List.length_ofFn.symm
  · intro i inBytes inOther
    unfold Rfc1321.bytesOf at *
    rw [getElem_ofNatLE, List.getElem_ofFn]

end Bytes

namespace Md5

open Bytes (rotateLeft32)
open Rfc1321 (Word Registers)
open Words32

/-- Registers are numbered modulo 4. -/
local instance neZero_registers : NeZero 4 := ⟨nofun⟩

variable {v : Vector UInt32 4} {r : Registers}

/-! ## Rounds -/

/-- The function of a round. -/
theorem toBitVec_selection (t : Fin 64) (b c d : UInt32) :
    (selection t b c d).1.toBitVec =
      Rfc1321.function (Rfc1321.roundOf t) b.toBitVec c.toBitVec d.toBitVec := by
  have inside := t.isLt
  have place : ∀ group : Fin 4, t.val / 16 = group.val → Rfc1321.roundOf t = group :=
    fun _ same => Fin.ext same
  unfold selection
  by_cases first : t.val < 16
  · rw [if_pos first, place 0 (by omega)]
    rfl
  · rw [if_neg first]
    by_cases second : t.val < 32
    · rw [if_pos second, place 1 (by omega)]
      show d.toBitVec &&& b.toBitVec ||| ~~~d.toBitVec &&& c.toBitVec = _
      rw [BitVec.and_comm, BitVec.and_comm (~~~d.toBitVec)]
      rfl
    · rw [if_neg second]
      by_cases third : t.val < 48
      · rw [if_pos third, place 2 (by omega)]
        rfl
      · rw [if_neg third, place 3 (by omega)]
        rfl

/-- The word of the block that a round reads does not depend on the working words. -/
theorem selection_word (t : Fin 64) (b c d : UInt32) :
    (selection t b c d).2 % 16 = Rfc1321.order.get t := by
  have same : (selection t b c d).2 = (selection t 0 0 0).2 := by
    unfold selection
    split_ifs <;> rfl
  have order : ∀ t : Fin 64, (selection t 0 0 0).2 % 16 = Rfc1321.order.get t := by
    decide
  rw [same, order]

/-- The amounts of the four groups of rounds. -/
theorem turns_eq : ∀ (t : Fin 64) (inside : t.val / 16 * 4 + t.val % 4 < 16),
    turns.get ⟨t.val / 16 * 4 + t.val % 4, inside⟩ = UInt32.ofNat (Rfc1321.amounts.get t) ∧
      0 < Rfc1321.amounts.get t ∧ Rfc1321.amounts.get t < 32 := by
  decide

/-- The working words are the registers, from the one that is changed next on. -/
def Shifted (t : Nat) (v : Vector UInt32 4) (r : Registers) : Prop :=
  ∀ j : Fin 4, wordsOf v j = r (j - Fin.ofNat 4 t)

/-- The registers `a` to `d` of an operation are the four working words. -/
theorem Shifted.registers {t : Fin 64} (shifted : Shifted t v r) :
    r (Rfc1321.changed t) = wordsOf v 0 ∧ r (Rfc1321.changed t + 1) = wordsOf v 1 ∧
      r (Rfc1321.changed t + 2) = wordsOf v 2 ∧ r (Rfc1321.changed t + 3) = wordsOf v 3 := by
  have places : ∀ s : Fin 4, -s = 0 - s ∧ -s + 1 = 1 - s ∧ -s + 2 = 2 - s ∧ -s + 3 = 3 - s := by
    decide
  obtain ⟨a, b, c, d⟩ := places (Fin.ofNat 4 t.val)
  unfold Rfc1321.changed
  rw [b, c, d, a]
  exact ⟨(shifted 0).symm, (shifted 1).symm, (shifted 2).symm, (shifted 3).symm⟩

/-- A round is an operation. -/
theorem Shifted.round {words : Vector UInt32 16} {t : Fin 64} (shifted : Shifted t v r) :
    Shifted (t + 1) (round words v t) (Rfc1321.operation (wordsOf words) r t) := by
  obtain ⟨a, b, c, d⟩ : r (Rfc1321.changed t) = v[0].toBitVec ∧
      r (Rfc1321.changed t + 1) = v[1].toBitVec ∧ r (Rfc1321.changed t + 2) = v[2].toBitVec ∧
      r (Rfc1321.changed t + 3) = v[3].toBitVec := shifted.registers
  obtain ⟨amount, positive, small⟩ := turns_eq t (by omega)
  have word : words.get ⟨(selection t v[1] v[2] v[3]).2 % 16, by omega⟩ =
      words.get (Rfc1321.order.get t) :=
    congrArg words.get (Fin.ext (selection_word t v[1] v[2] v[3]))
  have changes : Rfc1321.operation (wordsOf words) r t = Function.update r (Rfc1321.changed t)
      ((Md5.round words v t)[1].toBitVec) := by
    unfold Rfc1321.operation Md5.round
    dsimp only
    rw [a, b, c, d, amount, word, ← toBitVec_selection, Rfc1321.sine_eq, ← toBitVec_get]
    show _ = Function.update r _ (v[1] + _).toBitVec
    rw [UInt32.toBitVec_add, toBitVec_rotateLeft32 _ positive small]
    simp only [UInt32.toBitVec_add]
    ac_rfl
  have next : Fin.ofNat 4 (t.val + 1) = Fin.ofNat 4 t.val + 1 := Fin.ext (by simp [Fin.val_add])
  -- The register that was changed is the second working word, and the others have moved on.
  have moved : ∀ j : Fin 4, j ≠ 1 → wordsOf (Md5.round words v t) j = wordsOf v (j - 1) := by
    intro j other
    fin_cases j
    · rfl
    · exact absurd rfl other
    · rfl
    · rfl
  have places : ∀ s j : Fin 4, (j - (s + 1) = -s ↔ j = 1) ∧ j - (s + 1) = j - 1 - s := by
    decide
  intro j
  obtain ⟨changed, other⟩ := places (Fin.ofNat 4 t.val) j
  rw [changes, next, Function.update_apply]
  unfold Rfc1321.changed
  by_cases second : j = 1
  · rw [if_pos (changed.2 second), second]
    rfl
  · rw [if_neg (mt changed.1 second), other, ← shifted, moved j second]

/-! ## Blocks -/

/-- **A block** is taken in as in the document. -/
theorem wordsOf_compress (state : Vector UInt32 4) (block : Bytes) :
    wordsOf (compress state block) =
      Rfc1321.block (wordsOf state) (wordsOf (Bytes.words32LE 16 block)) := by
  have start : Shifted 0 state (wordsOf state) := fun j => by rw [Fin.ofNat_zero, sub_zero]
  have rounds : Shifted 64 (Fin.foldl 64 (Md5.round (Bytes.words32LE 16 block)) state)
      (Fin.foldl 64 (Rfc1321.operation (wordsOf (Bytes.words32LE 16 block))) (wordsOf state)) :=
    foldl_related Shifted start fun _ _ _ before => before.round
  funext j
  unfold compress Rfc1321.block
  dsimp only
  have back : j - Fin.ofNat 4 64 = j := sub_zero j
  rw [wordsOf_zipWith_add, rounds j, back, ← Fin.foldl_eq_finRange_foldl, BitVec.add_comm]

theorem wordsOf_initialValue : wordsOf initialValue = Rfc1321.start := by
  funext j
  fin_cases j <;> rfl

/-! ## The padded message -/

/-- The length field is the length in bits, or what its lowest 64 bits are. -/
theorem field_eq (record : Bytes) :
    Bytes.ofNatLE 8 (LengthPadding.bitLength record) = Rfc1321.bytesOf 8 (8 * record.length) := by
  unfold LengthPadding.bitLength
  rw [← Bytes.ofNatLE_eq, Nat.mul_comm]
  exact Bytes.ofNatLE_mod 8 _

/-- The zeros of the document fill the blocks that close a record. -/
theorem zeroCount_fills (length : Nat) :
    length % 64 + 1 + Rfc1321.zeroCount length + 8 = if length % 64 < 56 then 64 else 128 := by
  have fills : (length + 1 + Rfc1321.zeroCount length) % 64 = 56 :=
    Nat.find_spec (Rfc1321.exists_zeros length)
  refine LengthPadding.fills_of_least (by omega) fun other complete => ?_
  exact Nat.find_min' (Rfc1321.exists_zeros length) (by omega)

/-- The words of the complete blocks of a text. -/
theorem blocks_eq (text : Bytes) :
    Rfc1321.blocks text =
      (Bytes.blocks 64 text).map fun block => wordsOf (Bytes.words32LE 16 block) := by
  unfold Rfc1321.blocks Bytes.blocks
  rw [Bytes.pieces_eq_map, List.map_map]
  refine List.map_congr_left fun i _ => ?_
  funext k
  have inside := k.isLt
  have word : (((text.drop (i * 64)).take 64).drop (4 * k.val)).take 4 =
      (text.drop (64 * i + 4 * k.val)).take 4 := by
    rw [List.drop_take, List.take_take, List.drop_drop, Nat.min_eq_left (by omega), Nat.mul_comm]
  show BitVec.ofNat 32 _ = wordsOf (Bytes.words32LE 16 _) k
  unfold wordsOf Bytes.words32LE Bytes.word32LE
  rw [get_ofFn, word]
  rfl

/-- The bytes of the words of a state, the lowest byte of each first. -/
theorem ofWords32LE_wordsOf (state : Vector UInt32 4) :
    Bytes.ofWords32LE state.toList =
      (List.finRange 4).flatMap fun j => Rfc1321.bytesOf 4 (wordsOf state j).toNat := by
  unfold Bytes.ofWords32LE
  rw [toList_eq_map, List.flatMap_map]
  simp only [Bytes.ofNatLE_eq]
  rfl

/-- **The state that a record leaves** is its hash. -/
theorem finalState_eq (record : Bytes) : finalState record = .ok (Rfc1321.md5 record) := by
  have size := Bytes.length_ofNatLE 8 (LengthPadding.bitLength record)
  have folded := LengthPadding.foldBlocks_eq compress initialValue size
    (zeroCount_fills record.length)
  have same : ∀ (blocks : List Bytes) (state : Vector UInt32 4),
      wordsOf (blocks.foldl compress state) =
        (blocks.map fun block => wordsOf (Bytes.words32LE 16 block)).foldl Rfc1321.block
          (wordsOf state) := by
    intro blocks state
    rw [List.foldl_map]
    exact (List.foldl_hom wordsOf fun _ _ => (wordsOf_compress _ _).symm).symm
  unfold finalState Rfc1321.md5
  dsimp only
  rw [folded]
  show Except.ok (Bytes.ofWords32LE (Vector.toList _)) = _
  rw [ofWords32LE_wordsOf, same, wordsOf_initialValue, field_eq, ← blocks_eq]
  rfl

end Md5

/-- **The kernel of MD5 is that of RFC 1321.** -/
theorem digest_eq_md5 (tables : Algorithm.md5.kernel.Tables) (record : Bytes) :
    Algorithm.md5.kernel.digest tables record = .ok (Rfc1321.md5 record) :=
  Kernel.digest_eq_hash (k := Md5.kernel) (Md5.finalState_ok record) (Md5.finalState_eq record)

end BatchDigest
