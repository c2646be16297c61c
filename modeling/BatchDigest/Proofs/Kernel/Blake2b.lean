import BatchDigest.Proofs.Kernel.Bits
import BatchDigest.Proofs.Kernel.Blocks
import BatchDigest.Proofs.Kernel.Rfc7693

/-!
# The kernel of BLAKE2b is that of RFC 7693

Rows of machine words and rows of words of bits are mixed and compressed alike (`wordsOf_compress`).
The kernel takes in the key block first, then all blocks of the record but the last, then the last
one. Each of these steps goes on along the blocks of one text (`Reached`), whose first block is the
key, and the counter is what has been read of that text. The tables that are staged for a key carry
the key block and the parameters (`load_blob`), so a kernel that was not given the key has the
digests under it (`digest_eq_blake2b`).
-/

namespace BatchDigest

namespace Bytes

/-- The bytes of a word of a row. -/
theorem getElem?_ofWords64LE {words : List UInt64} {i r : Nat} (row : i < words.length)
    (place : r < 8) : (ofWords64LE words)[8 * i + r]? = (ofNatLE 8 words[i].toNat)[r]? := by
  have sizes : ∀ word : UInt64, (ofNatLE 8 word.toNat).length = 8 :=
    fun _ => length_ofNatLE 8 _
  have read : ((ofWords64LE words).drop (i * 8)).take 8 = ofNatLE 8 words[i].toNat :=
    read_flatMap sizes (List.getElem?_eq_getElem row)
  rw [← read, List.getElem?_take_of_lt place, List.getElem?_drop, Nat.mul_comm]

end Bytes

namespace Blake2b

open Bytes (rotateRight64)
open Rfc7693 (Word)

/-- The words of a row. -/
def wordsOf {n : Nat} (row : Vector UInt64 n) : Fin n → Word :=
  fun i => (row.get i).toBitVec

/-! ## Mixing -/

theorem wordsOf_setAt {n : Nat} (row : Vector UInt64 n) (place : Fin n) (word : UInt64) :
    wordsOf (Bytes.setAt row place word) =
      Function.update (wordsOf row) place word.toBitVec := by
  funext i
  unfold wordsOf
  rw [get_setAt, Function.update_apply, Function.update_apply]
  exact apply_ite UInt64.toBitVec _ _ _

/-- Rotations by the amounts of the mixing step. -/
theorem toBitVec_turns (word : UInt64) :
    (rotateRight64 word 32).toBitVec = word.toBitVec.rotateRight 32 ∧
      (rotateRight64 word 24).toBitVec = word.toBitVec.rotateRight 24 ∧
      (rotateRight64 word 16).toBitVec = word.toBitVec.rotateRight 16 ∧
      (rotateRight64 word 63).toBitVec = word.toBitVec.rotateRight 63 :=
  ⟨toBitVec_rotateRight64 word (by decide) (by decide),
    toBitVec_rotateRight64 word (by decide) (by decide),
    toBitVec_rotateRight64 word (by decide) (by decide),
    toBitVec_rotateRight64 word (by decide) (by decide)⟩

theorem toBitVec_get {n : Nat} (row : Vector UInt64 n) (i : Fin n) :
    (row.get i).toBitVec = wordsOf row i := rfl

theorem wordsOf_mix (v : Vector UInt64 16) (a b c d : Fin 16) (x y : UInt64) :
    wordsOf (mix v a b c d x y) =
      Rfc7693.mix (wordsOf v) a b c d x.toBitVec y.toBitVec := by
  unfold mix Rfc7693.mix
  simp only [wordsOf_setAt, toBitVec_turns, UInt64.toBitVec_add, UInt64.toBitVec_xor, toBitVec_get]

theorem wordsOf_round (m v : Vector UInt64 16) (row : Vector (Fin 16) 16) :
    wordsOf (round m v row) = Rfc7693.round (wordsOf m) (wordsOf v) row.get := by
  unfold round Rfc7693.round
  simp only [wordsOf_mix, toBitVec_get]

/-! ## Compression -/

/-- Each word of the initial value is the fraction of a root, whose whole part is given here. -/
theorem root_bounds :
    ∀ i : Fin 8,
      let root := (![1, 1, 2, 2, 3, 3, 4, 4] i : Nat) * 2 ^ 64 + (initialValue.get i).toNat
      root * root ≤ Rfc7693.primes i * 2 ^ 128 ∧
        Rfc7693.primes i * 2 ^ 128 < (root + 1) * (root + 1) := by
  decide +kernel

theorem wordsOf_initialValue : wordsOf initialValue = Rfc7693.iv := by
  funext i
  have root := Nat.eq_sqrt.2 (root_bounds i)
  unfold Rfc7693.iv
  rw [← root]
  refine BitVec.eq_of_toNat_eq ?_
  rw [BitVec.toNat_ofNat, Nat.mul_add_mod']
  exact (Nat.mod_eq_of_lt (initialValue.get i).toNat_lt).symm

theorem get_schedule (i : Fin 12) :
    (schedule.get i).get = Rfc7693.sigma (Fin.ofNat 10 i.val) := by
  have words : ∀ (i : Fin 12) (j : Fin 16),
      (schedule.get i).get j = Rfc7693.sigma (Fin.ofNat 10 i.val) j := by
    decide +kernel
  exact funext (words i)

/-- The rounds of the table. -/
theorem wordsOf_rounds (m v : Vector UInt64 16) :
    wordsOf (schedule.foldl (round m) v) =
      (List.range 12).foldl
        (fun v i => Rfc7693.round (wordsOf m) v (Rfc7693.sigma (Fin.ofNat 10 i))) (wordsOf v) := by
  have rows : schedule.toList = (List.finRange 12).map schedule.get := by decide +kernel
  have indices : List.range 12 = (List.finRange 12).map Fin.val := by decide
  rw [← Vector.foldl_toList, rows, indices, List.foldl_map, List.foldl_map]
  refine (List.foldl_hom wordsOf ?_).symm
  intro v i
  rw [wordsOf_round, get_schedule]

theorem wordsOf_append (h : Vector UInt64 8) :
    wordsOf (h ++ initialValue : Vector UInt64 16) = Fin.append (wordsOf h) Rfc7693.iv := by
  rw [← wordsOf_initialValue]
  funext i
  show ((h ++ initialValue : Vector UInt64 16)[i.val]).toBitVec = _
  rw [Vector.getElem_append]
  induction i using Fin.addCases with
  | left i => rw [dif_pos (show (Fin.castAdd 8 i).val < 8 from i.isLt), Fin.append_left]; rfl
  | right i =>
    simp only [Fin.append_right, Fin.val_natAdd, Nat.not_lt.2 (Nat.le_add_right 8 i.val),
      dif_neg, not_false_eq_true, Nat.add_sub_cancel_left]
    rfl

/-- The working words before the rounds. -/
theorem wordsOf_working (h : Vector UInt64 8) (count : Nat) (last : Bool) :
    let v : Vector UInt64 16 := h ++ initialValue
    let v := Bytes.setAt v 12 (v.get 12 ^^^ count.toUInt64)
    let v := Bytes.setAt v 13 (v.get 13 ^^^ (count / 2 ^ 64).toUInt64)
    wordsOf (if last then Bytes.setAt v 14 (~~~v.get 14) else v) =
      Rfc7693.working (wordsOf h) count last := by
  have complement : ∀ word : Word, ~~~word = word ^^^ BitVec.allOnes 64 :=
    fun _ => BitVec.xor_allOnes.symm
  unfold Rfc7693.working
  cases last
  · simp only [Bool.false_eq_true, if_false, wordsOf_setAt, UInt64.toBitVec_xor, toBitVec_get,
      wordsOf_append]
    rfl
  · simp only [if_true, wordsOf_setAt, UInt64.toBitVec_xor, UInt64.toBitVec_not, toBitVec_get,
      wordsOf_append, complement]
    rfl

/-- The little-endian words of a block. -/
theorem wordsOf_words64LE (block : Bytes) :
    wordsOf (Bytes.words64LE 16 block) = fun j => BitVec.ofNat 64
      (Nat.ofDigits 256 (((block.drop (8 * j.val)).take 8).map UInt8.toNat)) := by
  funext j
  unfold wordsOf Bytes.words64LE
  rw [get_ofFn, ← Bytes.littleEndian_eq_ofDigits]
  rfl

/-- The message words of a block of the text. -/
theorem wordsOf_message (text : Bytes) (k : Nat) :
    wordsOf (Bytes.words64LE 16 (Rfc7693.padded ((text.drop (128 * k)).take 128))) =
      Rfc7693.message text k :=
  wordsOf_words64LE _

/-- The tables that are staged for a digest size and a key. -/
def tablesFor (digestSize : Nat) (key : Bytes) : Tables where
  initial := initialValue
  schedule := schedule
  chaining := parameterised digestSize key.length
  keyBlock := if key = [] then none else some (Rfc7693.padded key)

variable (digestSize : Nat) (key : Bytes)

theorem wordsOf_compress (h : Vector UInt64 8) (block : Bytes) (count : Nat) (last : Bool) :
    wordsOf (compress (tablesFor digestSize key) h block count last) =
      Rfc7693.compress (wordsOf h) (wordsOf (Bytes.words64LE 16 block)) count last := by
  have working := wordsOf_working h count last
  funext i
  unfold Rfc7693.compress
  dsimp only at working ⊢
  rw [← working, ← wordsOf_rounds]
  unfold wordsOf compress
  rw [get_ofFn, UInt64.toBitVec_xor, UInt64.toBitVec_xor, BitVec.xor_assoc]
  rfl

theorem wordsOf_zipWith_xor {n : Nat} (a b : Vector UInt64 n) (i : Fin n) :
    wordsOf (a.zipWith (· ^^^ ·) b) i = wordsOf a i ^^^ wordsOf b i := by
  show ((a.zipWith (· ^^^ ·) b)[i.val]).toBitVec = _
  rw [Vector.getElem_zipWith, UInt64.toBitVec_xor]
  rfl

/-- The parameters are mixed into the first word. -/
theorem wordsOf_parameterised (keyLength : Nat) :
    wordsOf (parameterised digestSize keyLength) = Rfc7693.start digestSize keyLength := by
  have alone : ∀ first : UInt64, (#v[first, 0, 0, 0, 0, 0, 0, 0] : Vector UInt64 8) =
      Bytes.setAt (Vector.replicate 8 0) 0 first := fun _ => rfl
  funext i
  unfold parameterised Rfc7693.start
  dsimp only
  rw [wordsOf_zipWith_xor, alone, wordsOf_setAt, wordsOf_initialValue, Function.update_apply,
    Function.update_apply]
  by_cases first : i = 0
  · rw [if_pos first, if_pos first, first, UInt64.toBitVec_xor, UInt64.toBitVec_xor,
      UInt64.toBitVec_shiftLeft, ← BitVec.xor_assoc, ← BitVec.xor_assoc]
    rfl
  · rw [if_neg first, if_neg first]
    have zero : wordsOf (Vector.replicate 8 (0 : UInt64)) i = 0 := by
      show ((Vector.replicate 8 (0 : UInt64))[i.val]).toBitVec = 0
      rw [Vector.getElem_replicate]
      rfl
    rw [zero]
    exact BitVec.xor_zero

/-! ## The blocks of a text -/

variable {h : Fin 8 → Word} {text record : Bytes} {k : Nat} {p : Progress}

/-- The progress after the first blocks of a text. -/
structure Reached (h : Fin 8 → Word) (text : Bytes) (k : Nat) (p : Progress) : Prop where
  chaining : wordsOf p.chaining = Rfc7693.absorbed h text k
  count : p.count = 128 * k

/-- What a block that is not the last does. -/
theorem Reached.absorb (reached : Reached h text k p) {block : Bytes}
    (next : block = Rfc7693.padded ((text.drop (128 * k)).take 128)) :
    Reached h text (k + 1) (p.absorb (tablesFor digestSize key) block) := by
  have count : p.count + 128 = 128 * (k + 1) := by
    rw [reached.count]
    rfl
  refine ⟨?_, count⟩
  unfold Rfc7693.absorbed
  rw [List.range_succ, List.foldl_append, List.foldl_cons, List.foldl_nil]
  unfold Progress.absorb
  dsimp only
  rw [wordsOf_compress, next, wordsOf_message, reached.chaining, count]
  rfl

/-- What the last block does. -/
theorem Reached.final (reached : Reached h text k p) (last : k = Rfc7693.blockCount text - 1)
    {block : Bytes} (next : block = Rfc7693.padded ((text.drop (128 * k)).take 128)) :
    wordsOf (compress (tablesFor digestSize key) p.chaining block text.length true) =
      Rfc7693.final h text := by
  unfold Rfc7693.final
  rw [wordsOf_compress, next, wordsOf_message, reached.chaining, last]

theorem length_padded {bytes : Bytes} (short : bytes.length ≤ 128) :
    (Rfc7693.padded bytes).length = 128 := by
  unfold Rfc7693.padded
  rw [List.length_append, Bytes.length_zeros]
  omega

theorem padded_of_length {block : Bytes} (full : block.length = 128) :
    Rfc7693.padded block = block := by
  unfold Rfc7693.padded
  rw [full]
  exact List.append_nil block

/-- What a number of full blocks does. -/
theorem Reached.foldl (reached : Reached h text k p) (rest : text.drop (128 * k) = record) {n : Nat}
    (full : 128 * n ≤ record.length) :
    Reached h text (k + n)
      ((Bytes.pieces 128 n record).foldl (Progress.absorb (tablesFor digestSize key)) p) := by
  induction n generalizing k p record with
  | zero => exact reached
  | succ n ih =>
    have first : (record.take 128).length = 128 := by
      rw [List.length_take]
      omega
    have next : record.take 128 = Rfc7693.padded ((text.drop (128 * k)).take 128) := by
      rw [rest, padded_of_length first]
    have behind : text.drop (128 * (k + 1)) = record.drop 128 := by
      rw [← rest, List.drop_drop, Nat.mul_succ]
    rw [Bytes.pieces_succ, List.foldl_cons, show k + (n + 1) = k + 1 + n by omega]
    exact ih (reached.absorb digestSize key next) behind (by rw [List.length_drop]; omega)

/-- What a record does that ends the text. -/
theorem Reached.absorbRecord (reached : Reached h text k p) (rest : text.drop (128 * k) = record)
    (length : text.length = 128 * k + record.length) (ends : record ≠ [] ∨ k = 0)
    (taken : (record.isEmpty && (tablesFor digestSize key).keyBlock.isSome) = false) :
    ∃ chaining, p.absorbRecord (tablesFor digestSize key) record = .ok chaining ∧
      wordsOf chaining = Rfc7693.final h text := by
  have body : bodyLength record = 128 * ((record.length - 1) / 128) := Nat.mul_comm _ _
  generalize count : (record.length - 1) / 128 = n at body
  have full : 128 * n ≤ record.length := by omega
  have short : (record.drop (128 * n)).length ≤ 128 := by
    rw [List.length_drop]
    omega
  have blocks : Bytes.blocks 128 (record.take (128 * n)) = Bytes.pieces 128 n record := by
    unfold Bytes.blocks
    rw [List.length_take, Nat.min_eq_left full, Nat.mul_div_cancel_left _ (by decide),
      Bytes.pieces_take]
  have before := reached.foldl digestSize key rest full
  have last : k + n = Rfc7693.blockCount text - 1 := by
    have bytes : 0 < record.length ∨ k = 0 := ends.imp_left List.length_pos_iff.2
    unfold Rfc7693.blockCount
    rw [length]
    omega
  have next : Rfc7693.padded (record.drop (128 * n)) =
      Rfc7693.padded ((text.drop (128 * (k + n))).take 128) := by
    rw [Nat.mul_add, ← List.drop_drop, rest, List.take_of_length_le short]
  have bytes : 128 * (k + n) + (record.drop (128 * n)).length = text.length := by
    rw [List.length_drop, length]
    omega
  refine ⟨_, ?_, before.final digestSize key last next⟩
  unfold Progress.absorbRecord
  rw [taken, body]
  dsimp only
  rw [blocks, Bytes.write_zeros short, ← bytes, ← before.count]
  rfl

/-! ## Records under a key and without -/

/-- The progress before the first block. -/
def Progress.start (digestSize keyLength : Nat) : Progress :=
  ⟨parameterised digestSize keyLength, 0⟩

/-- The whole of a record and a key block leave what the text leaves. -/
def Leaves (digestSize : Nat) (key record : Bytes) : Prop :=
  ∃ chaining, ((Progress.start digestSize key.length).absorbKey (tablesFor digestSize key)
      record).absorbRecord (tablesFor digestSize key) record = .ok chaining ∧
    wordsOf chaining =
      Rfc7693.final (Rfc7693.start digestSize key.length) (Rfc7693.text key record)

theorem reached_start (keyLength : Nat) (text : Bytes) :
    Reached (Rfc7693.start digestSize keyLength) text 0 (Progress.start digestSize keyLength) :=
  ⟨wordsOf_parameterised _ _, rfl⟩

theorem leaves_unkeyed (record : Bytes) : Leaves digestSize [] record := by
  have whole : Rfc7693.text [] record = record := rfl
  exact (reached_start digestSize 0 (Rfc7693.text [] record)).absorbRecord digestSize []
    (by rw [whole]; rfl) (by rw [whole]; omega) (.inr rfl) (Bool.and_false _)

variable {key}

theorem keyBlock_tablesFor (keyed : key ≠ []) :
    (tablesFor digestSize key).keyBlock = some (Rfc7693.padded key) :=
  if_neg keyed

theorem text_keyed (keyed : key ≠ []) (record : Bytes) :
    Rfc7693.text key record = Rfc7693.padded key ++ record := by
  unfold Rfc7693.text
  rw [if_neg keyed]

/-- The key is the first block of the text. -/
theorem first_block (keyed : key ≠ []) (short : key.length ≤ 128) (record : Bytes) :
    Rfc7693.padded key =
      Rfc7693.padded (((Rfc7693.text key record).drop (128 * 0)).take 128) := by
  have size := length_padded short
  rw [text_keyed keyed, List.drop_zero, List.take_left' size, padded_of_length size]

/-- The key block is the last one in front of an empty record. -/
theorem leaves_key (keyed : key ≠ []) (short : key.length ≤ 128) : Leaves digestSize key [] := by
  have length : (Rfc7693.text key []).length = 128 := by
    rw [text_keyed keyed, List.append_nil, length_padded short]
  have single : 0 = Rfc7693.blockCount (Rfc7693.text key []) - 1 := by
    unfold Rfc7693.blockCount
    rw [length]
    rfl
  have final := (reached_start digestSize key.length (Rfc7693.text key [])).final digestSize key
    single (first_block keyed short [])
  rw [length] at final
  refine ⟨_, ?_, final⟩
  unfold Progress.absorbKey Progress.absorbRecord
  rw [keyBlock_tablesFor digestSize keyed]
  rfl

theorem leaves_keyed (keyed : key ≠ []) (short : key.length ≤ 128) (filled : record ≠ []) :
    Leaves digestSize key record := by
  have more : record.isEmpty = false := List.isEmpty_eq_false_iff.2 filled
  have size := length_padded short
  have first := (reached_start digestSize key.length (Rfc7693.text key record)).absorb digestSize
    key (first_block keyed short record)
  unfold Leaves Progress.absorbKey
  rw [keyBlock_tablesFor digestSize keyed, more]
  refine first.absorbRecord digestSize key ?_ ?_ (.inl filled) ?_
  · rw [text_keyed keyed, List.drop_left' size]
  · rw [text_keyed keyed, List.length_append, size]
  · rw [more, Bool.false_and]

/-- **The state that a record leaves** is that of the text of the key and the record. -/
theorem finalState_eq {key : Bytes} (short : key.length ≤ 128) (record : Bytes) :
    ∃ chaining, finalState (tablesFor digestSize key) record =
        .ok (Bytes.ofWords64LE chaining.toList) ∧
      wordsOf chaining =
        Rfc7693.final (Rfc7693.start digestSize key.length) (Rfc7693.text key record) := by
  have leaves : Leaves digestSize key record := by
    by_cases keyed : key = []
    · subst keyed
      exact leaves_unkeyed digestSize record
    · by_cases filled : record = []
      · subst filled
        exact leaves_key digestSize keyed short
      · exact leaves_keyed digestSize keyed short filled
  obtain ⟨chaining, absorbed, equal⟩ := leaves
  refine ⟨chaining, ?_, equal⟩
  unfold finalState
  dsimp only [Progress.start, tablesFor] at absorbed ⊢
  rw [absorbed]
  rfl

/-! ## The staged tables -/

theorem schedule_scheduleBytes :
    (Vector.ofFn fun r : Fin 12 => Vector.ofFn fun i : Fin 16 =>
      Fin.ofNat 16 (scheduleBytes[16 * r.val + i.val]?.getD 0).toNat) = schedule := by
  decide +kernel

/-- The block behind the tables. -/
def keyBytes (key : Bytes) : Bytes :=
  if key = [] then [] else Rfc7693.padded key

theorem blob_eq {key : Bytes} (short : key.length ≤ 128) :
    blob digestSize key = .ok (Bytes.ofWords64LE initialValue.toList ++ (scheduleBytes ++
      (Bytes.ofWords64LE (parameterised digestSize key.length).toList ++ keyBytes key))) := by
  unfold blob keyBytes
  dsimp only
  by_cases unkeyed : key = []
  · subst unkeyed
    rw [if_pos rfl, List.append_nil, ← List.append_assoc]
    rfl
  · have more : key.isEmpty = false := by
      rw [List.isEmpty_eq_false_iff]
      exact unkeyed
    rw [more, if_neg unkeyed, Bytes.write_zeros short]
    simp only [List.append_assoc]
    rfl

/-- What is behind the schedule. -/
theorem drop_chaining {front : Bytes} (frontLength : front.length = 64) (rest : Bytes) :
    (front ++ (scheduleBytes ++ rest)).drop 256 = rest := by
  rw [show 256 = 64 + 192 from rfl, ← List.drop_drop, List.drop_left' frontLength,
    List.drop_left' length_scheduleBytes]

/-- What is behind the chaining value. -/
theorem drop_keyBytes {front middle : Bytes} (frontLength : front.length = 64)
    (middleLength : middle.length = 64) (back : Bytes) :
    (front ++ (scheduleBytes ++ (middle ++ back))).drop plainLength = back := by
  rw [show plainLength = 256 + 64 from rfl, ← List.drop_drop, drop_chaining frontLength,
    List.drop_left' middleLength]

/-- Tables of one of the two lengths are loaded part by part. -/
theorem load_parts (initial chaining : Vector UInt64 8) {back : Bytes}
    (ending : back.length = 0 ∨ back.length = 128) :
    load (Bytes.ofWords64LE initial.toList ++ (scheduleBytes ++
      (Bytes.ofWords64LE chaining.toList ++ back))) =
      .ok ⟨initial, schedule, chaining, if back.length = 128 then some back else none⟩ := by
  have initialLength : (Bytes.ofWords64LE initial.toList).length = 64 := by
    rw [Bytes.length_ofWords64LE, Vector.length_toList]
  have chainingLength : (Bytes.ofWords64LE chaining.toList).length = 64 := by
    rw [Bytes.length_ofWords64LE, Vector.length_toList]
  have first := Bytes.words64LE_ofWords64LE initial
    (scheduleBytes ++ (Bytes.ofWords64LE chaining.toList ++ back))
  have second := Bytes.words64LE_ofWords64LE chaining back
  generalize Bytes.ofWords64LE initial.toList = front at initialLength first ⊢
  generalize Bytes.ofWords64LE chaining.toList = middle at chainingLength first second ⊢
  have rows : ((front ++ (scheduleBytes ++ (middle ++ back))).drop 64).take 192 =
      scheduleBytes := by
    rw [List.drop_left' initialLength, List.take_left' length_scheduleBytes]
  have length : (front ++ (scheduleBytes ++ (middle ++ back))).length = 320 + back.length := by
    simp only [List.length_append, initialLength, length_scheduleBytes, chainingLength]
    omega
  have keyed : 320 + back.length = keyedLength ↔ back.length = 128 := by
    unfold keyedLength
    omega
  unfold load
  rw [if_neg (by unfold plainLength keyedLength; omega)]
  dsimp only
  rw [rows, if_pos scheduleBytes_small, first, schedule_scheduleBytes,
    drop_chaining initialLength, second, drop_keyBytes initialLength chainingLength, length]
  simp only [keyed]

/-- What is staged for a key is loaded as the tables for it. -/
theorem load_blob {key : Bytes} (short : key.length ≤ 128) :
    ∃ staged, blob digestSize key = .ok staged ∧ load staged = .ok (tablesFor digestSize key) := by
  refine ⟨_, blob_eq digestSize short, ?_⟩
  unfold tablesFor keyBytes
  by_cases unkeyed : key = []
  · rw [if_pos unkeyed, if_pos unkeyed]
    exact load_parts _ _ (.inl rfl)
  · have size : (Rfc7693.padded key).length = 128 := length_padded short
    rw [if_neg unkeyed, if_neg unkeyed, load_parts _ _ (.inr size), if_pos size]

/-- The bytes of the words of a state. -/
theorem stateBytes_wordsOf (chaining : Vector UInt64 8) :
    Rfc7693.stateBytes (wordsOf chaining) = Bytes.ofWords64LE chaining.toList := by
  have length : (Bytes.ofWords64LE chaining.toList).length = 64 := by
    rw [Bytes.length_ofWords64LE, Vector.length_toList]
  refine List.ext_getElem? ?_
  intro i
  unfold Rfc7693.stateBytes
  rw [List.getElem?_ofFn]
  by_cases inside : i < 64
  · have row : i / 8 < chaining.toList.length := by
      rw [Vector.length_toList]
      omega
    have place : i % 8 < (Bytes.ofNatLE 8 chaining.toList[i / 8].toNat).length := by
      rw [Bytes.length_ofNatLE]
      omega
    have byte := Bytes.getElem?_ofWords64LE row (Nat.mod_lt i (by decide : 0 < 8))
    rw [Nat.div_add_mod, List.getElem?_eq_getElem place, Bytes.getElem_ofNatLE,
      Vector.getElem_toList] at byte
    rw [byte, dif_pos inside]
    rfl
  · rw [dif_neg inside, List.getElem?_eq_none (by omega)]

end Blake2b

/-- The blocks of a text: that of the key, if there is one, and those that hold the record. -/
theorem Rfc7693.blockCount_text {key : Bytes} (short : key.length ≤ 128) (record : Bytes) :
    blockCount (text key record) =
      max 1 ((if key = [] then 0 else 1) + (record.length + 127) / 128) := by
  unfold blockCount text
  by_cases unkeyed : key = []
  · rw [if_pos unkeyed, if_pos unkeyed, List.nil_append, Nat.zero_add]
  · rw [if_neg unkeyed, if_neg unkeyed, List.length_append, Blake2b.length_padded short]
    omega

/-- **The kernel of BLAKE2b is that of RFC 7693.** What is staged for a key is loaded by the kernel
without one, and the digest of a record is the hash of the record under the key. The text has no
block more than the key and the record fill, so a record that fills its last block is not followed
by another one. -/
theorem digest_eq_blake2b (bits : Nat) (supported : (Algorithm.blake2b bits).isSupported)
    (key : Bytes) (short : key.length ≤ Algorithm.longestKey) (record : Bytes) :
    (∃ blob tables, (Algorithm.blake2b bits).tableBlob key = .ok blob ∧
      (Algorithm.blake2b bits).kernel.load blob = .ok tables ∧
      (Algorithm.blake2b bits).kernel.digest tables record =
        .ok (Rfc7693.blake2b key (bits / 8) record)) ∧
      Rfc7693.blockCount (Rfc7693.text key record) =
        max 1 ((if key = [] then 0 else 1) + (record.length + 127) / 128) := by
  have fits : key.length ≤ 128 := Nat.le_trans short (by decide)
  have small : bits / 8 ≤ 64 := by
    simp only [Algorithm.isSupported, Bool.and_eq_true, decide_eq_true_eq] at supported
    omega
  obtain ⟨blob, staged, loaded⟩ := Blake2b.load_blob (bits / 8) fits
  obtain ⟨chaining, final, equal⟩ := Blake2b.finalState_eq (bits / 8) fits record
  refine ⟨⟨blob, Blake2b.tablesFor (bits / 8) key, staged, loaded, ?_⟩,
    Rfc7693.blockCount_text fits record⟩
  have long : bits / 8 ≤ (Bytes.ofWords64LE chaining.toList).length := by
    rw [Bytes.length_ofWords64LE, Vector.length_toList]
    exact small
  refine (Kernel.digest_ok final long).trans ?_
  unfold Rfc7693.blake2b
  rw [← equal, Blake2b.stateBytes_wordsOf]
  rfl

/-- An empty record under a key, whose block is the only one. -/
theorem digest_blake2b_empty :
    (∃ blob tables, (Algorithm.blake2b 256).tableBlob [7] = .ok blob ∧
      (Algorithm.blake2b 256).kernel.load blob = .ok tables ∧
      (Algorithm.blake2b 256).kernel.digest tables [] = .ok (Rfc7693.blake2b [7] 32 [])) ∧
      Rfc7693.blockCount (Rfc7693.text [7] []) = 1 :=
  digest_eq_blake2b 256 (by decide) [7] (by decide) []

end BatchDigest
