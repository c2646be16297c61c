import Mathlib.Data.List.FinRange
import BatchDigest.Proofs.Kernel.Bits
import BatchDigest.Proofs.Kernel.Blocks
import BatchDigest.Proofs.Kernel.Fips180

/-!
# Rows of words of 32 bits

Kernels keep words of 32 bits in rows of fixed length, and standards speak of words of bits by their
numbers. `wordsOf` reads the one as the other. A schedule is a row that is filled from the front by
a recurrence: each word that the loop writes is that of the recurrence (`Scheduled`). The families
that write the highest byte first share the padded message and the bytes of their hash.
-/

namespace BatchDigest

namespace Bytes

/-- The number of a string from its other end. -/
theorem littleEndian_reverse (bytes : Bytes) :
    littleEndian bytes.reverse = Fips180.number bytes := by
  unfold littleEndian Fips180.number
  rw [List.foldr_reverse]
  simp only [Nat.add_comm]

theorem ofNatBE_eq (count value : Nat) : ofNatBE count value = Fips180.bytesOf count value := by
  have length := length_ofNatLE count value
  refine List.ext_getElem ?_ ?_
  · rw [length_ofNatBE]
    exact List.length_ofFn.symm
  · intro i inBytes inOther
    unfold ofNatBE Fips180.bytesOf at *
    rw [List.getElem_reverse, getElem_ofNatLE, List.getElem_ofFn, length]

end Bytes

namespace Words32

/-- The words of a row. -/
def wordsOf {n : Nat} (row : Vector UInt32 n) : Fin n → BitVec 32 :=
  fun i => (row.get i).toBitVec

variable {n : Nat}

theorem toBitVec_get (row : Vector UInt32 n) (i : Fin n) :
    (row.get i).toBitVec = wordsOf row i := rfl

theorem wordsOf_set (row : Vector UInt32 n) {place : Nat} (inside : place < n) (word : UInt32)
    (i : Fin n) :
    wordsOf (row.set place word inside) i =
      if place = i.val then word.toBitVec else wordsOf row i := by
  unfold wordsOf
  show ((row.set place word inside)[i.val]).toBitVec = _
  rw [Vector.getElem_set]
  split <;> rfl

theorem wordsOf_zipWith_add (a b : Vector UInt32 n) (i : Fin n) :
    wordsOf (a.zipWith (· + ·) b) i = wordsOf a i + wordsOf b i := by
  show ((a.zipWith (· + ·) b)[i.val]).toBitVec = _
  rw [Vector.getElem_zipWith, UInt32.toBitVec_add]
  rfl

/-- The words of a row in a list. -/
theorem toList_eq_map (row : Vector UInt32 n) : row.toList = (List.finRange n).map row.get := by
  rw [← List.ofFn_eq_map]
  refine List.ext_getElem (by simp) ?_
  intro i inList inOther
  rw [Vector.getElem_toList, List.getElem_ofFn]
  rfl

/-! ## Loops that fill a row -/

/-- Two loops stay related when each pass keeps them so. -/
theorem foldl_related {α β : Type} (related : Nat → α → β → Prop) {f : α → Fin n → α}
    {g : β → Fin n → β} {a : α} {b : β} (first : related 0 a b)
    (next : ∀ i a b, related i.val a b → related (i.val + 1) (f a i) (g b i)) :
    related n (Fin.foldl n f a) (Fin.foldl n g b) := by
  induction n with
  | zero =>
    rw [Fin.foldl_zero, Fin.foldl_zero]
    exact first
  | succ n ih =>
    rw [Fin.foldl_succ_last, Fin.foldl_succ_last]
    exact next (Fin.last n) _ _ (ih fun i a b before => next i.castSucc a b before)

/-- What holds at the start of a loop and is kept by each pass holds at its end. -/
theorem foldl_keeps {α : Type} (holds : Nat → α → Prop) {f : α → Fin n → α} {start : α}
    (first : holds 0 start) (next : ∀ i a, holds i.val a → holds (i.val + 1) (f a i)) :
    holds n (Fin.foldl n f start) :=
  foldl_related (fun i a (_ : Unit) => holds i a) (g := fun b _ => b) (b := ()) first
    fun i a _ => next i a

/-- The first words of a row are those of a recurrence. -/
def Scheduled (recurrence : Nat → BitVec 32) (count : Nat) (w : Vector UInt32 n) : Prop :=
  ∀ t : Fin n, t.val < count → wordsOf w t = recurrence t.val

variable {recurrence : Nat → BitVec 32} {w : Vector UInt32 n} {place : Nat}

theorem Scheduled.word (known : Scheduled recurrence place w) {j : Nat} (below : j < place)
    (inside : j < n) : wordsOf w ⟨j, inside⟩ = recurrence j :=
  known ⟨j, inside⟩ below

/-- One more word of the recurrence. -/
theorem Scheduled.set (known : Scheduled recurrence place w) {inside : place < n} {word : UInt32}
    (next : word.toBitVec = recurrence place) :
    Scheduled recurrence (place + 1) (w.set place word inside) := by
  intro t below
  rw [wordsOf_set]
  by_cases last : place = t.val
  · rw [if_pos last, next, last]
  · rw [if_neg last]
    exact known t (by omega)

/-- The big-endian words of a block. -/
theorem wordsOf_words32BE (block : Bytes) :
    wordsOf (Bytes.words32BE 16 block) = Fips180.words block := by
  funext t
  unfold wordsOf Bytes.words32BE Fips180.words
  rw [get_ofFn, ← Bytes.littleEndian_reverse]
  rfl

/-- A row that starts with the words of a block. -/
theorem scheduled_block (block : Bytes) {more : Nat} (rest : Vector UInt32 more)
    (first : ∀ t (inside : t < 16), recurrence t = Fips180.words block ⟨t, inside⟩) :
    Scheduled recurrence 16 (Bytes.words32BE 16 block ++ rest) := by
  intro t below
  rw [first t below, ← wordsOf_words32BE]
  show ((Bytes.words32BE 16 block ++ rest)[t.val]).toBitVec = _
  rw [Vector.getElem_append_left below]
  rfl

/-! ## The bytes of a hash -/

/-- The bytes of the words of a state, the highest byte of each first. -/
theorem ofWords32BE_wordsOf (state : Vector UInt32 n) :
    Bytes.ofWords32BE state.toList =
      (List.finRange n).flatMap fun i => Fips180.bytesOf 4 (wordsOf state i).toNat := by
  unfold Bytes.ofWords32BE
  rw [toList_eq_map, List.flatMap_map]
  simp only [Bytes.ofNatBE_eq]
  rfl

end Words32

/-! ## The padded message -/

namespace LengthPadding

/-- The zeros of the standard fill the blocks that close a record. -/
theorem zeroCount_fills (length : Nat) :
    length % 64 + 1 + Fips180.zeroCount length + 8 = if length % 64 < 56 then 64 else 128 :=
  fills_of_least (Nat.find_spec (Fips180.exists_zeros length))
    fun _ fills => Nat.find_min' (Fips180.exists_zeros length) fills

/-- The length field is the length in bits, which does not overflow. -/
theorem field_eq {record : Bytes} (short : record.length < 2 ^ 61) :
    Bytes.ofNatBE 8 (bitLength record) = Fips180.bytesOf 8 (8 * record.length) := by
  have fits : record.length * 8 < 18446744073709551616 := by omega
  unfold bitLength
  rw [Nat.mod_eq_of_lt fits, Nat.mul_comm, Bytes.ofNatBE_eq]

theorem blocks_eq (text : Bytes) : Fips180.blocks text = Bytes.blocks 64 text := by
  unfold Fips180.blocks Bytes.blocks
  rw [Bytes.pieces_eq_map]
  simp only [Nat.mul_comm]

/-- A short record is folded like the padded message of the standard. -/
theorem foldBlocks_padded {σ : Type} (compress : σ → Bytes → σ) (start : σ) {record : Bytes}
    (short : record.length < 2 ^ 61) :
    foldBlocks compress start record (Bytes.ofNatBE 8 (bitLength record)) =
      .ok ((Fips180.blocks (Fips180.padded record)).foldl compress start) := by
  have size := Bytes.length_ofNatBE 8 (bitLength record)
  rw [foldBlocks_eq compress start size (zeroCount_fills record.length), field_eq short, blocks_eq]
  rfl

end LengthPadding

end BatchDigest
