import BatchDigest.Proofs.Kernel.Records

/-!
# Blocks in byte strings

Kernels cut a record into blocks, and build the last one in a buffer of zeros.
-/

namespace BatchDigest

namespace Bytes

/-- Pieces of two strings one after the other, when the first is a number of pieces. -/
theorem pieces_append {size count : Nat} {front : Bytes} (length : front.length = size * count)
    (more : Nat) (back : Bytes) :
    pieces size (count + more) (front ++ back) =
      pieces size count front ++ pieces size more back := by
  induction count generalizing front with
  | zero =>
    obtain rfl := List.eq_nil_of_length_eq_zero length
    rw [Nat.zero_add]
    rfl
  | succ count ih =>
    rw [Nat.mul_succ] at length
    have rest : (front.drop size).length = size * count := by
      rw [List.length_drop, length, Nat.add_sub_cancel]
    rw [Nat.succ_add, pieces_succ, pieces_succ, List.take_append_of_le_length (by omega),
      List.drop_append_of_le_length (by omega), ih rest]
    rfl

/-- The complete blocks of a string go on with those of what they leave. -/
theorem blocks_append {size : Nat} (positive : 0 < size) (bytes more : Bytes) :
    blocks size (bytes ++ more) = blocks size bytes ++ blocks size (tail size bytes ++ more) := by
  have fits := Nat.mul_div_le bytes.length size
  have front : (bytes.take (size * (bytes.length / size))).length =
      size * (bytes.length / size) := by
    rw [List.length_take, Nat.min_eq_left fits]
  have whole : bytes ++ more =
      bytes.take (size * (bytes.length / size)) ++ (tail size bytes ++ more) := by
    unfold tail
    rw [Nat.mul_comm, ← List.append_assoc, List.take_append_drop]
  have count : (bytes ++ more).length / size =
      bytes.length / size + (tail size bytes ++ more).length / size := by
    rw [whole, List.length_append, front, Nat.mul_add_div positive]
  unfold blocks
  rw [count, whole, pieces_append front, pieces_take]

theorem blocks_of_length {size : Nat} (positive : 0 < size) {bytes : Bytes}
    (length : bytes.length = size) : blocks size bytes = [bytes] := by
  unfold blocks
  rw [length, Nat.div_self positive, pieces_succ, ← length, List.take_length]
  rfl

/-- A block behind complete blocks. -/
theorem blocks_append_block {size : Nat} (positive : 0 < size) {bytes block : Bytes}
    (complete : size ∣ bytes.length) (length : block.length = size) :
    blocks size (bytes ++ block) = blocks size bytes ++ [block] := by
  have rest : tail size bytes = [] := by
    refine List.eq_nil_of_length_eq_zero ?_
    rw [length_tail, Nat.mod_eq_zero_of_dvd complete]
  rw [blocks_append positive, rest, List.nil_append, blocks_of_length positive length]

theorem length_of_mem_pieces {size count : Nat} {bytes piece : Bytes}
    (fits : size * count ≤ bytes.length) (mem : piece ∈ pieces size count bytes) :
    piece.length = size := by
  obtain ⟨i, inside, found⟩ := List.mem_iff_getElem.1 mem
  rw [length_pieces] at inside
  have piece' := getElem?_pieces size inside bytes
  rw [List.getElem?_eq_getElem (by rwa [length_pieces]), Option.some.injEq, found] at piece'
  have last := Nat.mul_le_mul_left size (Nat.succ_le_of_lt inside)
  rw [Nat.mul_succ, Nat.mul_comm] at last
  rw [piece', List.length_take, List.length_drop]
  omega

/-- A complete block has the size of a block. -/
theorem length_of_mem_blocks {size : Nat} {bytes block : Bytes} (mem : block ∈ blocks size bytes) :
    block.length = size :=
  length_of_mem_pieces (Nat.mul_div_le _ _) mem

theorem flatten_pieces {size count : Nat} (bytes : Bytes) :
    (pieces size count bytes).flatten = bytes.take (size * count) := by
  induction count generalizing bytes with
  | zero => rfl
  | succ count ih =>
    rw [pieces_succ, List.flatten_cons, ih, Nat.mul_succ, Nat.add_comm, List.take_add]

/-- The complete blocks of a string, one after the other, and what they leave are the string. -/
theorem flatten_blocks_append_tail (size : Nat) (bytes : Bytes) :
    (blocks size bytes).flatten ++ tail size bytes = bytes := by
  unfold blocks tail
  rw [flatten_pieces, Nat.mul_comm, List.take_append_drop]

/-- A string of complete blocks is these blocks one after the other. -/
theorem flatten_blocks {size : Nat} {bytes : Bytes} (complete : size ∣ bytes.length) :
    (blocks size bytes).flatten = bytes := by
  have none : tail size bytes = [] := by
    refine List.eq_nil_of_length_eq_zero ?_
    rw [length_tail, Nat.mod_eq_zero_of_dvd complete]
  have parts := flatten_blocks_append_tail size bytes
  rwa [none, List.append_nil] at parts

/-- A byte in the middle is combined. -/
theorem toggle_append (front : Bytes) (byte : UInt8) (back : Bytes) (value : UInt8) :
    toggle (front ++ byte :: back) front.length value =
      .ok (front ++ (byte ^^^ value) :: back) := by
  unfold toggle
  rw [List.getElem?_append_right (Nat.le_refl _), Nat.sub_self]
  show Except.ok ((front ++ byte :: back).set front.length (byte ^^^ value)) = _
  rw [List.set_append_right _ _ (Nat.le_refl _), Nat.sub_self]
  rfl

theorem zeros_append (a b : Nat) : zeros (a + b) = zeros a ++ zeros b :=
  List.replicate_append_replicate.symm

theorem zeros_succ (count : Nat) : zeros (count + 1) = 0 :: zeros count :=
  List.replicate_succ

/-- A string at the front of zeros. -/
theorem write_zeros {length : Nat} {data : Bytes} (fits : data.length ≤ length) :
    (zeros length).write 0 data = .ok (data ++ zeros (length - data.length)) := by
  have replaced : (zeros length).overwrite? 0 data =
      some (data ++ zeros (length - data.length)) := by
    refine overwrite?_eq_some_iff.2 ⟨by rw [Nat.zero_add, length_zeros]; exact fits, ?_⟩
    rw [List.take_zero, List.nil_append, Nat.zero_add]
    unfold zeros
    rw [List.drop_replicate]
  unfold write
  rw [replaced]

/-- A range in the middle is replaced. -/
theorem write_append {front old back data : Bytes} (same : old.length = data.length) :
    (front ++ old ++ back).write front.length data = .ok (front ++ data ++ back) := by
  have replaced : (front ++ old ++ back).overwrite? front.length data =
      some (front ++ data ++ back) := by
    refine overwrite?_eq_some_iff.2 ⟨?_, ?_⟩
    · simp only [List.length_append]
      omega
    · have before : (front ++ old).length = front.length + data.length := by
        rw [List.length_append, same]
      rw [List.drop_left' before, List.append_assoc front old, List.take_left]
  unfold write
  rw [replaced]

end Bytes

/-! ## Padding with a length field -/

namespace LengthPadding

variable {rest field : Bytes} {zeros : Nat}

/-- The least number of zeros that makes complete blocks fills one block or two. -/
theorem fills_of_least {length : Nat} (fills : 64 ∣ length + 1 + zeros + 8)
    (least : ∀ other, 64 ∣ length + 1 + other + 8 → zeros ≤ other) :
    length % 64 + 1 + zeros + 8 = if length % 64 < 56 then 64 else 128 := by
  by_cases alone : length % 64 < 56
  · have within := least (55 - length % 64) (by omega)
    rw [if_pos alone]
    omega
  · have within := least (119 - length % 64) (by omega)
    rw [if_neg alone]
    omega

/-- The buffer is closed with one byte, zeros and the length field, in one block or two. -/
theorem closing_eq (size : field.length = 8)
    (fills : rest.length + 1 + zeros + 8 = if rest.length < 56 then 64 else 128) :
    closing rest field = .ok (Bytes.blocks 64 (rest ++ [0x80] ++ Bytes.zeros zeros ++ field)) := by
  unfold closing
  generalize stop : (if rest.length < 56 then 64 else 128) = total at *
  have within : total ≤ 128 := by
    rw [← stop]
    split <;> decide
  have first : Bytes.zeros (128 - rest.length) =
      [0] ++ Bytes.zeros (zeros + (8 + (128 - total))) := by
    rw [show 128 - rest.length = zeros + (8 + (128 - total)) + 1 by omega, Bytes.zeros_succ]
    rfl
  have second : rest ++ [0x80] ++ Bytes.zeros (zeros + (8 + (128 - total))) =
      rest ++ [0x80] ++ Bytes.zeros zeros ++ Bytes.zeros 8 ++ Bytes.zeros (128 - total) := by
    rw [Bytes.zeros_append, Bytes.zeros_append]
    simp only [List.append_assoc]
  have single : ([0] : Bytes).length = ([0x80] : Bytes).length := rfl
  have front : (rest ++ [0x80] ++ Bytes.zeros zeros).length = total - 8 := by
    simp only [List.length_append, List.length_singleton, Bytes.length_zeros]
    omega
  have closed : (rest ++ [0x80] ++ Bytes.zeros zeros ++ field).length = total := by
    rw [List.length_append, front, size]
    omega
  rw [Bytes.write_zeros (by omega), first, ← List.append_assoc]
  show (Bytes.write _ rest.length [0x80] >>= _) = _
  rw [Bytes.write_append single, second]
  show (Bytes.write _ (total - 8) field >>= _) = _
  rw [← front, Bytes.write_append (by rw [Bytes.length_zeros, size])]
  show Except.ok (Bytes.blocks 64 ((_ ++ Bytes.zeros (128 - total)).take total)) = _
  rw [List.take_left' closed]

/-- The blocks of a record and those that close it are the blocks of one padded text. -/
theorem blocks_closing {record : Bytes} (size : field.length = 8)
    (fills : record.length % 64 + 1 + zeros + 8 = if record.length % 64 < 56 then 64 else 128) :
    ∃ last, closing (Bytes.tail 64 record) field = .ok last ∧
      Bytes.blocks 64 (record ++ [0x80] ++ Bytes.zeros zeros ++ field) =
        Bytes.blocks 64 record ++ last ∧
      last.length = if record.length % 64 < 56 then 1 else 2 := by
  have rest := Bytes.length_tail 64 record
  rw [← rest] at fills ⊢
  refine ⟨_, closing_eq size fills, ?_, ?_⟩
  · simp only [List.append_assoc]
    exact Bytes.blocks_append (by decide) record _
  · unfold Bytes.blocks
    rw [Bytes.length_pieces]
    simp only [List.length_append, List.length_singleton, Bytes.length_zeros]
    by_cases alone : (Bytes.tail 64 record).length < 56
    · rw [if_pos alone] at fills ⊢
      omega
    · rw [if_neg alone] at fills ⊢
      omega

/-- A record is folded like its padded text. -/
theorem foldBlocks_eq {σ : Type} (compress : σ → Bytes → σ) (start : σ) {record : Bytes}
    (size : field.length = 8)
    (fills : record.length % 64 + 1 + zeros + 8 = if record.length % 64 < 56 then 64 else 128) :
    foldBlocks compress start record field =
      .ok ((Bytes.blocks 64 (record ++ [0x80] ++ Bytes.zeros zeros ++ field)).foldl compress
        start) := by
  obtain ⟨last, closed, blocks, _⟩ := blocks_closing size fills
  unfold foldBlocks
  rw [closed, blocks, List.foldl_append]
  rfl

end LengthPadding

end BatchDigest
