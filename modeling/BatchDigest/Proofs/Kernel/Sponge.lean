import BatchDigest.Proofs.Kernel.Blocks
import BatchDigest.Proofs.Kernel.Permutation

/-!
# The sponge kernels are those of FIPS 202

The string of a state is the bits of its lanes, and each step of the kernel on words is a step of
the standard's sponge on strings: the permutation (`keccakF_stateBits`), a block that is absorbed
(`absorb_stateBits`), the blocks of a record one after the other (`foldl_absorb`). The closing byte
and the final bit are the domain bits and the padding, also where both share the last byte of the
rate (`bits_lastBlock`). A digest fits into one block, so it is squeezed at once. Together the
kernels of both families are the sponges of the standard (`digest_eq_sponge`).
-/

namespace BatchDigest

namespace Bytes

/-- The pieces of a string of bytes are those of its bits. -/
theorem blocks_bits {size : Nat} (count : Nat) {bytes : Bytes} (positive : 0 < size)
    (length : bytes.length = size * count) :
    Fips202.blocks (8 * size) (bits bytes) = (pieces size count bytes).map bits := by
  have blocks : (bits bytes).length / (8 * size) = count := by
    rw [length_bits, length, ← Nat.mul_assoc]
    exact Nat.mul_div_cancel_left count (by omega)
  refine List.ext_getElem? ?_
  intro i
  unfold Fips202.blocks
  rw [blocks, List.getElem?_map, List.getElem?_map]
  by_cases inside : i < count
  · rw [List.getElem?_range inside, getElem?_pieces size inside, Option.map_some, Option.map_some,
      bits_take, bits_drop]
    congr 3
    rw [Nat.mul_assoc, Nat.mul_comm size]
  · rw [List.getElem?_eq_none (by rw [List.length_range]; omega),
      List.getElem?_eq_none (by rw [length_pieces]; omega)]
    rfl

end Bytes

namespace Keccak

/-! ## The string of a state -/

/-- The bits of a state, lane after lane. -/
def stateBits (a : State) : Fips202.Bits :=
  Bytes.bits (Bytes.ofWords64LE a.toList)

theorem length_stateBits (a : State) : (stateBits a).length = 1600 := by
  unfold stateBits
  rw [Bytes.length_bits, Bytes.length_ofWords64LE, Vector.length_toList]

/-- The array that the string of a state fills is that of its lanes. -/
theorem ofString_stateBits (a : State) : Fips202.ofString (stateBits a) = array a := by
  funext x y z
  unfold Fips202.ofString stateBits
  rw [Bytes.getD_bits_ofWords64LE (by rw [Vector.length_toList]; omega) z.isLt,
    Vector.getElem_toList]
  simp only [Nat.add_comm (5 * y.val)]
  rfl

/-- Strings of 1600 bits that fill the same array are the same. -/
theorem eq_of_ofString {s t : Fips202.Bits} (left : s.length = 1600) (right : t.length = 1600)
    (same : Fips202.ofString s = Fips202.ofString t) : s = t := by
  refine List.ext_getElem (left.trans right.symm) ?_
  intro i inS inT
  have place : 64 * (5 * (i / 320) + i / 64 % 5) + i % 64 = i := by omega
  have bit := congrFun (congrFun (congrFun same ⟨i / 64 % 5, by omega⟩) ⟨i / 320, by omega⟩)
    ⟨i % 64, by omega⟩
  unfold Fips202.ofString at bit
  dsimp only at bit
  rw [place, List.getD_eq_getElem _ _ inS, List.getD_eq_getElem _ _ inT] at bit
  exact bit

/-- An array is filled by its string. -/
theorem ofString_string (a : Fips202.StateArray) : Fips202.ofString a.string = a := by
  funext x y z
  have column : (64 * (5 * y.val + x.val) + z.val) / 64 % 5 = x.val := by omega
  have row : (64 * (5 * y.val + x.val) + z.val) / 320 = y.val := by omega
  have bit : (64 * (5 * y.val + x.val) + z.val) % 64 = z.val := by omega
  unfold Fips202.ofString Fips202.StateArray.string
  rw [List.getD_eq_getElem _ _ (by rw [List.length_ofFn]; omega), List.getElem_ofFn]
  simp only [column, row, bit]

/-- The permutation of the string of a state. -/
theorem keccakF_stateBits (a : State) :
    Fips202.keccakF (stateBits a) = stateBits (permute roundConstants a) := by
  refine eq_of_ofString List.length_ofFn (length_stateBits _) ?_
  unfold Fips202.keccakF
  rw [ofString_string, ofString_stateBits, ofString_stateBits, array_permute]

/-! ## Absorbing -/

theorem ofString_zipWith {s t : Fips202.Bits} (same : s.length = t.length) (x y : Fin 5)
    (z : Fin 64) :
    Fips202.ofString (List.zipWith xor s t) x y z =
      (Fips202.ofString s x y z ^^ Fips202.ofString t x y z) := by
  have length : (List.zipWith xor s t).length = s.length := by
    rw [List.length_zipWith, same, Nat.min_self]
  unfold Fips202.ofString
  generalize 64 * (5 * y.val + x.val) + z.val = k
  by_cases inside : k < s.length
  · rw [List.getD_eq_getElem _ _ (length.symm ▸ inside), List.getElem_zipWith,
      List.getD_eq_getElem _ _ inside, List.getD_eq_getElem _ _ (same.symm ▸ inside)]
  · have past := Nat.not_lt.1 inside
    rw [List.getD_eq_default _ _ (length.symm ▸ past), List.getD_eq_default _ _ past,
      List.getD_eq_default _ _ (same.symm ▸ past)]
    rfl

/-- A string is continued by zeros. -/
theorem ofString_append_zeros (s : Fips202.Bits) (count : Nat) :
    Fips202.ofString (s ++ List.replicate count false) = Fips202.ofString s := by
  funext x y z
  unfold Fips202.ofString
  generalize 64 * (5 * y.val + x.val) + z.val = k
  by_cases inside : k < s.length
  · rw [List.getD_append _ _ _ _ inside]
  · have past := Nat.not_lt.1 inside
    rw [List.getD_append_right _ _ _ _ past, List.getD_eq_default _ _ past,
      List.getD_eq_getElem?_getD, List.getElem?_replicate]
    split <;> rfl

/-- A block of whole lanes adds its bits to those of the state. -/
theorem array_absorb (a : State) {block : Bytes} (lanes : block.length % 8 = 0) (x y : Fin 5)
    (z : Fin 64) :
    array (absorb a block) x y z =
      (array a x y z ^^ Fips202.ofString (Bytes.bits block) x y z) := by
  have lane : (laneAt x y).val = 5 * y.val + x.val := Nat.add_comm _ _
  unfold Fips202.ofString
  rw [← lane]
  show ((absorb a block).get (laneAt x y)).toNat.testBit z =
    ((a.get (laneAt x y)).toNat.testBit z ^^ _)
  generalize laneAt x y = i
  unfold absorb
  rw [get_ofFn]
  by_cases whole : 8 * (i.val + 1) ≤ block.length
  · rw [if_pos whole, testBit_xor64, Bytes.testBit_word64LE _ z.isLt, Bytes.bits_drop,
      List.getD_eq_getElem?_getD, List.getD_eq_getElem?_getD, List.getElem?_drop, ← Nat.mul_assoc]
  · -- The block has whole lanes only, so nothing of this one is in it.
    rw [if_neg whole, List.getD_eq_default _ _ (by rw [Bytes.length_bits]; omega), Bool.xor_false]

/-- Absorbing a block of the rate. -/
theorem absorb_stateBits (a : State) {rate : Nat} {block : Bytes} (size : block.length = rate)
    (lanes : rate % 8 = 0) (small : rate ≤ 200) :
    Fips202.absorb Fips202.keccakF (8 * rate) (stateBits a) (Bytes.bits block) =
      stateBits (permute roundConstants (absorb a block)) := by
  have length : (Bytes.bits block ++ List.replicate (1600 - 8 * rate) false).length = 1600 := by
    rw [List.length_append, Bytes.length_bits, List.length_replicate]
    omega
  unfold Fips202.absorb
  rw [← keccakF_stateBits]
  refine congrArg Fips202.keccakF ?_
  refine eq_of_ofString ?_ (length_stateBits _) ?_
  · rw [List.length_zipWith, length_stateBits, length, Nat.min_self]
  · funext x y z
    rw [ofString_zipWith ((length_stateBits a).trans length.symm), ofString_append_zeros,
      ofString_stateBits, ofString_stateBits, array_absorb a (by omega)]

/-- Absorbing blocks of the rate one after the other. -/
theorem foldl_absorb (a : State) {rate : Nat} {blocks : List Bytes}
    (sizes : ∀ block ∈ blocks, block.length = rate) (lanes : rate % 8 = 0) (small : rate ≤ 200) :
    (blocks.map Bytes.bits).foldl (Fips202.absorb Fips202.keccakF (8 * rate)) (stateBits a) =
      stateBits (blocks.foldl (fun a block => permute roundConstants (absorb a block)) a) := by
  induction blocks generalizing a with
  | nil => rfl
  | cons block blocks ih =>
    rw [List.map_cons, List.foldl_cons, List.foldl_cons,
      absorb_stateBits a (sizes block List.mem_cons_self) lanes small]
    exact ih _ (fun block mem => sizes block (List.mem_cons_of_mem _ mem))

/-! ## Closing a record -/

/-- A closing byte holds the domain bits and the first bit of the padding, and its highest bit is
free for the last one. -/
structure Closes (suffix : UInt8) (domain : Fips202.Bits) : Prop where
  short : domain.length ≤ 6
  alone : Bytes.bits [suffix] = domain ++ true :: List.replicate (7 - domain.length) false
  shared : Bytes.bits [suffix ^^^ 0x80] =
    domain ++ true :: List.replicate (6 - domain.length) false ++ [true]

theorem closes_firstSubmission : Closes 0x01 [] :=
  ⟨by decide, by decide, by decide⟩

theorem closes_standard : Closes 0x06 [false, true] :=
  ⟨by decide, by decide, by decide⟩

variable {s : Sponge} {domain : Fips202.Bits} {rate : Nat} {rest : Bytes}

/-- The last block, with the suffix behind what is left of a record. -/
private theorem lastBlock_suffixed (s : Sponge) (room : rest.length < 200) :
    s.lastBlock rate rest =
      ((rest ++ s.suffix :: Bytes.zeros (199 - rest.length)).toggle (rate - 1) 0x80 >>=
        fun block => .ok (block.take rate)) := by
  have behind : Bytes.zeros (200 - rest.length) = 0 :: Bytes.zeros (199 - rest.length) := by
    rw [show 200 - rest.length = 199 - rest.length + 1 by omega, Bytes.zeros_succ]
  unfold Sponge.lastBlock
  rw [Bytes.write_zeros (by omega), behind]
  show (Bytes.toggle _ _ _ >>= _) = _
  rw [Bytes.toggle_append, UInt8.zero_xor]
  rfl

/-- The suffix and the final bit are in bytes of their own. -/
theorem lastBlock_apart (s : Sponge) (room : rest.length + 1 < rate) (small : rate ≤ 200) :
    s.lastBlock rate rest =
      .ok (rest ++ s.suffix :: Bytes.zeros (rate - 2 - rest.length) ++ [0x80]) := by
  have split : 199 - rest.length = rate - 2 - rest.length + (200 - rate + 1) := by omega
  have front : (rest ++ s.suffix :: Bytes.zeros (rate - 2 - rest.length)).length = rate - 1 := by
    rw [List.length_append, List.length_cons, Bytes.length_zeros]
    omega
  have back : rest ++ s.suffix :: Bytes.zeros (199 - rest.length) =
      (rest ++ s.suffix :: Bytes.zeros (rate - 2 - rest.length)) ++
        0 :: Bytes.zeros (200 - rate) := by
    rw [split, Bytes.zeros_append, Bytes.zeros_succ, List.append_assoc, List.cons_append]
  rw [lastBlock_suffixed s (by omega), back]
  generalize rest ++ s.suffix :: Bytes.zeros (rate - 2 - rest.length) = block at front
  rw [← front, Bytes.toggle_append, UInt8.zero_xor]
  show Except.ok ((block ++ 0x80 :: Bytes.zeros (200 - rate)).take rate) = _
  rw [List.append_cons, List.take_left' (by rw [List.length_append, List.length_singleton]; omega)]

/-- The suffix and the final bit share the last byte of the rate. -/
theorem lastBlock_shared (s : Sponge) (full : rest.length + 1 = rate) (small : rate ≤ 200) :
    s.lastBlock rate rest = .ok (rest ++ [s.suffix ^^^ 0x80]) := by
  rw [lastBlock_suffixed s (by omega), show rate - 1 = rest.length by omega, Bytes.toggle_append]
  show Except.ok ((rest ++ (s.suffix ^^^ 0x80) :: _).take rate) = _
  rw [List.append_cons, List.take_left' (by rw [List.length_append, List.length_singleton]; omega)]

/-- The padding that fills up to a multiple of the rate. -/
theorem padding_eq {rate length zeros count : Nat} (fills : length + 2 + zeros = rate * count)
    (short : zeros < rate) :
    Fips202.padding rate length = true :: List.replicate zeros false ++ [true] := by
  have amount : (-(length : Int) - 2) = (zeros : Int) - rate * count := by
    have fills' : ((length + 2 + zeros : Nat) : Int) = ((rate * count : Nat) : Int) :=
      congrArg Nat.cast fills
    push_cast at fills'
    omega
  unfold Fips202.padding
  rw [amount, Int.sub_mul_emod_self_left, Int.emod_eq_of_lt (by omega) (by omega),
    Int.toNat_natCast]

/-- The last block is what is left of the record, the domain bits and the padding. -/
theorem bits_lastBlock (closes : Closes s.suffix domain) (record : Bytes) (positive : 0 < rate)
    (small : rate ≤ 200) :
    ∃ last, s.lastBlock rate (Bytes.tail rate record) = .ok last ∧ last.length = rate ∧
      Bytes.bits last = Bytes.bits (Bytes.tail rate record) ++ domain ++
        Fips202.padding (8 * rate) ((Bytes.bits record).length + domain.length) := by
  have short := closes.short
  have room := Bytes.length_tail_lt positive record
  have length : record.length =
      rate * (record.length / rate) + (Bytes.tail rate record).length := by
    rw [Bytes.length_tail, Nat.div_add_mod]
  generalize Bytes.tail rate record = rest at *
  -- The padding ends with the block of the rate behind the complete ones.
  have fills : ∀ n, 8 * rest.length + domain.length + 2 + n = 8 * rate →
      8 * record.length + domain.length + 2 + n = 8 * rate * (record.length / rate + 1) := by
    intro n within
    rw [Nat.mul_succ, Nat.mul_assoc]
    omega
  rw [Bytes.length_bits]
  by_cases full : rest.length + 1 = rate
  · refine ⟨_, lastBlock_shared s full small, ?_, ?_⟩
    · rw [List.length_append, List.length_singleton, full]
    · rw [padding_eq (fills (6 - domain.length) (by omega)) (by omega),
        Bytes.bits_append, closes.shared, List.append_assoc, List.append_assoc]
  · refine ⟨_, lastBlock_apart s (by omega) small, ?_, ?_⟩
    · simp only [List.length_append, List.length_cons, Bytes.length_zeros, List.length_nil]
      omega
    · have final : Bytes.bits [0x80] = List.replicate 7 false ++ [true] := by decide
      have zeros : List.replicate (8 * rate - 8 * rest.length - domain.length - 2) false =
          List.replicate (7 - domain.length) false ++
            (List.replicate (8 * (rate - 2 - rest.length)) false ++ List.replicate 7 false) := by
        rw [List.replicate_append_replicate, List.replicate_append_replicate]
        congr 1
        omega
      have middle := Bytes.bits_append [s.suffix] (Bytes.zeros (rate - 2 - rest.length))
      rw [List.singleton_append, closes.alone, Bytes.bits_zeros] at middle
      rw [padding_eq (fills (8 * rate - 8 * rest.length - domain.length - 2) (by omega)) (by omega),
        zeros, Bytes.bits_append, Bytes.bits_append, middle, final]
      simp only [List.append_assoc, List.cons_append]

/-- The complete blocks of a record and the last one are the blocks of the padded string. -/
theorem blocks_padded {record last : Bytes} (positive : 0 < rate) (size : last.length = rate)
    {padding : Fips202.Bits}
    (closed : Bytes.bits last = Bytes.bits (Bytes.tail rate record) ++ domain ++ padding) :
    Fips202.blocks (8 * rate) (Bytes.bits record ++ domain ++ padding) =
      (Bytes.blocks rate record ++ [last]).map Bytes.bits := by
  have fits : rate * (record.length / rate) ≤ record.length := Nat.mul_div_le _ _
  have front : (record.take (rate * (record.length / rate))).length =
      rate * (record.length / rate) := by
    rw [List.length_take, Nat.min_eq_left fits]
  have whole : Bytes.bits record ++ domain ++ padding =
      Bytes.bits (record.take (rate * (record.length / rate)) ++ last) := by
    have parts := List.take_append_drop (rate * (record.length / rate)) record
    rw [Bytes.bits_append, closed, ← List.append_assoc, ← List.append_assoc, ← Bytes.bits_append]
    unfold Bytes.tail
    rw [Nat.mul_comm (record.length / rate), parts]
  rw [whole, Bytes.blocks_bits (record.length / rate + 1) positive
      (by rw [List.length_append, front, size, Nat.mul_succ]),
    Bytes.pieces_append front, Bytes.pieces_take, Bytes.pieces_succ,
    List.take_of_length_le (Nat.le_of_eq size)]
  rfl

/-! ## Squeezing -/

/-- An output that fits into one block is the front of the state. -/
theorem squeeze_front (f : Fips202.Bits → Fips202.Bits) {rate length : Nat} (state : Fips202.Bits)
    (positive : 0 < length) (fits : length ≤ rate) :
    Fips202.squeeze f rate state length = state.take length := by
  have one : (length + rate - 1) / rate = 1 := by
    refine Nat.div_eq_of_lt_le ?_ ?_ <;> omega
  unfold Fips202.squeeze
  rw [one, List.range_one, List.flatMap_singleton, Function.iterate_zero, id_eq, List.take_take,
    Nat.min_eq_left fits]

/-! ## The kernel -/

theorem rate_eq {s : Sponge} (small : 2 * s.digestSize < 200) :
    s.rate = .ok (200 - 2 * s.digestSize) := by
  unfold Sponge.rate
  rw [if_neg (by omega), if_neg (by omega)]

theorem blob_kernel (s : Sponge) :
    s.kernel.blob = .ok (Bytes.ofWords64LE roundConstants.toList) := rfl

/-- What is staged for round constants is loaded as these. -/
theorem load_kernel (s : Sponge) (constants : Vector UInt64 24) :
    s.kernel.load (Bytes.ofWords64LE constants.toList) = .ok constants := by
  have length : (Bytes.ofWords64LE constants.toList).length = 192 := by
    rw [Bytes.length_ofWords64LE, Vector.length_toList]
  have read := Bytes.words64LE_ofWords64LE constants []
  rw [List.append_nil] at read
  show load _ = _
  unfold load
  rw [length, if_pos (Nat.le_refl 192), read]
  rfl

theorem stateBits_zero : stateBits (Vector.replicate 25 0) = List.replicate 1600 false := by
  have zeros : Bytes.ofWords64LE (Vector.replicate 25 (0 : UInt64)).toList = Bytes.zeros 200 := by
    decide +kernel
  have length : 8 * 200 = 1600 := by decide
  unfold stateBits
  rw [zeros, Bytes.bits_zeros, length]

/-- **The state that a record leaves** is what the sponge absorbs: the record, the domain bits and
the padding, block after block. -/
theorem finalState_eq (closes : Closes s.suffix domain) (rates : s.rate = .ok rate)
    (positive : 0 < rate) (small : rate ≤ 200) (lanes : rate % 8 = 0) (record : Bytes) :
    ∃ a, s.finalState roundConstants record = .ok (Bytes.ofWords64LE a.toList) ∧
      stateBits a =
        (Fips202.blocks (8 * rate) (Bytes.bits record ++ domain ++
          Fips202.padding (8 * rate) ((Bytes.bits record).length + domain.length))).foldl
            (Fips202.absorb Fips202.keccakF (8 * rate)) (List.replicate 1600 false) := by
  obtain ⟨last, closed, size, bits⟩ := bits_lastBlock closes record positive small
  have sizes : ∀ block ∈ Bytes.blocks rate record ++ [last], block.length = rate := by
    intro block mem
    obtain complete | final := List.mem_append.1 mem
    · exact Bytes.length_of_mem_blocks complete
    · rw [List.mem_singleton.1 final, size]
  refine ⟨(Bytes.blocks rate record ++ [last]).foldl
    (fun a block => permute roundConstants (absorb a block)) (Vector.replicate 25 0), ?_, ?_⟩
  · unfold Sponge.finalState
    rw [rates]
    show (s.lastBlock rate (Bytes.tail rate record) >>= _) = _
    rw [closed, List.foldl_append]
    rfl
  · rw [blocks_padded positive size bits, ← stateBits_zero, foldl_absorb _ sizes lanes small]

/-- **A sponge kernel is the sponge.** It loads the constants that it stages, and digests every
record. -/
theorem digest_eq (closes : Closes s.suffix domain) (some : 0 < s.digestSize)
    (small : s.digestSize ≤ 64) (lanes : s.digestSize % 4 = 0) (record : Bytes) :
    ∃ digest, s.kernel.digest roundConstants record = .ok digest ∧
      Bytes.bits digest = Fips202.sponge Fips202.keccakF (8 * (200 - 2 * s.digestSize))
        (Bytes.bits record ++ domain) (8 * s.digestSize) := by
  obtain ⟨a, final, absorbed⟩ := finalState_eq closes (rate_eq (by omega)) (by omega) (by omega)
    (by omega) record
  refine ⟨_, Kernel.digest_ok final ?_, ?_⟩
  · show s.digestSize ≤ _
    rw [Bytes.length_ofWords64LE, Vector.length_toList]
    omega
  · show Bytes.bits ((Bytes.ofWords64LE a.toList).take s.digestSize) = _
    unfold Fips202.sponge
    rw [squeeze_front _ _ (by omega) (by omega), List.length_append, ← absorbed, Bytes.bits_take]
    rfl

end Keccak

/-- **The sponge kernels are the sponges of the standard.** Whatever the width that a family
defines, a kernel loads what it stages, and the digest of a record is that of the record and the
domain bits. -/
theorem digest_eq_sponge (a : Algorithm) (bits : Nat) (domain : Fips202.Bits)
    (family : a = .keccak bits ∧ domain = [] ∨ a = .sha3 bits ∧ domain = [false, true])
    (supported : a.isSupported) (record : Bytes) :
    ∃ blob tables digest, a.kernel.blob = .ok blob ∧ a.kernel.load blob = .ok tables ∧
      a.kernel.digest tables record = .ok digest ∧
      Bytes.bits digest = Fips202.sponge Fips202.keccakF (8 * (200 - 2 * (bits / 8)))
        (Bytes.bits record ++ domain) (8 * (bits / 8)) := by
  have sizes : ∀ width ∈ Algorithm.keccakWidths ++ Algorithm.sha3Widths,
      0 < width / 8 ∧ width / 8 ≤ 64 ∧ width / 8 % 4 = 0 := by
    decide
  obtain ⟨rfl, rfl⟩ | ⟨rfl, rfl⟩ := family
  · have known : bits ∈ Algorithm.keccakWidths := List.contains_iff_mem.1 supported
    obtain ⟨some, small, lanes⟩ := sizes bits (List.mem_append_left _ known)
    obtain ⟨digest, digested, equal⟩ := Keccak.digest_eq (s := Keccak.firstSubmission bits)
      Keccak.closes_firstSubmission some small lanes record
    exact ⟨_, _, digest, Keccak.blob_kernel _, Keccak.load_kernel _ _, digested, equal⟩
  · have known : bits ∈ Algorithm.sha3Widths := List.contains_iff_mem.1 supported
    obtain ⟨some, small, lanes⟩ := sizes bits (List.mem_append_right _ known)
    obtain ⟨digest, digested, equal⟩ := Keccak.digest_eq (s := Keccak.standard bits)
      Keccak.closes_standard some small lanes record
    exact ⟨_, _, digest, Keccak.blob_kernel _, Keccak.load_kernel _ _, digested, equal⟩

/-- A record that leaves one byte of the rate, which the suffix and the final bit share. -/
theorem digest_sponge_shared :
    ∃ blob tables digest, (Algorithm.sha3 256).kernel.blob = .ok blob ∧
      (Algorithm.sha3 256).kernel.load blob = .ok tables ∧
      (Algorithm.sha3 256).kernel.digest tables (Bytes.zeros 135) = .ok digest ∧
      Bytes.bits digest = Fips202.sponge Fips202.keccakF 1088
        (Bytes.bits (Bytes.zeros 135) ++ [false, true]) 256 :=
  digest_eq_sponge (.sha3 256) 256 [false, true] (.inr ⟨rfl, rfl⟩) (by decide) (Bytes.zeros 135)

end BatchDigest
