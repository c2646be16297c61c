import Mathlib.Logic.Function.Defs
import BatchDigest.Proofs.Kernel.Blake2b
import BatchDigest.Proofs.Kernel.Md2
import BatchDigest.Proofs.Kernel.Sha256
import BatchDigest.Proofs.Kernel.Sponge

/-!
# Padding keeps records apart

A kernel makes a list of inputs of a record and gives them to its compression function one after the
other (`Kernel.Feeds`). Here the inputs of each kernel are written down apart from the compression,
built by the kernel's own padding, and shown to determine the record. So two records with the same
digest differ in what was compressed, whatever their lengths.

Each kernel says in its own way where the record ends: MD2 by the last byte, SHA-256 by the length
field, the sponges by the first bit of the padding, and BLAKE2b by the counter and the mark of its
last block.
-/

namespace BatchDigest

/-- A kernel digests a record by giving the inputs that are made of it to a compression function,
one after the other. -/
def Kernel.Feeds (k : Kernel) (tables : k.Tables) {State Input : Type}
    (inputs : Bytes → Except Crash (List Input)) (compress : State → Input → State)
    (start : State) (output : State → Bytes) : Prop :=
  ∀ record, ∃ fed, inputs record = .ok fed ∧
    k.digest tables record = .ok (output (fed.foldl compress start))

namespace Bytes

/-- Texts of complete blocks are determined by these. -/
theorem blocks_injective {size : Nat} {a b : Bytes} (left : size ∣ a.length)
    (right : size ∣ b.length) (same : blocks size a = blocks size b) : a = b := by
  rw [← flatten_blocks left, ← flatten_blocks right, same]

/-- Lists are the same when a function sends them to the same list and keeps their entries apart. -/
theorem eq_of_map_eq {α β : Type} {f : α → β} {l m : List α}
    (apart : ∀ x ∈ l, ∀ y ∈ m, f x = f y → x = y) (same : l.map f = m.map f) : l = m := by
  induction l generalizing m with
  | nil => exact (List.map_eq_nil_iff.1 same.symm).symm
  | cons x l ih =>
    cases m with
    | nil => cases same
    | cons y m =>
      obtain ⟨first, rest⟩ := List.cons.inj same
      have later : l = m := ih (fun x memX y memY =>
        apart x (List.mem_cons_of_mem _ memX) y (List.mem_cons_of_mem _ memY)) rest
      rw [apart x List.mem_cons_self y List.mem_cons_self first, later]

/-- Strings as long as a row are determined by it. -/
theorem toVector_injective {n : Nat} {a b : Bytes} (left : a.length = n) (right : b.length = n)
    (same : toVector n a = toVector n b) : a = b := by
  refine List.ext_getElem (left.trans right.symm) ?_
  intro i inA inB
  have inside : i < n := left ▸ inA
  have byte := congrArg (fun row : Vector UInt8 n => row[i]) same
  unfold toVector at byte
  simp only [Vector.getElem_ofFn] at byte
  rwa [List.getElem?_eq_getElem inA, List.getElem?_eq_getElem inB] at byte

/-- A word of the blocks of a string is a word of the string. -/
theorem getElem?_map_blocks {bytes : Bytes} (i : Nat) :
    ((blocks 8 bytes).map word64LE)[i]? =
      if 8 * (i + 1) ≤ bytes.length then some (word64LE (bytes.drop (8 * i))) else none := by
  rw [List.getElem?_map]
  unfold blocks
  by_cases whole : 8 * (i + 1) ≤ bytes.length
  · rw [getElem?_pieces 8 (by omega), if_pos whole, Option.map_some, Nat.mul_comm]
    unfold word64LE
    rw [List.take_take, Nat.min_self]
  · rw [List.getElem?_eq_none (by rw [length_pieces]; omega), if_neg whole]
    rfl

end Bytes

/-! ## MD2 -/

namespace Md2

/-- The blocks in front of the checksum: the complete ones of a record and the padded last one. -/
def inputs (record : Bytes) : Except Crash (List (Vector UInt8 16)) := do
  let last ← lastBlock (Bytes.tail 16 record)
  return (Bytes.blocks 16 record ++ [last]).map (Bytes.toVector 16)

theorem inputs_eq (record : Bytes) :
    inputs record =
      .ok ((Bytes.blocks 16 (Rfc1319.padded record)).map (Bytes.toVector 16)) := by
  obtain ⟨last, closed, -, parts⟩ := lastBlock_eq record
  unfold inputs
  rw [closed, parts]
  rfl

theorem feeds (table : Vector UInt8 256) :
    kernel.Feeds table inputs (State.absorb table) State.start
      (fun state => (state.absorb table state.checksum).x.toList.take 16) := by
  intro record
  refine ⟨_, inputs_eq record, ?_⟩
  have final : kernel.finalState table record = _ := finalState_ok_messageState table record
  refine Kernel.digest_eq_state final ?_
  rw [List.length_take, Vector.length_toList]
  rfl

/-- The last byte says how many bytes the padding has. -/
theorem padded_injective {a b : Bytes} (same : Rfc1319.padded a = Rfc1319.padded b) : a = b := by
  have last : ∀ message : Bytes,
      (Rfc1319.padded message).getLast? = some (UInt8.ofNat (16 - message.length % 16)) := by
    intro message
    have filled : 16 - message.length % 16 ≠ 0 := by omega
    unfold Rfc1319.padded
    rw [List.getLast?_append, List.getLast?_replicate, if_neg filled]
    rfl
  have closing := last a
  rw [same, last b, Option.some.injEq] at closing
  have missing : 16 - b.length % 16 = 16 - a.length % 16 := by
    have number := congrArg UInt8.toNat closing
    rw [UInt8.toNat_ofNat_of_lt' (by show _ < 256; omega),
      UInt8.toNat_ofNat_of_lt' (by show _ < 256; omega)] at number
    exact number
  unfold Rfc1319.padded at same
  dsimp only at same
  exact List.append_inj_left' same (by rw [List.length_replicate, List.length_replicate, missing])

theorem inputs_injective : Function.Injective inputs := by
  intro a b same
  rw [inputs_eq, inputs_eq, Except.ok.injEq] at same
  have blocks := Bytes.eq_of_map_eq (fun x memX y memY =>
    Bytes.toVector_injective (Bytes.length_of_mem_blocks memX) (Bytes.length_of_mem_blocks memY))
    same
  exact padded_injective (Bytes.blocks_injective (dvd_length_padded a) (dvd_length_padded b) blocks)

end Md2

/-! ## SHA-256 -/

namespace Sha256

/-- The complete blocks of a record and those that close it. -/
def inputs (record : Bytes) : Except Crash (List Bytes) := do
  let last ← LengthPadding.closing (Bytes.tail 64 record)
    (Bytes.ofNatBE 8 (LengthPadding.bitLength record))
  return Bytes.blocks 64 record ++ last

/-- The record with its closing byte, zeros and the length field behind it. -/
def closed (record : Bytes) : Bytes :=
  record ++ [0x80] ++ Bytes.zeros (Fips180.zeroCount record.length) ++
    Bytes.ofNatBE 8 (LengthPadding.bitLength record)

theorem inputs_eq (record : Bytes) : inputs record = .ok (Bytes.blocks 64 (closed record)) := by
  obtain ⟨last, closing, parts, -⟩ := LengthPadding.blocks_closing
    (Bytes.length_ofNatBE 8 (LengthPadding.bitLength record))
    (LengthPadding.zeroCount_fills record.length)
  unfold inputs closed
  rw [closing, parts]
  rfl

theorem feeds (tables : Tables) :
    kernel.Feeds tables inputs (compress tables.constants) tables.initial
      (fun state => Bytes.ofWords32BE state.toList) := by
  intro record
  refine ⟨_, inputs_eq record, ?_⟩
  have folded := LengthPadding.foldBlocks_eq (compress tables.constants) tables.initial
    (Bytes.length_ofNatBE 8 (LengthPadding.bitLength record))
    (LengthPadding.zeroCount_fills record.length)
  have final : kernel.finalState tables record = .ok (Bytes.ofWords32BE
      ((Bytes.blocks 64 (closed record)).foldl (compress tables.constants)
        tables.initial).toList) := by
    show finalState tables record = _
    unfold finalState
    dsimp only
    rw [folded]
    rfl
  refine Kernel.digest_eq_state final ?_
  rw [Bytes.length_ofWords32BE, Vector.length_toList]
  rfl

theorem dvd_length_closed (record : Bytes) : 64 ∣ (closed record).length := by
  have fills := LengthPadding.zeroCount_fills record.length
  unfold closed
  simp only [List.length_append, List.length_singleton, Bytes.length_zeros, Bytes.length_ofNatBE]
  split at fills <;> omega

/-- The length field says where the record ends. -/
theorem closed_injective {a b : Bytes} (shortA : a.length < 2 ^ 61) (shortB : b.length < 2 ^ 61)
    (same : closed a = closed b) : a = b := by
  have number : ∀ record : Bytes, record.length < 2 ^ 61 →
      Bytes.littleEndian (Bytes.ofNatLE 8 (LengthPadding.bitLength record)) =
        8 * record.length := by
    intro record short
    rw [Bytes.littleEndian_ofNatLE]
    unfold LengthPadding.bitLength
    omega
  unfold closed at same
  obtain ⟨front, field⟩ := List.append_inj' same (by simp)
  have length : a.length = b.length := by
    have equal := congrArg Bytes.littleEndian (List.reverse_injective field)
    rw [number a shortA, number b shortB] at equal
    omega
  rw [List.append_assoc, List.append_assoc] at front
  exact List.append_inj_left front length

theorem inputs_injective {a b : Bytes} (shortA : a.length < 2 ^ 61) (shortB : b.length < 2 ^ 61)
    (same : inputs a = inputs b) : a = b := by
  rw [inputs_eq, inputs_eq, Except.ok.injEq] at same
  exact closed_injective shortA shortB
    (Bytes.blocks_injective (dvd_length_closed a) (dvd_length_closed b) same)

end Sha256

/-! ## The sponges -/

namespace Keccak

/-- The complete lanes of a block. -/
def lanes (block : Bytes) : List UInt64 :=
  (Bytes.blocks 8 block).map Bytes.word64LE

/-- Combines the front of the state with lanes. -/
def absorbLanes (a : State) (lanes : List UInt64) : State :=
  Vector.ofFn fun i =>
    match lanes[i.val]? with
    | some lane => a.get i ^^^ lane
    | none => a.get i

/-- Nothing of a block but its complete lanes is absorbed. -/
theorem absorb_eq (a : State) (block : Bytes) : absorb a block = absorbLanes a (lanes block) := by
  unfold absorb absorbLanes lanes
  refine congrArg Vector.ofFn (funext ?_)
  intro i
  rw [Bytes.getElem?_map_blocks]
  split <;> rfl

/-- Blocks of whole lanes are determined by these. -/
theorem lanes_injective {a b : Bytes} (left : 8 ∣ a.length) (right : 8 ∣ b.length)
    (same : lanes a = lanes b) : a = b :=
  Bytes.blocks_injective left right (Bytes.eq_of_map_eq (fun _ memX _ memY =>
    Bytes.word64LE_injective (Bytes.length_of_mem_blocks memX) (Bytes.length_of_mem_blocks memY))
    same)

/-- The lanes that are absorbed, block by block: those of the complete blocks of a record and of the
last one. -/
def Sponge.inputs (s : Sponge) (record : Bytes) : Except Crash (List (List UInt64)) := do
  let rate ← s.rate
  let last ← s.lastBlock rate (Bytes.tail rate record)
  return (Bytes.blocks rate record ++ [last]).map lanes

variable {s t : Sponge} {domain other : Fips202.Bits} {rate : Nat}

/-- The blocks behind the inputs are those of the record, the domain bits and the padding. -/
theorem exists_inputs (closes : Closes s.suffix domain) (rates : s.rate = .ok rate)
    (positive : 0 < rate) (small : rate ≤ 200) (record : Bytes) :
    ∃ last, s.lastBlock rate (Bytes.tail rate record) = .ok last ∧
      s.inputs record = .ok ((Bytes.blocks rate record ++ [last]).map lanes) ∧
      (∀ block ∈ Bytes.blocks rate record ++ [last], block.length = rate) ∧
      Bytes.bits (Bytes.blocks rate record ++ [last]).flatten =
        Bytes.bits record ++ domain ++
          Fips202.padding (8 * rate) ((Bytes.bits record).length + domain.length) := by
  obtain ⟨last, closed, size, bits⟩ := bits_lastBlock closes record positive small
  refine ⟨last, closed, ?_, ?_, ?_⟩
  · unfold Sponge.inputs
    rw [rates]
    show (s.lastBlock rate (Bytes.tail rate record) >>= _) = _
    rw [closed]
    rfl
  · intro block mem
    obtain complete | final := List.mem_append.1 mem
    · exact Bytes.length_of_mem_blocks complete
    · rw [List.mem_singleton.1 final, size]
  · have parts := congrArg Bytes.bits (Bytes.flatten_blocks_append_tail rate record)
    rw [Bytes.bits_append] at parts
    rw [List.flatten_append, List.flatten_singleton, Bytes.bits_append, bits, ← List.append_assoc,
      ← List.append_assoc, parts]

/-- A digest is no longer than the state when the sponge has a rate. -/
theorem digestSize_of_rate (rates : s.rate = .ok rate) : s.digestSize ≤ 200 := by
  unfold Sponge.rate at rates
  by_cases large : 200 < 2 * s.digestSize
  · rw [if_pos large] at rates
    cases rates
  · omega

theorem feeds (closes : Closes s.suffix domain) (rates : s.rate = .ok rate) (positive : 0 < rate)
    (small : rate ≤ 200) (constants : Vector UInt64 24) :
    s.kernel.Feeds constants s.inputs
      (fun a lanes => permute constants (absorbLanes a lanes)) (Vector.replicate 25 0)
      (fun a => (Bytes.ofWords64LE a.toList).take s.digestSize) := by
  intro record
  obtain ⟨last, closed, inputs, -, -⟩ := exists_inputs closes rates positive small record
  refine ⟨_, inputs, ?_⟩
  have final : s.kernel.finalState constants record = .ok (Bytes.ofWords64LE
      (((Bytes.blocks rate record ++ [last]).map lanes).foldl
        (fun a lanes => permute constants (absorbLanes a lanes))
          (Vector.replicate 25 0)).toList) := by
    show s.finalState constants record = _
    unfold Sponge.finalState
    rw [rates]
    show (s.lastBlock rate (Bytes.tail rate record) >>= _) = _
    rw [closed, List.foldl_map, List.foldl_append]
    simp only [← absorb_eq]
    rfl
  refine Kernel.digest_ok final ?_
  rw [Bytes.length_ofWords64LE, Vector.length_toList]
  exact digestSize_of_rate rates

/-- Strings in front of a set bit and clear ones are the same. -/
theorem eq_of_append_true {a b : Fips202.Bits} {m n : Nat}
    (same : a ++ true :: List.replicate m false = b ++ true :: List.replicate n false) : a = b := by
  have strip : ∀ (count : Nat) (bits : Fips202.Bits),
      (bits ++ true :: List.replicate count false).reverse.dropWhile (!·) =
        true :: bits.reverse := by
    intro count bits
    rw [List.reverse_append, List.reverse_cons, List.reverse_replicate, List.append_assoc]
    induction count with
    | zero => rfl
    | succ count ih => exact ih
  have front := congrArg (fun bits : Fips202.Bits => bits.reverse.dropWhile (!·)) same
  rw [strip, strip] at front
  exact List.reverse_injective (List.cons.inj front).2

/-- The first bit of the padding says where the record and the domain bits end. -/
theorem eq_of_padding {a b : Fips202.Bits} {m n : Nat}
    (same : a ++ Fips202.padding rate m = b ++ Fips202.padding rate n) : a = b := by
  unfold Fips202.padding at same
  rw [← List.append_assoc, ← List.append_assoc] at same
  exact eq_of_append_true (List.append_cancel_right same)

/-- **Absorbed lanes determine record and domain bits**, also between two sponges of one rate. -/
theorem bits_of_inputs (closesS : Closes s.suffix domain) (closesT : Closes t.suffix other)
    (rateS : s.rate = .ok rate) (rateT : t.rate = .ok rate) (positive : 0 < rate)
    (small : rate ≤ 200) (whole : 8 ∣ rate) {a b : Bytes} (same : s.inputs a = t.inputs b) :
    Bytes.bits a ++ domain = Bytes.bits b ++ other := by
  obtain ⟨lastA, -, inputsA, sizesA, bitsA⟩ := exists_inputs closesS rateS positive small a
  obtain ⟨lastB, -, inputsB, sizesB, bitsB⟩ := exists_inputs closesT rateT positive small b
  rw [inputsA, inputsB, Except.ok.injEq] at same
  have blocks := Bytes.eq_of_map_eq (fun x memX y memY =>
    lanes_injective (sizesA x memX ▸ whole) (sizesB y memY ▸ whole)) same
  rw [blocks, bitsB] at bitsA
  exact (eq_of_padding bitsA).symm

/-- The digests that the families define leave a rate of whole lanes. -/
theorem rate_of_width {s : Sponge} {bits : Nat} (size : s.digestSize = bits / 8)
    (known : bits ∈ Algorithm.keccakWidths ++ Algorithm.sha3Widths) :
    ∃ rate, s.rate = .ok rate ∧ 0 < rate ∧ rate ≤ 200 ∧ 8 ∣ rate := by
  have sizes : ∀ width ∈ Algorithm.keccakWidths ++ Algorithm.sha3Widths,
      width / 8 ≤ 64 ∧ width / 8 % 4 = 0 := by
    decide
  obtain ⟨short, lanes⟩ := sizes bits known
  rw [← size] at short lanes
  exact ⟨_, rate_eq (by omega), by omega, by omega, by omega⟩

/-- What a sponge of a width is fed, and that it determines the record. -/
theorem feeds_and_injective {bits : Nat} (closes : Closes s.suffix domain)
    (size : s.digestSize = bits / 8)
    (known : bits ∈ Algorithm.keccakWidths ++ Algorithm.sha3Widths) :
    (∀ constants, s.kernel.Feeds constants s.inputs
      (fun a lanes => permute constants (absorbLanes a lanes)) (Vector.replicate 25 0)
      (fun a => (Bytes.ofWords64LE a.toList).take (bits / 8))) ∧
    Function.Injective s.inputs := by
  obtain ⟨rate, rates, positive, small, whole⟩ := rate_of_width size known
  refine ⟨?_, ?_⟩
  · rw [← size]
    exact feeds closes rates positive small
  · intro a b same
    have equal := bits_of_inputs closes closes rates rates positive small whole same
    exact Bytes.bits_injective (List.append_cancel_right equal)

end Keccak

/-! ## BLAKE2b -/

namespace Blake2b

/-- What the compression function is given at once: a block, the number of bytes up to its end in
two words, and the mark of the last block. -/
structure Input where
  block : Bytes
  count : BitVec 128
  last : Bool

/-- The input of the key block, if there is one. -/
def keyInputs (keyBlock : Option Bytes) (record : Bytes) : List Input :=
  match keyBlock with
  | some block => [⟨block, 128, record.isEmpty⟩]
  | none => []

/-- The inputs of blocks that are not the last, behind `count` bytes. -/
def bodyInputs (count : Nat) : List Bytes → List Input
  | [] => []
  | block :: rest => ⟨block, BitVec.ofNat 128 (count + 128), false⟩ :: bodyInputs (count + 128) rest

theorem bodyInputs_cons (count : Nat) (block : Bytes) (rest : List Bytes) :
    bodyInputs count (block :: rest) =
      ⟨block, BitVec.ofNat 128 (count + 128), false⟩ :: bodyInputs (count + 128) rest := rfl

/-- The inputs of a record: the key block, all blocks but the last, and the last one with zeros
behind it. An empty record has no block of its own under a key. -/
def inputs (keyBlock : Option Bytes) (record : Bytes) : Except Crash (List Input) := do
  let key := keyInputs keyBlock record
  if record.isEmpty && keyBlock.isSome then return key
  let body := bodyInputs (128 * key.length) (Bytes.blocks 128 (record.take (bodyLength record)))
  let rest := record.drop (bodyLength record)
  let block ← (Bytes.zeros 128).write 0 rest
  return key ++ body ++
    [⟨block, BitVec.ofNat 128 (128 * key.length + 128 * body.length + rest.length), true⟩]

/-- Compresses an input. -/
def Input.compress (tables : Tables) (h : Vector UInt64 8) (input : Input) : Vector UInt64 8 :=
  Blake2b.compress tables h input.block input.count.toNat input.last

/-- Only two words of a counter are read. -/
theorem compress_count (tables : Tables) (h : Vector UInt64 8) (block : Bytes) (count : Nat)
    (last : Bool) :
    Input.compress tables h ⟨block, BitVec.ofNat 128 count, last⟩ =
      compress tables h block count last := by
  have low : (count % 2 ^ 128).toUInt64 = count.toUInt64 := by
    refine UInt64.toNat_inj.1 ?_
    show count % 2 ^ 128 % 2 ^ 64 = count % 2 ^ 64
    omega
  have high : (count % 2 ^ 128 / 18446744073709551616).toUInt64 =
      (count / 18446744073709551616).toUInt64 := by
    refine UInt64.toNat_inj.1 ?_
    show count % 2 ^ 128 / 18446744073709551616 % 2 ^ 64 =
      count / 18446744073709551616 % 2 ^ 64
    omega
  unfold Input.compress compress
  dsimp only
  rw [BitVec.toNat_ofNat, low, high]

/-! ### What is fed -/

variable (tables : Tables) (record : Bytes)

theorem absorbKey_eq (chaining : Vector UInt64 8) :
    (⟨chaining, 0⟩ : Progress).absorbKey tables record =
      ⟨(keyInputs tables.keyBlock record).foldl (Input.compress tables) chaining,
        128 * (keyInputs tables.keyBlock record).length⟩ := by
  unfold Progress.absorbKey keyInputs
  cases tables.keyBlock with
  | none => rfl
  | some block =>
    show _ = Progress.mk (Input.compress tables chaining ⟨block, BitVec.ofNat 128 128, _⟩) 128
    rw [compress_count]

theorem foldl_absorb_eq (blocks : List Bytes) (p : Progress) :
    blocks.foldl (Progress.absorb tables) p =
      ⟨(bodyInputs p.count blocks).foldl (Input.compress tables) p.chaining,
        p.count + 128 * (bodyInputs p.count blocks).length⟩ := by
  induction blocks generalizing p with
  | nil => rfl
  | cons block rest ih =>
    have count : p.count + 128 + 128 * (bodyInputs (p.count + 128) rest).length =
        p.count + 128 * ((bodyInputs (p.count + 128) rest).length + 1) := by omega
    rw [List.foldl_cons, ih, bodyInputs_cons, List.foldl_cons, compress_count, List.length_cons,
      ← count]
    rfl

/-- The last block of a record, with zeros behind what the others leave. -/
def lastBlock (record : Bytes) : Bytes :=
  record.drop (bodyLength record) ++
    Bytes.zeros (128 - (record.drop (bodyLength record)).length)

theorem length_drop_bodyLength : (record.drop (bodyLength record)).length ≤ 128 := by
  unfold bodyLength
  rw [List.length_drop]
  omega

theorem write_lastBlock :
    (Bytes.zeros 128).write 0 (record.drop (bodyLength record)) = .ok (lastBlock record) :=
  Bytes.write_zeros (length_drop_bodyLength record)

/-- What is fed in front of the last block. -/
def frontInputs (keyBlock : Option Bytes) : List Input :=
  keyInputs keyBlock record ++ bodyInputs (128 * (keyInputs keyBlock record).length)
    (Bytes.blocks 128 (record.take (bodyLength record)))

/-- The inputs of a record that has a block of its own. -/
theorem inputs_eq {keyBlock : Option Bytes}
    (filled : (record.isEmpty && keyBlock.isSome) = false) :
    inputs keyBlock record = .ok (frontInputs record keyBlock ++ [⟨lastBlock record,
      BitVec.ofNat 128 (128 * (frontInputs record keyBlock).length +
        (record.drop (bodyLength record)).length), true⟩]) := by
  unfold inputs frontInputs
  dsimp only
  rw [filled, write_lastBlock, List.length_append, Nat.mul_add]
  rfl

theorem inputs_empty {block : Bytes} : inputs (some block) [] = .ok [⟨block, 128, true⟩] := rfl

theorem feeds {bits : Nat} (small : bits / 8 ≤ 64) :
    (kernel bits []).Feeds tables (inputs tables.keyBlock) (Input.compress tables) tables.chaining
      (fun chaining => (Bytes.ofWords64LE chaining.toList).take (bits / 8)) := by
  intro record
  have digest : ∀ chaining : Vector UInt64 8,
      finalState tables record = .ok (Bytes.ofWords64LE chaining.toList) →
      (kernel bits []).digest tables record =
        .ok ((Bytes.ofWords64LE chaining.toList).take (bits / 8)) := by
    intro chaining final
    refine Kernel.digest_ok (k := kernel bits []) final ?_
    rw [Bytes.length_ofWords64LE, Vector.length_toList]
    exact small
  by_cases alone : (record.isEmpty && tables.keyBlock.isSome) = true
  · refine ⟨keyInputs tables.keyBlock record, ?_, digest _ ?_⟩
    · unfold inputs
      dsimp only
      rw [alone]
      rfl
    · unfold finalState Progress.absorbRecord
      dsimp only
      rw [alone, absorbKey_eq]
      rfl
  · have filled := Bool.eq_false_iff.2 alone
    refine ⟨_, inputs_eq record filled, digest _ ?_⟩
    unfold finalState Progress.absorbRecord
    dsimp only
    rw [filled, absorbKey_eq, write_lastBlock, foldl_absorb_eq, List.foldl_append,
      List.foldl_cons, List.foldl_nil, compress_count]
    unfold frontInputs
    rw [List.foldl_append, List.length_append, Nat.mul_add]
    rfl

/-! ### What determines the record -/

theorem map_block_bodyInputs (count : Nat) (blocks : List Bytes) :
    (bodyInputs count blocks).map Input.block = blocks := by
  induction blocks generalizing count with
  | nil => rfl
  | cons block rest ih => rw [bodyInputs_cons, List.map_cons, ih]

/-- The complete blocks in front of the last one, and the last one with the bytes that are in it,
determine the record. -/
theorem eq_of_blocks {a b : Bytes}
    (body : Bytes.blocks 128 (a.take (bodyLength a)) = Bytes.blocks 128 (b.take (bodyLength b)))
    (last : lastBlock a = lastBlock b)
    (length : (a.drop (bodyLength a)).length = (b.drop (bodyLength b)).length) : a = b := by
  have complete : ∀ record : Bytes, 128 ∣ (record.take (bodyLength record)).length := by
    intro record
    unfold bodyLength
    rw [List.length_take]
    omega
  have front := Bytes.blocks_injective (complete a) (complete b) body
  have back : a.drop (bodyLength a) = b.drop (bodyLength b) := List.append_inj_left last length
  rw [← List.take_append_drop (bodyLength a) a, front, back, List.take_append_drop]

theorem length_keyInputs (keyBlock : Option Bytes) (a b : Bytes) :
    (keyInputs keyBlock a).length = (keyInputs keyBlock b).length := by
  cases keyBlock <;> rfl

/-- The last counter says how many bytes are in the last block. -/
theorem eq_of_filled {keyBlock : Option Bytes} {a b : Bytes}
    (filledA : (a.isEmpty && keyBlock.isSome) = false)
    (filledB : (b.isEmpty && keyBlock.isSome) = false)
    (same : inputs keyBlock a = inputs keyBlock b) : a = b := by
  rw [inputs_eq a filledA, inputs_eq b filledB, Except.ok.injEq] at same
  obtain ⟨front, last⟩ := List.append_inj' same rfl
  simp only [List.cons.injEq, Input.mk.injEq, and_true] at last
  obtain ⟨block, counter⟩ := last
  have count := congrArg BitVec.toNat counter
  rw [front, BitVec.toNat_ofNat, BitVec.toNat_ofNat] at count
  have shortA := length_drop_bodyLength a
  have shortB := length_drop_bodyLength b
  have keys := length_keyInputs keyBlock a b
  unfold frontInputs at front
  have body := congrArg (List.map Input.block) (List.append_inj_right front keys)
  rw [map_block_bodyInputs, map_block_bodyInputs] at body
  exact eq_of_blocks body block (by omega)

/-- An empty record under a key is fed with the key block alone, and no other record is. -/
theorem inputs_ne_of_filled {block b : Bytes} (filled : b ≠ []) :
    inputs (some block) [] ≠ inputs (some block) b := by
  intro same
  have more : (b.isEmpty && (some block).isSome) = false := by
    rw [List.isEmpty_eq_false_iff.2 filled, Bool.false_and]
  rw [inputs_eq b more, inputs_empty, Except.ok.injEq] at same
  have length := congrArg List.length same
  unfold frontInputs keyInputs at length
  simp only [List.length_append, List.length_singleton] at length
  omega

theorem inputs_injective (keyBlock : Option Bytes) : Function.Injective (inputs keyBlock) := by
  intro a b same
  cases keyBlock with
  | none => exact eq_of_filled (Bool.and_false _) (Bool.and_false _) same
  | some block =>
    by_cases emptyA : a = []
    · by_cases emptyB : b = []
      · rw [emptyA, emptyB]
      · rw [emptyA] at same
        exact absurd same (inputs_ne_of_filled emptyB)
    · by_cases emptyB : b = []
      · rw [emptyB] at same
        exact absurd same.symm (inputs_ne_of_filled emptyA)
      · refine eq_of_filled ?_ ?_ same
        · rw [List.isEmpty_eq_false_iff.2 emptyA, Bool.false_and]
        · rw [List.isEmpty_eq_false_iff.2 emptyB, Bool.false_and]

end Blake2b

/-! ## All families -/

/-- **Padding keeps records apart.** Every kernel gives its compression function inputs made of the
record, and two records with the same inputs are the same record: blocks for MD2 (in front of the
checksum) and SHA-256 (of records whose length in bits does not overflow), absorbed lanes for the
sponges, and blocks with a counter and the mark of the last one for BLAKE2b, whatever the key that
was staged. Two sponges of one width with the paddings of the two families have no inputs in
common. -/
theorem inputs_determine_record :
    ((∀ table, Algorithm.md2.kernel.Feeds table Md2.inputs (Md2.State.absorb table) .start
        (fun state => (state.absorb table state.checksum).x.toList.take 16)) ∧
      Function.Injective Md2.inputs) ∧
    ((∀ tables : Sha256.Tables, Algorithm.sha256.kernel.Feeds tables Sha256.inputs
        (Sha256.compress tables.constants) tables.initial
        (fun state => Bytes.ofWords32BE state.toList)) ∧
      ∀ a b, a.length < 2 ^ 61 → b.length < 2 ^ 61 → Sha256.inputs a = Sha256.inputs b → a = b) ∧
    (∀ bits, (Algorithm.keccak bits).isSupported →
      (∀ constants, (Algorithm.keccak bits).kernel.Feeds constants
        (Keccak.firstSubmission bits).inputs
        (fun a lanes => Keccak.permute constants (Keccak.absorbLanes a lanes))
        (Vector.replicate 25 0) (fun a => (Bytes.ofWords64LE a.toList).take (bits / 8))) ∧
      Function.Injective (Keccak.firstSubmission bits).inputs) ∧
    (∀ bits, (Algorithm.sha3 bits).isSupported →
      (∀ constants, (Algorithm.sha3 bits).kernel.Feeds constants (Keccak.standard bits).inputs
        (fun a lanes => Keccak.permute constants (Keccak.absorbLanes a lanes))
        (Vector.replicate 25 0) (fun a => (Bytes.ofWords64LE a.toList).take (bits / 8))) ∧
      Function.Injective (Keccak.standard bits).inputs) ∧
    (∀ bits, (Algorithm.keccak bits).isSupported → ∀ a b,
      (Keccak.firstSubmission bits).inputs a ≠ (Keccak.standard bits).inputs b) ∧
    (∀ bits, (Algorithm.blake2b bits).isSupported → ∀ key, key.length ≤ Algorithm.longestKey →
      ∃ blob tables, (Algorithm.blake2b bits).tableBlob key = .ok blob ∧
        (Algorithm.blake2b bits).kernel.load blob = .ok tables ∧
        (Algorithm.blake2b bits).kernel.Feeds tables (Blake2b.inputs tables.keyBlock)
          (Blake2b.Input.compress tables) tables.chaining
          (fun chaining => (Bytes.ofWords64LE chaining.toList).take (bits / 8)) ∧
        Function.Injective (Blake2b.inputs tables.keyBlock)) := by
  refine ⟨⟨Md2.feeds, Md2.inputs_injective⟩, ⟨Sha256.feeds, fun a b => Sha256.inputs_injective⟩,
    ?keccak, ?sha3, ?apart, ?blake2b⟩
  case keccak =>
    intro bits supported
    have known : bits ∈ Algorithm.keccakWidths := List.contains_iff_mem.1 supported
    exact Keccak.feeds_and_injective Keccak.closes_firstSubmission rfl
      (List.mem_append_left _ known)
  case sha3 =>
    intro bits supported
    have known : bits ∈ Algorithm.sha3Widths := List.contains_iff_mem.1 supported
    exact Keccak.feeds_and_injective Keccak.closes_standard rfl (List.mem_append_right _ known)
  case apart =>
    intro bits supported a b same
    have known : bits ∈ Algorithm.keccakWidths := List.contains_iff_mem.1 supported
    obtain ⟨rate, rates, positive, small, whole⟩ := Keccak.rate_of_width
      (s := Keccak.firstSubmission bits) rfl (List.mem_append_left _ known)
    have rates' : (Keccak.standard bits).rate = .ok rate := rates
    have equal := Keccak.bits_of_inputs Keccak.closes_firstSubmission Keccak.closes_standard rates
      rates' positive small whole same
    -- The record is a whole number of bytes, and two domain bits are not.
    have length := congrArg List.length equal
    simp only [List.length_append, Bytes.length_bits, List.length_cons, List.length_nil] at length
    omega
  case blake2b =>
    intro bits supported key short
    have small : bits / 8 ≤ 64 := by
      simp only [Algorithm.isSupported, Bool.and_eq_true, decide_eq_true_eq] at supported
      omega
    have fits : key.length ≤ 128 := Nat.le_trans short (by decide)
    obtain ⟨blob, staged, loaded⟩ := Blake2b.load_blob (bits / 8) fits
    exact ⟨blob, _, staged, loaded, Blake2b.feeds _ small, Blake2b.inputs_injective _⟩

end BatchDigest
