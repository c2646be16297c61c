import BatchDigest.Kernel.Probe
import BatchDigest.Algorithm.Name

/-!
# Kernels stay in their bounds

A kernel reports a crash where it could leave a buffer: a copy into a block, a byte behind the last
one, a digest that is longer than the state. For the algorithms and keys that the facade accepts
none of this happens. The blocks that close a record are built in buffers that are long enough, the
state is as long as the longest digest, and the tables that an algorithm stages are those that its
kernel loads (`Algorithm.digest_total`).
-/

namespace BatchDigest

/-- What follows a step that succeeds. -/
private theorem bind_of_ok {ε α β : Type} {x : Except ε α} {a : α} {next : α → Except ε β}
    (h : x = .ok a) : (x >>= next) = next a := by
  rw [h]
  rfl

namespace Bytes

/-- A write that fits replaces a range. -/
theorem write_ok (bytes : Bytes) (offset : Nat) (data : Bytes)
    (fits : offset + data.length ≤ bytes.length) :
    ∃ result, bytes.write offset data = .ok result ∧ result.length = bytes.length := by
  have replaced := overwrite?_eq_some_iff.2 ⟨fits, rfl⟩
  refine ⟨_, ?_, length_of_overwrite? replaced⟩
  unfold write
  rw [replaced]

/-- A byte in range is combined. -/
theorem toggle_ok (bytes : Bytes) (index : Nat) (value : UInt8) (inside : index < bytes.length) :
    ∃ result, bytes.toggle index value = .ok result ∧ result.length = bytes.length := by
  refine ⟨bytes.set index (bytes[index] ^^^ value), ?_, List.length_set⟩
  unfold toggle
  rw [List.getElem?_eq_getElem inside]

@[simp] theorem length_zeros (length : Nat) : (zeros length).length = length :=
  List.length_replicate

/-- What complete blocks leave is shorter than a block. -/
theorem length_tail (size : Nat) (bytes : Bytes) :
    (tail size bytes).length = bytes.length % size := by
  unfold tail
  rw [List.length_drop]
  have parts := Nat.div_add_mod' bytes.length size
  omega

theorem length_tail_lt {size : Nat} (positive : 0 < size) (bytes : Bytes) :
    (tail size bytes).length < size := by
  rw [length_tail]
  exact Nat.mod_lt _ positive

/-- Words of equal size take that size each. -/
theorem length_flatMap {α : Type} {write : α → Bytes} (size : Nat)
    (sizes : ∀ word, (write word).length = size) (words : List α) :
    (words.flatMap write).length = size * words.length := by
  induction words with
  | nil => rfl
  | cons word rest ih =>
    rw [List.flatMap_cons, List.length_append, sizes, ih, List.length_cons, Nat.mul_succ]
    exact Nat.add_comm _ _

@[simp] theorem length_ofWords32LE (words : List UInt32) :
    (ofWords32LE words).length = 4 * words.length :=
  length_flatMap _ (fun _ => length_ofNatLE _ _) words

@[simp] theorem length_ofWords32BE (words : List UInt32) :
    (ofWords32BE words).length = 4 * words.length :=
  length_flatMap _ (fun _ => length_ofNatBE _ _) words

@[simp] theorem length_ofWords64LE (words : List UInt64) :
    (ofWords64LE words).length = 8 * words.length :=
  length_flatMap _ (fun _ => length_ofNatLE _ _) words

end Bytes

/-! ## Padding with a length field -/

namespace LengthPadding

/-- What complete blocks of a record leave, the closing byte and the length field fit into two
blocks. -/
theorem closing_ok {rest field : Bytes} (short : rest.length < 64) (size : field.length = 8) :
    ∃ blocks, closing rest field = .ok blocks := by
  obtain ⟨first, hfirst, length₁⟩ := Bytes.write_ok (Bytes.zeros 128) 0 rest
    (by rw [Bytes.length_zeros]; omega)
  rw [Bytes.length_zeros] at length₁
  obtain ⟨second, hsecond, length₂⟩ := Bytes.write_ok first rest.length [0x80]
    (by rw [length₁, List.length_singleton]; omega)
  obtain ⟨third, hthird, _⟩ := Bytes.write_ok second
    ((if rest.length < 56 then 64 else 128) - 8) field
    (by rw [length₂, length₁, size]; split <;> decide)
  refine ⟨Bytes.blocks 64 (third.take (if rest.length < 56 then 64 else 128)), ?_⟩
  unfold closing
  rw [bind_of_ok hfirst, bind_of_ok hsecond]
  dsimp only
  rw [bind_of_ok hthird]
  rfl

theorem foldBlocks_ok {σ : Type} (compress : σ → Bytes → σ) (start : σ) (record : Bytes)
    {field : Bytes} (size : field.length = 8) :
    ∃ state, foldBlocks compress start record field = .ok state := by
  obtain ⟨blocks, closed⟩ := closing_ok (Bytes.length_tail_lt (by decide : 0 < 64) record) size
  refine ⟨blocks.foldl compress ((Bytes.blocks 64 record).foldl compress start), ?_⟩
  unfold foldBlocks
  dsimp only
  rw [bind_of_ok closed]
  rfl

end LengthPadding

/-! ## The state that a record leaves -/

theorem Md5.finalState_ok (record : Bytes) :
    ∃ state, Md5.finalState record = .ok state ∧ state.length = 16 := by
  obtain ⟨words, folded⟩ := LengthPadding.foldBlocks_ok Md5.compress Md5.initialValue record
    (Bytes.length_ofNatLE 8 (LengthPadding.bitLength record))
  refine ⟨Bytes.ofWords32LE words.toList, ?_, by simp⟩
  unfold Md5.finalState
  dsimp only
  rw [bind_of_ok folded]
  rfl

theorem Sha1.finalState_ok (record : Bytes) :
    ∃ state, Sha1.finalState record = .ok state ∧ state.length = 20 := by
  obtain ⟨words, folded⟩ := LengthPadding.foldBlocks_ok Sha1.compress Sha1.initialValue record
    (Bytes.length_ofNatBE 8 (LengthPadding.bitLength record))
  refine ⟨Bytes.ofWords32BE words.toList, ?_, by simp⟩
  unfold Sha1.finalState
  dsimp only
  rw [bind_of_ok folded]
  rfl

theorem Sha256.finalState_ok (tables : Sha256.Tables) (record : Bytes) :
    ∃ state, Sha256.finalState tables record = .ok state ∧ state.length = 32 := by
  obtain ⟨words, folded⟩ := LengthPadding.foldBlocks_ok (Sha256.compress tables.constants)
    tables.initial record (Bytes.length_ofNatBE 8 (LengthPadding.bitLength record))
  refine ⟨Bytes.ofWords32BE words.toList, ?_, by simp⟩
  unfold Sha256.finalState
  dsimp only
  rw [bind_of_ok folded]
  rfl

theorem Md2.finalState_ok (table : Vector UInt8 256) (record : Bytes) :
    ∃ state, Md2.finalState table record = .ok state ∧ state.length = 16 := by
  have short := Bytes.length_tail_lt (by decide : 0 < 16) record
  obtain ⟨last, hlast, _⟩ := Bytes.write_ok
    (List.replicate 16 (16 - (Bytes.tail 16 record).length).toUInt8) 0 (Bytes.tail 16 record)
    (by rw [List.length_replicate]; omega)
  have closed : Md2.lastBlock (Bytes.tail 16 record) = .ok last := hlast
  have state : ∃ x : Vector UInt8 48, Md2.finalState table record = .ok (x.toList.take 16) := by
    unfold Md2.finalState
    dsimp only
    rw [bind_of_ok closed]
    exact ⟨_, rfl⟩
  obtain ⟨x, state⟩ := state
  exact ⟨_, state, by simp⟩

/-- A sponge whose digest is shorter than half of the state has room for the padding. -/
theorem Keccak.finalState_ok {s : Keccak.Sponge} (small : 2 * s.digestSize < 200)
    (constants : Vector UInt64 24) (record : Bytes) :
    ∃ state, s.finalState constants record = .ok state ∧ state.length = 200 := by
  have rate : s.rate = .ok (200 - 2 * s.digestSize) := by
    unfold Keccak.Sponge.rate
    rw [if_neg (by omega), if_neg (by omega)]
  have short := Bytes.length_tail_lt (by omega : 0 < 200 - 2 * s.digestSize) record
  generalize hrest : Bytes.tail (200 - 2 * s.digestSize) record = rest at short
  obtain ⟨first, hfirst, length₁⟩ := Bytes.write_ok (Bytes.zeros 200) 0 rest
    (by rw [Bytes.length_zeros]; omega)
  rw [Bytes.length_zeros] at length₁
  obtain ⟨second, hsecond, length₂⟩ := Bytes.toggle_ok first rest.length s.suffix (by omega)
  obtain ⟨third, hthird, _⟩ := Bytes.toggle_ok second (200 - 2 * s.digestSize - 1) 0x80
    (by omega)
  have last : s.lastBlock (200 - 2 * s.digestSize) rest =
      .ok (third.take (200 - 2 * s.digestSize)) := by
    unfold Keccak.Sponge.lastBlock
    rw [bind_of_ok hfirst, bind_of_ok hsecond, bind_of_ok hthird]
    rfl
  have state : ∃ a : Keccak.State,
      s.finalState constants record = .ok (Bytes.ofWords64LE a.toList) := by
    unfold Keccak.Sponge.finalState
    rw [bind_of_ok rate, hrest]
    dsimp only
    rw [bind_of_ok last]
    exact ⟨_, rfl⟩
  obtain ⟨a, state⟩ := state
  exact ⟨_, state, by simp⟩

theorem Blake2b.finalState_ok (tables : Blake2b.Tables) (record : Bytes) :
    ∃ state, Blake2b.finalState tables record = .ok state ∧ state.length = 64 := by
  have absorbed : ∀ p : Blake2b.Progress,
      ∃ chaining, p.absorbRecord tables record = .ok chaining := by
    intro p
    unfold Blake2b.Progress.absorbRecord
    split
    · exact ⟨_, rfl⟩
    · obtain ⟨block, written, _⟩ := Bytes.write_ok (Bytes.zeros 128) 0
        (record.drop (Blake2b.bodyLength record)) (by
          rw [Bytes.length_zeros, List.length_drop]
          unfold Blake2b.bodyLength
          omega)
      dsimp only
      rw [bind_of_ok written]
      exact ⟨_, rfl⟩
  obtain ⟨chaining, absorbed⟩ := absorbed ((⟨tables.chaining, 0⟩ : Blake2b.Progress).absorbKey
    tables record)
  refine ⟨Bytes.ofWords64LE chaining.toList, ?_, by simp⟩
  unfold Blake2b.finalState
  dsimp only
  rw [bind_of_ok absorbed]
  rfl

/-! ## The tables that an algorithm stages -/

/-- A kernel without keyed tables loads every blob that is long enough. -/
theorem Sha256.load_ok {staged : Bytes} (long : 288 ≤ staged.length) :
    ∃ tables, Sha256.kernel.load staged = .ok tables :=
  ⟨_, if_pos long⟩

theorem Md2.load_ok {staged : Bytes} (long : 256 ≤ staged.length) :
    ∃ table, Md2.kernel.load staged = .ok table :=
  ⟨_, if_pos long⟩

theorem Keccak.load_ok {s : Keccak.Sponge} {staged : Bytes} (long : 192 ≤ staged.length) :
    ∃ constants, s.kernel.load staged = .ok constants :=
  ⟨_, if_pos long⟩

namespace Blake2b

theorem length_scheduleBytes : scheduleBytes.length = 192 :=
  Bytes.length_flatMap 16 (fun row => by simp) schedule.toList

/-- The schedule names message words only. -/
theorem scheduleBytes_small : scheduleBytes.all (· < 16) = true := by
  refine List.all_eq_true.2 ?_
  intro byte mem
  obtain ⟨row, _, inRow⟩ := List.mem_flatMap.1 mem
  obtain ⟨i, _, rfl⟩ := List.mem_map.1 inRow
  have small := i.isLt
  simp only [decide_eq_true_eq, UInt8.lt_iff_toNat_lt]
  show i.val % 256 < 16
  omega

/-- The tables of one of the two lengths behind which the schedule stands. -/
private theorem load_ok {front chaining : Bytes} (front64 : front.length = 64)
    (chaining64 : chaining.length = 64) (back : Bytes)
    (ending : back.length = 0 ∨ back.length = 128) :
    ∃ tables, load (front ++ scheduleBytes ++ chaining ++ back) = .ok tables := by
  have rows : ((front ++ scheduleBytes ++ chaining ++ back).drop 64).take 192 = scheduleBytes := by
    rw [List.append_assoc, List.append_assoc, ← front64, List.drop_left, ← length_scheduleBytes,
      List.take_left]
  unfold load
  rw [if_neg]
  · dsimp only
    rw [rows, if_pos scheduleBytes_small]
    exact ⟨_, rfl⟩
  · simp only [List.length_append, front64, length_scheduleBytes, chaining64, plainLength,
      keyedLength]
    omega

/-- A key that fits into its block is staged with it. -/
theorem exists_load_blob (digestSize : Nat) {key : Bytes} (short : key.length ≤ 128) :
    ∃ staged tables, blob digestSize key = .ok staged ∧ load staged = .ok tables := by
  have front : (Bytes.ofWords64LE initialValue.toList).length = 64 := by simp
  have chaining : (Bytes.ofWords64LE (parameterised digestSize key.length).toList).length = 64 := by
    simp
  by_cases empty : key.isEmpty
  · obtain ⟨tables, loaded⟩ := load_ok front chaining [] (.inl rfl)
    refine ⟨_, tables, ?_, loaded⟩
    unfold blob
    dsimp only
    rw [if_pos empty, List.append_nil]
    rfl
  · obtain ⟨block, written, length⟩ := Bytes.write_ok (Bytes.zeros 128) 0 key
      (by rw [Bytes.length_zeros]; omega)
    rw [Bytes.length_zeros] at length
    obtain ⟨tables, loaded⟩ := load_ok front chaining block (.inr length)
    refine ⟨_, tables, ?_, loaded⟩
    unfold blob
    dsimp only
    rw [if_neg empty, bind_of_ok written]
    rfl

end Blake2b

/-- A state that is long enough has a digest. -/
theorem Kernel.digest_ok {k : Kernel} {tables : k.Tables} {record state : Bytes}
    (final : k.finalState tables record = .ok state) (long : k.digestSize ≤ state.length) :
    k.digest tables record = .ok (state.take k.digestSize) := by
  unfold Kernel.digest
  rw [final]
  exact if_neg (Nat.not_lt.2 long)

/-- A state of the digest size is the digest. -/
theorem Kernel.digest_eq_state {k : Kernel} {tables : k.Tables} {record state : Bytes}
    (final : k.finalState tables record = .ok state) (size : state.length = k.digestSize) :
    k.digest tables record = .ok state := by
  rw [digest_ok final (Nat.le_of_eq size.symm), ← size, List.take_length]

/-- Where states have the digest size, the digest is what the state is shown to be. -/
theorem Kernel.digest_eq_hash {k : Kernel} {tables : k.Tables} {record hash : Bytes}
    (sized : ∃ state, k.finalState tables record = .ok state ∧ state.length = k.digestSize)
    (equal : k.finalState tables record = .ok hash) : k.digest tables record = .ok hash := by
  obtain ⟨state, final, size⟩ := sized
  rw [final, Except.ok.injEq] at equal
  rw [← equal]
  exact digest_eq_state final size

namespace Algorithm

/-- The digest of a record under a key: the kernel loads the tables that it stages for the key and
hashes the record. -/
def digest (a : Algorithm) (key record : Bytes) : Except ProbeError Bytes := do
  let k := a.keyedKernel key
  let blob ← k.blob.mapError .crash
  let tables ← (k.load blob).mapError .load
  (k.digest tables record).mapError .crash

/-- A kernel digests under staged tables what it digests under a key, whatever the record. -/
structure Loads (a : Algorithm) (key blob : Bytes) (tables : a.kernel.Tables) : Prop where
  staged : a.tableBlob key = .ok blob
  load : a.kernel.load blob = .ok tables
  digest : ∀ record, ∃ digest, a.kernel.digest tables record = .ok digest ∧
    a.digest key record = .ok digest ∧ digest.length = a.digestSize

theorem digestSize_kernel (a : Algorithm) : a.kernel.digestSize = a.digestSize := by
  cases a <;> rfl

/-- Tables that the kernel of a launch and the kernel under a key load alike. -/
private theorem loads_of_finalState {a : Algorithm} {key blob : Bytes} {tables : a.kernel.Tables}
    (staged : a.tableBlob key = .ok blob) (loaded : a.kernel.load blob = .ok tables)
    (same : ∀ record, a.digest key record =
      (a.kernel.digest tables record).mapError ProbeError.crash)
    (final : ∀ record, ∃ state, a.kernel.finalState tables record = .ok state ∧
      a.digestSize ≤ state.length) : a.Loads key blob tables := by
  refine ⟨staged, loaded, ?_⟩
  intro record
  obtain ⟨state, final, long⟩ := final record
  rw [← digestSize_kernel] at long
  have digest := Kernel.digest_ok final long
  refine ⟨_, digest, ?_, ?_⟩
  · rw [same, digest]
    rfl
  · rw [List.length_take, Nat.min_eq_left long, digestSize_kernel]

/-- A digest has at least one byte and at most 64. -/
theorem digestSize_bounds {a : Algorithm} (supported : a.isSupported) :
    0 < a.digestSize ∧ a.digestSize ≤ 64 := by
  cases a with
  | md2 | md5 | sha1 | sha256 => decide
  | keccak bits =>
    have width : bits ∈ keccakWidths := by simpa [isSupported] using supported
    simp only [keccakWidths, List.mem_cons, List.not_mem_nil, or_false] at width
    show 0 < bits / 8 ∧ bits / 8 ≤ 64
    omega
  | sha3 bits =>
    have width : bits ∈ sha3Widths := by simpa [isSupported] using supported
    simp only [sha3Widths, List.mem_cons, List.not_mem_nil, or_false] at width
    show 0 < bits / 8 ∧ bits / 8 ≤ 64
    omega
  | blake2b bits =>
    simp only [isSupported, Bool.and_eq_true, decide_eq_true_eq] at supported
    show 0 < bits / 8 ∧ bits / 8 ≤ 64
    omega

theorem digestSize_ne_zero {a : Algorithm} (supported : a.isSupported) :
    a.digestSize ≠ 0 :=
  Nat.ne_of_gt (digestSize_bounds supported).1

/-- Tables of a kernel that takes no key. -/
private theorem loads_of_kernel {a : Algorithm} {k : Kernel} (kernel : ∀ key, a.keyedKernel key = k)
    (key blob : Bytes) (tables : k.Tables) (staged : k.blob = .ok blob)
    (loaded : k.load blob = .ok tables)
    (final : ∀ record, ∃ state, k.finalState tables record = .ok state ∧
      a.digestSize ≤ state.length) : ∃ blob tables, a.Loads key blob tables := by
  obtain rfl := kernel []
  have same := kernel key
  refine ⟨blob, tables, loads_of_finalState ?_ loaded ?_ final⟩
  · unfold tableBlob
    rw [same]
    exact staged
  · intro record
    unfold digest
    rw [same]
    dsimp only
    rw [staged]
    show ((a.kernel.load blob).mapError ProbeError.load >>= fun tables =>
      (a.kernel.digest tables record).mapError ProbeError.crash) = _
    have loaded' : a.kernel.load blob = .ok tables := loaded
    rw [loaded']
    rfl

/-- Both sponges stage the round constants. -/
private theorem exists_loads_sponge {a : Algorithm} {s : Keccak.Sponge}
    (kernel : ∀ key, a.keyedKernel key = s.kernel) (key : Bytes)
    (size : s.digestSize = a.digestSize) (small : a.digestSize ≤ 64) :
    ∃ blob tables, a.Loads key blob tables := by
  obtain ⟨blob, staged, long⟩ : ∃ blob, s.kernel.blob = .ok blob ∧ 192 ≤ blob.length :=
    ⟨_, rfl, by simp⟩
  obtain ⟨constants, loaded⟩ := Keccak.load_ok (s := s) long
  refine loads_of_kernel kernel key blob constants staged loaded ?_
  intro record
  obtain ⟨state, final, length⟩ := Keccak.finalState_ok (s := s) (by omega) constants record
  exact ⟨state, final, by omega⟩

/-- The key matters for what is staged only. -/
theorem digest_kernel_blake2b (bits : Nat) (key : Bytes) (tables : Blake2b.Tables)
    (record : Bytes) :
    (Blake2b.kernel bits key).digest tables record =
      (Blake2b.kernel bits []).digest tables record := by
  unfold Kernel.digest Blake2b.kernel
  rfl

theorem exists_loads_blake2b {bits : Nat} (small : bits ≤ 512) {key : Bytes}
    (short : key.length ≤ 128) : ∃ blob tables, (blake2b bits).Loads key blob tables := by
  obtain ⟨blob, tables, staged, loaded⟩ := Blake2b.exists_load_blob (bits / 8) short
  refine ⟨blob, tables, loads_of_finalState staged loaded ?_ ?_⟩
  · intro record
    -- The key is in the tables, so the digest is that of the kernel without a key.
    show ((Blake2b.blob (bits / 8) key).mapError ProbeError.crash >>= fun blob =>
      (Blake2b.load blob).mapError ProbeError.load >>= fun tables =>
        (((Blake2b.kernel bits key).digest tables record).mapError ProbeError.crash)) = _
    rw [staged]
    show ((Blake2b.load blob).mapError ProbeError.load >>= fun tables =>
      ((Blake2b.kernel bits key).digest tables record).mapError ProbeError.crash) = _
    rw [loaded]
    show ((Blake2b.kernel bits key).digest tables record).mapError ProbeError.crash = _
    rw [digest_kernel_blake2b]
    rfl
  · intro record
    obtain ⟨state, final, length⟩ := Blake2b.finalState_ok tables record
    refine ⟨state, final, ?_⟩
    rw [length]
    show bits / 8 ≤ 64
    omega

/-- **No kernel crashes on tables that were staged for it.** -/
theorem exists_loads {a : Algorithm} (supported : a.isSupported) {key : Bytes}
    (short : key.length ≤ longestKey) : ∃ blob tables, a.Loads key blob tables := by
  cases a with
  | md2 =>
    obtain ⟨blob, staged, long⟩ : ∃ blob, Md2.kernel.blob = .ok blob ∧ 256 ≤ blob.length :=
      ⟨_, rfl, by simp⟩
    obtain ⟨table, loaded⟩ := Md2.load_ok long
    refine loads_of_kernel (fun _ => rfl) key blob table staged loaded ?_
    intro record
    obtain ⟨state, final, length⟩ := Md2.finalState_ok table record
    exact ⟨state, final, by rw [length]; exact Nat.le_refl 16⟩
  | md5 =>
    refine loads_of_kernel (k := Md5.kernel) (fun _ => rfl) key [] () rfl rfl ?_
    intro record
    obtain ⟨state, final, length⟩ := Md5.finalState_ok record
    exact ⟨state, final, by rw [length]; exact Nat.le_refl 16⟩
  | sha1 =>
    refine loads_of_kernel (k := Sha1.kernel) (fun _ => rfl) key [] () rfl rfl ?_
    intro record
    obtain ⟨state, final, length⟩ := Sha1.finalState_ok record
    exact ⟨state, final, by rw [length]; exact Nat.le_refl 20⟩
  | sha256 =>
    obtain ⟨blob, staged, long⟩ : ∃ blob, Sha256.kernel.blob = .ok blob ∧ 288 ≤ blob.length :=
      ⟨_, rfl, by simp [Sha256.blob]⟩
    obtain ⟨tables, loaded⟩ := Sha256.load_ok long
    refine loads_of_kernel (fun _ => rfl) key blob tables staged loaded ?_
    intro record
    obtain ⟨state, final, length⟩ := Sha256.finalState_ok tables record
    exact ⟨state, final, by rw [length]; exact Nat.le_refl 32⟩
  | keccak bits =>
    refine exists_loads_sponge (s := Keccak.firstSubmission bits) (fun _ => rfl) key rfl ?_
    exact (digestSize_bounds supported).2
  | sha3 bits =>
    refine exists_loads_sponge (s := Keccak.standard bits) (fun _ => rfl) key rfl ?_
    exact (digestSize_bounds supported).2
  | blake2b bits =>
    have small : bits ≤ 512 := by
      simp only [isSupported, Bool.and_eq_true, decide_eq_true_eq] at supported
      omega
    exact exists_loads_blake2b small (Nat.le_trans short (by decide))

end Algorithm

end BatchDigest
