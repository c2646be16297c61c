import Mathlib.Tactic.IntervalCases
import BatchDigest.Proofs.Kernel.Blake2b
import BatchDigest.Proofs.Kernel.Md2
import BatchDigest.Proofs.Kernel.Sha256
import BatchDigest.Proofs.Kernel.Sponge

/-!
# What staged tables say

Tables are written by one kernel and read by another one, which was not given the key. What is read
are the constants of the standard of the algorithm (`Algorithm.Encodes`). For BLAKE2b it is also the
context of the key, and there is no other place from which a launch could learn of the key or of the
length of the digest. So the blob must tell all keys and widths apart: both can be read off it
(`Blake2b.decode_blob`), which makes the writing of blobs injective.
-/

namespace BatchDigest

/-! ## Reading width and key off a blob -/

namespace Blake2b

/-- The parameters that were mixed into a blob: the first word of the chaining value without the
first word of the initial value. -/
def parameters (staged : Bytes) : Nat :=
  (Bytes.word64LE (staged.drop 256) ^^^ Bytes.word64LE staged).toNat

/-- The width in bits and the key that a blob was made for. -/
def decode (staged : Bytes) : Nat × Bytes :=
  (8 * (parameters staged % 256), (staged.drop plainLength).take (parameters staged / 256 % 256))

/-- The word of parameters. -/
def parameterWord (digestSize keyLength : Nat) : UInt64 :=
  (0x01010000 : UInt64) ^^^ (keyLength.toUInt64 <<< 8) ^^^ digestSize.toUInt64

/-- The digest size is the lowest byte of the parameters, and the key length the one above it. -/
theorem parameterWord_bytes :
    ∀ digestSize keyLength : Fin 65,
      (parameterWord digestSize keyLength).toNat % 256 = digestSize ∧
        (parameterWord digestSize keyLength).toNat / 256 % 256 = keyLength := by
  decide +kernel

variable {digestSize : Nat} {key : Bytes}

/-- Taking the initial value away leaves the parameters, which are in the first word. -/
theorem getElem_parameterised (digestSize keyLength : Nat) {i : Nat} (inside : i < 8) :
    (parameterised digestSize keyLength)[i] ^^^ initialValue[i] =
      if i = 0 then parameterWord digestSize keyLength else 0 := by
  have mixed : (parameterised digestSize keyLength)[i] =
      initialValue[i] ^^^ #v[parameterWord digestSize keyLength, 0, 0, 0, 0, 0, 0, 0][i] :=
    Vector.getElem_zipWith _
  rw [mixed, UInt64.xor_comm initialValue[i], UInt64.xor_assoc, UInt64.xor_self, UInt64.xor_zero]
  interval_cases i <;> rfl

/-- **Width and key are read off the blob.** -/
theorem decode_blob (small : digestSize ≤ 64) (short : key.length ≤ 64) {staged : Bytes}
    (written : blob digestSize key = .ok staged) : decode staged = (8 * digestSize, key) := by
  have fits : key.length ≤ 128 := by omega
  rw [blob_eq digestSize fits, Except.ok.injEq] at written
  have length : ∀ words : Vector UInt64 8, (Bytes.ofWords64LE words.toList).length = 64 := by
    intro words
    rw [Bytes.length_ofWords64LE, Vector.length_toList]
  have word : ∀ (words : Vector UInt64 8) (rest : Bytes),
      Bytes.word64LE (Bytes.ofWords64LE words.toList ++ rest) = words[0] := by
    intro words rest
    have inside : 0 < words.toList.length := by
      rw [Vector.length_toList]
      decide
    exact (Bytes.word64LE_ofWords64LE inside rest).trans (Vector.getElem_toList _)
  have mixed : parameters staged = (parameterWord digestSize key.length).toNat := by
    unfold parameters
    rw [← written, drop_chaining (length _), word, word, getElem_parameterised, if_pos rfl]
  have behind : staged.drop plainLength = keyBytes key := by
    rw [← written, drop_keyBytes (length _) (length _)]
  obtain ⟨size, keyed⟩ := parameterWord_bytes ⟨digestSize, by omega⟩ ⟨key.length, by omega⟩
  unfold decode
  rw [mixed, behind, size, keyed]
  refine Prod.ext rfl ?_
  show (keyBytes key).take key.length = key
  unfold keyBytes
  by_cases unkeyed : key = []
  · rw [if_pos unkeyed, unkeyed]
    rfl
  · rw [if_neg unkeyed]
    exact List.take_left

/-- What tables hold for a digest size and a key. -/
structure Encodes (digestSize : Nat) (key : Bytes) (tables : Tables) : Prop where
  initial : wordsOf tables.initial = Rfc7693.iv
  schedule : ∀ i : Fin 12, (tables.schedule.get i).get = Rfc7693.sigma (Fin.ofNat 10 i.val)
  chaining : wordsOf tables.chaining = Rfc7693.start digestSize key.length
  keyBlock : tables.keyBlock = if key = [] then none else some (Rfc7693.padded key)

theorem encodes_tablesFor (digestSize : Nat) (key : Bytes) :
    Encodes digestSize key (tablesFor digestSize key) :=
  ⟨wordsOf_initialValue, get_schedule, wordsOf_parameterised digestSize key.length, rfl⟩

end Blake2b

/-! ## What every algorithm finds in its tables -/

namespace Algorithm

/-- What tables hold for an algorithm under a key: what its standard defines, and the context of the
key where the algorithm takes one. -/
def Encodes : (a : Algorithm) → Bytes → a.kernel.Tables → Prop
  | md2, _, (table : Vector UInt8 256) => Md2.lookup table = Rfc1319.piSubst
  | md5, _, _ | sha1, _, _ => True
  | sha256, _, (tables : Sha256.Tables) =>
    Words32.wordsOf tables.constants = Fips180.constant ∧
      Words32.wordsOf tables.initial = Fips180.initial
  | keccak _, _, (constants : Vector UInt64 24) | sha3 _, _, (constants : Vector UInt64 24) =>
    ∀ (index : Fin 24) (z : Fin 64),
      (constants.get index).toNat.testBit z = Fips202.roundConstant index z
  | blake2b bits, key, (tables : Blake2b.Tables) => Blake2b.Encodes (bits / 8) key tables

/-- **What is staged is loaded as what it stands for**, by a kernel that was not given the key. -/
theorem exists_encodes (a : Algorithm) {key : Bytes} (short : key.length ≤ longestKey) :
    ∃ blob tables, a.tableBlob key = .ok blob ∧ a.kernel.load blob = .ok tables ∧
      a.Encodes key tables := by
  cases a with
  | md2 =>
    obtain ⟨blob, staged, loaded⟩ := Md2.load_blob
    exact ⟨blob, _, staged, loaded, Md2.lookup_substitution⟩
  | md5 => exact ⟨[], (), rfl, rfl, trivial⟩
  | sha1 => exact ⟨[], (), rfl, rfl, trivial⟩
  | sha256 =>
    obtain ⟨blob, staged, loaded⟩ := Sha256.load_blob
    exact ⟨blob, _, staged, loaded, Sha256.wordsOf_roundConstants, Sha256.wordsOf_initialValue⟩
  | keccak bits =>
    exact ⟨_, _, Keccak.blob_kernel _, Keccak.load_kernel _ _, Keccak.testBit_roundConstants⟩
  | sha3 bits =>
    exact ⟨_, _, Keccak.blob_kernel _, Keccak.load_kernel _ _, Keccak.testBit_roundConstants⟩
  | blake2b bits =>
    have fits : key.length ≤ 128 := Nat.le_trans short (by decide)
    obtain ⟨blob, staged, loaded⟩ := Blake2b.load_blob (bits / 8) fits
    exact ⟨blob, _, staged, loaded, Blake2b.encodes_tablesFor (bits / 8) key⟩

/-- The length of a table blob. -/
def blobLength : Algorithm → Bytes → Nat
  | md2, _ => 256
  | md5, _ | sha1, _ => 0
  | sha256, _ => 288
  | keccak _, _ | sha3 _, _ => 192
  | blake2b _, key => if key = [] then 320 else 448

theorem blobLength_eq_zero {a : Algorithm} {key : Bytes} :
    a.blobLength key = 0 ↔ a = .md5 ∨ a = .sha1 := by
  cases a <;> simp [blobLength]
  split <;> simp

theorem blobLength_le (a : Algorithm) (key : Bytes) : a.blobLength key ≤ 448 := by
  cases a <;> simp [blobLength]
  split <;> simp

/-- Blobs are of the length of the tables of their algorithm. -/
theorem exists_tableBlob (a : Algorithm) {key : Bytes} (short : key.length ≤ longestKey) :
    ∃ blob, a.tableBlob key = .ok blob ∧ blob.length = a.blobLength key := by
  cases a with
  | md2 => exact ⟨_, rfl, Vector.length_toList⟩
  | md5 | sha1 => exact ⟨[], rfl, rfl⟩
  | sha256 => exact ⟨_, rfl, by simp [Sha256.blob, blobLength]⟩
  | keccak bits | sha3 bits =>
    refine ⟨_, Keccak.blob_kernel _, ?_⟩
    rw [Bytes.length_ofWords64LE, Vector.length_toList]
    rfl
  | blake2b bits =>
    have fits : key.length ≤ 128 := Nat.le_trans short (by decide)
    have keyed : (Blake2b.keyBytes key).length = if key = [] then 0 else 128 := by
      unfold Blake2b.keyBytes
      split
      · rfl
      · exact Blake2b.length_padded fits
    refine ⟨_, Blake2b.blob_eq (bits / 8) fits, ?_⟩
    simp only [List.length_append, Bytes.length_ofWords64LE, Vector.length_toList,
      Blake2b.length_scheduleBytes, keyed, blobLength]
    split <;> rfl

/-- Width and key of BLAKE2b are read off what is staged. -/
theorem decode_tableBlob {bits : Nat} (supported : (blake2b bits).isSupported) {key : Bytes}
    (short : key.length ≤ longestKey) {blob : Bytes}
    (staged : (blake2b bits).tableBlob key = .ok blob) : Blake2b.decode blob = (bits, key) := by
  simp only [isSupported, Bool.and_eq_true, decide_eq_true_eq, beq_iff_eq] at supported
  have small : bits / 8 ≤ 64 := by omega
  have whole : 8 * (bits / 8) = bits := by omega
  rw [Blake2b.decode_blob small short staged, whole]

end Algorithm

end BatchDigest
