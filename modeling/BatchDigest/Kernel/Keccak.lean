import BatchDigest.Kernel.Basic

/-!
# Keccak and SHA-3

A sponge over a state of 25 lanes of 64 bits. The rate is what the capacity, twice the digest,
leaves of the 200 bytes. Each block of the rate is combined with the front of the state, and the
state is permuted; the last block closes the record with a suffix, which alone tells the two
families apart, and a final bit. A digest never exceeds the rate, so it is read off at once.

The permutation turns and moves the lanes in one walk along a cycle of 24 lanes, each lane taking
the place of the next. The round constants are staged tables.
-/

namespace BatchDigest.Keccak

open Bytes (rotateLeft64)

/-- The state of the sponge, lane `x + 5 * y` for column `x` and row `y`. -/
abbrev State := Vector UInt64 25

/-- The round constants. -/
def roundConstants : Vector UInt64 24 := #v[
  0x0000000000000001, 0x0000000000008082, 0x800000000000808a, 0x8000000080008000,
  0x000000000000808b, 0x0000000080000001, 0x8000000080008081, 0x8000000000008009,
  0x000000000000008a, 0x0000000000000088, 0x0000000080008009, 0x000000008000000a,
  0x000000008000808b, 0x800000000000008b, 0x8000000000008089, 0x8000000000008003,
  0x8000000000008002, 0x8000000000000080, 0x000000000000800a, 0x800000008000000a,
  0x8000000080008081, 0x8000000000008080, 0x0000000080000001, 0x8000000080008008]

/-- The walk of the lanes: how far the carried lane is turned, and where it is put. -/
def walk : List (UInt64 × Fin 25) :=
  [(1, 10), (3, 7), (6, 11), (10, 17), (15, 18), (21, 3), (28, 5), (36, 16), (45, 8), (55, 21),
    (2, 24), (14, 4), (27, 15), (41, 23), (56, 19), (8, 13), (25, 12), (43, 2), (62, 20),
    (18, 14), (39, 22), (61, 9), (20, 6), (44, 1)]

/-- The parity of column `x`. -/
def parity (a : State) (x : Fin 5) : UInt64 :=
  a.get ⟨x.val, by omega⟩ ^^^ a.get ⟨x.val + 5, by omega⟩ ^^^ a.get ⟨x.val + 10, by omega⟩ ^^^
    a.get ⟨x.val + 15, by omega⟩ ^^^ a.get ⟨x.val + 20, by omega⟩

/-- Adds to each lane the parities of two neighbouring columns. -/
def mixColumns (a : State) : State :=
  let c : Vector UInt64 5 := Vector.ofFn (parity a)
  let d : Vector UInt64 5 := Vector.ofFn fun x => c.get (x + 4) ^^^ rotateLeft64 (c.get (x + 1)) 1
  Vector.ofFn fun i => a.get i ^^^ d.get (Fin.ofNat 5 i.val)

/-- Turns and moves the lanes along the walk, starting with lane 1. -/
def turnLanes (a : State) : State :=
  (walk.foldl
    (fun (a, carried) (turn, lane) =>
      (a.set lane.val (rotateLeft64 carried turn) lane.isLt, a.get lane))
    (a, a.get 1)).1

/-- The lane `n` places to the right of lane `i` in its row, which is a cycle. -/
def along (i : Fin 25) (n : Nat) : Fin 25 :=
  ⟨i.val / 5 * 5 + (i.val + n) % 5, by omega⟩

/-- Combines each lane with the two to its right. -/
def mixRows (a : State) : State :=
  Vector.ofFn fun i => a.get i ^^^ (~~~(a.get (along i 1)) &&& a.get (along i 2))

/-- One round of the permutation. -/
def round (a : State) (constant : UInt64) : State :=
  let a := mixRows (turnLanes (mixColumns a))
  a.set 0 (a[0] ^^^ constant)

/-- The permutation with the given round constants. -/
def permute (constants : Vector UInt64 24) (a : State) : State :=
  constants.foldl round a

/-- Combines the front of the state with the complete lanes of a block. -/
def absorb (a : State) (block : Bytes) : State :=
  Vector.ofFn fun i =>
    if 8 * (i.val + 1) ≤ block.length then a.get i ^^^ Bytes.word64LE (block.drop (8 * i.val))
    else a.get i

/-- A member of the family: the digest size in bytes and the byte that closes a record. -/
structure Sponge where
  digestSize : Nat
  suffix : UInt8

/-- The sponge with the padding of the first submission, for a width in bits. -/
def firstSubmission (bits : Nat) : Sponge :=
  ⟨bits / 8, 0x01⟩

/-- The sponge with the padding of the standard, for a width in bits. -/
def standard (bits : Nat) : Sponge :=
  ⟨bits / 8, 0x06⟩

/-- The rate in bytes, which has to be positive. -/
def Sponge.rate (s : Sponge) : Except Crash Nat :=
  if 200 < 2 * s.digestSize then .error .negativeRate
  else if 2 * s.digestSize = 200 then .error .emptyRate
  else .ok (200 - 2 * s.digestSize)

/-- The last block: what is left of the record, the suffix behind it and the final bit. -/
def Sponge.lastBlock (s : Sponge) (rate : Nat) (rest : Bytes) : Except Crash Bytes := do
  let block ← (Bytes.zeros 200).write 0 rest
  let block ← block.toggle rest.length s.suffix
  let block ← block.toggle (rate - 1) 0x80
  return block.take rate

/-- The lanes after a record, in bytes. -/
def Sponge.finalState (s : Sponge) (constants : Vector UInt64 24) (record : Bytes) :
    Except Crash Bytes := do
  let rate ← s.rate
  let state := (Bytes.blocks rate record).foldl
    (fun a block => permute constants (absorb a block)) (Vector.replicate 25 0)
  let last ← s.lastBlock rate (Bytes.tail rate record)
  return Bytes.ofWords64LE (permute constants (absorb state last)).toList

/-- A blob holds the round constants in its first 192 bytes. -/
def load (staged : Bytes) : Except LoadError (Vector UInt64 24) :=
  if 192 ≤ staged.length then .ok (Bytes.words64LE 24 staged)
  else .error (.short "keccak" staged.length 192)

/-- The kernel of a sponge. -/
def Sponge.kernel (s : Sponge) : Kernel where
  Tables := Vector UInt64 24
  digestSize := s.digestSize
  blob := .ok (Bytes.ofWords64LE roundConstants.toList)
  load := load
  finalState := s.finalState

end BatchDigest.Keccak
