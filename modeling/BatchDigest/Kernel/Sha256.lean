import BatchDigest.Kernel.LengthPadding

/-!
# SHA-256

Eight words of chaining value, a schedule of 64 words made from each block, and 64 rounds. The round
constants and the initial chaining value are staged tables.
-/

namespace BatchDigest.Sha256

open Bytes (rotateRight32)

/-- The round constants. -/
def roundConstants : Vector UInt32 64 := #v[
  0x428a2f98, 0x71374491, 0xb5c0fbcf, 0xe9b5dba5, 0x3956c25b, 0x59f111f1, 0x923f82a4, 0xab1c5ed5,
  0xd807aa98, 0x12835b01, 0x243185be, 0x550c7dc3, 0x72be5d74, 0x80deb1fe, 0x9bdc06a7, 0xc19bf174,
  0xe49b69c1, 0xefbe4786, 0x0fc19dc6, 0x240ca1cc, 0x2de92c6f, 0x4a7484aa, 0x5cb0a9dc, 0x76f988da,
  0x983e5152, 0xa831c66d, 0xb00327c8, 0xbf597fc7, 0xc6e00bf3, 0xd5a79147, 0x06ca6351, 0x14292967,
  0x27b70a85, 0x2e1b2138, 0x4d2c6dfc, 0x53380d13, 0x650a7354, 0x766a0abb, 0x81c2c92e, 0x92722c85,
  0xa2bfe8a1, 0xa81a664b, 0xc24b8b70, 0xc76c51a3, 0xd192e819, 0xd6990624, 0xf40e3585, 0x106aa070,
  0x19a4c116, 0x1e376c08, 0x2748774c, 0x34b0bcb5, 0x391c0cb3, 0x4ed8aa4a, 0x5b9cca4f, 0x682e6ff3,
  0x748f82ee, 0x78a5636f, 0x84c87814, 0x8cc70208, 0x90befffa, 0xa4506ceb, 0xbef9a3f7, 0xc67178f2]

/-- The initial chaining value. -/
def initialValue : Vector UInt32 8 := #v[
  0x6a09e667, 0xbb67ae85, 0x3c6ef372, 0xa54ff53a, 0x510e527f, 0x9b05688c, 0x1f83d9ab, 0x5be0cd19]

/-- The decoded tables. -/
structure Tables where
  constants : Vector UInt32 64
  initial : Vector UInt32 8

/-- The message schedule of a block: its sixteen words, and each later word from four before it. -/
def schedule (block : Bytes) : Vector UInt32 64 :=
  let first : Vector UInt32 64 := Bytes.words32BE 16 block ++ Vector.replicate 48 (0 : UInt32)
  Fin.foldl 48
    (fun w i =>
      let early := w.get ⟨i.val + 1, by omega⟩
      let late := w.get ⟨i.val + 14, by omega⟩
      let s0 := rotateRight32 early 7 ^^^ rotateRight32 early 18 ^^^ (early >>> 3)
      let s1 := rotateRight32 late 17 ^^^ rotateRight32 late 19 ^^^ (late >>> 10)
      let word := w.get ⟨i.val, by omega⟩ + s0 + w.get ⟨i.val + 9, by omega⟩ + s1
      w.set (i.val + 16) word (by omega))
    first

/-- One round on the eight working words. -/
def round (v : Vector UInt32 8) (constant word : UInt32) : Vector UInt32 8 :=
  let a := v[0]; let b := v[1]; let c := v[2]; let d := v[3]
  let e := v[4]; let f := v[5]; let g := v[6]; let h := v[7]
  let s1 := rotateRight32 e 6 ^^^ rotateRight32 e 11 ^^^ rotateRight32 e 25
  let choice := (e &&& f) ^^^ (~~~e &&& g)
  let t1 := h + s1 + choice + constant + word
  let s0 := rotateRight32 a 2 ^^^ rotateRight32 a 13 ^^^ rotateRight32 a 22
  let majority := (a &&& b) ^^^ (a &&& c) ^^^ (b &&& c)
  let t2 := s0 + majority
  #v[t1 + t2, a, b, c, d + t1, e, f, g]

/-- The chaining value after a block. -/
def compress (constants : Vector UInt32 64) (state : Vector UInt32 8) (block : Bytes) :
    Vector UInt32 8 :=
  let w := schedule block
  let v := Fin.foldl 64 (fun v i => round v (constants.get i) (w.get i)) state
  state.zipWith (· + ·) v

/-- The chaining value after a record, in bytes. -/
def finalState (tables : Tables) (record : Bytes) : Except Crash Bytes := do
  let field := Bytes.ofNatBE 8 (LengthPadding.bitLength record)
  let state ← LengthPadding.foldBlocks (compress tables.constants) tables.initial record field
  return Bytes.ofWords32BE state.toList

/-- The staged tables: round constants, then the initial value. -/
def blob : Bytes :=
  Bytes.ofWords32LE (roundConstants.toList ++ initialValue.toList)

/-- A blob holds the tables in its first 288 bytes. -/
def load (staged : Bytes) : Except LoadError Tables :=
  if 288 ≤ staged.length then
    .ok ⟨Bytes.words32LE 64 staged, Bytes.words32LE 8 (staged.drop 256)⟩
  else .error (.short "sha256" staged.length 288)

/-- The kernel. -/
def kernel : Kernel where
  Tables := Tables
  digestSize := 32
  blob := .ok blob
  load := load
  finalState := finalState

end BatchDigest.Sha256
