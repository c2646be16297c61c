import BatchDigest.Kernel.LengthPadding

/-!
# SHA-1

Five words of chaining value, a schedule of 80 words made from each block, and 80 rounds in four
groups of twenty. Nothing is staged.
-/

namespace BatchDigest.Sha1

open Bytes (rotateLeft32)

/-- The initial chaining value. -/
def initialValue : Vector UInt32 5 :=
  #v[0x67452301, 0xefcdab89, 0x98badcfe, 0x10325476, 0xc3d2e1f0]

/-- The message schedule of a block: its sixteen words, and each later word from four before it. -/
def schedule (block : Bytes) : Vector UInt32 80 :=
  let first : Vector UInt32 80 := Bytes.words32BE 16 block ++ Vector.replicate 64 (0 : UInt32)
  Fin.foldl 64
    (fun w i =>
      let mixed := w.get ⟨i.val + 13, by omega⟩ ^^^ w.get ⟨i.val + 8, by omega⟩ ^^^
        w.get ⟨i.val + 2, by omega⟩ ^^^ w.get ⟨i.val, by omega⟩
      w.set (i.val + 16) (rotateLeft32 mixed 1) (by omega))
    first

/-- The function and the constant of a round. -/
def selection (t : Nat) (b c d : UInt32) : UInt32 × UInt32 :=
  if t < 20 then ((b &&& c) ||| (~~~b &&& d), 0x5a827999)
  else if t < 40 then (b ^^^ c ^^^ d, 0x6ed9eba1)
  else if t < 60 then ((b &&& c) ||| (b &&& d) ||| (c &&& d), 0x8f1bbcdc)
  else (b ^^^ c ^^^ d, 0xca62c1d6)

/-- One round on the five working words. -/
def round (v : Vector UInt32 5) (t : Nat) (word : UInt32) : Vector UInt32 5 :=
  let (f, constant) := selection t v[1] v[2] v[3]
  #v[rotateLeft32 v[0] 5 + f + v[4] + constant + word, v[0], rotateLeft32 v[1] 30, v[2], v[3]]

/-- The chaining value after a block. -/
def compress (state : Vector UInt32 5) (block : Bytes) : Vector UInt32 5 :=
  let w := schedule block
  let v := Fin.foldl 80 (fun v t => round v t.val (w.get t)) state
  state.zipWith (· + ·) v

/-- The chaining value after a record, in bytes. -/
def finalState (record : Bytes) : Except Crash Bytes := do
  let field := Bytes.ofNatBE 8 (LengthPadding.bitLength record)
  let state ← LengthPadding.foldBlocks compress initialValue record field
  return Bytes.ofWords32BE state.toList

/-- The kernel. -/
def kernel : Kernel where
  Tables := Unit
  digestSize := 20
  blob := .ok []
  load := fun _ => .ok ()
  finalState := fun _ => finalState

end BatchDigest.Sha1
