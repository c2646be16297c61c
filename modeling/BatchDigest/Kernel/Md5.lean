import BatchDigest.Kernel.LengthPadding

/-!
# MD5

Four words of chaining value and 64 rounds in four groups of sixteen. Every round reads one word of
the block, adds a constant of its own and turns the sum by one of four amounts of its group. Words
and the length field are little-endian. Nothing is staged.
-/

namespace BatchDigest.Md5

open Bytes (rotateLeft32)

/-- The initial chaining value. -/
def initialValue : Vector UInt32 4 :=
  #v[0x67452301, 0xefcdab89, 0x98badcfe, 0x10325476]

/-- The constants of the rounds, from the absolute values of sines. -/
def roundConstants : Vector UInt32 64 := #v[
  0xd76aa478, 0xe8c7b756, 0x242070db, 0xc1bdceee, 0xf57c0faf, 0x4787c62a, 0xa8304613, 0xfd469501,
  0x698098d8, 0x8b44f7af, 0xffff5bb1, 0x895cd7be, 0x6b901122, 0xfd987193, 0xa679438e, 0x49b40821,
  0xf61e2562, 0xc040b340, 0x265e5a51, 0xe9b6c7aa, 0xd62f105d, 0x02441453, 0xd8a1e681, 0xe7d3fbc8,
  0x21e1cde6, 0xc33707d6, 0xf4d50d87, 0x455a14ed, 0xa9e3e905, 0xfcefa3f8, 0x676f02d9, 0x8d2a4c8a,
  0xfffa3942, 0x8771f681, 0x6d9d6122, 0xfde5380c, 0xa4beea44, 0x4bdecfa9, 0xf6bb4b60, 0xbebfbc70,
  0x289b7ec6, 0xeaa127fa, 0xd4ef3085, 0x04881d05, 0xd9d4d039, 0xe6db99e5, 0x1fa27cf8, 0xc4ac5665,
  0xf4292244, 0x432aff97, 0xab9423a7, 0xfc93a039, 0x655b59c3, 0x8f0ccc92, 0xffeff47d, 0x85845dd1,
  0x6fa87e4f, 0xfe2ce6e0, 0xa3014314, 0x4e0811a1, 0xf7537e82, 0xbd3af235, 0x2ad7d2bb, 0xeb86d391]

/-- The amounts that the rounds turn by, four per group. -/
def turns : Vector UInt32 16 :=
  #v[7, 12, 17, 22, 5, 9, 14, 20, 4, 11, 16, 23, 6, 10, 15, 21]

/-- The function of a round and the word of the block that it reads. -/
def selection (t : Nat) (b c d : UInt32) : UInt32 × Nat :=
  if t < 16 then ((b &&& c) ||| (~~~b &&& d), t)
  else if t < 32 then ((d &&& b) ||| (~~~d &&& c), 5 * t + 1)
  else if t < 48 then (b ^^^ c ^^^ d, 3 * t + 5)
  else (c ^^^ (b ||| ~~~d), 7 * t)

/-- One round on the four working words. -/
def round (words : Vector UInt32 16) (v : Vector UInt32 4) (t : Fin 64) : Vector UInt32 4 :=
  let (f, word) := selection t.val v[1] v[2] v[3]
  let sum := v[0] + f + roundConstants.get t + words.get ⟨word % 16, by omega⟩
  let turn := turns.get ⟨t.val / 16 * 4 + t.val % 4, by omega⟩
  #v[v[3], v[1] + rotateLeft32 sum turn, v[1], v[2]]

/-- The chaining value after a block. -/
def compress (state : Vector UInt32 4) (block : Bytes) : Vector UInt32 4 :=
  let words := Bytes.words32LE 16 block
  state.zipWith (· + ·) (Fin.foldl 64 (round words) state)

/-- The chaining value after a record, in bytes. -/
def finalState (record : Bytes) : Except Crash Bytes := do
  let field := Bytes.ofNatLE 8 (LengthPadding.bitLength record)
  let state ← LengthPadding.foldBlocks compress initialValue record field
  return Bytes.ofWords32LE state.toList

/-- The kernel. -/
def kernel : Kernel where
  Tables := Unit
  digestSize := 16
  blob := .ok []
  load := fun _ => .ok ()
  finalState := fun _ => finalState

end BatchDigest.Md5
