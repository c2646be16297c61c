/-!
# Digest algorithms

An algorithm is a family together with an output width in bits where the family leaves it open.
`Algorithm.isSupported` says which widths a family defines; nothing stops a caller from naming
another one, and the facade refuses it before it touches a device.
-/

namespace BatchDigest

/-- A digest algorithm, with its output width in bits where that varies. -/
inductive Algorithm where
  | md2
  | md5
  | sha1
  | sha256
  /-- The sponge with the padding of the first submission. -/
  | keccak (bits : Nat)
  /-- The sponge with the padding of the standard. -/
  | sha3 (bits : Nat)
  /-- The only family that takes a key. -/
  | blake2b (bits : Nat)
deriving Repr, DecidableEq

namespace Algorithm

/-- The widths in bits of the first submission's padding. -/
def keccakWidths : List Nat := [128, 224, 256, 288, 384, 512]

/-- The widths in bits of the standard. -/
def sha3Widths : List Nat := [224, 256, 384, 512]

/-- The longest key in bytes. -/
def longestKey : Nat := 64

/-- Whether the family defines the output width. -/
def isSupported : Algorithm → Bool
  | md2 | md5 | sha1 | sha256 => true
  | keccak bits => keccakWidths.contains bits
  | sha3 bits => sha3Widths.contains bits
  | blake2b bits => 8 ≤ bits && bits ≤ 512 && bits % 8 == 0

/-- The output width in bits. -/
def width : Algorithm → Nat
  | md2 | md5 => 128
  | sha1 => 160
  | sha256 => 256
  | keccak bits | sha3 bits | blake2b bits => bits

/-- The digest size in bytes, whole bytes only. -/
def digestSize (a : Algorithm) : Nat :=
  a.width / 8

/-- The family name, without a width. -/
def family : Algorithm → String
  | md2 => "md2"
  | md5 => "md5"
  | sha1 => "sha1"
  | sha256 => "sha256"
  | keccak _ => "keccak"
  | sha3 _ => "sha3"
  | blake2b _ => "blake2b"

/-- Whether the family takes a key. -/
def isKeyed : Algorithm → Bool
  | blake2b _ => true
  | _ => false

/-- The name of the algorithm: its family, and its width behind a dash where that varies. -/
def name (a : Algorithm) : String :=
  match a with
  | keccak bits | sha3 bits | blake2b bits => a.family ++ "-" ++ toString bits
  | _ => a.family

end Algorithm

end BatchDigest
