import BatchDigest.Bytes.Basic

/-!
# Words in byte strings

Words of 32 and 64 bits are stored as four or eight bytes, the least significant one first
(little-endian) or last (big-endian). Reading takes the first bytes of a string and sees zeros past
its end.
-/

namespace BatchDigest.Bytes

/-- The number that the bytes write, least significant byte first. -/
def littleEndian (bytes : Bytes) : Nat :=
  bytes.foldr (fun byte rest => byte.toNat + 256 * rest) 0

/-- The lowest `count` bytes of a number, least significant byte first. -/
def ofNatLE : Nat → Nat → Bytes
  | 0, _ => []
  | count + 1, value => value.toUInt8 :: ofNatLE count (value / 256)

/-- The lowest `count` bytes of a number, most significant byte first. -/
def ofNatBE (count value : Nat) : Bytes :=
  (ofNatLE count value).reverse

/-- The little-endian word of 32 bits at the front. -/
def word32LE (bytes : Bytes) : UInt32 :=
  (littleEndian (bytes.take 4)).toUInt32

/-- The big-endian word of 32 bits at the front of at least four bytes. -/
def word32BE (bytes : Bytes) : UInt32 :=
  (littleEndian (bytes.take 4).reverse).toUInt32

/-- The little-endian word of 64 bits at the front. -/
def word64LE (bytes : Bytes) : UInt64 :=
  (littleEndian (bytes.take 8)).toUInt64

/-- The words of 32 bits, stored little-endian one after the other. -/
def ofWords32LE (words : List UInt32) : Bytes :=
  words.flatMap fun word => ofNatLE 4 word.toNat

/-- The words of 32 bits, stored big-endian one after the other. -/
def ofWords32BE (words : List UInt32) : Bytes :=
  words.flatMap fun word => ofNatBE 4 word.toNat

/-- The words of 64 bits, stored little-endian one after the other. -/
def ofWords64LE (words : List UInt64) : Bytes :=
  words.flatMap fun word => ofNatLE 8 word.toNat

/-- The first `n` little-endian words of 32 bits. -/
def words32LE (n : Nat) (bytes : Bytes) : Vector UInt32 n :=
  Vector.ofFn fun i => word32LE (bytes.drop (4 * i.val))

/-- The first `n` big-endian words of 32 bits. -/
def words32BE (n : Nat) (bytes : Bytes) : Vector UInt32 n :=
  Vector.ofFn fun i => word32BE (bytes.drop (4 * i.val))

/-- The first `n` little-endian words of 64 bits. -/
def words64LE (n : Nat) (bytes : Bytes) : Vector UInt64 n :=
  Vector.ofFn fun i => word64LE (bytes.drop (8 * i.val))

/-- A row of words or bytes with another one at a place. -/
def setAt {α : Type} {n : Nat} (row : Vector α n) (place : Fin n) (value : α) : Vector α n :=
  row.set place.val value place.isLt

/-- A word of 32 bits turned left by an amount from 1 to 31. -/
def rotateLeft32 (word amount : UInt32) : UInt32 :=
  (word <<< amount) ||| (word >>> (32 - amount))

/-- A word of 32 bits turned right by an amount from 1 to 31. -/
def rotateRight32 (word amount : UInt32) : UInt32 :=
  (word >>> amount) ||| (word <<< (32 - amount))

/-- A word of 64 bits turned left by an amount from 1 to 63. -/
def rotateLeft64 (word amount : UInt64) : UInt64 :=
  (word <<< amount) ||| (word >>> (64 - amount))

/-- A word of 64 bits turned right by an amount from 1 to 63. -/
def rotateRight64 (word amount : UInt64) : UInt64 :=
  (word >>> amount) ||| (word <<< (64 - amount))

@[simp] theorem length_ofNatLE (count value : Nat) : (ofNatLE count value).length = count := by
  induction count generalizing value with
  | zero => rfl
  | succ count ih => simp [ofNatLE, ih]

@[simp] theorem length_ofNatBE (count value : Nat) : (ofNatBE count value).length = count := by
  simp [ofNatBE]

end BatchDigest.Bytes
