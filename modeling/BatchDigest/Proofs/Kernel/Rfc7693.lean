import Mathlib.Algebra.Order.Group.Nat
import Mathlib.Data.Fin.VecNotation
import Mathlib.Data.Nat.Digits.Defs
import Mathlib.Data.Nat.Sqrt
import BatchDigest.Bytes.Basic

/-!
# BLAKE2b of RFC 7693

The hash on words of 64 bits and rows of words as functions, in the words of the document: the
initial value from square roots of primes, ten permutations of the message words that twelve rounds
go through in turn, the compression function, and the blocks of one padded text, of which all but
the last are compressed with the bytes so far and the last one with the length of the text. A key is
the first block of the text. `Blake2b` is measured against it.
-/

namespace BatchDigest.Rfc7693

/-- A word. -/
abbrev Word := BitVec 64

/-- The first eight primes. -/
def primes : Fin 8 → Nat := ![2, 3, 5, 7, 11, 13, 17, 19]

/-- The initial value: the first 64 bits of the fractions of the square roots of the primes. -/
def iv (i : Fin 8) : Word :=
  BitVec.ofNat 64 (Nat.sqrt (primes i * 2 ^ 128))

/-- Working words and message words are numbered modulo 16. -/
local instance neZero_words : NeZero 16 := ⟨nofun⟩

/-- The message permutations. -/
def sigma : Fin 10 → Fin 16 → Fin 16 := ![
  ![0, 1, 2, 3, 4, 5, 6, 7, 8, 9, 10, 11, 12, 13, 14, 15],
  ![14, 10, 4, 8, 9, 15, 13, 6, 1, 12, 0, 2, 11, 7, 5, 3],
  ![11, 8, 12, 0, 5, 2, 15, 13, 10, 14, 3, 6, 7, 1, 9, 4],
  ![7, 9, 3, 1, 13, 12, 11, 14, 2, 6, 5, 10, 4, 0, 15, 8],
  ![9, 0, 5, 7, 2, 4, 10, 15, 14, 1, 11, 12, 6, 8, 3, 13],
  ![2, 12, 6, 10, 0, 11, 8, 3, 4, 13, 7, 5, 15, 14, 1, 9],
  ![12, 5, 1, 15, 14, 13, 4, 10, 0, 7, 6, 3, 9, 2, 8, 11],
  ![13, 11, 7, 14, 12, 1, 3, 9, 5, 0, 15, 4, 8, 6, 2, 10],
  ![6, 15, 14, 9, 11, 3, 0, 8, 12, 2, 13, 7, 1, 4, 10, 5],
  ![10, 2, 8, 4, 7, 6, 1, 5, 15, 11, 9, 14, 3, 12, 13, 0]]

/-- The mixing function G. -/
def mix (v : Fin 16 → Word) (a b c d : Fin 16) (x y : Word) : Fin 16 → Word :=
  let v := Function.update v a (v a + v b + x)
  let v := Function.update v d ((v d ^^^ v a).rotateRight 32)
  let v := Function.update v c (v c + v d)
  let v := Function.update v b ((v b ^^^ v c).rotateRight 24)
  let v := Function.update v a (v a + v b + y)
  let v := Function.update v d ((v d ^^^ v a).rotateRight 16)
  let v := Function.update v c (v c + v d)
  Function.update v b ((v b ^^^ v c).rotateRight 63)

/-- A round: the columns and the diagonals, with the message words in the order `s`. -/
def round (m : Fin 16 → Word) (v : Fin 16 → Word) (s : Fin 16 → Fin 16) : Fin 16 → Word :=
  let v := mix v 0 4 8 12 (m (s 0)) (m (s 1))
  let v := mix v 1 5 9 13 (m (s 2)) (m (s 3))
  let v := mix v 2 6 10 14 (m (s 4)) (m (s 5))
  let v := mix v 3 7 11 15 (m (s 6)) (m (s 7))
  let v := mix v 0 5 10 15 (m (s 8)) (m (s 9))
  let v := mix v 1 6 11 12 (m (s 10)) (m (s 11))
  let v := mix v 2 7 8 13 (m (s 12)) (m (s 13))
  mix v 3 4 9 14 (m (s 14)) (m (s 15))

/-- The working words before the rounds: the state, the initial value, the counter in two words and
the mark of the last block. -/
def working (h : Fin 8 → Word) (t : Nat) (last : Bool) : Fin 16 → Word :=
  let v : Fin 16 → Word := Fin.append h iv
  let v := Function.update v 12 (v 12 ^^^ BitVec.ofNat 64 t)
  let v := Function.update v 13 (v 13 ^^^ BitVec.ofNat 64 (t / 2 ^ 64))
  if last then Function.update v 14 (v 14 ^^^ BitVec.allOnes 64) else v

/-- The compression function F. -/
def compress (h : Fin 8 → Word) (m : Fin 16 → Word) (t : Nat) (last : Bool) : Fin 8 → Word :=
  let v := (List.range 12).foldl (fun v i => round m v (sigma (Fin.ofNat 10 i))) (working h t last)
  fun i => h i ^^^ v (Fin.castAdd 8 i) ^^^ v (Fin.addNat i 8)

/-! ## The text and its blocks -/

/-- A string with zeros up to the size of a block. -/
def padded (bytes : Bytes) : Bytes :=
  bytes ++ Bytes.zeros (128 - bytes.length)

/-- The text: the key in a block of its own, if there is one, and the record. -/
def text (key record : Bytes) : Bytes :=
  (if key = [] then [] else padded key) ++ record

/-- The number of blocks of a text: those that hold it, and one for the empty text. -/
def blockCount (text : Bytes) : Nat :=
  max 1 ((text.length + 127) / 128)

/-- The message words of a block of the text. -/
def message (text : Bytes) (i : Nat) : Fin 16 → Word :=
  fun j => BitVec.ofNat 64 (Nat.ofDigits 256
    ((((padded ((text.drop (128 * i)).take 128)).drop (8 * j.val)).take 8).map UInt8.toNat))

/-- The state with the parameters mixed in: the digest size and the key length in bytes. -/
def start (digestSize keyLength : Nat) : Fin 8 → Word :=
  Function.update iv 0
    (iv 0 ^^^ 0x01010000 ^^^ (BitVec.ofNat 64 keyLength <<< 8) ^^^ BitVec.ofNat 64 digestSize)

/-- The state after the first blocks of a text, none of them the last. -/
def absorbed (h : Fin 8 → Word) (text : Bytes) (count : Nat) : Fin 8 → Word :=
  (List.range count).foldl (fun h i => compress h (message text i) (128 * (i + 1)) false) h

/-- The state after a text. -/
def final (h : Fin 8 → Word) (text : Bytes) : Fin 8 → Word :=
  compress (absorbed h text (blockCount text - 1)) (message text (blockCount text - 1)) text.length
    true

/-- The bytes of a state, word after word and the lowest byte of each first. -/
def stateBytes (h : Fin 8 → Word) : Bytes :=
  List.ofFn fun i : Fin 64 => UInt8.ofNat ((h ⟨i.val / 8, by omega⟩).toNat / 256 ^ (i.val % 8))

/-- BLAKE2b with a key and an output length in bytes. -/
def blake2b (key : Bytes) (digestSize : Nat) (record : Bytes) : Bytes :=
  (stateBytes (final (start digestSize key.length) (text key record))).take digestSize

end BatchDigest.Rfc7693
