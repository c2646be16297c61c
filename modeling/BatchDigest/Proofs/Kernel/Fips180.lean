import Mathlib.Data.Fin.VecNotation
import Mathlib.Data.Nat.Find
import Mathlib.Data.Nat.Prime.Defs
import Mathlib.Data.Nat.Sqrt
import BatchDigest.Bytes.Basic

/-!
# SHA-1 and SHA-256 of FIPS 180-4

The two hashes on words of 32 bits and rows of words as functions, in the words of the standard:
functions of words, constants, the message schedule as a recurrence, the compression of one block,
and the padded message whose blocks are compressed one after the other. The constants of SHA-256 are
from the cube roots and its initial value is from the square roots of primes; the constants of SHA-1
are square roots as well. `Sha1` and `Sha256` are measured against them.
-/

namespace BatchDigest.Fips180

/-- A word. -/
abbrev Word := BitVec 32

/-- Working variables are numbered modulo 8, or modulo 5 in SHA-1. -/
local instance neZero_variables : NeZero 8 := ⟨nofun⟩

local instance neZero_variables1 : NeZero 5 := ⟨nofun⟩

/-! ## Functions -/

/-- The function Ch: each bit of `x` chooses between those of `y` and `z`. -/
def choice (x y z : Word) : Word :=
  (x &&& y) ^^^ (~~~x &&& z)

/-- The function Maj: the bit that at least two of the three words have. -/
def majority (x y z : Word) : Word :=
  (x &&& y) ^^^ (x &&& z) ^^^ (y &&& z)

/-- The function Parity: the bit that one or all of the three words have. -/
def parity (x y z : Word) : Word :=
  x ^^^ y ^^^ z

/-- The function Σ₀. -/
def bigSigma0 (x : Word) : Word :=
  x.rotateRight 2 ^^^ x.rotateRight 13 ^^^ x.rotateRight 22

/-- The function Σ₁. -/
def bigSigma1 (x : Word) : Word :=
  x.rotateRight 6 ^^^ x.rotateRight 11 ^^^ x.rotateRight 25

/-- The function σ₀. -/
def sigma0 (x : Word) : Word :=
  x.rotateRight 7 ^^^ x.rotateRight 18 ^^^ x >>> 3

/-- The function σ₁. -/
def sigma1 (x : Word) : Word :=
  x.rotateRight 17 ^^^ x.rotateRight 19 ^^^ x >>> 10

/-! ## Constants -/

/-- The first 64 primes, which are those below 312, by their number. -/
def prime (t : Nat) : Nat :=
  ((List.range 312).filter Nat.Prime).getD t 0

/-- The whole part of a cube root. -/
def cubeRoot (n : Nat) : Nat :=
  Nat.findGreatest (fun root => root ^ 3 ≤ n) n

/-- The constants of the rounds: the first 32 bits of the fractions of the cube roots. -/
def constant (t : Fin 64) : Word :=
  BitVec.ofNat 32 (cubeRoot (prime t * 2 ^ 96))

/-- The initial value: the first 32 bits of the fractions of the square roots. -/
def initial (i : Fin 8) : Word :=
  BitVec.ofNat 32 (Nat.sqrt (prime i * 2 ^ 64))

theorem cubeRoot_eq {n root : Nat} (low : root ^ 3 ≤ n) (high : n < (root + 1) ^ 3) :
    cubeRoot n = root := by
  refine Nat.findGreatest_eq_iff.2 ⟨?_, fun _ => low, ?_⟩
  · exact Nat.le_trans (Nat.le_self_pow (by decide) root) low
  · intro more above _ fits
    have cube : (root + 1) ^ 3 ≤ more ^ 3 := Nat.pow_le_pow_left above 3
    omega

/-! ## Compression -/

/-- The message schedule of the words of a block. -/
def schedule (m : Fin 16 → Word) (t : Nat) : Word :=
  if first : t < 16 then m ⟨t, first⟩
  else sigma1 (schedule m (t - 2)) + schedule m (t - 7) + sigma0 (schedule m (t - 15)) +
    schedule m (t - 16)

/-- One round on the working variables `a` to `h`. -/
def round (k w : Word) (v : Fin 8 → Word) : Fin 8 → Word :=
  let t₁ := v 7 + bigSigma1 (v 4) + choice (v 4) (v 5) (v 6) + k + w
  let t₂ := bigSigma0 (v 0) + majority (v 0) (v 1) (v 2)
  ![t₁ + t₂, v 0, v 1, v 2, v 3 + t₁, v 4, v 5, v 6]

/-- The hash value after a block. -/
def compress (k : Fin 64 → Word) (h : Fin 8 → Word) (m : Fin 16 → Word) : Fin 8 → Word :=
  let v := (List.finRange 64).foldl (fun v t => round (k t) (schedule m t) v) h
  fun i => v i + h i

/-! ## The padded message -/

/-- The number that bytes write, the highest one first. -/
def number (bytes : Bytes) : Nat :=
  bytes.foldl (fun n byte => 256 * n + byte.toNat) 0

/-- The lowest bytes of a number, the highest one first. -/
def bytesOf (count n : Nat) : Bytes :=
  List.ofFn fun i : Fin count => UInt8.ofNat (n / 256 ^ (count - 1 - i.val))

/-- Zeros can fill up any message to complete blocks. -/
theorem exists_zeros (length : Nat) : ∃ zeros, 64 ∣ length + 1 + zeros + 8 :=
  ⟨119 - length % 64, by omega⟩

/-- The least number of zeros with which the message, the closing byte and the length are complete
blocks. -/
def zeroCount (length : Nat) : Nat :=
  Nat.find (exists_zeros length)

/-- The padded message. -/
def padded (message : Bytes) : Bytes :=
  message ++ [0x80] ++ Bytes.zeros (zeroCount message.length) ++ bytesOf 8 (8 * message.length)

/-- The complete blocks of a text. -/
def blocks (text : Bytes) : List Bytes :=
  (List.range (text.length / 64)).map fun i => (text.drop (64 * i)).take 64

/-- The words of a block. -/
def words (block : Bytes) (t : Fin 16) : Word :=
  BitVec.ofNat 32 (number ((block.drop (4 * t.val)).take 4))

/-- The hash of a message with given constants and a given initial value. -/
def hash (k : Fin 64 → Word) (start : Fin 8 → Word) (message : Bytes) : Bytes :=
  let h := (blocks (padded message)).foldl (fun h block => compress k h (words block)) start
  (List.finRange 8).flatMap fun i => bytesOf 4 (h i).toNat

/-- SHA-256. -/
def sha256 (message : Bytes) : Bytes :=
  hash constant initial message

/-! ## SHA-1 -/

/-- The functions of the rounds of SHA-1, in four groups of twenty. -/
def function1 (t : Fin 80) : Word → Word → Word → Word :=
  ![choice, parity, majority, parity] ⟨t / 20, by omega⟩

/-- The constants of the rounds of SHA-1: the square roots of 2, 3, 5 and 10 with 30 bits of their
fractions. -/
def constant1 (t : Fin 80) : Word :=
  BitVec.ofNat 32 (Nat.sqrt ((![2, 3, 5, 10] : Fin 4 → Nat) ⟨t / 20, by omega⟩ * 2 ^ 60))

/-- The initial value of SHA-1. -/
def initial1 : Fin 5 → Word :=
  ![0x67452301, 0xefcdab89, 0x98badcfe, 0x10325476, 0xc3d2e1f0]

/-- The message schedule of SHA-1. -/
def schedule1 (m : Fin 16 → Word) (t : Nat) : Word :=
  if first : t < 16 then m ⟨t, first⟩
  else (schedule1 m (t - 3) ^^^ schedule1 m (t - 8) ^^^ schedule1 m (t - 14) ^^^
    schedule1 m (t - 16)).rotateLeft 1

/-- One round of SHA-1 on the working variables `a` to `e`. -/
def round1 (f : Word → Word → Word → Word) (k w : Word) (v : Fin 5 → Word) : Fin 5 → Word :=
  let sum := (v 0).rotateLeft 5 + f (v 1) (v 2) (v 3) + v 4 + k + w
  ![sum, v 0, (v 1).rotateLeft 30, v 2, v 3]

/-- The hash value of SHA-1 after a block. -/
def compress1 (h : Fin 5 → Word) (m : Fin 16 → Word) : Fin 5 → Word :=
  let v := (List.finRange 80).foldl
    (fun v t => round1 (function1 t) (constant1 t) (schedule1 m t) v) h
  fun i => v i + h i

/-- SHA-1. -/
def sha1 (message : Bytes) : Bytes :=
  let h := (blocks (padded message)).foldl (fun h block => compress1 h (words block)) initial1
  (List.finRange 5).flatMap fun i => bytesOf 4 (h i).toNat

end BatchDigest.Fips180
