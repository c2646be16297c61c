import Mathlib.Analysis.Complex.Trigonometric
import Mathlib.Data.Fin.VecNotation
import Mathlib.Data.List.FinRange
import Mathlib.Data.Nat.Find
import BatchDigest.Bytes.Basic

/-!
# MD5 of RFC 1321

The hash on words of 32 bits, in the steps of the document. Four registers `A` to `D` are changed by
64 operations for each block, one register at a time. An operation takes a word of the block in the
order of a table, an amount to turn by, and a constant from the sine of its number. `Md5` is measured
against it.
-/

namespace BatchDigest.Rfc1321

/-- A word. -/
abbrev Word := BitVec 32

/-- The registers `A`, `B`, `C` and `D`. -/
abbrev Registers := Fin 4 → Word

/-- Registers are numbered modulo 4. -/
local instance neZero_registers : NeZero 4 := ⟨nofun⟩

/-- The words of a block are numbered from 0 to 15. -/
local instance neZero_words : NeZero 16 := ⟨nofun⟩

/-! ## Tables -/

/-- The round of an operation, of four rounds of sixteen. -/
def roundOf (i : Fin 64) : Fin 4 :=
  ⟨i.val / 16, Nat.div_lt_of_lt_mul i.isLt⟩

/-- The function of the operations of a round: `F`, `G`, `H` and `I`. -/
def function : Fin 4 → Word → Word → Word → Word
  | 0, x, y, z => x &&& y ||| ~~~x &&& z
  | 1, x, y, z => x &&& z ||| y &&& ~~~z
  | 2, x, y, z => x ^^^ y ^^^ z
  | 3, x, y, z => y ^^^ (x ||| ~~~z)

/-- The table `T`: the whole part of 4294967296 times the absolute value of the sine of the number
of the operation, counted from one, in radians. -/
noncomputable def sine (i : Fin 64) : Word :=
  BitVec.ofNat 32 ⌊4294967296 * |Real.sin (i.val + 1)|⌋₊

/-- The word of the block that each operation takes. -/
def order : Vector (Fin 16) 64 := #v[
  0, 1, 2, 3, 4, 5, 6, 7, 8, 9, 10, 11, 12, 13, 14, 15,
  1, 6, 11, 0, 5, 10, 15, 4, 9, 14, 3, 8, 13, 2, 7, 12,
  5, 8, 11, 14, 1, 4, 7, 10, 13, 0, 3, 6, 9, 12, 15, 2,
  0, 7, 14, 5, 12, 3, 10, 1, 8, 15, 6, 13, 4, 11, 2, 9]

/-- The amounts that the operations turn by. -/
def amounts : Vector Nat 64 := #v[
  7, 12, 17, 22, 7, 12, 17, 22, 7, 12, 17, 22, 7, 12, 17, 22,
  5, 9, 14, 20, 5, 9, 14, 20, 5, 9, 14, 20, 5, 9, 14, 20,
  4, 11, 16, 23, 4, 11, 16, 23, 4, 11, 16, 23, 4, 11, 16, 23,
  6, 10, 15, 21, 6, 10, 15, 21, 6, 10, 15, 21, 6, 10, 15, 21]

/-! ## Blocks -/

/-- The register that an operation changes: `A`, `D`, `C` and `B` in turn. -/
def changed (i : Fin 64) : Fin 4 :=
  -Fin.ofNat 4 i.val

/-- An operation `[abcd k s i]`, which sets `a` to `b + ((a + f(b,c,d) + X[k] + T[i]) <<< s)`. -/
noncomputable def operation (x : Fin 16 → Word) (v : Registers) (i : Fin 64) : Registers :=
  let a := changed i
  let f := function (roundOf i) (v (a + 1)) (v (a + 2)) (v (a + 3))
  let sum := v a + f + x (order.get i) + sine i
  Function.update v a (v (a + 1) + sum.rotateLeft (amounts.get i))

/-- The registers after a block. -/
noncomputable def block (v : Registers) (x : Fin 16 → Word) : Registers :=
  fun j => (List.finRange 64).foldl (operation x) v j + v j

/-- What the registers start with. -/
def start : Registers :=
  ![0x67452301, 0xefcdab89, 0x98badcfe, 0x10325476]

/-! ## The padded message -/

/-- The number that bytes write, the lowest one first. -/
def number (bytes : Bytes) : Nat :=
  bytes.foldr (fun byte n => byte.toNat + 256 * n) 0

/-- The lowest bytes of a number, the lowest one first. -/
def bytesOf (count n : Nat) : Bytes :=
  List.ofFn fun i : Fin count => UInt8.ofNat (n / 256 ^ i.val)

/-- Zeros can fill up any message to eight bytes short of complete blocks. -/
theorem exists_zeros (length : Nat) : ∃ zeros, (length + 1 + zeros) % 64 = 56 :=
  ⟨119 - length % 64, by omega⟩

/-- The least number of zeros that does. -/
def zeroCount (length : Nat) : Nat :=
  Nat.find (exists_zeros length)

/-- The padded message. Of the length in bits the low-order 64 bits are used. -/
def padded (message : Bytes) : Bytes :=
  message ++ [0x80] ++ Bytes.zeros (zeroCount message.length) ++ bytesOf 8 (8 * message.length)

/-- The words of the complete blocks of a text. -/
def blocks (text : Bytes) : List (Fin 16 → Word) :=
  (List.range (text.length / 64)).map fun i k =>
    BitVec.ofNat 32 (number ((text.drop (64 * i + 4 * k.val)).take 4))

/-- MD5. -/
noncomputable def md5 (message : Bytes) : Bytes :=
  let v := (blocks (padded message)).foldl block start
  (List.finRange 4).flatMap fun j => bytesOf 4 (v j).toNat

end BatchDigest.Rfc1321
