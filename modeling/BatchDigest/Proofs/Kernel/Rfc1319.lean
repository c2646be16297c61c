import Mathlib.Data.Fin.Tuple.Basic
import Mathlib.Data.List.FinRange
import BatchDigest.Bytes.Basic

/-!
# MD2 of RFC 1319

The hash on rows of bytes as functions, in the steps of the document one after the other: the
message is padded, the checksum of all of it is computed and appended, and all blocks of what this
gives are taken into a row of 48 bytes. A byte of the checksum is combined with the one that it
replaces, as the published correction of the document has it. `Md2` is measured against it.
-/

namespace BatchDigest.Rfc1319

/-- The permutation of the bytes that is made from the digits of pi, sixteen to a row. -/
def piTable : Bytes := [
  41, 46, 67, 201, 162, 216, 124, 1, 61, 54, 84, 161, 236, 240, 6, 19,
  98, 167, 5, 243, 192, 199, 115, 140, 152, 147, 43, 217, 188, 76, 130, 202,
  30, 155, 87, 60, 253, 212, 224, 22, 103, 66, 111, 24, 138, 23, 229, 18,
  190, 78, 196, 214, 218, 158, 222, 73, 160, 251, 245, 142, 187, 47, 238, 122,
  169, 104, 121, 145, 21, 178, 7, 63, 148, 194, 16, 137, 11, 34, 95, 33,
  128, 127, 93, 154, 90, 144, 50, 39, 53, 62, 204, 231, 191, 247, 151, 3,
  255, 25, 48, 179, 72, 165, 181, 209, 215, 94, 146, 42, 172, 86, 170, 198,
  79, 184, 56, 210, 150, 164, 125, 182, 118, 252, 107, 226, 156, 116, 4, 241,
  69, 157, 112, 89, 100, 113, 135, 32, 134, 91, 207, 101, 230, 45, 168, 2,
  27, 96, 37, 173, 174, 176, 185, 246, 28, 70, 97, 105, 52, 64, 126, 15,
  85, 71, 163, 35, 221, 81, 175, 58, 195, 92, 249, 206, 186, 197, 234, 38,
  44, 83, 13, 110, 133, 40, 132, 9, 211, 223, 205, 244, 65, 129, 77, 82,
  106, 220, 55, 200, 108, 193, 171, 250, 36, 225, 123, 8, 12, 189, 177, 74,
  120, 136, 149, 139, 227, 99, 232, 109, 233, 203, 213, 254, 59, 0, 29, 57,
  242, 239, 183, 14, 102, 88, 208, 228, 166, 119, 114, 248, 235, 117, 75, 10,
  49, 68, 80, 180, 143, 237, 31, 26, 219, 153, 141, 51, 159, 17, 131, 20]

/-- The entry of the permutation for a byte. -/
def piSubst (byte : UInt8) : UInt8 :=
  piTable.getD byte.toNat 0

/-- A row of bytes. -/
abbrev Row (n : Nat) := Fin n → UInt8

/-- A row of bytes and the byte that was written last. -/
abbrev Carried (n : Nat) := Row n × UInt8

/-- The blocks of a text of complete blocks. -/
def blocks (text : Bytes) : List (Row 16) :=
  (List.range (text.length / 16)).map fun i j => text.getD (16 * i + j.val) 0

/-! ## Padding and checksum -/

/-- The message with at least one byte behind it. Each of them holds how many they are. -/
def padded (message : Bytes) : Bytes :=
  let missing := 16 - message.length % 16
  message ++ List.replicate missing (UInt8.ofNat missing)

variable (s : UInt8 → UInt8)

/-- One byte of the checksum of a block. -/
def sumByte (block : Row 16) (a : Carried 16) (j : Fin 16) : Carried 16 :=
  let byte := a.1 j ^^^ s (block j ^^^ a.2)
  (Function.update a.1 j byte, byte)

/-- The checksum after a block. -/
def sumBlock (a : Carried 16) (block : Row 16) : Carried 16 :=
  (List.finRange 16).foldl (sumByte s block) a

/-- The checksum of a text. -/
def checksum (text : Bytes) : Row 16 :=
  ((blocks text).foldl (sumBlock s) (fun _ => 0, 0)).1

/-- The padded message with its checksum behind it. -/
def extended (message : Bytes) : Bytes :=
  padded message ++ List.ofFn (checksum s (padded message))

/-! ## The row of 48 bytes -/

/-- A block in the second third of a row, and combined with the first third in the last. -/
def placed (x : Row 48) (block : Row 16) : Row 48 :=
  let first : Row 16 := fun j => x (j.castLE (by decide))
  Fin.append (m := 32) (Fin.append (m := 16) first block) fun j => block j ^^^ first j

/-- One byte of a round. -/
def roundByte (a : Carried 48) (k : Fin 48) : Carried 48 :=
  let byte := a.1 k ^^^ s a.2
  (Function.update a.1 k byte, byte)

/-- A round, with the byte that it hands to the next one. -/
def round (a : Carried 48) (j : Fin 18) : Carried 48 :=
  let a := (List.finRange 48).foldl (roundByte s) a
  (a.1, a.2 + UInt8.ofNat j.val)

/-- The row after a block. -/
def transform (x : Row 48) (block : Row 16) : Row 48 :=
  ((List.finRange 18).foldl (round s) (placed x block, 0)).1

/-- The hash of a message with a given substitution: the first third of the row. -/
def hash (message : Bytes) : Bytes :=
  let x := (blocks (extended s message)).foldl (transform s) fun _ => 0
  List.ofFn fun j : Fin 16 => x (j.castLE (by decide))

/-- MD2. -/
def md2 (message : Bytes) : Bytes :=
  hash piSubst message

end BatchDigest.Rfc1319
