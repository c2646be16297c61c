import BatchDigest.Kernel.Basic

/-!
# MD2

The state is 48 bytes and a running checksum of 16. Both take in each block of 16 bytes in one pass.
The last block is always padded, with as many bytes as are missing, each holding that count, and the
checksum itself follows as one more block. The table is a permutation of the bytes.
-/

namespace BatchDigest.Md2

set_option maxRecDepth 4096 in
/-- The substitution table, made from the digits of pi. -/
def substitution : Vector UInt8 256 := #v[
  41, 46, 67, 201, 162, 216, 124, 1, 61, 54, 84, 161, 236, 240, 6, 19, 98, 167, 5, 243, 192,
  199, 115, 140, 152, 147, 43, 217, 188, 76, 130, 202, 30, 155, 87, 60, 253, 212, 224, 22, 103,
  66, 111, 24, 138, 23, 229, 18, 190, 78, 196, 214, 218, 158, 222, 73, 160, 251, 245, 142, 187,
  47, 238, 122, 169, 104, 121, 145, 21, 178, 7, 63, 148, 194, 16, 137, 11, 34, 95, 33, 128, 127,
  93, 154, 90, 144, 50, 39, 53, 62, 204, 231, 191, 247, 151, 3, 255, 25, 48, 179, 72, 165, 181,
  209, 215, 94, 146, 42, 172, 86, 170, 198, 79, 184, 56, 210, 150, 164, 125, 182, 118, 252, 107,
  226, 156, 116, 4, 241, 69, 157, 112, 89, 100, 113, 135, 32, 134, 91, 207, 101, 230, 45, 168, 2,
  27, 96, 37, 173, 174, 176, 185, 246, 28, 70, 97, 105, 52, 64, 126, 15, 85, 71, 163, 35, 221,
  81, 175, 58, 195, 92, 249, 206, 186, 197, 234, 38, 44, 83, 13, 110, 133, 40, 132, 9, 211, 223,
  205, 244, 65, 129, 77, 82, 106, 220, 55, 200, 108, 193, 171, 250, 36, 225, 123, 8, 12, 189,
  177, 74, 120, 136, 149, 139, 227, 99, 232, 109, 233, 203, 213, 254, 59, 0, 29, 57, 242, 239,
  183, 14, 102, 88, 208, 228, 166, 119, 114, 248, 235, 117, 75, 10, 49, 68, 80, 180, 143, 237,
  31, 26, 219, 153, 141, 51, 159, 17, 131, 20]

/-- The entry of a table for a byte. -/
def lookup (table : Vector UInt8 256) (byte : UInt8) : UInt8 :=
  table.get ⟨byte.toNat, byte.toNat_lt⟩

/-- What is carried from block to block. -/
structure State where
  x : Vector UInt8 48
  checksum : Vector UInt8 16

/-- The state before the first block. -/
def State.start : State :=
  ⟨Vector.replicate 48 0, Vector.replicate 16 0⟩

/-- One pass over the 48 bytes. Each byte is combined with the entry for the byte before it. -/
def pass (table : Vector UInt8 256) (carried : Vector UInt8 48 × UInt8) :
    Vector UInt8 48 × UInt8 :=
  Fin.foldl 48
    (fun (x, t) k =>
      let byte := x.get k ^^^ lookup table t
      (Bytes.setAt x k byte, byte))
    carried

/-- Eighteen passes. The byte carried from one to the next is raised by the number of the pass. -/
def stir (table : Vector UInt8 256) (x : Vector UInt8 48) : Vector UInt8 48 :=
  (Fin.foldl 18
    (fun carried j =>
      let (x, t) := pass table carried
      (x, t + j.val.toUInt8))
    (x, 0)).1

/-- The 48 bytes after taking in a block: the block becomes the second third, and its sum with the
first third the last. -/
def takeIn (x : Vector UInt8 48) (block : Vector UInt8 16) : Vector UInt8 48 :=
  Vector.ofFn fun i =>
    if first : i.val < 16 then x.get i
    else if second : i.val < 32 then block.get ⟨i.val - 16, by omega⟩
    else block.get ⟨i.val - 32, by omega⟩ ^^^ x.get ⟨i.val - 32, by omega⟩

/-- The checksum after a block. Each byte depends on the one written just before it, at first on the
last one. -/
def sum (table : Vector UInt8 256) (checksum block : Vector UInt8 16) : Vector UInt8 16 :=
  (Fin.foldl 16
    (fun (checksum, l) j =>
      let byte := checksum.get j ^^^ lookup table (block.get j ^^^ l)
      (Bytes.setAt checksum j byte, byte))
    (checksum, checksum.get ⟨15, by decide⟩)).1

/-- Takes in one block, state and checksum together. -/
def State.absorb (table : Vector UInt8 256) (state : State) (block : Vector UInt8 16) : State :=
  ⟨stir table (takeIn state.x block), sum table state.checksum block⟩

/-- The last block: what is left of the record, padded. -/
def lastBlock (rest : Bytes) : Except Crash Bytes :=
  let missing := 16 - rest.length
  Bytes.write (List.replicate 16 missing.toUInt8) 0 rest

/-- The first third of the state after a record, padded, and its checksum. -/
def finalState (table : Vector UInt8 256) (record : Bytes) : Except Crash Bytes := do
  let state := (Bytes.blocks 16 record).foldl
    (fun state block => state.absorb table (block.toVector 16)) State.start
  let last ← lastBlock (Bytes.tail 16 record)
  let state := state.absorb table (last.toVector 16)
  let state := state.absorb table state.checksum
  return state.x.toList.take 16

/-- A blob holds the table in its first 256 bytes. -/
def load (staged : Bytes) : Except LoadError (Vector UInt8 256) :=
  if 256 ≤ staged.length then .ok (staged.toVector 256)
  else .error (.short "md2" staged.length 256)

/-- The kernel. -/
def kernel : Kernel where
  Tables := Vector UInt8 256
  digestSize := 16
  blob := .ok substitution.toList
  load := load
  finalState := finalState

end BatchDigest.Md2
