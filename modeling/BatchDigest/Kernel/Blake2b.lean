import BatchDigest.Kernel.Basic

/-!
# BLAKE2b

A chaining value of eight words takes in blocks of 128 bytes, together with the number of bytes so
far and a mark on the last block. A key is a block of its own in front of the record.

The staged tables are the initial value (64 bytes), the message schedule (12 rows of 16), the
chaining value with the parameters mixed in (64 bytes) and, under a key only, the key block
(128 bytes). The last two are the keyed context: they are made once per device and not once per
record, and a kernel that was not given the key hashes under it once it loads them.
-/

namespace BatchDigest.Blake2b

open Bytes (rotateRight64 setAt)

/-- The initial value. -/
def initialValue : Vector UInt64 8 := #v[
  0x6a09e667f3bcc908, 0xbb67ae8584caa73b, 0x3c6ef372fe94f82b, 0xa54ff53a5f1d36f1,
  0x510e527fade682d1, 0x9b05688c2b3e6c1f, 0x1f83d9abfb41bd6b, 0x5be0cd19137e2179]

/-- One row per round: which message words the eight mixing steps read, two each. -/
abbrev Schedule := Vector (Vector (Fin 16) 16) 12

/-- The message schedule. -/
def schedule : Schedule := #v[
  #v[0, 1, 2, 3, 4, 5, 6, 7, 8, 9, 10, 11, 12, 13, 14, 15],
  #v[14, 10, 4, 8, 9, 15, 13, 6, 1, 12, 0, 2, 11, 7, 5, 3],
  #v[11, 8, 12, 0, 5, 2, 15, 13, 10, 14, 3, 6, 7, 1, 9, 4],
  #v[7, 9, 3, 1, 13, 12, 11, 14, 2, 6, 5, 10, 4, 0, 15, 8],
  #v[9, 0, 5, 7, 2, 4, 10, 15, 14, 1, 11, 12, 6, 8, 3, 13],
  #v[2, 12, 6, 10, 0, 11, 8, 3, 4, 13, 7, 5, 15, 14, 1, 9],
  #v[12, 5, 1, 15, 14, 13, 4, 10, 0, 7, 6, 3, 9, 2, 8, 11],
  #v[13, 11, 7, 14, 12, 1, 3, 9, 5, 0, 15, 4, 8, 6, 2, 10],
  #v[6, 15, 14, 9, 11, 3, 0, 8, 12, 2, 13, 7, 1, 4, 10, 5],
  #v[10, 2, 8, 4, 7, 6, 1, 5, 15, 11, 9, 14, 3, 12, 13, 0],
  #v[0, 1, 2, 3, 4, 5, 6, 7, 8, 9, 10, 11, 12, 13, 14, 15],
  #v[14, 10, 4, 8, 9, 15, 13, 6, 1, 12, 0, 2, 11, 7, 5, 3]]

/-- The decoded tables and keyed context. -/
structure Tables where
  initial : Vector UInt64 8
  schedule : Schedule
  /-- The chaining value before the first block. -/
  chaining : Vector UInt64 8
  /-- The block of the key, if there is one. -/
  keyBlock : Option Bytes

/-- One mixing step on four of the sixteen working words with two message words. -/
def mix (v : Vector UInt64 16) (a b c d : Fin 16) (x y : UInt64) : Vector UInt64 16 :=
  let v := setAt v a (v.get a + v.get b + x)
  let v := setAt v d (rotateRight64 (v.get d ^^^ v.get a) 32)
  let v := setAt v c (v.get c + v.get d)
  let v := setAt v b (rotateRight64 (v.get b ^^^ v.get c) 24)
  let v := setAt v a (v.get a + v.get b + y)
  let v := setAt v d (rotateRight64 (v.get d ^^^ v.get a) 16)
  let v := setAt v c (v.get c + v.get d)
  setAt v b (rotateRight64 (v.get b ^^^ v.get c) 63)

/-- One round: the four columns, then the four diagonals. -/
def round (m : Vector UInt64 16) (v : Vector UInt64 16) (row : Vector (Fin 16) 16) :
    Vector UInt64 16 :=
  let word (i : Fin 16) := m.get (row.get i)
  let v := mix v 0 4 8 12 (word 0) (word 1)
  let v := mix v 1 5 9 13 (word 2) (word 3)
  let v := mix v 2 6 10 14 (word 4) (word 5)
  let v := mix v 3 7 11 15 (word 6) (word 7)
  let v := mix v 0 5 10 15 (word 8) (word 9)
  let v := mix v 1 6 11 12 (word 10) (word 11)
  let v := mix v 2 7 8 13 (word 12) (word 13)
  mix v 3 4 9 14 (word 14) (word 15)

/-- The chaining value after a block, with `count` bytes so far. -/
def compress (tables : Tables) (h : Vector UInt64 8) (block : Bytes) (count : Nat) (last : Bool) :
    Vector UInt64 8 :=
  let m := Bytes.words64LE 16 block
  let v : Vector UInt64 16 := h ++ tables.initial
  let v := v.set 12 (v[12] ^^^ count.toUInt64)
  let v := v.set 13 (v[13] ^^^ (count / 18446744073709551616).toUInt64)
  let v := if last then v.set 14 (~~~v[14]) else v
  let v := tables.schedule.foldl (round m) v
  Vector.ofFn fun i => h.get i ^^^ (v.get ⟨i.val, by omega⟩ ^^^ v.get ⟨i.val + 8, by omega⟩)

/-- The chaining value and the number of bytes so far. -/
structure Progress where
  chaining : Vector UInt64 8
  count : Nat

/-- Takes in a block that is not the last. -/
def Progress.absorb (tables : Tables) (p : Progress) (block : Bytes) : Progress :=
  ⟨compress tables p.chaining block (p.count + 128) false, p.count + 128⟩

/-- Takes in the key block. It is the last one when the record is empty. -/
def Progress.absorbKey (tables : Tables) (record : Bytes) (p : Progress) : Progress :=
  match tables.keyBlock with
  | some block => ⟨compress tables p.chaining block (p.count + 128) record.isEmpty, p.count + 128⟩
  | none => p

/-- The number of bytes in all blocks but the last. A record that is a multiple of the block size
still keeps its last block back. -/
def bodyLength (record : Bytes) : Nat :=
  (record.length - 1) / 128 * 128

/-- The chaining value after the record: all blocks but the last, then the last one, filled up with
zeros. -/
def Progress.absorbRecord (tables : Tables) (record : Bytes) (p : Progress) :
    Except Crash (Vector UInt64 8) := do
  if record.isEmpty && tables.keyBlock.isSome then return p.chaining
  let body := record.take (bodyLength record)
  let rest := record.drop (bodyLength record)
  let p := (Bytes.blocks 128 body).foldl (Progress.absorb tables) p
  let block ← (Bytes.zeros 128).write 0 rest
  return compress tables p.chaining block (p.count + rest.length) true

/-- The chaining value after a record, in bytes. -/
def finalState (tables : Tables) (record : Bytes) : Except Crash Bytes := do
  let start : Progress := ⟨tables.chaining, 0⟩
  let chaining ← (start.absorbKey tables record).absorbRecord tables record
  return Bytes.ofWords64LE chaining.toList

/-- The chaining value before the first block: the initial value with the block of parameters mixed
in, of which only the first word is not zero. -/
def parameterised (digestSize keyLength : Nat) : Vector UInt64 8 :=
  let first : UInt64 := (0x01010000 : UInt64) ^^^ (keyLength.toUInt64 <<< 8) ^^^ digestSize.toUInt64
  initialValue.zipWith (· ^^^ ·) #v[first, 0, 0, 0, 0, 0, 0, 0]

/-- The bytes of the schedule, row after row. -/
def scheduleBytes : Bytes :=
  schedule.toList.flatMap fun row => row.toList.map fun i => i.val.toUInt8

/-- The length of a blob without a key block. -/
def plainLength : Nat := 320

/-- The length of a blob with a key block. -/
def keyedLength : Nat := 448

/-- The staged tables for a digest size and a key. -/
def blob (digestSize : Nat) (key : Bytes) : Except Crash Bytes := do
  let plain := Bytes.ofWords64LE initialValue.toList ++ scheduleBytes ++
    Bytes.ofWords64LE (parameterised digestSize key.length).toList
  if key.isEmpty then return plain
  let keyBlock ← (Bytes.zeros 128).write 0 key
  return plain ++ keyBlock

/-- Decodes a blob of one of the two lengths, whose schedule names message words only. -/
def load (staged : Bytes) : Except LoadError Tables :=
  if staged.length ≠ plainLength ∧ staged.length ≠ keyedLength then
    .error (.wrongLength "blake2b" staged.length plainLength keyedLength)
  else
    let rows := (staged.drop 64).take 192
    if rows.all (· < 16) then
      .ok {
        initial := Bytes.words64LE 8 staged
        schedule := Vector.ofFn fun r => Vector.ofFn fun i =>
          Fin.ofNat 16 (rows[16 * r.val + i.val]?.getD 0).toNat
        chaining := Bytes.words64LE 8 (staged.drop 256)
        keyBlock := if staged.length = keyedLength then some (staged.drop plainLength) else none }
    else .error (.scheduleOutOfRange "blake2b")

/-- The kernel for a width in bits. The key goes into the staged tables only. -/
def kernel (bits : Nat) (key : Bytes) : Kernel where
  Tables := Tables
  digestSize := bits / 8
  blob := blob (bits / 8) key
  load := load
  finalState := finalState

end BatchDigest.Blake2b
