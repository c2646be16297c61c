import BatchDigest.Kernel.Basic

/-!
# Padding with a length field

Three families cut the record into blocks of 64 bytes and close it with a one bit, zeros and the
length in bits as eight bytes. The complete blocks are taken from the record as they are; what is
left goes into a buffer of two blocks, of which the second is used only when the length field does
not fit into the first.
-/

namespace BatchDigest.LengthPadding

/-- The blocks that close a record: `rest` is what its complete blocks leave and `field` its length
field. -/
def closing (rest field : Bytes) : Except Crash (List Bytes) := do
  let buffer ← (Bytes.zeros 128).write 0 rest
  let buffer ← buffer.write rest.length [0x80]
  let stop := if rest.length < 56 then 64 else 128
  let buffer ← buffer.write (stop - 8) field
  return Bytes.blocks 64 (buffer.take stop)

/-- The length of a record in bits, as a 64-bit word. -/
def bitLength (record : Bytes) : Nat :=
  record.length * 8 % 18446744073709551616

/-- Folds a compression function over the blocks of a record and those that close it. -/
def foldBlocks {σ : Type} (compress : σ → Bytes → σ) (start : σ) (record field : Bytes) :
    Except Crash σ := do
  let state := (Bytes.blocks 64 record).foldl compress start
  let last ← closing (Bytes.tail 64 record) field
  return last.foldl compress state

end BatchDigest.LengthPadding
