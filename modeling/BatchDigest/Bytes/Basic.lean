/-!
# Byte strings

A byte string is a list of bytes. Offsets and lengths are naturals, so a range fits exactly when its
end does not pass the length, with no wrap-around to think of. `overwrite?` is the one way to change
a range in place: all of it, or nothing when it does not fit.
-/

namespace BatchDigest

/-- A string of bytes. -/
abbrev Bytes := List UInt8

namespace Bytes

/-- A string of zero bytes. -/
def zeros (length : Nat) : Bytes :=
  List.replicate length 0

/-- The bytes with a range replaced by `data`, unless the range passes the end. -/
def overwrite? (bytes : Bytes) (offset : Nat) (data : Bytes) : Option Bytes :=
  if offset + data.length ≤ bytes.length then
    some (bytes.take offset ++ data ++ bytes.drop (offset + data.length))
  else none

/-- The `count` bytes from `offset` on, unless the range passes the end. -/
def read? (bytes : Bytes) (offset count : Nat) : Option Bytes :=
  if offset + count ≤ bytes.length then some ((bytes.drop offset).take count) else none

/-- The bytes combined with a mask at the front, by exclusive or, as far as both reach. -/
def maskFront : Bytes → Bytes → Bytes
  | m :: mask, b :: bytes => (m ^^^ b) :: maskFront mask bytes
  | _, bytes => bytes

/-- The first `count` pieces of `size` bytes. -/
def pieces (size : Nat) : Nat → Bytes → List Bytes
  | 0, _ => []
  | count + 1, bytes => bytes.take size :: pieces size count (bytes.drop size)

/-- The complete blocks of `size` bytes, none when `size` is zero. -/
def blocks (size : Nat) (bytes : Bytes) : List Bytes :=
  pieces size (bytes.length / size) bytes

/-- What the complete blocks of `size` bytes leave. -/
def tail (size : Nat) (bytes : Bytes) : Bytes :=
  bytes.drop (bytes.length / size * size)

/-- All pieces of `size` bytes, the last one perhaps shorter, and none when `size` is zero. -/
def chunks (size : Nat) (bytes : Bytes) : List Bytes :=
  pieces size ((bytes.length + size - 1) / size) bytes

/-- The first `n` bytes as a vector, with zeros past the end. -/
def toVector (n : Nat) (bytes : Bytes) : Vector UInt8 n :=
  Vector.ofFn fun i => bytes[i.val]?.getD 0

/-- A range that fits is replaced, and nothing else changes. -/
theorem overwrite?_eq_some_iff {bytes data result : Bytes} {offset : Nat} :
    overwrite? bytes offset data = some result ↔
      offset + data.length ≤ bytes.length ∧
        result = bytes.take offset ++ data ++ bytes.drop (offset + data.length) := by
  simp [overwrite?, eq_comm]

/-- Replacing a range keeps the length. -/
theorem length_of_overwrite? {bytes data result : Bytes} {offset : Nat}
    (h : overwrite? bytes offset data = some result) : result.length = bytes.length := by
  obtain ⟨fits, rfl⟩ := overwrite?_eq_some_iff.1 h
  simp only [List.length_append, List.length_take, List.length_drop]
  omega

/-- The bytes of the range are those of the data, and the others are as before. -/
theorem getElem?_of_overwrite? {bytes data result : Bytes} {offset : Nat}
    (h : overwrite? bytes offset data = some result) (i : Nat) :
    result[i]? =
      if offset ≤ i ∧ i < offset + data.length then data[i - offset]? else bytes[i]? := by
  obtain ⟨fits, rfl⟩ := overwrite?_eq_some_iff.1 h
  have front : (bytes.take offset).length = offset := by
    rw [List.length_take]
    omega
  rw [List.append_assoc]
  by_cases before : i < offset
  · rw [if_neg (by omega), List.getElem?_append_left (by omega), List.getElem?_take_of_lt before]
  · rw [List.getElem?_append_right (by omega), front]
    by_cases within : i < offset + data.length
    · rw [if_pos (by omega), List.getElem?_append_left (by omega)]
    · rw [if_neg (by omega), List.getElem?_append_right (by omega), List.getElem?_drop]
      congr 1
      omega

/-- A range that fits is read as a whole. -/
theorem read?_eq_some_iff {bytes data : Bytes} {offset count : Nat} :
    read? bytes offset count = some data ↔
      offset + count ≤ bytes.length ∧ data = (bytes.drop offset).take count := by
  simp [read?, eq_comm]

end Bytes

end BatchDigest
