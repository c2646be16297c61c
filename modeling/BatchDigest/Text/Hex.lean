import BatchDigest.Bytes.Basic

/-!
# Hexadecimal text

Bytes are written as two lower-case digits each and read back in either case. Words are written with
a fixed number of digits.
-/

namespace BatchDigest.Text

/-- The lower-case digit of a value below sixteen. -/
def hexDigit (value : Nat) : Char :=
  Nat.digitChar (value % 16)

/-- The two digits of a byte, the high one first. -/
def hexPair (byte : UInt8) : List Char :=
  [hexDigit (byte.toNat / 16), hexDigit byte.toNat]

/-- The digits of a byte string. -/
def hexDigits (bytes : Bytes) : List Char :=
  bytes.flatMap hexPair

/-- The hexadecimal text of a byte string. -/
def hex (bytes : Bytes) : String :=
  String.ofList (hexDigits bytes)

/-- The lowest `count` digits of a number, the highest one first. -/
def hexNumber : Nat → Nat → List Char
  | 0, _ => []
  | count + 1, value => hexNumber count (value / 16) ++ [hexDigit value]

/-- The value of a digit in either case. -/
def hexValue? (c : Char) : Option Nat :=
  if '0' ≤ c ∧ c ≤ '9' then some (c.toNat - 48)
  else if 'a' ≤ c ∧ c ≤ 'f' then some (c.toNat - 87)
  else if 'A' ≤ c ∧ c ≤ 'F' then some (c.toNat - 55)
  else none

/-- The bytes that a text of digit pairs writes. -/
def ofHex? : List Char → Option Bytes
  | [] => some []
  | high :: low :: rest => do
    let h ← hexValue? high
    let l ← hexValue? low
    let bytes ← ofHex? rest
    return (16 * h + l).toUInt8 :: bytes
  | [_] => none

end BatchDigest.Text
