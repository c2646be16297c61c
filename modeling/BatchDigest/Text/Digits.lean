/-!
# Decimal digits

Reading unsigned numbers from ASCII digits. `digitsValue?` reads a run of one or more digits,
`number?` also takes one leading plus sign and refuses values at or above a bound.
-/

namespace BatchDigest.Text

/-- The value of one ASCII digit. -/
def digit? (c : Char) : Option Nat :=
  if '0' ≤ c ∧ c ≤ '9' then some (c.toNat - 48) else none

/-- The value of a run of digits that follows digits worth `seen`. -/
def digitsFrom? (seen : Nat) : List Char → Option Nat
  | [] => some seen
  | c :: rest => (digit? c).bind fun d => digitsFrom? (seen * 10 + d) rest

/-- The value of one or more digits and nothing else. -/
def digitsValue? : List Char → Option Nat
  | [] => none
  | text => digitsFrom? 0 text

/-- The value of an unsigned number below `bound`: one optional plus sign, then one or more
digits. -/
def number? (bound : Nat) (text : List Char) : Option Nat :=
  let digits := match text with
    | '+' :: rest => rest
    | _ => text
  (digitsValue? digits).filter (· < bound)

end BatchDigest.Text
