import BatchDigest.Text.Hex
import BatchDigest.Toml.Value

/-!
# TOML numbers, booleans and moments

What is neither a string nor in brackets is one run of characters, which is read as a whole: a
boolean, a signed 64-bit integer in one of four bases, a float, or a date and time of day.
Underscores may stand between two digits. A decimal number has no leading zero, and a float has
digits on both sides of its point.
-/

namespace BatchDigest.Toml

/-- The value of a digit of a base up to sixteen. -/
def digitOf? (base : Nat) (c : Char) : Option Nat :=
  (Text.hexValue? c).filter (· < base)

/-- The digits of a run of one or more, without the underscores between them. -/
def digits? (base : Nat) : List Char → Option (List Nat)
  | [] => none
  | [c] => (digitOf? base c).map ([·])
  | c :: '_' :: rest => do
    let first ← digitOf? base c
    return first :: (← digits? base rest)
  | c :: rest => do
    let first ← digitOf? base c
    return first :: (← digits? base rest)

/-- The number that digits stand for. -/
def ofDigits (base : Nat) (digits : List Nat) : Nat :=
  digits.foldl (fun number digit => base * number + digit) 0

/-- The digits of a decimal number, which has no leading zero. -/
def decimalDigits? (text : List Char) : Option (List Nat) := do
  let digits ← digits? 10 text
  guard (digits.head? != some 0 || digits.length == 1)
  return digits

/-- Whether a number has a minus sign, and what follows the sign. -/
def splitSign : List Char → Bool × List Char
  | '-' :: rest => (true, rest)
  | '+' :: rest => (false, rest)
  | text => (false, text)

/-- A number with a sign. -/
def signed (isNegative : Bool) (number : Nat) : Int :=
  if isNegative then -(number : Int) else number

/-- An integer of 64 bits. -/
def integer? (text : List Char) : Option Int := do
  let number ← match text with
    | '0' :: 'x' :: rest => (Int.ofNat <| ofDigits 16 ·) <$> digits? 16 rest
    | '0' :: 'o' :: rest => (Int.ofNat <| ofDigits 8 ·) <$> digits? 8 rest
    | '0' :: 'b' :: rest => (Int.ofNat <| ofDigits 2 ·) <$> digits? 2 rest
    | _ =>
      let (isNegative, rest) := splitSign text
      (signed isNegative <| ofDigits 10 ·) <$> decimalDigits? rest
  guard (-9223372036854775808 ≤ number ∧ number ≤ 9223372036854775807)
  return number

/-- A character of a run of decimal digits. -/
def isDigitOrUnderscore (c : Char) : Bool :=
  c.isDigit || c == '_'

/-- The value of an exponent, with its letter. -/
def exponent? : List Char → Option Int
  | letter :: text =>
    if letter == 'e' || letter == 'E' then
      let (isNegative, rest) := splitSign text
      (signed isNegative <| ofDigits 10 ·) <$> digits? 10 rest
    else none
  | [] => none

/-- The double nearest to `digits · 10 ^ exponent`. -/
def nearestDouble (digits : List Nat) (exponent : Int) : Float :=
  Float.ofScientific (ofDigits 10 digits) (exponent < 0) exponent.natAbs

/-- An unsigned decimal with a fraction, an exponent or both. -/
def decimal? (text : List Char) : Option Float := do
  let whole ← decimalDigits? (text.takeWhile isDigitOrUnderscore)
  match text.dropWhile isDigitOrUnderscore with
  | '.' :: rest =>
    let fraction ← digits? 10 (rest.takeWhile isDigitOrUnderscore)
    let exponent ← match rest.dropWhile isDigitOrUnderscore with
      | [] => some 0
      | tail => exponent? tail
    return nearestDouble (whole ++ fraction) (exponent - fraction.length)
  | rest => return nearestDouble whole (← exponent? rest)

/-- A float. Digits that are too large for a double are refused, unless they have a minus sign. -/
def float? (text : List Char) : Option Float :=
  let (isNegative, rest) := splitSign text
  let withSign (x : Float) := if isNegative then -x else x
  match rest with
  | ['i', 'n', 'f'] => some (withSign (1 / 0))
  | ['n', 'a', 'n'] => some (withSign (0 / 0))
  | _ => ((decimal? rest).map withSign).filter (· != 1 / 0)

/-- Whether two digits write a number between two bounds. -/
def isBetween (low high : Nat) (tens ones : Char) : Bool :=
  match digits? 10 [tens, ones] with
  | some digits => low ≤ ofDigits 10 digits && ofDigits 10 digits ≤ high
  | none => false

/-- The number of days of a month. -/
def daysOfMonth (year month : Nat) : Nat :=
  if month = 2 then
    if year % 4 = 0 ∧ (year % 100 ≠ 0 ∨ year % 400 = 0) then 29 else 28
  else if month ∈ [4, 6, 9, 11] then 30
  else 31

/-- What follows a date at the front. -/
def afterDate? : List Char → Option (List Char)
  | y₁ :: y₂ :: y₃ :: y₄ :: '-' :: m₁ :: m₂ :: '-' :: d₁ :: d₂ :: rest => do
    let year ← digits? 10 [y₁, y₂, y₃, y₄]
    let month ← digits? 10 [m₁, m₂]
    guard (year.length == 4 && isBetween 1 12 m₁ m₂)
    guard (isBetween 1 (daysOfMonth (ofDigits 10 year) (ofDigits 10 month)) d₁ d₂)
    return rest
  | _ => none

/-- What follows a time of day at the front. The seconds may have a fraction, and leap seconds
count. -/
def afterTime? : List Char → Option (List Char)
  | h₁ :: h₂ :: ':' :: m₁ :: m₂ :: ':' :: s₁ :: s₂ :: rest => do
    guard (isBetween 0 23 h₁ h₂ && isBetween 0 59 m₁ m₂ && isBetween 0 60 s₁ s₂)
    match rest with
    | '.' :: c :: more => if c.isDigit then return more.dropWhile Char.isDigit else none
    | _ => return rest
  | _ => none

/-- Whether a text is the offset of a time zone, or empty. -/
def isOffset : List Char → Bool
  | [] | ['Z'] | ['z'] => true
  | [sign, h₁, h₂, ':', m₁, m₂] =>
    (sign == '+' || sign == '-') && isBetween 0 23 h₁ h₂ && isBetween 0 59 m₁ m₂
  | _ => false

/-- Whether a text is a time of day, perhaps with the offset of a time zone. -/
def isZonedTime (text : List Char) : Bool :=
  (afterTime? text).any isOffset

/-- Whether a text is a date and nothing else. -/
def isDate (text : List Char) : Bool :=
  afterDate? text == some []

/-- Whether a text is a date, a time of day, or both with a letter between them. -/
def isMoment (text : List Char) : Bool :=
  match afterDate? text with
  | some [] => true
  | some (letter :: rest) => (letter == 'T' || letter == 't') && isZonedTime rest
  | none => afterTime? text == some []

/-- The value that a run of characters stands for. -/
def Value.ofRun? (text : List Char) : Option Value :=
  if text = ['t', 'r', 'u', 'e'] then some (.boolean true)
  else if text = ['f', 'a', 'l', 's', 'e'] then some (.boolean false)
  else if isMoment text then some .moment
  else (.float <$> float? text) <|> (.integer <$> integer? text)

end BatchDigest.Toml
