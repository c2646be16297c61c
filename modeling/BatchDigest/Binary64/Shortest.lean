/-!
# The shortest decimal of a double

A finite positive double is `m · 2 ^ q` for naturals `m` and an integer `q`. The reals that round to
it form an interval around it, ends included exactly when `m` is even. `shortest` looks at the
decimal grids with 1, 2, … 17 significant digits and takes the first one that has a point in the
interval. Only the two neighbours of the value on a grid need a look, since the interval has no
other point when it has neither. Of two neighbours inside, the nearer wins, and the upper one when
both are equally near.
-/

namespace BatchDigest.Binary64

/-- A decimal number `digits · 10 ^ exponent`. -/
structure Decimal where
  digits : Nat
  exponent : Int
deriving Repr, DecidableEq

/-- The significand and binary exponent of the magnitude of a finite double: `(m, q)` stands for
`m · 2 ^ q`. -/
def magnitude (x : Float) : Nat × Int :=
  let bits := x.toBits.toNat
  let fraction : Nat := bits % 0x10000000000000
  let field : Nat := bits / 0x10000000000000 % 0x800
  if field = 0 then (fraction, -1074) else (fraction + 0x10000000000000, (field : Int) - 1075)

/-- Whether the sign bit of a double is set. -/
def isSigned (x : Float) : Bool :=
  0x8000000000000000 ≤ x.toBits.toNat

/-- The decimal exponent of the leading digit of `num / den`, for `0 < num` and `0 < den`, found by
scaling up at most `fuel` times. -/
def leadingExponent (den : Nat) : Nat → Nat → Int
  | 0, num => ((Nat.toDigits 10 (num / den)).length : Int) - 1
  | fuel + 1, num =>
    if den ≤ num then ((Nat.toDigits 10 (num / den)).length : Int) - 1
    else leadingExponent den fuel (num * 10) - 1

/-- Drops trailing zero digits, at most `fuel` of them. -/
def Decimal.strip : Nat → Decimal → Decimal
  | 0, d => d
  | fuel + 1, d =>
    if d.digits % 10 = 0 then Decimal.strip fuel ⟨d.digits / 10, d.exponent + 1⟩ else d

/-- The reals that round to one double, over a common denominator. -/
structure Interval where
  low : Nat
  value : Nat
  high : Nat
  den : Nat
  /-- Whether the two ends round to the double as well. -/
  closed : Bool

/-- The rounding interval of `m · 2 ^ q`. Below a power of two the doubles lie twice as close, so
the lower half of the interval is half as wide there. -/
def Interval.around (m : Nat) (q : Int) : Interval :=
  let up := Nat.pow 2 (q - 2).toNat
  let below := if m = 0x10000000000000 ∧ q ≠ -1074 then 1 else 2
  ⟨(4 * m - below) * up, 4 * m * up, (4 * m + 2) * up, Nat.pow 2 (2 - q).toNat, m % 2 = 0⟩

/-- The point of the grid `10 ^ k` that stands for the interval, if the grid has one inside. -/
def Interval.onGrid? (i : Interval) (k : Int) : Option Decimal :=
  let up := Nat.pow 10 (-k).toNat
  let unit := i.den * Nat.pow 10 k.toNat
  let value := i.value * up
  let below := value / unit
  let above := below + 1
  let lowIn := if i.closed then i.low * up ≤ below * unit else i.low * up < below * unit
  let highIn := if i.closed then above * unit ≤ i.high * up else above * unit < i.high * up
  let nearUp := above * unit - value ≤ value - below * unit
  if lowIn ∧ 0 < below ∧ ¬ (highIn ∧ nearUp) then some ⟨below, k⟩
  else if highIn then some ⟨above, k⟩
  else none

/-- The first grid with a point inside, from `count` significant digits on. -/
def Interval.firstGrid (i : Interval) (leading : Int) : Nat → Nat → Decimal
  | 0, count => ⟨i.value * Nat.pow 10 (count - 1 - leading).toNat / i.den, leading - count + 1⟩
  | fuel + 1, count =>
    (i.onGrid? (leading - count + 1)).getD (i.firstGrid leading fuel (count + 1))

/-- The shortest decimal that reads back as the magnitude of a finite double. -/
def shortest (x : Float) : Decimal :=
  let (m, q) := magnitude x
  if m = 0 then ⟨0, 0⟩
  else
    let i := Interval.around m q
    (i.firstGrid (leadingExponent i.den 330 i.value) 17 1).strip 20

end BatchDigest.Binary64
