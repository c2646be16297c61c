/-!
# Sizes

Sizes, counts and offsets are 64-bit words. They are kept as naturals, and each sum or product says
how it meets the largest word: `add?` and `mul?` have no result past it, `addSaturating` and
`mulSaturating` stop at it.
-/

namespace BatchDigest.Size

/-- The largest size. -/
def largest : Nat := 18446744073709551615

/-- The sum, unless it is past the largest size. -/
def add? (a b : Nat) : Option Nat :=
  if a + b ≤ largest then some (a + b) else none

/-- The product, unless it is past the largest size. -/
def mul? (a b : Nat) : Option Nat :=
  if a * b ≤ largest then some (a * b) else none

/-- The sum, or the largest size when the sum is past it. -/
def addSaturating (a b : Nat) : Nat :=
  min (a + b) largest

/-- The product, or the largest size when the product is past it. -/
def mulSaturating (a b : Nat) : Nat :=
  min (a * b) largest

theorem add?_eq_some_iff {a b c : Nat} : add? a b = some c ↔ a + b ≤ largest ∧ c = a + b := by
  simp [add?, eq_comm]

theorem mul?_eq_some_iff {a b c : Nat} : mul? a b = some c ↔ a * b ≤ largest ∧ c = a * b := by
  simp [mul?, eq_comm]

end BatchDigest.Size
