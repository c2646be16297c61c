import Mathlib.Algebra.GroupWithZero.Nat
import Mathlib.Logic.Function.Iterate
import BatchDigest.Bytes.Basic

/-!
# The sponge of FIPS 202

Keccak-f[1600] and the sponge construction, on strings of bits, in the words of the standard: five
step maps on an array of 5 by 5 lanes of 64 bits, the round constants from a feedback register of
eight bits, `pad10*1`, and a sponge that absorbs and squeezes a block of the rate at a time. Nothing
here knows of bytes or words, and no table is written down. `Keccak` is measured against it.
-/

namespace BatchDigest.Fips202

/-- A string of bits. -/
abbrev Bits := List Bool

/-- An array of bits in columns, rows and lanes. -/
abbrev StateArray := Fin 5 → Fin 5 → Fin 64 → Bool

/-- The array that a string of 1600 bits fills, lane after lane and row after row. -/
def ofString (s : Bits) : StateArray :=
  fun x y z => s.getD (64 * (5 * y.val + x.val) + z.val) false

/-- The string of an array. -/
def StateArray.string (a : StateArray) : Bits :=
  List.ofFn fun i : Fin 1600 =>
    a ⟨i.val / 64 % 5, by omega⟩ ⟨i.val / 320, by omega⟩ ⟨i.val % 64, by omega⟩

/-! ## The step maps -/

/-- Columns and rows are numbered modulo 5. -/
local instance neZero_coordinates : NeZero 5 := ⟨nofun⟩

/-- The parity of a column at a place of the lanes. -/
def columnParity (a : StateArray) (x : Fin 5) (z : Fin 64) : Bool :=
  a x 0 z ^^ a x 1 z ^^ a x 2 z ^^ a x 3 z ^^ a x 4 z

/-- θ adds the parities of two neighbouring columns to each bit. -/
def theta (a : StateArray) : StateArray :=
  fun x y z => a x y z ^^ (columnParity a (x - 1) z ^^ columnParity a (x + 1) (z - 1))

/-- The lane after `(x, y)` on the walk that ρ takes. -/
def next (lane : Fin 5 × Fin 5) : Fin 5 × Fin 5 :=
  (lane.2, 2 * lane.1 + 3 * lane.2)

/-- The lane of the walk at time `t`, which starts at `(1, 0)`. -/
def visited (t : Nat) : Fin 5 × Fin 5 :=
  next^[t] (1, 0)

/-- How far ρ turns the lane of time `t`. -/
def offset (t : Nat) : Nat :=
  (t + 1) * (t + 2) / 2

/-- The array with the lane of a time turned. -/
def turn (a turned : StateArray) (t : Nat) : StateArray :=
  fun x y z =>
    if (x, y) = visited t then a x y (z - Fin.ofNat 64 (offset t)) else turned x y z

/-- ρ turns each lane on the walk by the offset of its time. -/
def rho (a : StateArray) : StateArray :=
  (List.range 24).foldl (turn a) a

/-- π moves the lanes. -/
def pi (a : StateArray) : StateArray :=
  fun x y z => a (x + 3 * y) x z

/-- χ combines each bit with the two to its right in its row. -/
def chi (a : StateArray) : StateArray :=
  fun x y z => a x y z ^^ (!a (x + 1) y z && a (x + 2) y z)

/-- One step of the feedback register. -/
def shift : Bool × Bool × Bool × Bool × Bool × Bool × Bool × Bool →
    Bool × Bool × Bool × Bool × Bool × Bool × Bool × Bool
  | (r₀, r₁, r₂, r₃, r₄, r₅, r₆, r₇) => (r₇, r₀, r₁, r₂, r₃ ^^ r₇, r₄ ^^ r₇, r₅ ^^ r₇, r₆)

/-- The bit that the feedback register gives at time `t`. -/
def rc (t : Nat) : Bool :=
  (shift^[t % 255] (true, false, false, false, false, false, false, false)).1

/-- The round constant: bit `2 ^ j - 1` is `rc (j + 7 * round)`, and the others are zero. -/
def roundConstant (round : Nat) (z : Fin 64) : Bool :=
  (List.range 7).any fun j => z.val + 1 == 2 ^ j && rc (j + 7 * round)

/-- ι adds the round constant to the first lane. -/
def iota (round : Nat) (a : StateArray) : StateArray :=
  fun x y z => if x = 0 ∧ y = 0 then a x y z ^^ roundConstant round z else a x y z

/-- One round. -/
def round (a : StateArray) (index : Nat) : StateArray :=
  iota index (chi (pi (rho (theta a))))

/-- The permutation of strings of 1600 bits. -/
def keccakF (s : Bits) : Bits :=
  ((List.range 24).foldl round (ofString s)).string

/-! ## The walk of ρ -/

/-- The walk meets no lane twice. -/
theorem visited_injective : ∀ s t : Fin 24, visited s = visited t → s = t := by
  decide +kernel

theorem visited_ne_zero : ∀ t : Fin 24, visited t ≠ (0, 0) := by
  decide +kernel

/-- The walk meets every lane but the first, which it would not leave. -/
theorem exists_visited (x y : Fin 5) :
    (x, y) = (0, 0) ∨ ∃ t : Fin 24, (x, y) = visited (t.val + 1) := by
  revert x y
  decide +kernel

theorem visited_succ (t : Nat) : visited (t + 1) = next (visited t) :=
  Function.iterate_succ_apply' next t (1, 0)

/-- Lanes that are not met stay. -/
theorem foldl_turn_of_ne (a : StateArray) {x y : Fin 5} {count : Nat}
    (away : ∀ t < count, (x, y) ≠ visited t) (z : Fin 64) :
    (List.range count).foldl (turn a) a x y z = a x y z := by
  induction count with
  | zero => rfl
  | succ count ih =>
    rw [List.range_succ, List.foldl_append, List.foldl_cons, List.foldl_nil]
    refine (if_neg (away count (Nat.lt_succ_self count))).trans (ih ?_)
    exact fun t before => away t (Nat.lt_succ_of_lt before)

/-- A lane is turned at its time and not again. -/
theorem foldl_turn_visited (a : StateArray) {t count : Nat} (met : t < count) (small : count ≤ 24)
    (z : Fin 64) :
    (List.range count).foldl (turn a) a (visited t).1 (visited t).2 z =
      a (visited t).1 (visited t).2 (z - Fin.ofNat 64 (offset t)) := by
  induction count with
  | zero => exact absurd met (Nat.not_lt_zero t)
  | succ count ih =>
    rw [List.range_succ, List.foldl_append, List.foldl_cons, List.foldl_nil]
    by_cases last : t = count
    · rw [last]
      exact if_pos rfl
    · refine (if_neg ?_).trans (ih (by omega) (by omega))
      intro same
      have times := visited_injective ⟨t, by omega⟩ ⟨count, by omega⟩ same
      exact last (congrArg Fin.val times)

theorem rho_visited (a : StateArray) {t : Nat} (met : t < 24) (z : Fin 64) :
    rho a (visited t).1 (visited t).2 z =
      a (visited t).1 (visited t).2 (z - Fin.ofNat 64 (offset t)) :=
  foldl_turn_visited a met (Nat.le_refl 24) z

theorem rho_zero (a : StateArray) (z : Fin 64) : rho a 0 0 z = a 0 0 z :=
  foldl_turn_of_ne a (fun t met => (visited_ne_zero ⟨t, met⟩).symm) z

/-- π moves each lane to the place of the next on the walk. -/
theorem pi_next (a : StateArray) (lane : Fin 5 × Fin 5) (z : Fin 64) :
    pi a (next lane).1 (next lane).2 z = a lane.1 lane.2 z := by
  have back : ∀ x y : Fin 5, y + 3 * (2 * x + 3 * y) = x := by decide
  show a (lane.2 + 3 * (2 * lane.1 + 3 * lane.2)) lane.2 z = _
  rw [back]

/-! ## The sponge -/

/-- `pad10*1`: what fills a string of `length` bits up to a multiple of the rate. -/
def padding (rate length : Nat) : Bits :=
  true :: List.replicate ((-(length : Int) - 2) % rate).toNat false ++ [true]

/-- The complete blocks of a string. -/
def blocks (rate : Nat) (s : Bits) : List Bits :=
  (List.range (s.length / rate)).map fun i => (s.drop (rate * i)).take rate

/-- Adds a block, continued by zeros, to the state and permutes it. -/
def absorb (f : Bits → Bits) (rate : Nat) (state block : Bits) : Bits :=
  f (List.zipWith xor state (block ++ List.replicate (1600 - rate) false))

/-- Reads the front of the state, permuting it before each further block, up to a length. -/
def squeeze (f : Bits → Bits) (rate : Nat) (state : Bits) (length : Nat) : Bits :=
  ((List.range ((length + rate - 1) / rate)).flatMap fun i => (f^[i] state).take rate).take length

/-- The sponge over `f` with `pad10*1`: `length` bits for a message. -/
def sponge (f : Bits → Bits) (rate : Nat) (message : Bits) (length : Nat) : Bits :=
  squeeze f rate
    ((blocks rate (message ++ padding rate message.length)).foldl (absorb f rate)
      (List.replicate 1600 false))
    length

end BatchDigest.Fips202
