import BatchDigest.Size

/-!
# Slices of a batch

A batch of records is cut into one contiguous slice per runner, in the order of the runners. Every
runner but the last gets its proportional share in double arithmetic, rounded down; the boundary
after it never passes the end of the batch, and the last runner takes what is left. So the slices
cover the batch once whatever the weights are.
-/

namespace BatchDigest

/-- A contiguous share of a batch. -/
structure Slice where
  /-- The index of the runner that gets the share. -/
  runner : Nat
  /-- The first record. -/
  offset : Nat
  /-- The number of records. -/
  count : Nat
deriving Repr, DecidableEq

namespace Slice

/-- One past the last record. -/
def stop (s : Slice) : Nat :=
  s.offset + s.count

/-- Whether the runner gets no record. -/
def isEmpty (s : Slice) : Bool :=
  s.count == 0

/-- The sum of the weights in double arithmetic, from the first to the last. -/
def totalWeight (weights : List Float) : Float :=
  weights.foldl (· + ·) 0

/-- The part of `batch` records that is due to a weight out of a total: product and quotient are
rounded to doubles, the fraction is dropped, and the result is clamped to a size. -/
def share (batch : Nat) (weight total : Float) : Nat :=
  (batch.toUInt64.toFloat * weight / total).toUInt64.toNat

/-- The slices of the runners from `runner` on, which start at record `start`. -/
def cutFrom (batch : Nat) (total : Float) (runner start : Nat) : List Float → List Slice
  | [] => []
  | [_] => [⟨runner, start, batch - start⟩]
  | weight :: rest =>
    let boundary := min (Size.addSaturating (share batch weight total) start) batch
    ⟨runner, start, boundary - start⟩ :: cutFrom batch total (runner + 1) boundary rest

/-- One slice per weight, in order, which together cover records `0` to `batch`. -/
def partition (weights : List Float) (batch : Nat) : List Slice :=
  cutFrom batch (totalWeight weights) 0 0 weights

end Slice

end BatchDigest
