import BatchDigest.Device.Host
import BatchDigest.Batch.Slice
import BatchDigest.Rejection

/-!
# Runners

A runner is a device queue and its share of the work. A list of runners is fit for hashing when it
is not empty, every weight is a finite number that is not negative, and the sum of the weights in
double arithmetic is finite and positive.
-/

namespace BatchDigest

/-- A device queue with a relative weight. -/
structure Runner where
  queue : QueueId
  weight : Float

namespace Runner

/-- Whether a weight is finite and not negative. -/
def isFitWeight (weight : Float) : Bool :=
  weight.isFinite && !(weight < 0)

/-- Refuses the first weight that is not fit, with the name of its runner. -/
def checkWeights : List (String × Float) → Except Rejection Unit
  | [] => .ok ()
  | (name, weight) :: rest =>
    if isFitWeight weight then checkWeights rest else .error (.invalidWeight name weight)

/-- Refuses a list of named weights that is not fit for hashing. -/
def check (runners : List (String × Float)) : Except Rejection Unit := do
  if runners.isEmpty then throw .noRunners
  checkWeights runners
  let total := Slice.totalWeight (runners.map (·.2))
  if total ≤ 0 || !total.isFinite then throw .noWeight

/-- The weights of runners under the names of their queues. -/
def named (m : Machine) (runners : List Runner) : List (String × Float) :=
  runners.map fun r => (m.queueName r.queue, r.weight)

end Runner

end BatchDigest
