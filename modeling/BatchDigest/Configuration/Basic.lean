import BatchDigest.Algorithm.Name
import BatchDigest.Batch.Runner
import BatchDigest.Error

/-!
# Configurations

A configuration names an algorithm, perhaps a key, and the runners. `Configuration.check` refuses it
before any queue is set up: the algorithm and key first, then the runners one after the other, and
last the sum of their weights, which may be infinite here.
-/

namespace BatchDigest

/-- A runner of a configuration. -/
structure RunnerEntry where
  name : String
  deviceType : DeviceType
  weight : Float
  /-- The limit on live device memory in bytes. -/
  capacity : Option Nat

/-- The queue that a runner is to get. -/
def RunnerEntry.queueConfig (r : RunnerEntry) : QueueConfig :=
  ⟨r.name, r.deviceType, r.capacity⟩

/-- An algorithm, a key and runners, as they were written. -/
structure Configuration where
  /-- The name of the algorithm. -/
  algorithm : String
  /-- The text of the key. -/
  key : Option String
  /-- The runners in the order of their slices. -/
  runners : List RunnerEntry

namespace Configuration

/-- The bytes of the key, none when there is no key. -/
def keyBytes (c : Configuration) : Bytes :=
  (c.key.getD "").toUTF8.data.toList

/-- The algorithm that is named. -/
def namedAlgorithm (c : Configuration) : Except Rejection Algorithm :=
  Algorithm.ofName c.algorithm

/-- Refuses the first runner that has the name of an earlier one, an unfit weight or a queue that
cannot be set up. -/
def checkRunners (earlier : List String) : List RunnerEntry → Except Error Unit
  | [] => .ok ()
  | next :: rest =>
    if earlier.contains next.name then .error (.rejected (.duplicateRunner next.name))
    else if !Runner.isFitWeight next.weight then
      .error (.rejected (.invalidWeight next.name next.weight))
    else
      match next.queueConfig.check with
      | .error e => .error (.device e)
      | .ok () => checkRunners (next.name :: earlier) rest

/-- Refuses a configuration that no runners can be set up from. -/
def check (c : Configuration) : Except Error Unit := do
  let algorithm ← c.namedAlgorithm.mapError .rejected
  (algorithm.checkKey c.keyBytes.length).mapError .rejected
  if c.runners.isEmpty then throw (.rejected .noRunners)
  checkRunners [] c.runners
  if Slice.totalWeight (c.runners.map (·.weight)) ≤ 0 then throw (.rejected .noWeight)

end Configuration

end BatchDigest
