import BatchDigest.Batch.Hasher
import BatchDigest.Configuration.Basic

/-!
# From a configuration to a hasher

A configuration is checked, then a queue is set up for each runner in order, and then a hasher is
made over them. The hasher keeps the queues alive, so the runners are let go either way. When a
queue cannot be set up, those before it are let go too.
-/

namespace BatchDigest.Configuration

/-- Sets up a queue for each runner in order, behind the runners made so far. -/
def setUpRunners : List RunnerEntry → List Runner → Host (Except Error (List Runner))
  | [], made => return .ok made
  | next :: rest, made => do
    match ← Host.createQueue next.queueConfig with
    | .error e => do
      Hasher.dropQueues made
      return .error (.ofSetUp e)
    | .ok queue => setUpRunners rest (made ++ [⟨queue, next.weight⟩])

/-- Sets up the runners of a configuration, if that is sound. -/
def buildRunners (c : Configuration) : Host (Except Error (List Runner)) :=
  match c.check with
  | .error e => return .error e
  | .ok () => setUpRunners c.runners []

/-- Makes a hasher over the runners of a configuration. -/
def buildHasher (c : Configuration) : Host (Except Error Hasher) := do
  match ← c.buildRunners with
  | .error e => return .error e
  | .ok runners =>
    match c.namedAlgorithm with
    | .error cause => return .error (.rejected cause)
    | .ok algorithm => do
      let hasher ← Hasher.create algorithm runners c.keyBytes
      Hasher.dropQueues runners
      return hasher

end BatchDigest.Configuration
