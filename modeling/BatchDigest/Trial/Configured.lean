import BatchDigest.Configuration.Building
import BatchDigest.Trial.Hashing

/-!
# A trial of a configuration

The trial checks a configuration, sets up its runners, makes a hasher from it once more, and hashes
a batch with that if there is one to hash. It ends where the calling thread panics.
-/

namespace BatchDigest

/-- What a trial of a configuration shows. -/
structure ConfigurationReport where
  algorithm : Except Rejection Algorithm
  check : Except Error Unit
  /-- The queues that were set up, with the weights. -/
  runners : Except Error (List (QueueConfig × Float))
  /-- The algorithm of the hasher. -/
  hasher : Except Error Algorithm
  hashing : Option HashingReport

/-- The queues of runners, with their weights. -/
def describeRunners (m : Machine) (runners : List Runner) : List (QueueConfig × Float) :=
  runners.filterMap fun r => (m.queue? r.queue).map fun queue => (queue.config, r.weight)

/-- Sets up the runners of a configuration, describes them and lets them go. -/
def describedRunners (c : Configuration) : Host (Except Error (List (QueueConfig × Float))) := do
  match ← c.buildRunners with
  | .error e => return .error e
  | .ok runners => do
    let described ← Host.ask (describeRunners · runners)
    Hasher.dropQueues runners
    return .ok described

/-- Tries a configuration, with a batch to hash if there is one. -/
def configurationTrial (c : Configuration) (batch? : Option TrialBatch) :
    Host (Except Panic ConfigurationReport) := do
  match ← describedRunners c with
  | .error (.crashed cause) => return .error cause
  | runners =>
    match ← c.buildHasher with
    | .error (.crashed cause) => return .error cause
    | .error e => return .ok ⟨c.namedAlgorithm, c.check, runners, .error e, none⟩
    | .ok hasher =>
      let algorithm := hasher.algorithm
      let queues := hasher.stations.map (·.runner.queue)
      let hashing ← match batch? with
        | some batch => some <$> hasher.trial queues batch
        | none => do
          hasher.drop
          pure none
      return .ok ⟨c.namedAlgorithm, c.check, runners, .ok algorithm, hashing⟩

end BatchDigest
