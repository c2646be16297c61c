import BatchDigest.Batch.Hasher

/-!
# A trial of a batch

The trial hashes one batch with a hasher, joins it in one of three ways and joins it once more, and
reads the ledgers of the runners before, between and after. The output buffer starts with a filling,
so that bytes that nothing wrote can be told.
-/

namespace BatchDigest

/-- How a trial joins its batch. -/
inductive Joining where
  | throw
  | wait
  /-- Lets the handle go and goes on with an empty one. -/
  | drop
deriving Repr, DecidableEq

/-- The batch of a trial. -/
structure TrialBatch where
  input : Bytes
  recordLength : Nat
  count : Nat
  /-- The length of the output buffer, which is as long as the digests when there is none. -/
  outputLength : Option Nat
  joining : Joining

/-- What a trial shows of a batch that was dispatched. -/
structure FlightReport where
  items : Nat
  inFlight : List LedgerStats
  /-- The outcome of the first join, where that tells one. -/
  join : Option (Except Error Unit)
  rejoin : Except Error Unit
  isComplete : Bool
  remaining : Nat

/-- What a trial shows. -/
structure HashingReport where
  staged : List LedgerStats
  flight : Except Error FlightReport
  output : Bytes
  joined : List LedgerStats
  dropped : List LedgerStats

/-- The filling of output buffers. -/
def filling : UInt8 := 0xee

/-- Reads the ledgers of queues. -/
def readLedgers (queues : List QueueId) : Host (List LedgerStats) :=
  Host.ask fun m => queues.map m.stats

/-- Joins a handle and tells the outcome, where there is one to tell. -/
def Joining.apply (handle : Handle) : Joining → Host (Option (Except Error Unit))
  | throw => some <$> handle.waitAndThrow
  | wait => do
    handle.wait
    return none
  | drop => do
    handle.drop
    return none

/-- Joins a batch in flight, and then what is left of its handle. -/
def flightTrial (queues : List QueueId) (handle : Handle) (joining : Joining) :
    Host FlightReport := do
  let inFlight ← readLedgers queues
  let join ← joining.apply handle
  let rejoin ← Handle.empty.waitAndThrow
  let isComplete ← Host.ask (Handle.isComplete · .empty)
  return ⟨handle.items.length, inFlight, join, rejoin, isComplete, Handle.empty.items.length⟩

/-- Hashes a batch with a hasher over the given queues, and lets the hasher go. -/
def Hasher.trial (hasher : Hasher) (queues : List QueueId) (batch : TrialBatch) :
    Host HashingReport := do
  let length := batch.outputLength.getD (hasher.algorithm.digestSize * batch.count)
  let staged ← readLedgers queues
  let output ← Host.call (·.addBuffer (List.replicate length filling))
  let flight ← match ← hasher.hash ⟨batch.input, batch.recordLength, output, batch.count⟩ with
    | .error e => pure (.error e)
    | .ok handle => .ok <$> flightTrial queues handle batch.joining
  let bytes ← Host.ask (·.contents.buffer output)
  let joined ← readLedgers queues
  hasher.drop
  let dropped ← readLedgers queues
  return ⟨staged, flight, bytes, joined, dropped⟩

/-- A runner of a trial: a queue to set up and its weight. -/
structure TrialRunner where
  config : QueueConfig
  weight : Float

/-- Sets up the queue of each runner in order. -/
def setUpRunners : List TrialRunner → List Runner → Host (Except SetUpFailure (List Runner))
  | [], runners => return .ok runners
  | next :: rest, runners => do
    match ← Host.createQueue next.config with
    | .error e => return .error e
    | .ok queue => setUpRunners rest (runners ++ [⟨queue, next.weight⟩])

/-- What a trial from the queues on shows. -/
inductive HashingTrial where
  /-- There is no hasher to be made. -/
  | refused (error : Error)
  /-- The hasher could not be made. The ledgers are those after that. -/
  | unmade (error : Error) (dropped : List LedgerStats)
  | ran (report : HashingReport)

/-- Sets up queues, makes a hasher over them and hashes one batch. -/
def hashingTrial (runners : List TrialRunner) (choice : Algorithm.Choice) (key : Bytes)
    (batch : TrialBatch) : Host HashingTrial := do
  match ← setUpRunners runners [] with
  | .error e => return .refused (.ofSetUp e)
  | .ok runners =>
    match choice.resolve with
    | .error cause => return .refused (.rejected cause)
    | .ok algorithm => do
      let queues := runners.map (·.queue)
      match ← Hasher.create algorithm runners key with
      | .error e => .unmade e <$> readLedgers queues
      | .ok hasher => .ran <$> hasher.trial queues batch

end BatchDigest
