import BatchDigest.Algorithm.Name
import BatchDigest.Batch.Dispatch
import BatchDigest.Batch.Runner

/-!
# Hashers

A hasher hashes batches with one algorithm and key over a list of runners. Making one checks the
configuration first, before any device is touched, and then stages the tables on every runner's
queue; when a device has no room, everything staged before is given back. A batch is split by the
weights and every share dispatched; when an allocation fails, the shares before it are joined.
-/

namespace BatchDigest

/-- A runner with its staged tables. -/
structure Station where
  runner : Runner
  tables : StagedTables

/-- An algorithm over a list of runners. -/
structure Hasher where
  algorithm : Algorithm
  stations : List Station

namespace Hasher

/-- Stages the tables for each runner in order. When one fails, those before it are given back. -/
def stageAll (algorithm : Algorithm) (key : Bytes) :
    List Runner → List Station → Host (Except Error (List Station))
  | [], staged => return .ok staged
  | runner :: rest, staged => do
    match ← StagedTables.stage algorithm key runner.queue with
    | .error e => do
      StagedTables.dropAll (staged.map (·.tables))
      return .error e
    | .ok tables => stageAll algorithm key rest (staged ++ [⟨runner, tables⟩])

/-- Makes one more handle to the queue of each runner. -/
def holdQueues : List Runner → Host Unit
  | [] => return ()
  | runner :: rest => do
    Host.update (·.addHandle runner.queue)
    holdQueues rest

/-- Lets go of a handle to the queue of each runner, in order. -/
def dropQueues : List Runner → Host Unit
  | [] => return ()
  | runner :: rest => do
    Host.dropQueue runner.queue
    dropQueues rest

/-- Makes a hasher, bound to a key unless that is empty. -/
def create (algorithm : Algorithm) (runners : List Runner) (key : Bytes) :
    Host (Except Error Hasher) :=
  match algorithm.checkKey key.length with
  | .error cause => return .error (.rejected cause)
  | .ok () => do
    let named ← Host.ask fun m => Runner.named m runners
    match Runner.check named with
    | .error cause => return .error (.rejected cause)
    | .ok () =>
      match ← stageAll algorithm key runners [] with
      | .error e => return .error e
      | .ok stations => do
        holdQueues runners
        return .ok ⟨algorithm, stations⟩

/-- Dispatches the shares in order. When one fails, those before it are joined. -/
def dispatchAll (batch : Batch) :
    List (Station × Slice) → List BatchItem → Host (Except Error Handle)
  | [], items => return .ok ⟨items⟩
  | (station, slice) :: rest, items => do
    match ← batch.dispatch slice station.runner.queue station.tables with
    | .error e => do
      Handle.wait ⟨items⟩
      return .error (.device e)
    | .ok item => dispatchAll batch rest (items ++ [item])

/-- The shares of a batch: each runner's slice, unless it is empty. -/
def shares (h : Hasher) (count : Nat) : List (Station × Slice) :=
  let slices := Slice.partition (h.stations.map (·.runner.weight)) count
  (h.stations.zip slices).filter fun share => !share.2.isEmpty

/-- Hashes a batch without waiting for it. An empty batch touches no device. -/
def hash (h : Hasher) (batch : Batch) : Host (Except Error Handle) :=
  if batch.count = 0 then return .ok .empty else dispatchAll batch (h.shares batch.count) []

/-- Hashes a batch and waits for it. -/
def compute (h : Hasher) (batch : Batch) : Host (Except Error Unit) := do
  match ← h.hash batch with
  | .error e => return .error e
  | .ok handle => handle.waitAndThrow

/-- Lets go of a hasher: its queue handles first, then its tables. -/
def drop (h : Hasher) : Host Unit := do
  dropQueues (h.stations.map (·.runner))
  StagedTables.dropAll (h.stations.map (·.tables))

end Hasher

end BatchDigest
