import BatchDigest.Batch.Compute
import BatchDigest.Session.Objects

/-!
# Steps that hash

Batches are hashed on one queue at once, or with a hasher over several; a hasher's batch in flight
is a handle until it is joined. A handle that was joined stays bound, with nothing in flight.
-/

namespace BatchDigest

/-- A batch of a session. Its output is a named buffer. -/
structure NamedBatch where
  input : Bytes
  recordLength : Nat
  buffer : String
  count : Nat

/-- A step that hashes. -/
inductive HashingStep where
  | compute (queue : String) (choice : Algorithm.Choice) (batch : NamedBatch) (key : Bytes)
  | computeOnDevice (queue : String) (choice : Algorithm.Choice) (input : String)
      (recordLength : Nat) (output : String) (count : Nat) (key : Bytes)
  | createHasher (id : String) (runners : List (String × Float)) (choice : Algorithm.Choice)
      (key : Bytes)
  | dropHasher (hasher : String)
  | hash (id hasher : String) (batch : NamedBatch)
  | computeWith (hasher : String) (batch : NamedBatch)
  | emptyHandle (id : String)
  | info (handle : String)
  | wait (handle : String)
  /-- Waits and reports the first fault as an error. -/
  | throw (handle : String)
  | drop (handle : String)

/-- The batch with its buffer looked up. -/
def NamedBatch.resolve (batch : NamedBatch) : Play Batch := do
  return ⟨batch.input, batch.recordLength, ← Play.find .buffers batch.buffer, batch.count⟩

/-- The runners on named queues. -/
def Play.runners : List (String × Float) → Play (List Runner)
  | [] => return []
  | (queue, weight) :: rest => do
    let queue ← find .queues queue
    let runners ← runners rest
    return ⟨queue, weight⟩ :: runners

/-- The handle under a name, which is bound to an empty one from now on. -/
def Play.takeHandle (name : String) : Play Handle := do
  let handle ← find .handles name
  modify fun objects => { objects with handles := objects.handles.put name .empty }
  return handle

/-- What the host does in a step that hashes. -/
def HashingStep.play : HashingStep → Play Answer
  | compute queue choice batch key => do
    let queue ← Play.find .queues queue
    let algorithm ← Play.algorithm choice
    Play.attempt (BatchDigest.compute queue algorithm (← batch.resolve) key)
    return .done
  | computeOnDevice queue choice input recordLength output count key => do
    let queue ← Play.find .queues queue
    let algorithm ← Play.algorithm choice
    let input ← Play.find .memories input
    let output ← Play.find .memories output
    Play.attempt
      (BatchDigest.computeOnDevice queue algorithm input recordLength output count key)
    return .done
  | createHasher id runners choice key => do
    let runners ← Play.runners runners
    let algorithm ← Play.algorithm choice
    let hasher ← Play.attempt (Hasher.create algorithm runners key)
    Play.bind .hashers id hasher
    return .hasher algorithm
      (← Play.host (Host.ask fun m => runners.map fun r => m.queueName r.queue))
  | dropHasher hasher => do
    Play.drop .hashers hasher
    return .done
  | hash id hasher batch => do
    let hasher ← Play.find .hashers hasher
    let handle ← Play.attempt (hasher.hash (← batch.resolve))
    Play.bind .handles id handle
    return .size handle.items.length
  | computeWith hasher batch => do
    let hasher ← Play.find .hashers hasher
    Play.attempt (hasher.compute (← batch.resolve))
    return .done
  | emptyHandle id => do
    Play.bind .handles id .empty
    return .done
  | info handle => do
    let handle ← Play.find .handles handle
    return .handle handle.items.length 
      (← Play.host (Host.ask fun m => handle.isComplete m))
  | wait handle => do
    Play.host (← Play.takeHandle handle).wait
    return .done
  | throw handle => do
    let handle ← Play.takeHandle handle
    match ← Play.host handle.waitAndThrow with
    | .error e => return .failed e
    | .ok () => return .done
  | drop handle => do
    Play.drop .handles handle
    return .done

end BatchDigest
