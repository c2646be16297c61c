import BatchDigest.Device.Host
import BatchDigest.Error

/-!
# Staged tables

The tables of an algorithm are uploaded to a device once and shared from then on, by the hasher
that staged them and by every batch in flight. The upload is a job of its own, and its event a
dependency of every launch that reads the tables. The last owner waits for the upload before it
gives the memory back, so that tables are never freed under it. Algorithms without tables stage
nothing.
-/

namespace BatchDigest

/-- The tables of an algorithm on one device. -/
structure StagedTables where
  algorithm : Algorithm
  /-- Where the tables are, if there are any. -/
  memory : Option MemoryId
  /-- The event of the upload. -/
  ready : EventId
deriving Repr, DecidableEq

namespace StagedTables

/-- Tables of an algorithm that has none staged. -/
def none (algorithm : Algorithm) : Host StagedTables := do
  let ready ← Host.call (·.addEvent .complete)
  return ⟨algorithm, .none, ready⟩

/-- Uploads the tables of an algorithm under a key. -/
def stage (algorithm : Algorithm) (key : Bytes) (queue : QueueId) :
    Host (Except Error StagedTables) :=
  match algorithm.tableBlob key with
  | .error crash => return .error (.crashed (.tables crash))
  | .ok [] => .ok <$> none algorithm
  | .ok blob => do
    match ← Host.call (·.allocate queue .device blob.length) with
    | .error e => return .error (.device e)
    | .ok memory =>
      let ready ← Host.call (·.submit queue "memcpy:h2d" [] (.copyIn memory 0 blob))
      return .ok ⟨algorithm, some memory, ready⟩

/-- Adds an owner. -/
def share (tables : StagedTables) : Host Unit :=
  match tables.memory with
  | .none => return ()
  | some memory => Host.update (·.addOwner memory)

/-- Lets an owner go. The last one waits for the upload and gives the memory back. -/
def drop (tables : StagedTables) : Host Unit :=
  match tables.memory with
  | .none => return ()
  | some memory => do
    if ← Host.call (·.dropOwner memory) then
      let _ ← Host.join tables.ready
      Host.update (·.giveBack memory)

/-- Lets an owner of each of the tables go, in order. -/
def dropAll : List StagedTables → Host Unit
  | [] => return ()
  | tables :: rest => do
    tables.drop
    dropAll rest

/-- The length of the staged tables. -/
def length (m : Machine) (tables : StagedTables) : Nat :=
  match tables.memory.bind m.memory? with
  | some memory => memory.length
  | .none => 0

end StagedTables

end BatchDigest
