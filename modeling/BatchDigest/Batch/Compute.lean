import BatchDigest.Batch.Hasher

/-!
# Hashing on one queue

Two ways to hash a batch on one queue and wait for it: `compute` takes the records from the host and
writes the digests to a host buffer, `computeOnDevice` finds the records in device memory and leaves
the digests there, without a copy.
-/

namespace BatchDigest

/-- Hashes a batch from and to the host on one queue. -/
def compute (queue : QueueId) (algorithm : Algorithm) (batch : Batch) (key : Bytes) :
    Host (Except Error Unit) := do
  match ← Hasher.create algorithm [⟨queue, 1⟩] key with
  | .error e => return .error e
  | .ok hasher => do
    let outcome ← hasher.compute batch
    hasher.drop
    return outcome

/-- Hashes `count` records that are in device memory. -/
def computeOnDevice (queue : QueueId) (algorithm : Algorithm) (input : MemoryId)
    (recordLength : Nat) (output : MemoryId) (count : Nat) (key : Bytes) :
    Host (Except Error Unit) :=
  match algorithm.checkKey key.length with
  | .error cause => return .error (.rejected cause)
  | .ok () =>
    if count = 0 then return .ok ()
    else do
      match ← StagedTables.stage algorithm key queue with
      | .error e => return .error e
      | .ok tables => do
        let event ← tables.launch queue [] input output recordLength count
        let outcome ← Host.joinThrow event
        tables.drop
        return outcome.mapError .device

end BatchDigest
