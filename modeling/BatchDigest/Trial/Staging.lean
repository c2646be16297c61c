import BatchDigest.Algorithm.Name
import BatchDigest.Batch.Tables

/-!
# A trial of staging

The trial sets up one queue, stages the tables of an algorithm on it, waits for the upload and reads
back what is on the device.
-/

namespace BatchDigest

/-- What a staging trial shows. -/
structure StagingReport where
  algorithm : Algorithm
  length : Nat
  /-- The bytes on the device, if anything is staged. -/
  bytes : Option Bytes
  ready : Status
  stats : LedgerStats

/-- Reads staged tables back. -/
def StagedTables.report (tables : StagedTables) (queue : QueueId) (m : Machine) :
    StagingReport where
  algorithm := tables.algorithm
  length := tables.length m
  bytes := tables.memory.map m.contents.memory
  ready := m.status tables.ready
  stats := m.stats queue

/-- Stages the tables of an algorithm on a queue of its own. -/
def stagingTrial (config : QueueConfig) (choice : Algorithm.Choice) (key : Bytes) :
    Host (Except Error StagingReport) := do
  match ← Host.createQueue config with
  | .error e => return .error (.ofSetUp e)
  | .ok queue =>
    match choice.resolve with
    | .error cause => return .error (.rejected cause)
    | .ok algorithm =>
      match ← StagedTables.stage algorithm key queue with
      | .error e => return .error e
      | .ok tables => do
        let _ ← Host.join tables.ready
        .ok <$> Host.ask (tables.report queue)

end BatchDigest
