import BatchDigest.Batch.Tables

/-!
# Handles of batches in flight

A handle owns the device memory of every share of a batch that is in flight. Joining it waits for
the last step of every share first and gives the memory back only then, so that no device loses
memory that queued work still uses. A handle that was joined is empty, and joining it again does
nothing.
-/

namespace BatchDigest

/-- The share of one runner in flight. -/
structure BatchItem where
  input : MemoryId
  output : MemoryId
  /-- The event of the last step. -/
  event : EventId
  /-- The tables stay staged until the share is joined. -/
  tables : StagedTables
deriving Repr, DecidableEq

/-- Gives the memory of a share back. -/
def BatchItem.release (item : BatchItem) : Host Unit := do
  Host.update (·.release item.input)
  Host.update (·.release item.output)
  item.tables.drop

/-- Gives the memory of each share back, in order. -/
def BatchItem.releaseAll : List BatchItem → Host Unit
  | [] => return ()
  | item :: rest => do
    item.release
    releaseAll rest

/-- The shares of a batch that are in flight. -/
structure Handle where
  items : List BatchItem
deriving Repr, DecidableEq

namespace Handle

/-- A handle with nothing in flight. -/
def empty : Handle := ⟨[]⟩

/-- Whether nothing is in flight. -/
def isEmpty (h : Handle) : Bool :=
  h.items.isEmpty

/-- Whether every share has ended. -/
def isComplete (m : Machine) (h : Handle) : Bool :=
  h.items.all fun item => m.isResolved item.event

/-- Waits for every share, gives all memory back, and tells the first fault, if there is one. -/
def join (h : Handle) : Host (Option Fault) := do
  let fault? ← Host.joinAll (h.items.map (·.event))
  BatchItem.releaseAll h.items
  return fault?

/-- Joins the handle and keeps faults to itself. -/
def wait (h : Handle) : Host Unit := do
  let _ ← h.join

/-- Joins the handle and reports the first fault, after everything was given back. -/
def waitAndThrow (h : Handle) : Host (Except Error Unit) := do
  match ← h.join with
  | some fault => return .error (.device (.execution fault))
  | none => return .ok ()

/-- Lets go of a handle, which joins it. -/
def drop (h : Handle) : Host Unit :=
  h.wait

end Handle

end BatchDigest
