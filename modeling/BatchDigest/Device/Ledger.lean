import BatchDigest.Device.Error
import BatchDigest.Size

/-!
# The allocation ledger of a queue

A ledger records which allocations of one queue are live. It reserves bytes against the capacity
first, then backs them, and then gives out an identifier; a request that cannot be backed gives its
reservation back. The running statistics are kept beside the live entries and the reserved bytes, so
the same quantity appears in several places that have to agree.
-/

namespace BatchDigest

/-- A live allocation. -/
structure Allotment where
  id : Nat
  kind : MemoryKind
  length : Nat
deriving Repr, DecidableEq

/-- What a ledger reports. -/
structure LedgerStats where
  allocations : Nat
  frees : Nat
  liveAllocations : Nat
  liveBytes : Nat
  peakBytes : Nat
  capacity : Option Nat
deriving Repr, DecidableEq

/-- The allocations of one queue. -/
structure Ledger where
  device : String
  /-- The limit on live bytes, if there is one. -/
  capacity : Option Nat
  nextId : Nat
  /-- The bytes reserved against the limit. -/
  used : Nat
  live : List Allotment
  stats : LedgerStats
deriving Repr, DecidableEq

namespace Ledger

/-- A ledger without allocations. -/
def empty (device : String) (capacity : Option Nat) : Ledger :=
  ⟨device, capacity, 1, 0, [], ⟨0, 0, 0, 0, 0, capacity⟩⟩

/-- The limit on live bytes, the largest size when there is no other. -/
def limit (l : Ledger) : Nat :=
  l.capacity.getD Size.largest

/-- What is left below the limit. -/
def available (l : Ledger) : Nat :=
  l.limit - l.used

/-- A request that the host can back. Half of the address space and more never is. -/
def isBackable (length : Nat) : Bool :=
  length < 9223372036854775808

/-- Reserves bytes, if they fit below the limit. -/
def reserve? (l : Ledger) (length : Nat) : Option Ledger :=
  ((Size.add? l.used length).filter (· ≤ l.limit)).map fun used => { l with used }

/-- Gives reserved bytes back. -/
def unreserve (l : Ledger) (length : Nat) : Ledger :=
  { l with used := l.used - length }

/-- Enters an allocation whose bytes are reserved. -/
def enter (l : Ledger) (kind : MemoryKind) (length : Nat) : Nat × Ledger :=
  let live := l.live ++ [⟨l.nextId, kind, length⟩]
  let liveBytes := l.stats.liveBytes + length
  (l.nextId, { l with
    nextId := l.nextId + 1
    live := live
    stats := { l.stats with
      allocations := l.stats.allocations + 1
      liveAllocations := live.length
      liveBytes := liveBytes
      peakBytes := max l.stats.peakBytes liveBytes } })

/-- Makes an allocation and gives its identifier, or says why there is none. -/
def allocate (l : Ledger) (kind : MemoryKind) (length : Nat) : Except DeviceError Nat × Ledger :=
  if length = 0 then (.error (.misuse .emptyAllocation), l)
  else
    match l.reserve? length with
    | none => (.error (.outOfMemory l.device length l.available), l)
    | some reserved =>
      if isBackable length then
        let (id, entered) := reserved.enter kind length
        (.ok id, entered)
      else
        let restored := reserved.unreserve length
        (.error (.outOfMemory l.device length restored.available), restored)

/-- Takes an allocation off the ledger. One that is not live any more is left alone. -/
def release (l : Ledger) (id : Nat) : Ledger :=
  match l.live.find? (·.id == id) with
  | none => l
  | some entry =>
    let live := l.live.filter (·.id != id)
    { l with
      used := l.used - entry.length
      live := live
      stats := { l.stats with
        frees := l.stats.frees + 1
        liveAllocations := live.length
        liveBytes := l.stats.liveBytes - entry.length } }

/-- Whether an allocation is on the ledger. -/
def isLive (l : Ledger) (id : Nat) : Bool :=
  l.live.any (·.id == id)

end Ledger

end BatchDigest
