/-!
# Device errors

A *fault* is what a failed operation leaves behind: the device and operation where it arose and a
message. A *device error* is what a call reports at once. `DeviceError.message` holds the wording.
Setting up a queue may also panic on the calling thread, which `SetUpFailure` keeps apart.
-/

namespace BatchDigest

/-- Why an operation failed on a device. -/
structure Fault where
  device : String
  operation : String
  message : String
deriving Repr, DecidableEq

/-- Why a queue cannot be set up. -/
inductive StartProblem where
  | blankName
  | zeroCapacity
  | described (text : String)
deriving Repr, DecidableEq

/-- The wording of a set-up problem. -/
def StartProblem.message : StartProblem → String
  | blankName => "device name must not be empty"
  | zeroCapacity => "memory_capacity must be > 0"
  | described text => text

/-- The three kinds of device memory: pinned on the host, on the device only, or shared. -/
inductive MemoryKind where
  | host
  | device
  | shared
deriving Repr, DecidableEq

/-- Whether the host may read and write the allocation directly. -/
def MemoryKind.isHostAccessible : MemoryKind → Bool
  | device => false
  | _ => true

/-- The word for a kind of memory in messages. -/
def MemoryKind.label : MemoryKind → String
  | host => "Host"
  | device => "Device"
  | shared => "Shared"

/-- A call that makes no sense for its operands. -/
inductive Misuse where
  | emptyAllocation
  /-- Host access to memory that was given back. -/
  | released (operation : String) (allocation : Nat)
  /-- Host access to memory that only the device sees. -/
  | hidden (operation : String) (allocation : Nat) (kind : MemoryKind)
  | writePastEnd (length offset size : Nat)
  | described (text : String)
deriving Repr, DecidableEq

/-- The wording of a misuse. -/
def Misuse.message : Misuse → String
  | emptyAllocation => "Cannot allocate 0 bytes"
  | released operation allocation => s!"{operation} on released allocation {allocation}"
  | hidden operation allocation kind =>
    s!"{operation} requires host-accessible memory, allocation {allocation} is {kind.label}"
  | writePastEnd length offset size =>
    s!"write of {length} bytes at {offset} exceeds allocation of {size} bytes"
  | described text => text

/-- What a call on a device reports. -/
inductive DeviceError where
  | start (device : String) (problem : StartProblem)
  | outOfMemory (device : String) (requested available : Nat)
  | execution (fault : Fault)
  | misuse (cause : Misuse)
  | closed (device : String)
deriving Repr, DecidableEq

namespace DeviceError

/-- The wording of a device error. -/
def message : DeviceError → String
  | start device problem => s!"Failed to initialize device queue {device}: " ++ problem.message
  | outOfMemory device requested available =>
    s!"Out of device memory on {device}: {requested} bytes requested, {available} bytes available"
  | execution fault =>
    s!"Device execution failed on {fault.device} during {fault.operation}: {fault.message}"
  | misuse cause => "Invalid operation: " ++ cause.message
  | closed device => s!"Device queue {device} is closed"

/-- Whether the caller may recover by asking for less. -/
def isRecoverable : DeviceError → Bool
  | outOfMemory .. => true
  | _ => false

/-- Whether a queued operation failed. -/
def isExecution : DeviceError → Bool
  | execution _ => true
  | _ => false

end DeviceError

/-- Why a queue is not set up. -/
inductive SetUpFailure where
  | reported (error : DeviceError)
  /-- The calling thread panics: no thread can have the name that the worker's would get. -/
  | panicked (thread : String)
deriving Repr, DecidableEq

end BatchDigest
