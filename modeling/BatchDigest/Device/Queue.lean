import BatchDigest.Device.Ledger
import BatchDigest.Device.Work
import BatchDigest.Text.Blank

/-!
# Queues and their workers

A queue has a configuration, a ledger and one worker. Its jobs wait in the order of submission. The
worker takes the first of them once all its dependencies are resolved, and is then running it; or it
is held up by another queue, of which it let go of the last handle.
-/

namespace BatchDigest

/-- What kind of device a queue belongs to. -/
inductive DeviceType where
  | cpu
  | gpu
  | accelerator
deriving Repr, DecidableEq

namespace DeviceType

/-- Whether the device is not the host itself. -/
def isOffload : DeviceType → Bool
  | cpu => false
  | _ => true

/-- The word in configurations. -/
def word : DeviceType → String
  | cpu => "cpu"
  | gpu => "gpu"
  | accelerator => "accelerator"

/-- The word for readers. -/
def title : DeviceType → String
  | cpu => "CPU"
  | gpu => "GPU"
  | accelerator => "Accelerator"

/-- The type that a configuration word stands for. -/
def ofWord? : String → Option DeviceType
  | "cpu" => some cpu
  | "gpu" => some gpu
  | "accelerator" => some accelerator
  | _ => none

end DeviceType

/-- How a queue is set up. -/
structure QueueConfig where
  name : String
  deviceType : DeviceType
  /-- The limit on live device memory in bytes. -/
  capacity : Option Nat
deriving Repr, DecidableEq

/-- Refuses a blank name and a capacity of nothing. -/
def QueueConfig.check (c : QueueConfig) : Except DeviceError Unit :=
  if Text.isAllBlank c.name then .error (.start c.name .blankName)
  else if c.capacity = some 0 then .error (.start c.name .zeroCapacity)
  else .ok ()

/-- The name of the worker's thread. -/
def QueueConfig.threadName (c : QueueConfig) : String :=
  "warp-device-" ++ c.name

/-- Whether a thread can have the name of the worker's: a name that holds a NUL is not one, and
`check` does not look for that. -/
def QueueConfig.isNameable (c : QueueConfig) : Bool :=
  !c.threadName.toList.contains '\x00'

theorem QueueConfig.isNameable_iff (c : QueueConfig) :
    c.isNameable ↔ '\x00' ∉ c.name.toList := by
  simp [isNameable, threadName]

/-- What is known of an operation. -/
inductive Status where
  | pending
  | complete
  | failed (fault : Fault)
deriving Repr, DecidableEq

/-- Whether an operation has ended, well or not. -/
def Status.isResolved : Status → Bool
  | pending => false
  | _ => true

/-- The fault of a failed operation. -/
def Status.fault? : Status → Option Fault
  | failed fault => some fault
  | _ => none

/-- Work with a place in a queue. -/
structure Job where
  /-- The name of the operation in faults. -/
  label : String
  /-- The events that have to be resolved first. -/
  deps : List EventId
  /-- The event that the job resolves. -/
  event : EventId
  work : Work
deriving Repr, DecidableEq

/-- What the event of a job is resolved to when its work has ended on a device. -/
def Job.verdict (job : Job) (device : String) (failure : Option WorkError) : Status :=
  match failure with
  | none => .complete
  | some e => .failed ⟨device, job.label, e.message⟩

/-- A job whose work has ended, and what its event is to be resolved to. -/
structure Due where
  job : Job
  status : Status
deriving Repr, DecidableEq

/-- What a worker is at. -/
inductive Activity where
  | idle
  | running (job : Job)
  /-- Waits for another queue to finish. Then the worker lets go of the handles that are left, and
  resolves the event of its own job if that is still due. -/
  | closing (queue : QueueId) (left : List QueueId) (due? : Option Due)
deriving Repr, DecidableEq

/-- A queue with its worker. -/
structure Queue where
  config : QueueConfig
  ledger : Ledger
  /-- The jobs that have not been started, first come first. -/
  waiting : List Job
  activity : Activity
  /-- The number of handles to the queue. -/
  handles : Nat
deriving Repr, DecidableEq

namespace Queue

/-- A queue without jobs, held by one handle. -/
def fresh (config : QueueConfig) : Queue :=
  ⟨config, .empty config.name config.capacity, [], .idle, 1⟩

/-- Whether every job that was submitted is over. -/
def isDrained (q : Queue) : Bool :=
  q.waiting.isEmpty && q.activity == .idle

/-- A bound on the steps that the worker still takes: for each job that waits one to take it up and
one to end it, and one more for each queue that it may have to wait for. -/
def load (q : Queue) : Nat :=
  (q.waiting.map fun job => job.work.held.length + 2).foldr (· + ·) 0 +
    match q.activity with
    | .idle => 0
    | .running job => job.work.held.length + 1
    | .closing _ left _ => left.length + 1

end Queue

end BatchDigest
