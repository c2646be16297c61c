import BatchDigest.Kernel.Launch
import BatchDigest.Device.Error

/-!
# Work on a device

Work is what a job does once its worker gets to it. It reads and changes the contents of device
memories, host buffers and a log. Work that fails leaves them as they were, but for a launch whose
kernel crashed, which leaves the digests that it wrote. Two kinds of work are about the worker and
not about contents: a gate holds its worker until the gate is opened, and plain work carries queue
handles into its job, where they are let go of, and ends well, with a fault or in a panic.
-/

namespace BatchDigest

/-- A queue of the machine. -/
structure QueueId where
  index : Nat
deriving Repr, DecidableEq

/-- A completion event of the machine. -/
structure EventId where
  index : Nat
deriving Repr, DecidableEq

/-- A device memory of the machine. -/
structure MemoryId where
  index : Nat
deriving Repr, DecidableEq

/-- A host buffer of the machine. -/
structure BufferId where
  index : Nat
deriving Repr, DecidableEq

/-- A gate of the machine. -/
structure GateId where
  index : Nat
deriving Repr, DecidableEq

/-- What a panicking job leaves: a text, or something else. -/
inductive PanicPayload where
  | text (message : String)
  | other
deriving Repr, DecidableEq

/-- The message that a panic puts into the fault. -/
def PanicPayload.message : PanicPayload → String
  | text message => message
  | other => "device task panicked"

/-- A kernel launch over device memories. -/
structure Launch where
  algorithm : Algorithm
  input : MemoryId
  output : MemoryId
  tables : Option MemoryId
  recordLength : Nat
  batch : Nat
deriving Repr, DecidableEq

/-- How plain work ends. -/
inductive Ending where
  | succeeds
  | fails (message : String)
  | panics (payload : PanicPayload)
deriving Repr, DecidableEq

/-- What a job does. -/
inductive Work where
  /-- Leaves all contents as they are. The job carries the queue handles of the list. -/
  | plain (ending : Ending) (held : List QueueId)
  | log (line : String)
  /-- Waits until a gate is open. -/
  | gate (gate : GateId)
  /-- Combines the front of a memory with a mask, by exclusive or. -/
  | mask (memory : MemoryId) (bytes : Bytes)
  | copyIn (memory : MemoryId) (offset : Nat) (data : Bytes)
  | copyOut (buffer : BufferId) (offset : Nat) (memory : MemoryId) (length : Nat)
  | launch (launch : Launch)
deriving Repr, DecidableEq

/-- The queue handles that a job carries with its work. They are let go of in the order of the list,
when the work has ended, well or not, or is skipped. -/
def Work.held : Work → List QueueId
  | plain _ held => held
  | _ => []

/-- Why a copy fails. -/
inductive CopyError where
  | inPastEnd (length offset size : Nat)
  | outPastAllocation (length size : Nat)
  | outPastBuffer (length offset size : Nat)
deriving Repr, DecidableEq

/-- The wording of a failed copy. -/
def CopyError.message : CopyError → String
  | inPastEnd length offset size =>
    s!"copy of {length} bytes at {offset} exceeds device allocation of {size} bytes"
  | outPastAllocation length size =>
    s!"copy of {length} bytes exceeds device allocation of {size} bytes"
  | outPastBuffer length offset size =>
    s!"copy of {length} bytes at {offset} exceeds host buffer of {size} bytes"

/-- Why work fails. -/
inductive WorkError where
  | failed (message : String)
  | panicked (payload : PanicPayload)
  | copy (error : CopyError)
  | launch (error : LaunchError)
deriving Repr, DecidableEq

/-- The message that failed work puts into the fault. -/
def WorkError.message : WorkError → String
  | failed message => message
  | panicked payload => payload.message
  | copy error => error.message
  | launch error => error.message

/-- Everything that work can read and change. -/
structure Contents where
  /-- The bytes of each device memory. -/
  memories : List Bytes
  /-- The bytes of each host buffer. -/
  buffers : List Bytes
  /-- The lines logged so far. -/
  log : List String
deriving Repr, DecidableEq

namespace Contents

/-- The bytes of a device memory. -/
def memory (c : Contents) (id : MemoryId) : Bytes :=
  c.memories[id.index]?.getD []

/-- The bytes of a host buffer. -/
def buffer (c : Contents) (id : BufferId) : Bytes :=
  c.buffers[id.index]?.getD []

/-- The contents with other bytes in a device memory. -/
def setMemory (c : Contents) (id : MemoryId) (bytes : Bytes) : Contents :=
  { c with memories := c.memories.set id.index bytes }

/-- The contents with other bytes in a host buffer. -/
def setBuffer (c : Contents) (id : BufferId) (bytes : Bytes) : Contents :=
  { c with buffers := c.buffers.set id.index bytes }

/-- Copies data into a memory, all of it or none. -/
def copyIn (c : Contents) (id : MemoryId) (offset : Nat) (data : Bytes) :
    Except CopyError Contents :=
  match (c.memory id).overwrite? offset data with
  | some bytes => .ok (c.setMemory id bytes)
  | none => .error (.inPastEnd data.length offset (c.memory id).length)

/-- Copies the first bytes of a memory into a buffer, all of them or none. -/
def copyOut (c : Contents) (buffer : BufferId) (offset : Nat) (id : MemoryId) (length : Nat) :
    Except CopyError Contents :=
  match (c.memory id).read? 0 length with
  | none => .error (.outPastAllocation length (c.memory id).length)
  | some data =>
    match (c.buffer buffer).overwrite? offset data with
    | some bytes => .ok (c.setBuffer buffer bytes)
    | none => .error (.outPastBuffer length offset (c.buffer buffer).length)

/-- Runs a kernel over memories: the digests replace the front of the output memory. -/
def run (c : Contents) (k : Kernel) (input output : MemoryId) (tables : Option MemoryId)
    (recordLength batch : Nat) : Outcome LaunchError Contents :=
  let written := k.execute (input == output) (c.memory input) (c.memory output)
    (tables.map c.memory) recordLength batch
  written.map (c.setMemory output)

/-- Runs a launch with the kernel of its algorithm. -/
def launch (c : Contents) (l : Launch) : Outcome LaunchError Contents :=
  c.run l.algorithm.kernel l.input l.output l.tables l.recordLength l.batch

end Contents

/-- Why plain work fails, if it does. -/
def Ending.failure? : Ending → Option WorkError
  | succeeds => none
  | fails message => some (.failed message)
  | panics payload => some (.panicked payload)

/-- What work does to the contents. -/
def Work.perform (c : Contents) : Work → Outcome WorkError Contents
  | plain ending _ => ⟨c, ending.failure?⟩
  | gate _ => .success c
  | log line => .success { c with log := c.log ++ [line] }
  | mask id bytes => .success (c.setMemory id (Bytes.maskFront bytes (c.memory id)))
  | copyIn id offset data => .ofExcept c ((c.copyIn id offset data).mapError .copy)
  | copyOut buffer offset id length =>
    .ofExcept c ((c.copyOut buffer offset id length).mapError .copy)
  | launch l => (c.launch l).mapFailure .launch

end BatchDigest
