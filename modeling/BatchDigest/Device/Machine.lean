import BatchDigest.Device.Queue

/-!
# The machine of queues

The machine holds every queue, event, memory, buffer and gate, each under an identifier that counts
up. Calls of the host change it at once: they submit jobs, make and give back allocations, let go of
handles. The workers change it in steps. `advance? q` is the next step of the worker of queue `q`,
if it can take one:

* an idle worker whose first job has all its dependencies resolved starts the job, or, when one of
  them failed, resolves the job's event with the first fault and never runs its work;
* a worker with a running job performs the work, lets go of the queue handles that the job carries,
  and resolves the event;
* a worker that let go of the last handle of another queue waits until that queue is drained, and
  then goes on with the handles behind that one.

Which worker takes the next step is left open: any order of steps is a run of the machine.
-/

namespace BatchDigest

/-- A device memory: where it was allocated and who still owns it. The bytes stay readable by work
that captured the memory even after it was given back. -/
structure Memory where
  queue : QueueId
  /-- The identifier on the ledger of the queue. -/
  allocation : Nat
  kind : MemoryKind
  length : Nat
  /-- How many owners have not let go. -/
  owners : Nat
deriving Repr, DecidableEq

/-- The state of all queues, events, memories and gates. -/
structure Machine where
  queues : List Queue
  events : List Status
  memories : List Memory
  contents : Contents
  /-- Whether each gate is open. -/
  gates : List Bool
deriving Repr, DecidableEq

namespace Machine

/-- The machine before the first call. -/
def empty : Machine :=
  ⟨[], [], [], ⟨[], [], []⟩, []⟩

/-- A queue of the machine. -/
def queue? (m : Machine) (q : QueueId) : Option Queue :=
  m.queues[q.index]?

/-- The machine with one queue changed. -/
def updateQueue (m : Machine) (q : QueueId) (change : Queue → Queue) : Machine :=
  { m with queues := m.queues.modify q.index change }

/-- The name of a queue. -/
def queueName (m : Machine) (q : QueueId) : String :=
  ((m.queue? q).map (·.config.name)).getD ""

/-- What the ledger of a queue reports. -/
def stats (m : Machine) (q : QueueId) : LedgerStats :=
  ((m.queue? q).map (·.ledger.stats)).getD (Ledger.empty "" none).stats

/-- The status of an event. -/
def status (m : Machine) (e : EventId) : Status :=
  m.events[e.index]?.getD .pending

/-- Whether an event is resolved. -/
def isResolved (m : Machine) (e : EventId) : Bool :=
  (m.status e).isResolved

/-- The first fault of a list of events, in the order of the list. -/
def firstFault? (m : Machine) (events : List EventId) : Option Fault :=
  events.findSome? fun e => (m.status e).fault?

/-- The machine with an event resolved. -/
def resolve (m : Machine) (e : EventId) (status : Status) : Machine :=
  { m with events := m.events.set e.index status }

/-- Whether every job of a queue is over. -/
def isDrained (m : Machine) (q : QueueId) : Bool :=
  (m.queue? q).all Queue.isDrained

/-! ## Calls of the host -/

/-- Adds an event that has the given status. -/
def addEvent (m : Machine) (status : Status) : EventId × Machine :=
  (⟨m.events.length⟩, { m with events := m.events ++ [status] })

/-- Adds a queue, held by one handle. -/
def addQueue (m : Machine) (config : QueueConfig) : QueueId × Machine :=
  (⟨m.queues.length⟩, { m with queues := m.queues ++ [.fresh config] })

/-- Adds a host buffer. -/
def addBuffer (m : Machine) (bytes : Bytes) : BufferId × Machine :=
  (⟨m.contents.buffers.length⟩,
    { m with contents := { m.contents with buffers := m.contents.buffers ++ [bytes] } })

/-- Whether the worker of a queue has left, which it does when nobody holds the queue any more and
every job is over. -/
def isClosed (m : Machine) (q : QueueId) : Bool :=
  (m.queue? q).all fun queue => queue.handles == 0 && queue.isDrained

/-- Puts work into a queue, behind everything submitted before, and gives its event. A closed queue
takes no work: the event has failed from the start. -/
def submit (m : Machine) (q : QueueId) (label : String) (deps : List EventId) (work : Work) :
    EventId × Machine :=
  if m.isClosed q then
    let device := m.queueName q
    m.addEvent (.failed ⟨device, label, (DeviceError.closed device).message⟩)
  else
    let (event, m) := m.addEvent .pending
    (event, m.updateQueue q fun queue =>
      { queue with waiting := queue.waiting ++ [⟨label, deps, event, work⟩] })

/-- Makes one more handle to a queue. -/
def addHandle (m : Machine) (q : QueueId) : Machine :=
  m.updateQueue q fun queue => { queue with handles := queue.handles + 1 }

/-- Lets go of a handle to a queue, and says whether it was the last one. -/
def dropHandle (m : Machine) (q : QueueId) : Bool × Machine :=
  let m := m.updateQueue q fun queue => { queue with handles := queue.handles - 1 }
  ((m.queue? q).any (·.handles == 0), m)

/-- Adds a closed gate. -/
def addGate (m : Machine) : GateId × Machine :=
  (⟨m.gates.length⟩, { m with gates := m.gates ++ [false] })

/-- Opens a gate for good. -/
def openGate (m : Machine) (gate : GateId) : Machine :=
  { m with gates := m.gates.set gate.index true }

/-- Whether a gate is open. -/
def isOpen (m : Machine) (gate : GateId) : Bool :=
  m.gates[gate.index]?.getD false

/-- Allocates memory of zeros on a queue, with one owner. -/
def allocate (m : Machine) (q : QueueId) (kind : MemoryKind) (length : Nat) :
    Except DeviceError MemoryId × Machine :=
  match m.queue? q with
  | none => (.error (.closed ""), m)
  | some queue =>
    let (outcome, ledger) := queue.ledger.allocate kind length
    let m := m.updateQueue q fun queue => { queue with ledger }
    match outcome with
    | .error e => (.error e, m)
    | .ok allocation =>
      (.ok ⟨m.memories.length⟩, { m with
        memories := m.memories ++ [⟨q, allocation, kind, length, 1⟩]
        contents := { m.contents with
          memories := m.contents.memories ++ [Bytes.zeros length] } })

/-- A memory of the machine. -/
def memory? (m : Machine) (id : MemoryId) : Option Memory :=
  m.memories[id.index]?

/-- The machine with one memory changed. -/
def updateMemory (m : Machine) (id : MemoryId) (change : Memory → Memory) : Machine :=
  { m with memories := m.memories.modify id.index change }

/-- Adds an owner to a memory. -/
def addOwner (m : Machine) (id : MemoryId) : Machine :=
  m.updateMemory id fun memory => { memory with owners := memory.owners + 1 }

/-- Lets one owner of a memory go, and says whether it was the last one. -/
def dropOwner (m : Machine) (id : MemoryId) : Bool × Machine :=
  let last := (m.memory? id).any (·.owners == 1)
  (last, m.updateMemory id fun memory => { memory with owners := memory.owners - 1 })

/-- Takes the allocation of a memory off its ledger. -/
def giveBack (m : Machine) (id : MemoryId) : Machine :=
  match m.memory? id with
  | none => m
  | some memory => m.updateQueue memory.queue fun queue =>
      { queue with ledger := queue.ledger.release memory.allocation }

/-- Lets an owner of a memory go and gives the allocation back with the last one. A memory without
owners is left alone. -/
def release (m : Machine) (id : MemoryId) : Machine :=
  let (last, m) := m.dropOwner id
  if last then m.giveBack id else m

/-- Whether a memory has no owner any more. -/
def isReleased (m : Machine) (id : MemoryId) : Bool :=
  (m.memory? id).all (·.owners == 0)

/-! ## Steps of the workers -/

/-- Sets what the worker of a queue is at. -/
def setActivity (m : Machine) (q : QueueId) (activity : Activity) : Machine :=
  m.updateQueue q fun queue => { queue with activity }

/-- Resolves the event of a job, if that is still due. -/
def resolveDue (m : Machine) : Option Due → Machine
  | some due => m.resolve due.job.event due.status
  | none => m

/-- Lets go of queue handles on the worker of `q`, one after the other. After the last handle of
another queue the worker waits for that queue before it goes on. When all handles are gone, the event
of the job is resolved, if it is still due. -/
def letGo (q : QueueId) (due? : Option Due) : List QueueId → Machine → Machine
  | [], m => (m.setActivity q .idle).resolveDue due?
  | target :: left, m =>
    let (last, m) := m.dropHandle target
    if last ∧ target ≠ q then m.setActivity q (.closing target left due?)
    else letGo q due? left m

/-- The start of the first waiting job, once its dependencies are resolved. After a fault its work
is not run: the fault is passed on, and then the queue handles that the job carries are let go of. -/
def start? (m : Machine) (q : QueueId) (job : Job) (rest : List Job) : Option Machine :=
  if job.deps.all m.isResolved then
    let started := m.updateQueue q fun queue => { queue with waiting := rest }
    match m.firstFault? job.deps with
    | none => some (started.setActivity q (.running job))
    | some fault => some ((started.resolve job.event (.failed fault)).letGo q none job.work.held)
  else none

/-- Whether nothing holds work up: a gate holds it up until it is open. -/
def isFree (m : Machine) : Work → Bool
  | .gate gate => m.isOpen gate
  | _ => true

/-- The end of a running job: its work is performed, the queue handles that it carries are let go of,
and its event is resolved to what the work came to. -/
def finish? (m : Machine) (q : QueueId) (queue : Queue) (job : Job) : Option Machine :=
  if m.isFree job.work then
    let outcome := job.work.perform m.contents
    let due : Due := ⟨job, job.verdict queue.config.name outcome.failure⟩
    some ({ m with contents := outcome.result }.letGo q (some due) job.work.held)
  else none

/-- The next step of the worker of a queue, if it can take one. -/
def advance? (m : Machine) (q : QueueId) : Option Machine := do
  let queue ← m.queue? q
  match queue.activity, queue.waiting with
  | .idle, [] => none
  | .idle, job :: rest => m.start? q job rest
  | .running job, _ => m.finish? q queue job
  | .closing target left due?, _ =>
    if m.isDrained target then return m.letGo q due? left else none

/-! ## Running the workers -/

/-- A bound on the steps that all workers together still take. -/
def load (m : Machine) : Nat :=
  (m.queues.map Queue.load).foldr (· + ·) 0

/-- A step of the first worker that can take one. -/
def advanceAny? (m : Machine) : Option Machine :=
  (List.range m.queues.length).findSome? fun i => m.advance? ⟨i⟩

/-- At most `steps` steps of workers. -/
def settleFor : Nat → Machine → Machine
  | 0, m => m
  | steps + 1, m =>
    match m.advanceAny? with
    | some next => settleFor steps next
    | none => m

/-- The machine once no worker can take a step, for one order of steps. -/
def settle (m : Machine) : Machine :=
  settleFor m.load m

end Machine

end BatchDigest
