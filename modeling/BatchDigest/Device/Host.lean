import BatchDigest.Device.Machine

/-!
# Programs of the host

A host program is what the calling thread does: it acts on the machine, one call at a time, and
waits where a call blocks. Between any two of its steps the workers may take steps of their own.
`Step` is the relation of single steps of the host or of a worker, so that statements can speak of
every interleaving; `run` is one interleaving, in which the workers go as far as they can whenever
the host waits.
-/

namespace BatchDigest

/-- What the host can wait for. -/
inductive Wait where
  | resolved (event : EventId)
  | drained (queue : QueueId)

/-- Whether a wait is over. -/
def Wait.isOver (m : Machine) : Wait → Bool
  | resolved event => m.isResolved event
  | drained queue => m.isDrained queue

/-- A program of the host that ends with a value. -/
inductive Host (α : Type) where
  | done (value : α)
  /-- One call: it changes the machine, and what follows depends on the machine before it. -/
  | act (change : Machine → Machine) (next : Machine → Host α)
  | await (wait : Wait) (next : Host α)

namespace Host

variable {α β : Type}

/-- One program after the other. -/
def andThen : Host α → (α → Host β) → Host β
  | done value, f => f value
  | act change next, f => act change fun m => (next m).andThen f
  | await wait next, f => await wait (next.andThen f)

instance : Monad Host where
  pure := done
  bind := andThen

/-- A call that also answers. -/
def call (f : Machine → α × Machine) : Host α :=
  act (fun m => (f m).2) fun m => done (f m).1

/-- A call that only changes the machine. -/
def update (f : Machine → Machine) : Host Unit :=
  act f fun _ => done ()

/-- A look at the machine. -/
def ask (f : Machine → α) : Host α :=
  act id fun m => done (f m)

/-- Waits until an event is resolved and gives the fault, if there is one. -/
def join (event : EventId) : Host (Option Fault) :=
  await (.resolved event) (ask fun m => (m.status event).fault?)

/-- Waits until every event of a list is resolved, and gives the first fault in the order of the
list. -/
def joinAll : List EventId → Host (Option Fault)
  | [] => done none
  | event :: rest => do
    let first ← join event
    let later ← joinAll rest
    return first <|> later

/-- Lets go of a queue handle. With the last one the host waits until the queue is drained. -/
def dropQueue (queue : QueueId) : Host Unit := do
  if ← call (·.dropHandle queue) then await (.drained queue) (done ())

/-- Sets up a queue, held by one handle. The configuration is checked first, and then the worker's
thread is started under its name. -/
def createQueue (config : QueueConfig) : Host (Except SetUpFailure QueueId) :=
  match config.check with
  | .error e => return .error (.reported e)
  | .ok () =>
    if config.isNameable then .ok <$> call (·.addQueue config)
    else return .error (.panicked config.threadName)

/-- Waits for an event and reports its fault as an error. -/
def joinThrow (event : EventId) : Host (Except DeviceError Unit) := do
  match ← join event with
  | some fault => return .error (.execution fault)
  | none => return .ok ()

/-- Waits for everything that was submitted to a queue so far. -/
def synchronize (queue : QueueId) : Host Unit := do
  let event ← call (·.submit queue "synchronize" [] (.plain .succeeds []))
  let _ ← join event

/-- Runs a program. Workers take steps where the host waits, until none can. There is no result when
the wait is not over then: the host would wait for ever. -/
def run : Host α → Machine → Option (α × Machine)
  | done value, m => some (value, m)
  | act change next, m => (next m).run (change m)
  | await wait next, m =>
    let settled := m.settle
    if wait.isOver settled then next.run settled else none

/-- A single step of the host or of one worker. -/
inductive Step : Host α × Machine → Host α × Machine → Prop
  | act (change : Machine → Machine) (next : Machine → Host α) (m : Machine) :
      Step (.act change next, m) (next m, change m)
  | await (wait : Wait) (next : Host α) (m : Machine) (ended : wait.isOver m) :
      Step (.await wait next, m) (next, m)
  | worker (program : Host α) (queue : QueueId) (m after : Machine)
      (step : m.advance? queue = some after) : Step (program, m) (program, after)

/-- Any number of steps. -/
inductive Reaches : Host α × Machine → Host α × Machine → Prop
  | refl (s : Host α × Machine) : Reaches s s
  | step {s t u : Host α × Machine} (reaches : Reaches s t) (step : Step t u) : Reaches s u

end Host

end BatchDigest
