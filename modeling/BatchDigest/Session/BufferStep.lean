import BatchDigest.Session.Objects

/-!
# Steps on host buffers

A buffer may have several names, and a copy that has not run yet holds it too. Its bytes can be
taken out of it only when one name is all that is left.
-/

namespace BatchDigest

/-- Whether the work of a job writes to a buffer. -/
def Job.writesTo (buffer : BufferId) (job : Job) : Bool :=
  match job.work with
  | .copyOut target .. => target == buffer
  | _ => false

/-- Whether a job that has not ended holds a buffer. -/
def Queue.holdsBuffer (buffer : BufferId) (q : Queue) : Bool :=
  q.waiting.any (Job.writesTo buffer) ||
    match q.activity with
    | .running job => job.writesTo buffer
    | _ => false

/-- A step on host buffers. -/
inductive BufferStep where
  | create (id : String) (bytes : Bytes)
  /-- Binds a second name to a buffer. -/
  | share (id buffer : String)
  | contents (buffer : String)
  | read (buffer : String) (offset length : Nat)
  | write (buffer : String) (offset : Nat) (data : Bytes)
  | chunks (buffer : String) (size : Nat)
  /-- Takes the bytes out, if nobody else holds the buffer. -/
  | take (buffer : String)
deriving Repr, DecidableEq

/-- Whether a buffer is held by more than one name. -/
def Play.isShared (buffer : BufferId) : Play Bool := do
  let names := (← get).buffers.objects.count buffer
  let held ← host (Host.ask fun m => m.queues.any (Queue.holdsBuffer buffer))
  return 1 < names || held

/-- The bytes of a buffer. -/
def Play.bufferBytes (buffer : BufferId) : Play Bytes :=
  host (Host.ask (·.contents.buffer buffer))

/-- What the host does in a step on host buffers. -/
def BufferStep.play : BufferStep → Play Answer
  | create id bytes => do
    Play.bind .buffers id (← Play.host (Host.call (·.addBuffer bytes)))
    return .buffer bytes.length
  | share id buffer => do
    Play.bind .buffers id (← Play.find .buffers buffer)
    return .done
  | contents buffer => do
    return .bytes (← Play.bufferBytes (← Play.find .buffers buffer))
  | read buffer offset length => do
    let bytes ← Play.bufferBytes (← Play.find .buffers buffer)
    return .range (bytes.read? offset length)
  | write buffer offset data => do
    let buffer ← Play.find .buffers buffer
    match (← Play.bufferBytes buffer).overwrite? offset data with
    | none => return .flag false
    | some bytes => do
      Play.host (Host.update fun m => { m with contents := m.contents.setBuffer buffer bytes })
      return .flag true
  | chunks buffer size => do
    return .pieces ((← Play.bufferBytes (← Play.find .buffers buffer)).chunks size)
  | take name => do
    let buffer ← Play.find .buffers name
    if ← Play.isShared buffer then return .shared
    Play.unbind .buffers name
    return .bytes (← Play.bufferBytes buffer)

end BatchDigest
