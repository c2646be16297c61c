import BatchDigest.Session.Inspection
import BatchDigest.Session.Objects

/-!
# Steps on queues and their jobs

A submitted task names the objects that it works on. They are looked up when it is submitted, so a
job keeps its objects whatever becomes of their names.
-/

namespace BatchDigest

/-- What a submitted job is to do, in names. -/
inductive Task where
  | succeed
  | fail (message : String)
  | panic (payload : PanicPayload)
  | log (line : String)
  /-- Waits at a new gate, which gets the name. -/
  | gate (name : String)
  | mask (memory : String) (bytes : Bytes)
  /-- Takes a queue handle away from the session and lets it go in the job. -/
  | dropQueue (held : String)
deriving Repr, DecidableEq

/-- The work that a task stands for. -/
def Task.resolve : Task → Play Work
  | succeed => return .plain .succeeds []
  | fail message => return .plain (.fails message) []
  | panic payload => return .plain (.panics payload) []
  | log line => return .log line
  | gate name => do
    let gate ← Play.host (Host.call Machine.addGate)
    Play.bind .gates name gate
    return .gate gate
  | mask memory bytes => return .mask (← Play.find .memories memory) bytes
  | dropQueue held => do
    let queue ← Play.find .queues held
    Play.unbind .queues held
    return .plain .succeeds [queue]

/-- A step on queues. -/
inductive QueueStep where
  /-- Sets up a queue. The device type is a word of configurations. -/
  | create (id name deviceType : String) (capacity : Option Nat)
  /-- Makes a second handle to a queue. -/
  | share (id queue : String)
  | drop (queue : String)
  | inspect (queue : String)
  | synchronize (queue : String)
  | submit (id queue label : String) (deps : List String) (task : Task)
  | openGate (name : String)
  /-- Asks for the lines logged so far. -/
  | log
  | copyIn (id queue memory : String) (offset : Nat) (data : Bytes) (deps : List String)
  | copyOut (id queue buffer : String) (offset : Nat) (memory : String) (length : Nat)
      (deps : List String)
deriving Repr, DecidableEq

/-- Puts work into a queue and binds its event. -/
def Play.submit (id : String) (queue : QueueId) (label : String) (deps : List EventId)
    (work : Work) : Play Answer := do
  bind .events id (← host (Host.call (·.submit queue label deps work)))
  return .done

/-- What the host does in a step on queues. -/
def QueueStep.play : QueueStep → Play Answer
  | create id name word capacity =>
    match DeviceType.ofWord? word with
    | none => throw .unknownWord
    | some deviceType => do
      let config := ⟨name, deviceType, capacity⟩
      let queue ← Play.attempt (Except.mapError .ofSetUp <$> Host.createQueue config)
      Play.bind .queues id queue
      return .queue config
  | share id queue => do
    let queue ← Play.find .queues queue
    Play.host (Host.update (·.addHandle queue))
    Play.bind .queues id queue
    return .done
  | drop queue => do
    Play.drop .queues queue
    return .done
  | inspect queue => do
    let queue ← Play.find .queues queue
    match ← Play.host (Host.ask (·.queue? queue)) with
    | some queue => return .text queue.config.inspect
    | none => return .nothing
  | synchronize queue => do
    Play.host (Host.synchronize (← Play.find .queues queue))
    return .done
  | submit id queue label deps task => do
    let queue ← Play.find .queues queue
    let deps ← Play.findAll .events deps
    let work ← task.resolve
    Play.submit id queue label deps work
  | openGate name => do
    let gate ← Play.find .gates name
    Play.host (Host.update (·.openGate gate))
    return .done
  | log => return .lines (← Play.host (Host.ask (·.contents.log)))
  | copyIn id queue memory offset data deps => do
    let queue ← Play.find .queues queue
    let memory ← Play.find .memories memory
    let deps ← Play.findAll .events deps
    Play.submit id queue "memcpy:h2d" deps (.copyIn memory offset data)
  | copyOut id queue buffer offset memory length deps => do
    let queue ← Play.find .queues queue
    let buffer ← Play.find .buffers buffer
    let memory ← Play.find .memories memory
    let deps ← Play.findAll .events deps
    Play.submit id queue "memcpy:d2h" deps (.copyOut buffer offset memory length)

end BatchDigest
