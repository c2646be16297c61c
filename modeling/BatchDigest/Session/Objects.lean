import BatchDigest.Batch.Hasher
import BatchDigest.Session.Answer
import BatchDigest.Session.Names

/-!
# Named objects

Each kind of object has names of its own, so a queue and a memory may share one. A shelf is one
kind: where its names are kept, and what the host does when it lets an object go. A play is a
program of the host that also looks up and binds names; it stops with an answer as soon as a name
stands for nothing, and then the names stay as they were.
-/

namespace BatchDigest

/-- The objects of a session. -/
structure Objects where
  queues : Names QueueId
  memories : Names MemoryId
  /-- Views of memory, which outlive its release. -/
  views : Names MemoryId
  buffers : Names BufferId
  events : Names EventId
  tables : Names StagedTables
  hashers : Names Hasher
  handles : Names Handle
  gates : Names GateId

/-- No objects. -/
def Objects.empty : Objects :=
  ⟨.empty, .empty, .empty, .empty, .empty, .empty, .empty, .empty, .empty⟩

/-- One kind of named objects. -/
structure Shelf (α : Type) where
  names : Objects → Names α
  setNames : Objects → Names α → Objects
  /-- Lets an object go that lost its name. -/
  discard : α → Host Unit

namespace Shelf

/-- Queue handles. -/
def queues : Shelf QueueId :=
  ⟨Objects.queues, fun o queues => { o with queues }, Host.dropQueue⟩

/-- Device memories. -/
def memories : Shelf MemoryId :=
  ⟨Objects.memories, fun o memories => { o with memories }, fun id => Host.update (·.release id)⟩

/-- Views of device memories. -/
def views : Shelf MemoryId :=
  ⟨Objects.views, fun o views => { o with views }, fun _ => return ()⟩

/-- Host buffers. -/
def buffers : Shelf BufferId :=
  ⟨Objects.buffers, fun o buffers => { o with buffers }, fun _ => return ()⟩

/-- Events. -/
def events : Shelf EventId :=
  ⟨Objects.events, fun o events => { o with events }, fun _ => return ()⟩

/-- Staged tables. -/
def tables : Shelf StagedTables :=
  ⟨Objects.tables, fun o tables => { o with tables }, StagedTables.drop⟩

/-- Hashers. -/
def hashers : Shelf Hasher :=
  ⟨Objects.hashers, fun o hashers => { o with hashers }, Hasher.drop⟩

/-- Handles of batches in flight. -/
def handles : Shelf Handle :=
  ⟨Objects.handles, fun o handles => { o with handles }, Handle.drop⟩

/-- Gates of jobs. A gate without a name opens, since nobody else could open it. -/
def gates : Shelf GateId :=
  ⟨Objects.gates, fun o gates => { o with gates }, fun gate => Host.update (·.openGate gate)⟩

end Shelf

/-- A program over named objects, which may stop with an answer. -/
abbrev Play := StateT Objects (ExceptT Answer Host)

namespace Play

variable {α : Type}

/-- A program of the host as it is. -/
def host (program : Host α) : Play α :=
  StateT.lift (ExceptT.lift program)

/-- A program of the host whose error is the answer. -/
def attempt (program : Host (Except Error α)) : Play α := do
  match ← host program with
  | .ok a => return a
  | .error e => throw (.failed e)

/-- A call on the machine whose error is the answer. -/
def attemptCall (f : Machine → Except DeviceError α × Machine) : Play α :=
  attempt (Except.mapError .device <$> Host.call f)

/-- The algorithm that is meant. -/
def algorithm (choice : Algorithm.Choice) : Play Algorithm :=
  attempt (return choice.resolve.mapError .rejected)

/-- The object under a name. -/
def find (shelf : Shelf α) (name : String) : Play α := do
  match (shelf.names (← get)).get? name with
  | some object => return object
  | none => throw (.unknownName name)

/-- The objects under each of some names. -/
def findAll (shelf : Shelf α) : List String → Play (List α)
  | [] => return []
  | name :: rest => do
    let object ← find shelf name
    let objects ← findAll shelf rest
    return object :: objects

/-- Takes a name off its object, which stays as it is. -/
def unbind (shelf : Shelf α) (name : String) : Play Unit :=
  modify fun objects => shelf.setNames objects ((shelf.names objects).remove name)

/-- Binds a name to an object, and then lets the object go that had the name before. -/
def bind (shelf : Shelf α) (name : String) (object : α) : Play Unit := do
  let old := (shelf.names (← get)).get? name
  modify fun objects => shelf.setNames objects ((shelf.names objects).put name object)
  match old with
  | some old => host (shelf.discard old)
  | none => return ()

/-- Takes a name off its object and lets the object go. -/
def drop (shelf : Shelf α) (name : String) : Play Unit := do
  let object ← find shelf name
  unbind shelf name
  host (shelf.discard object)

end Play

end BatchDigest
