import BatchDigest.Device.Access
import BatchDigest.Session.Inspection
import BatchDigest.Session.Objects

/-!
# Steps on device memory

A memory stays bound when it is released, and says so from then on. A view of it reads and writes
the same bytes as before.
-/

namespace BatchDigest

/-- The kind of memory that a word stands for. -/
def MemoryKind.ofWord? : String → Option MemoryKind
  | "host" => some host
  | "device" => some device
  | "shared" => some shared
  | _ => none

/-- A step on device memory. -/
inductive MemoryStep where
  /-- Allocates memory of a kind that is given as a word. -/
  | allocate (id queue kind : String) (length : Nat)
  | info (memory : String)
  | inspect (memory : String)
  | write (memory : String) (offset : Nat) (data : Bytes)
  | read (memory : String)
  | release (memory : String)
  | drop (memory : String)
  | view (id memory : String)
  | readView (view : String)
  | writeView (view : String) (offset : Nat) (data : Bytes)
  /-- Whether two views show the same bytes. -/
  | sameRegion (first second : String)
deriving Repr, DecidableEq

/-- What the machine knows of the memory under a name. -/
def Play.memory (name : String) : Play Memory := do
  let id ← find .memories name
  match ← host (Host.ask (·.memory? id)) with
  | some memory => return memory
  | none => throw (.unknownName name)

/-- What the host does in a step on device memory. -/
def MemoryStep.play : MemoryStep → Play Answer
  | allocate id queue word length => do
    let queue ← Play.find .queues queue
    match MemoryKind.ofWord? word with
    | none => throw .unknownWord
    | some kind => do
      let memory ← Play.attemptCall (·.allocate queue kind length)
      Play.bind .memories id memory
      return .allocated (← Play.memory id)
  | info memory => do
    let memory ← Play.memory memory
    return .memory memory (memory.owners == 0)
  | inspect memory => do
    let memory ← Play.memory memory
    return .text (← Play.host (Host.ask (·.inspectMemory memory)))
  | write memory offset data => do
    let memory ← Play.find .memories memory
    Play.attemptCall (·.writeMemory memory offset data)
    return .done
  | read memory => do
    let memory ← Play.find .memories memory
    return .bytes (← Play.attemptCall fun m => (m.readMemory memory, m))
  | release memory => do
    let memory ← Play.find .memories memory
    Play.host (Host.update (·.release memory))
    return .done
  | drop memory => do
    Play.drop .memories memory
    return .done
  | view id memory => do
    Play.bind .views id (← Play.find .memories memory)
    return .done
  | readView name => do
    let region ← Play.find .views name
    return .view (← Play.host (Host.ask (·.contents.memory region)))
  | writeView name offset data => do
    let region ← Play.find .views name
    Play.host (Host.update (·.pokeMemory region offset data))
    return .done
  | sameRegion first second => do
    let first ← Play.find .views first
    let second ← Play.find .views second
    return .flag (first == second)

end BatchDigest
