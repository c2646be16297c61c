import BatchDigest.Device.Machine

/-!
# Host access to device memory

The host writes and reads an allocation directly only while somebody owns it and its kind lets the
host in. Both act at once, before queued work that has not run yet.
-/

namespace BatchDigest.Machine

/-- Refuses access to memory that was given back or that the host cannot see. -/
def checkAccess (m : Machine) (operation : String) (id : MemoryId) : Except Misuse Memory :=
  match m.memory? id with
  | none => .error (.released operation 0)
  | some memory =>
    if m.isReleased id then .error (.released operation memory.allocation)
    else if !memory.kind.isHostAccessible then
      .error (.hidden operation memory.allocation memory.kind)
    else .ok memory

/-- Writes into a memory from the host, all of the data or none. -/
def writeMemory (m : Machine) (id : MemoryId) (offset : Nat) (data : Bytes) :
    Except DeviceError Unit × Machine :=
  match m.checkAccess "copy_from_host" id with
  | .error cause => (.error (.misuse cause), m)
  | .ok memory =>
    match m.contents.copyIn id offset data with
    | .ok contents => (.ok (), { m with contents })
    | .error _ => (.error (.misuse (.writePastEnd data.length offset memory.length)), m)

/-- Reads all of a memory from the host. -/
def readMemory (m : Machine) (id : MemoryId) : Except DeviceError Bytes :=
  match m.checkAccess "to_vec" id with
  | .error cause => .error (.misuse cause)
  | .ok _ => .ok (m.contents.memory id)

/-- Overwrites bytes of a memory through a view, which asks no questions. A range that does not fit
changes nothing. -/
def pokeMemory (m : Machine) (id : MemoryId) (offset : Nat) (data : Bytes) : Machine :=
  match m.contents.copyIn id offset data with
  | .ok contents => { m with contents }
  | .error _ => m

end BatchDigest.Machine
