import BatchDigest.Batch.Tables
import BatchDigest.Text.Quoted

/-!
# Inspecting objects

The text of an object for readers of logs: the name of its type and its fields with their values.
Strings in it are quoted.
-/

namespace BatchDigest

namespace Text

/-- The name of a type and the fields of a value. -/
def record (name : String) (fields : List (String × String)) : String :=
  let parts := fields.map fun field => field.1 ++ ": " ++ field.2
  name ++ " \x7b " ++ ", ".intercalate parts ++ " \x7d"

end Text

/-- The text of a device type. -/
def DeviceType.inspect : DeviceType → String
  | cpu => "Cpu"
  | gpu => "Gpu"
  | accelerator => "Accelerator"

/-- The text of a limit. -/
def inspectCapacity : Option Nat → String
  | none => "None"
  | some capacity => s!"Some({capacity})"

/-- The text of a queue. -/
def QueueConfig.inspect (c : QueueConfig) : String :=
  Text.record "Queue" [("info", Text.record "DeviceInfo" [("name", Text.quote c.name),
    ("device_type", c.deviceType.inspect), ("memory_capacity", inspectCapacity c.capacity)])]

/-- The text of a fault. -/
def Fault.inspect (f : Fault) : String :=
  Text.record "DeviceFault" [("device", Text.quote f.device),
    ("operation", Text.quote f.operation), ("message", Text.quote f.message)]

/-- The text of a status. -/
def Status.inspect : Status → String
  | pending => "Pending"
  | complete => "Complete"
  | failed fault => "Failed(" ++ fault.inspect ++ ")"

/-- The text of an event with a status. -/
def Status.inspectEvent (s : Status) : String :=
  Text.record "Event" [("status", s.inspect)]

/-- The text of a memory. -/
def Machine.inspectMemory (m : Machine) (memory : Memory) : String :=
  Text.record "DeviceMemory" [("id", toString memory.allocation), ("kind", memory.kind.label),
    ("len", toString memory.length), ("device", Text.quote (m.queueName memory.queue)),
    ("released", toString (memory.owners == 0))]

/-- The text of an algorithm. -/
def Algorithm.inspect : Algorithm → String
  | md2 => "Md2"
  | md5 => "Md5"
  | sha1 => "Sha1"
  | sha256 => "Sha256"
  | keccak bits => Text.record "Keccak" [("bits", toString bits)]
  | sha3 bits => Text.record "Sha3" [("bits", toString bits)]
  | blake2b bits => Text.record "Blake2b" [("bits", toString bits)]

/-- The text of staged tables. -/
def StagedTables.inspect (tables : StagedTables) (m : Machine) : String :=
  Text.record "ConstantCache" [("algorithm", tables.algorithm.inspect),
    ("staged_bytes", toString (tables.length m))]

end BatchDigest
