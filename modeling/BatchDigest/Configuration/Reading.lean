import BatchDigest.Configuration.Basic
import BatchDigest.Toml.Line

/-!
# Reading configurations

A configuration is read from a TOML document. The algorithm is required, and so is the name of each
runner; all else has a default, and keys that mean nothing are passed over. A runner is a table, or
an array with its fields in their order.
-/

namespace BatchDigest

open Toml (Value Entries)

/-- The text of a value. -/
def Toml.Value.text? : Value → Option String
  | text content => some content
  | _ => none

/-- Whether a value is an empty array or table. -/
def Toml.Value.isHollow : Value → Bool
  | array items => items.isEmpty
  | tables items => items.isEmpty
  | table _ entries => entries.isEmpty
  | _ => false

/-- The device type of a value: its word, or a table with nothing under its word. -/
def DeviceType.ofValue? : Value → Option DeviceType
  | .text word => ofWord? word
  | .table _ [(word, value)] => if value.isHollow then ofWord? word else none
  | _ => none

namespace RunnerEntry

/-- The weight of a value, a float or an integer. -/
def weight? : Value → Option Float
  | .float number => some number
  | .integer number => some (Float.ofInt number)
  | _ => none

/-- The capacity of a value, an integer that is not negative. -/
def capacity? : Value → Option Nat
  | .integer number => number.toNat?
  | _ => none

/-- What a field is read as, or its default when it is not there. -/
def fieldOr {α : Type} (default : α) (read : Value → Option α) : Option Value → Option α
  | none => some default
  | some value => read value

/-- The runner that its fields stand for. -/
def ofFields? (name deviceType weight capacity : Option Value) : Option RunnerEntry := do
  return {
    name := ← (← name).text?
    deviceType := ← fieldOr .cpu DeviceType.ofValue? deviceType
    weight := ← fieldOr 1 weight? weight
    capacity := ← fieldOr none (some <$> capacity? ·) capacity }

/-- The runner that a value stands for. -/
def ofValue? : Value → Option RunnerEntry
  | .table _ entries =>
    ofFields? (entries.lookup "name") (entries.lookup "device_type") (entries.lookup "weight")
      (entries.lookup "memory_capacity")
  | .array items => ofFields? items[0]? items[1]? items[2]? items[3]?
  | _ => none

/-- The runners that a value stands for. -/
def listOfValue? : Value → Option (List RunnerEntry)
  | .array items => items.mapM ofValue?
  | .tables items => items.mapM fun entries => ofValue? (.table .header entries)
  | _ => none

end RunnerEntry

namespace Configuration

/-- The configuration that a document stands for. -/
def ofEntries? (entries : Entries) : Option Configuration := do
  return {
    algorithm := ← (← entries.lookup "algorithm").text?
    key := ← RunnerEntry.fieldOr none (some <$> ·.text?) (entries.lookup "key")
    runners := ← RunnerEntry.fieldOr [] RunnerEntry.listOfValue? (entries.lookup "runners") }

/-- Reads a configuration from the text of a document. -/
def ofText (text : String) : Except Error Configuration :=
  match Entries.ofText? text >>= ofEntries? with
  | some configuration => .ok configuration
  | none => .error .malformed

/-- Reads a configuration from the content of a file, if there is one. -/
def ofFile (content : Option Bytes) : Except Error Configuration :=
  match content.bind fun bytes => String.fromUTF8? ⟨bytes.toArray⟩ with
  | some text => ofText text
  | none => .error .unreadable

end Configuration

end BatchDigest
