import BatchDigest.Device.Error
import BatchDigest.Kernel.Basic
import BatchDigest.Rejection

/-!
# Errors of the digest engine

A call on the engine is refused because of its configuration, or a device reports an error. A
configuration text may also fail to parse, and its file to be read. Two calls may panic on the
calling thread.
-/

namespace BatchDigest

/-- Why the calling thread panics. -/
inductive Panic where
  /-- Tables were asked for that cannot be written. -/
  | tables (crash : Crash)
  /-- A queue was asked for whose worker would need a thread of a name that no thread can have. -/
  | thread (name : String)

/-- What a call on the engine reports. -/
inductive Error where
  | rejected (cause : Rejection)
  /-- The configuration text is not a configuration. -/
  | malformed
  /-- The configuration file cannot be read as text. -/
  | unreadable
  | device (error : DeviceError)
  | crashed (cause : Panic)

namespace Error

/-- What is reported of a queue that is not set up. -/
def ofSetUp : SetUpFailure → Error
  | .reported error => device error
  | .panicked name => crashed (.thread name)

/-- The wording, where the engine has one of its own. -/
def message? : Error → Option String
  | rejected cause => some cause.message
  | malformed | unreadable | crashed _ => none
  | device error => some error.message

/-- Whether a device ran out of memory. -/
def isOutOfMemory : Error → Bool
  | device error => error.isRecoverable
  | _ => false

/-- Whether a queued copy or kernel failed on a device. -/
def isExecution : Error → Bool
  | device error => error.isExecution
  | _ => false

end Error

end BatchDigest
