import BatchDigest.Error
import BatchDigest.Device.Machine

/-!
# Answers of a session

Every step of a session has an answer: what the step asked for, or why it could not be taken.
-/

namespace BatchDigest

/-- What a step of a session answers. -/
inductive Answer where
  | done
  /-- There was nothing to bind. -/
  | nothing
  | failed (error : Error)
  /-- A name that stands for no object. -/
  | unknownName (name : String)
  /-- A word that names none of a fixed list of values. -/
  | unknownWord
  | queue (config : QueueConfig)
  | text (text : String)
  | lines (lines : List String)
  | flag (value : Bool)
  | size (size : Nat)
  | status (status : Status)
  | fault (fault? : Option Fault)
  | bytes (bytes : Bytes)
  /-- A range of bytes, unless it passes the end. -/
  | range (bytes? : Option Bytes)
  | pieces (pieces : List Bytes)
  /-- Bytes that cannot be taken because somebody else still holds them. -/
  | shared
  | allocated (memory : Memory)
  | memory (memory : Memory) (isReleased : Bool)
  /-- What a view shows. -/
  | view (bytes : Bytes)
  /-- The length of a new buffer. -/
  | buffer (length : Nat)
  | tables (algorithm : Algorithm) (length : Nat) (isStaged : Bool) (ready : Status)
  | hasher (algorithm : Algorithm) (queues : List String)
  | handle (items : Nat) (isComplete : Bool)

end BatchDigest
