import BatchDigest.Bytes.Words
import BatchDigest.Outcome

/-!
# Kernels

A kernel hashes one record per work item. What it needs beyond the record is not part of it: the
constants are written into a table blob, staged on a device once, and decoded there at the start of
each launch. So a kernel can meet a blob that is damaged, and `load` says when it refuses one.

A record leaves a final state, and its digest is the front of that. Steps that could leave their
bounds (a copy into a block, a byte past the state) report a `Crash` instead, so that "never
crashes" can be stated and proved for the parameters that the facade accepts.
-/

namespace BatchDigest

/-- How a kernel leaves its bounds. -/
inductive Crash where
  /-- A sponge without a single byte of rate. -/
  | emptyRate
  /-- A sponge whose capacity is larger than its state. -/
  | negativeRate
  | outOfBounds (length index : Nat)
  | pastEnd (stop length : Nat)
  /-- A launch of a kernel whose digests have no bytes. -/
  | emptyDigest
deriving Repr, DecidableEq

/-- The wording of a crash. -/
def Crash.message : Crash → String
  | emptyRate => "chunk size must be non-zero"
  | negativeRate => "attempt to subtract with overflow"
  | outOfBounds length index =>
    s!"index out of bounds: the len is {length} but the index is {index}"
  | pastEnd stop length => s!"range end index {stop} out of range for slice of length {length}"
  | emptyDigest => "chunk_size must not be zero"

/-- Why a kernel refuses a table blob. -/
inductive LoadError where
  /-- The blob is shorter than the tables. -/
  | short (kernel : String) (held expected : Nat)
  /-- The blob is neither as long as plain nor as long as keyed tables. -/
  | wrongLength (kernel : String) (held plain keyed : Nat)
  /-- An entry of the message schedule names no message word. -/
  | scheduleOutOfRange (kernel : String)
deriving Repr, DecidableEq

/-- The wording of a refused blob. -/
def LoadError.message : LoadError → String
  | short kernel held expected => s!"{kernel} tables hold {held} bytes, {expected} expected"
  | wrongLength kernel held plain keyed =>
    s!"{kernel} tables hold {held} bytes, {plain} or {keyed} expected"
  | scheduleOutOfRange kernel => s!"{kernel} sigma schedule out of range"

/-- A batched digest kernel. -/
structure Kernel where
  /-- The decoded tables. -/
  Tables : Type
  /-- The digest size in bytes. -/
  digestSize : Nat
  /-- The table blob to stage, empty for a kernel without tables. -/
  blob : Except Crash Bytes
  /-- Decodes a staged blob. -/
  load : Bytes → Except LoadError Tables
  /-- The bytes of the state that a record leaves. -/
  finalState : Tables → Bytes → Except Crash Bytes

namespace Kernel

/-- The crash of a digest that is longer than the state. The state is read in words of eight bytes,
and the crash is at the first word behind it. -/
def pastState (state : Bytes) : Crash :=
  .outOfBounds (state.length / 8) (state.length / 8)

/-- The digest of a record. -/
def digest (k : Kernel) (tables : k.Tables) (record : Bytes) : Except Crash Bytes :=
  match k.finalState tables record with
  | .error crash => .error crash
  | .ok state =>
    if state.length < k.digestSize then .error (pastState state)
    else .ok (state.take k.digestSize)

/-- Hashes a record into a buffer. A buffer longer than the state is written as far as the state
goes. -/
def digestInto (k : Kernel) (tables : k.Tables) (record buffer : Bytes) : Outcome Crash Bytes :=
  match k.finalState tables record with
  | .error crash => .failed buffer crash
  | .ok state =>
    if state.length < buffer.length then
      .failed (state ++ buffer.drop state.length) (pastState state)
    else .success (state.take buffer.length)

/-- A buffer of the digest size holds the digest afterwards, whatever it held before. -/
theorem digestInto_of_digest_eq_ok {k : Kernel} {tables : k.Tables} {record buffer digest : Bytes}
    (h : k.digest tables record = .ok digest) (size : buffer.length = k.digestSize) :
    k.digestInto tables record buffer = .success digest := by
  unfold Kernel.digest at h
  unfold digestInto
  cases final : k.finalState tables record with
  | error crash =>
    rw [final] at h
    cases h
  | ok state =>
    rw [final] at h
    dsimp only at h ⊢
    rw [size]
    by_cases short : state.length < k.digestSize
    · rw [if_pos short] at h
      cases h
    · rw [if_neg short] at h ⊢
      cases h
      rfl

end Kernel

namespace Bytes

/-- Replaces a range, and crashes when it passes the end. -/
def write (bytes : Bytes) (offset : Nat) (data : Bytes) : Except Crash Bytes :=
  match bytes.overwrite? offset data with
  | some result => .ok result
  | none => .error (.pastEnd (offset + data.length) bytes.length)

/-- Combines one byte with `value` by exclusive or, and crashes past the end. -/
def toggle (bytes : Bytes) (index : Nat) (value : UInt8) : Except Crash Bytes :=
  match bytes[index]? with
  | some byte => .ok (bytes.set index (byte ^^^ value))
  | none => .error (.outOfBounds bytes.length index)

end Bytes

end BatchDigest
