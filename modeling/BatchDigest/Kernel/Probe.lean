import BatchDigest.Kernel.Select

/-!
# Probing a kernel

A probe runs a kernel without a device: it takes the table blob, edits it, loads the edited blob and
hashes records one by one. It shows how a kernel meets tables that were damaged on their way.
-/

namespace BatchDigest

/-- A change to a table blob. -/
inductive BlobEdit where
  | keepFirst (length : Nat)
  | append (bytes : Bytes)
  /-- Overwrites a range, if it fits. -/
  | patch (offset : Nat) (bytes : Bytes)

/-- The blob after a change. -/
def BlobEdit.apply (blob : Bytes) : BlobEdit → Bytes
  | keepFirst length => blob.take length
  | append bytes => blob ++ bytes
  | patch offset bytes => (blob.overwrite? offset bytes).getD blob

/-- Why a probe ends early. -/
inductive ProbeError where
  | load (error : LoadError)
  | crash (crash : Crash)

/-- What a probe shows. -/
structure ProbeResult where
  digestSize : Nat
  /-- The length of the blob before any change. -/
  staged : Nat
  digests : List Bytes

/-- Runs a kernel on tables with changes. -/
def Kernel.probe (k : Kernel) (edits : List BlobEdit) (records : List Bytes) :
    Except ProbeError ProbeResult := do
  let blob ← k.blob.mapError .crash
  let tables ← (k.load (edits.foldl BlobEdit.apply blob)).mapError .load
  let digests ← records.mapM fun record => (k.digest tables record).mapError .crash
  return ⟨k.digestSize, blob.length, digests⟩

end BatchDigest
