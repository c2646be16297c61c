import BatchDigest.Kernel.Select
import BatchDigest.Size

/-!
# The body of a launch

A launch hashes a batch of equally long records from one region into another. Every condition on the
regions and tables is checked before the first digest is written, so that a launch that is refused
changes nothing. Each record is hashed for itself: when the kernel crashes on one, the others are
hashed all the same, and the launch fails with the first crash. Records of no bytes are all the same
empty record.
-/

namespace BatchDigest

/-- Why a launch fails. -/
inductive LaunchError where
  /-- Input and output are the same allocation. -/
  | aliased
  | tables (error : LoadError)
  | inputOverflow
  | outputOverflow
  | shortInput (held batch recordLength needed : Nat)
  | shortOutput (held batch digestSize needed : Nat)
  | crash (crash : Crash)
deriving Repr, DecidableEq

/-- The wording of a failed launch. -/
def LaunchError.message : LaunchError → String
  | aliased => "input and output alias the same allocation"
  | tables error => error.message
  | inputOverflow => "input size overflows"
  | outputOverflow => "output size overflows"
  | shortInput held batch recordLength needed =>
    s!"input allocation holds {held} bytes, {batch} records of {recordLength} bytes need {needed}"
  | shortOutput held batch digestSize needed =>
    s!"output allocation holds {held} bytes, {batch} digests of {digestSize} bytes need {needed}"
  | crash c => c.message

namespace Kernel

/-- The digests of the first `batch` records, each written over its piece of the output, and the
output bytes behind them as they were. -/
def hashRecords (k : Kernel) (tables : k.Tables) (recordLength : Nat) :
    Nat → Bytes → Bytes → Outcome Crash Bytes
  | 0, _, output => .success output
  | batch + 1, input, output =>
    let first := k.digestInto tables (input.take recordLength) (output.take k.digestSize)
    let rest := k.hashRecords tables recordLength batch (input.drop recordLength)
      (output.drop k.digestSize)
    ⟨first.result ++ rest.result, first.failure <|> rest.failure⟩

/-- The tables of a launch whose regions are apart from each other and large enough. A kernel
without tables is loaded from the empty blob. -/
def prepare (k : Kernel) (aliased : Bool) (inputLength outputLength : Nat) (staged : Option Bytes)
    (recordLength batch : Nat) : Except LaunchError k.Tables := do
  if aliased then throw .aliased
  let tables ← (k.load (staged.getD [])).mapError .tables
  let some inputNeeded := Size.mul? recordLength batch | throw .inputOverflow
  let some outputNeeded := Size.mul? k.digestSize batch | throw .outputOverflow
  if inputLength < inputNeeded then
    throw (.shortInput inputLength batch recordLength inputNeeded)
  if outputLength < outputNeeded then
    throw (.shortOutput outputLength batch k.digestSize outputNeeded)
  if k.digestSize = 0 then throw (.crash .emptyDigest)
  return tables

/-- What a launch leaves of the output region. A batch of no records asks for nothing. -/
def execute (k : Kernel) (aliased : Bool) (input output : Bytes) (staged : Option Bytes)
    (recordLength batch : Nat) : Outcome LaunchError Bytes :=
  if batch = 0 then .success output
  else
    match k.prepare aliased input.length output.length staged recordLength batch with
    | .error refusal => .failed output refusal
    | .ok tables => (k.hashRecords tables recordLength batch input output).mapFailure .crash

end Kernel

end BatchDigest
