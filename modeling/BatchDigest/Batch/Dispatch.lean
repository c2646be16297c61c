import BatchDigest.Batch.Handle
import BatchDigest.Batch.Slice

/-!
# Dispatching a share of a batch

One share goes through three steps on its queue: its records are copied in, the kernel hashes them,
its digests are copied out. Each step depends on the one before it, and the host waits for none.
Only an allocation can fail at once; all else is told by the event of the last step.
-/

namespace BatchDigest

/-- A batch of equally long records and where its digests go. -/
structure Batch where
  input : Bytes
  recordLength : Nat
  output : BufferId
  count : Nat

/-- The event after which the records of a slice are on the device. Records of no bytes need no
copy, and records that the input does not hold are a fault from the start. -/
def Batch.copyIn (batch : Batch) (slice : Slice) (queue : QueueId) (memory : MemoryId) :
    Host EventId :=
  let first := slice.offset * batch.recordLength
  let stop := slice.stop * batch.recordLength
  if batch.recordLength = 0 then Host.call (·.addEvent .complete)
  else if stop ≤ batch.input.length then
    let records := (batch.input.drop first).take (stop - first)
    Host.call (·.submit queue "memcpy:h2d" [] (.copyIn memory 0 records))
  else do
    let device ← Host.ask (·.queueName queue)
    let message := s!"records {slice.offset}..{slice.stop} need {stop} input bytes, " ++
      s!"{batch.input.length} given"
    Host.call (·.addEvent (.failed ⟨device, "memcpy:h2d", message⟩))

/-- Puts a launch into a queue, behind the staging of its tables. -/
def StagedTables.launch (tables : StagedTables) (queue : QueueId) (deps : List EventId)
    (input output : MemoryId) (recordLength count : Nat) : Host EventId :=
  Host.call (·.submit queue ("kernel:" ++ tables.algorithm.name) (deps ++ [tables.ready])
    (.launch ⟨tables.algorithm, input, output, tables.memory, recordLength, count⟩))

/-- Puts the three steps of a share into a queue. -/
def Batch.enqueue (batch : Batch) (slice : Slice) (queue : QueueId) (tables : StagedTables)
    (input output : MemoryId) : Host BatchItem := do
  let size := tables.algorithm.digestSize
  let copied ← batch.copyIn slice queue input
  let computed ← tables.launch queue [copied] input output batch.recordLength slice.count
  let event ← Host.call (·.submit queue "memcpy:d2h" [computed]
    (.copyOut batch.output (slice.offset * size) output (size * slice.count)))
  tables.share
  return ⟨input, output, event, tables⟩

/-- Allocates the memory of a share and puts its three steps into a queue. An input without bytes
still gets an allocation. -/
def Batch.dispatch (batch : Batch) (slice : Slice) (queue : QueueId) (tables : StagedTables) :
    Host (Except DeviceError BatchItem) := do
  let inputLength := max (Size.mulSaturating batch.recordLength slice.count) 1
  let outputLength := Size.mulSaturating tables.algorithm.digestSize slice.count
  match ← Host.call (·.allocate queue .device inputLength) with
  | .error e => return .error e
  | .ok input =>
    match ← Host.call (·.allocate queue .device outputLength) with
    | .error e => do
      Host.update (·.release input)
      return .error e
    | .ok output => .ok <$> batch.enqueue slice queue tables input output

end BatchDigest
