import BatchDigest.Session.Inspection
import BatchDigest.Session.Objects

/-!
# Steps on staged tables

Tables are staged on a queue, looked at, and used by launches on any queue that are submitted by
hand.
-/

namespace BatchDigest

/-- A step on staged tables. -/
inductive TablesStep where
  | stage (id queue : String) (choice : Algorithm.Choice) (key : Bytes)
  /-- Binds tables of an algorithm that has none staged. -/
  | none (id : String) (choice : Algorithm.Choice)
  /-- Waits for the upload and looks at the tables. -/
  | info (tables : String)
  /-- Binds the event of the upload. -/
  | ready (id tables : String)
  /-- Binds a view of the tables, if there are any. -/
  | view (id tables : String)
  | inspect (tables : String)
  | drop (tables : String)
  | launch (id queue : String) (deps : List String) (input output : String)
      (recordLength batch : Nat) (tables : String)

/-- What the host does in a step on staged tables. -/
def TablesStep.play : TablesStep → Play Answer
  | stage id queue choice key => do
    let queue ← Play.find .queues queue
    let algorithm ← Play.algorithm choice
    let tables ← Play.attempt (StagedTables.stage algorithm key queue)
    Play.bind .tables id tables
    return .size (← Play.host (Host.ask tables.length))
  | none id choice => do
    let algorithm ← Play.algorithm choice
    Play.bind .tables id (← Play.host (StagedTables.none algorithm))
    return .done
  | info tables => do
    let tables ← Play.find .tables tables
    let _ ← Play.host (Host.join tables.ready)
    Play.host (Host.ask fun m =>
      .tables tables.algorithm (tables.length m) tables.memory.isSome (m.status tables.ready))
  | ready id tables => do
    Play.bind .events id (← Play.find .tables tables).ready
    return .done
  | view id tables => do
    match (← Play.find .tables tables).memory with
    | .none => return .nothing
    | some memory => do
      Play.bind .views id memory
      return .done
  | inspect tables => do
    let tables ← Play.find .tables tables
    return .text (← Play.host (Host.ask tables.inspect))
  | drop tables => do
    Play.drop .tables tables
    return .done
  | launch id queue deps input output recordLength batch tables => do
    let queue ← Play.find .queues queue
    let deps ← Play.findAll .events deps
    let input ← Play.find .memories input
    let output ← Play.find .memories output
    let tables ← Play.find .tables tables
    let event ← Play.host (tables.launch queue deps input output recordLength batch)
    Play.bind .events id event
    return .done

end BatchDigest
