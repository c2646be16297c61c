import BatchDigest.Session.BufferStep
import BatchDigest.Session.EventStep
import BatchDigest.Session.HashingStep
import BatchDigest.Session.MemoryStep
import BatchDigest.Session.QueueStep
import BatchDigest.Session.TablesStep

/-!
# Sessions

A session takes one step after the other on a machine of its own. Each step is reported with its
answer and with the ledgers of all queues that have a name then. A step that fails binds nothing,
and the session goes on; only a crash of the host itself ends it. Between two steps the workers go
as far as they can.
-/

namespace BatchDigest

/-- A step of a session. -/
inductive SessionStep where
  | queue (step : QueueStep)
  | event (step : EventStep)
  | memory (step : MemoryStep)
  | buffer (step : BufferStep)
  | tables (step : TablesStep)
  | hashing (step : HashingStep)

/-- What the host does in a step. -/
def SessionStep.play : SessionStep → Play Answer
  | queue step => step.play
  | event step => step.play
  | memory step => step.play
  | buffer step => step.play
  | tables step => step.play
  | hashing step => step.play

/-- A machine and the names of its objects. -/
structure Session where
  machine : Machine
  objects : Objects

/-- What is told of a step. -/
structure StepReport where
  answer : Answer
  /-- The ledgers of the queues, under their names in the session. -/
  ledgers : List (String × LedgerStats)

/-- Why a session ends before its last step. -/
inductive SessionEnd where
  /-- The host would wait for ever. -/
  | stuck
  | crashed (cause : Panic)

namespace Session

/-- A session before its first step. -/
def empty : Session :=
  ⟨.empty, .empty⟩

/-- The ledgers of all queues that have a name. -/
def ledgers (s : Session) : List (String × LedgerStats) :=
  s.objects.queues.entries.map fun entry => (entry.1, s.machine.stats entry.2)

/-- Takes one step. -/
def take (s : Session) (step : SessionStep) : Except SessionEnd (Answer × Session) :=
  match ((step.play.run s.objects).run).run s.machine with
  | none => .error .stuck
  | some (.error (.failed (.crashed cause)), _) => .error (.crashed cause)
  | some (.error answer, machine) => .ok (answer, ⟨machine.settle, s.objects⟩)
  | some (.ok (answer, objects), machine) => .ok (answer, ⟨machine.settle, objects⟩)

/-- Takes steps in order and reports each. -/
def takeAll (s : Session) : List SessionStep → Except SessionEnd (List StepReport)
  | [] => .ok []
  | step :: rest => do
    let (answer, next) ← s.take step
    let reports ← next.takeAll rest
    return ⟨answer, next.ledgers⟩ :: reports

end Session

end BatchDigest
