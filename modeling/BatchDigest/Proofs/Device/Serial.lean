import BatchDigest.Device.Host
import BatchDigest.Proofs.Device.Footprint
import BatchDigest.Proofs.Device.Sound

/-!
# Programs of submissions and their serial execution

A program is a list of submissions, which the host makes one after the other without waiting. What
it should come to is said without queues and workers: `Machine.execute` performs one submission on
the spot, or skips it after the first fault of its dependencies, and `Machine.executeAll` does so
for one submission after the other.

The submission at a position happens before another one when the two are on one queue, or when the
other depends on it, or by a chain of such steps. A program is free of races when happens-before
orders any two submissions whose work conflicts.
-/

namespace BatchDigest

/-- Work that the host puts into a queue. -/
structure Submission where
  queue : QueueId
  label : String
  deps : List EventId
  work : Work
deriving Repr, DecidableEq

namespace Submission

/-- The job of a submission. -/
def job (s : Submission) (event : EventId) : Job :=
  ⟨s.label, s.deps, event, s.work⟩

/-- Puts the job into its queue. -/
def submit (s : Submission) (m : Machine) : EventId × Machine :=
  m.submit s.queue s.label s.deps s.work

/-- Makes one submission after the other. -/
def submitAll : List Submission → Host Unit
  | [] => return ()
  | s :: rest => do
    let _ ← Host.call s.submit
    submitAll rest

end Submission

/-- Whether two works touch a region in common that one of them writes. -/
def Work.Conflicts (a b : Work) : Prop :=
  ∃ r, r ∈ a.touches ∧ r ∈ b.touches ∧ (r ∈ a.writes ∨ r ∈ b.writes)

namespace Machine

/-- The event of a position of a program that is run from `m` on. -/
def eventAt (m : Machine) (i : Nat) : EventId :=
  ⟨m.events.length + i⟩

/-- Whether a position of a program comes directly before another one: on the same queue, or as a
dependency. -/
def Precedes (m : Machine) (program : List Submission) (i j : Nat) : Prop :=
  ∃ a b, program[i]? = some a ∧ program[j]? = some b ∧
    (i < j ∧ a.queue = b.queue ∨ m.eventAt i ∈ b.deps)

/-- Whether a position of a program comes before another one whatever the workers do. -/
def HappensBefore (m : Machine) (program : List Submission) : Nat → Nat → Prop :=
  Relation.TransGen (m.Precedes program)

/-- Whether happens-before orders any two positions with conflicting work. -/
def RaceFree (m : Machine) (program : List Submission) : Prop :=
  ∀ i j a b, program[i]? = some a → program[j]? = some b → i ≠ j → a.work.Conflicts b.work →
    m.HappensBefore program i j ∨ m.HappensBefore program j i

/-- Performs a submission on the spot, or passes the first fault of its dependencies on. -/
def execute (m : Machine) (s : Submission) : Machine :=
  match m.firstFault? s.deps with
  | some fault => (m.addEvent (.failed fault)).2
  | none =>
    let outcome := s.work.perform m.contents
    let status := (s.job ⟨m.events.length⟩).verdict (m.queueName s.queue) outcome.failure
    { (m.addEvent status).2 with contents := outcome.result }

/-- Performs one submission after the other. -/
def executeAll (m : Machine) (program : List Submission) : Machine :=
  program.foldl execute m

/-! ## Serial execution step by step -/

section

variable (m : Machine) (s : Submission)

/-- An execution adds one event, which is not pending, and keeps the queues. -/
private theorem execute_events :
    ∃ status, status ≠ .pending ∧ (m.execute s).events = m.events ++ [status] ∧
      (m.execute s).queues = m.queues := by
  unfold execute
  split
  next fault _ => exact ⟨.failed fault, nofun, rfl, rfl⟩
  next => exact ⟨_, Job.verdict_ne_pending _ _ _, rfl, rfl⟩

variable {m s} in
theorem execute_of_fault {fault : Fault} (failed : m.firstFault? s.deps = some fault) :
    (m.execute s).status ⟨m.events.length⟩ = .failed fault ∧
      (m.execute s).contents = m.contents := by
  unfold execute
  rw [failed]
  exact ⟨m.status_addEvent _, rfl⟩

variable {m s} in
theorem execute_of_no_fault (free : m.firstFault? s.deps = none) :
    (m.execute s).status ⟨m.events.length⟩ = (s.job ⟨m.events.length⟩).verdict
        (m.queueName s.queue) (s.work.perform m.contents).failure ∧
      (m.execute s).contents = (s.work.perform m.contents).result := by
  unfold execute
  rw [free]
  exact ⟨m.status_addEvent _, rfl⟩

/-- An execution leaves alone what its work does not write. -/
private theorem agrees_execute {r : Region} (apart : r ∉ s.work.writes) :
    (m.execute s).contents.Agrees m.contents r := by
  unfold execute
  split
  · exact .refl _ r
  · exact Work.agrees_perform_of_not_mem apart

end

variable (m : Machine) (program : List Submission)

/-- The machine after the first positions of a program were executed. -/
def serial (n : Nat) : Machine :=
  m.executeAll (program.take n)

variable {m program}

theorem serial_succ {n : Nat} {s : Submission} (at' : program[n]? = some s) :
    m.serial program (n + 1) = (m.serial program n).execute s := by
  unfold serial executeAll
  rw [List.take_add_one, at', List.foldl_append]
  rfl

theorem serial_length : m.serial program program.length = m.executeAll program := by
  unfold serial
  rw [List.take_length]

theorem length_serial {n : Nat} (le : n ≤ program.length) :
    (m.serial program n).events.length = m.events.length + n := by
  induction n with
  | zero => rfl
  | succ n ih =>
    rw [serial_succ (List.getElem?_eq_getElem le)]
    obtain ⟨status, _, events, _⟩ := execute_events (m.serial program n) program[n]
    rw [events, List.length_append, ih (Nat.le_of_lt le), List.length_singleton, Nat.add_assoc]

theorem queueName_serial (n : Nat) (le : n ≤ program.length) (q : QueueId) :
    (m.serial program n).queueName q = m.queueName q := by
  have queues : (m.serial program n).queues = m.queues := by
    induction n with
    | zero => rfl
    | succ n ih =>
      rw [serial_succ (List.getElem?_eq_getElem le)]
      obtain ⟨_, _, _, queues⟩ := execute_events (m.serial program n) program[n]
      rw [queues, ih (Nat.le_of_lt le)]
  unfold queueName queue?
  rw [queues]

/-- Events on record keep their statuses. -/
theorem status_serial {a b : Nat} (le : a ≤ b) (inside : b ≤ program.length) {e : EventId}
    (known : e.index < m.events.length + a) :
    (m.serial program b).status e = (m.serial program a).status e := by
  induction le with
  | refl => rfl
  | @step b le ih =>
    rw [serial_succ (List.getElem?_eq_getElem inside), ← ih (Nat.le_of_lt inside)]
    obtain ⟨status, _, events, _⟩ := execute_events (m.serial program b) program[b]
    unfold Machine.status
    rw [events, List.getElem?_append_left]
    rw [length_serial (Nat.le_of_lt inside)]
    exact Nat.lt_of_lt_of_le known (Nat.add_le_add_left le _)

/-- A region is as it was while no position writes it. -/
theorem agrees_serial {a b : Nat} (le : a ≤ b) (inside : b ≤ program.length) {r : Region}
    (apart : ∀ i s, program[i]? = some s → a ≤ i → i < b → r ∉ s.work.writes) :
    (m.serial program b).contents.Agrees (m.serial program a).contents r := by
  induction le with
  | refl => exact .refl _ r
  | @step b le ih =>
    have at' := List.getElem?_eq_getElem inside
    rw [serial_succ at']
    have last := agrees_execute (m.serial program b) program[b]
      (apart b _ at' le (Nat.lt_succ_self b))
    exact last.trans (ih (Nat.le_of_lt inside) fun i s at' lower upper =>
      apart i s at' lower (Nat.lt_succ_of_lt upper))

end Machine

end BatchDigest
