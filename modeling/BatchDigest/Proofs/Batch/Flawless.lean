import BatchDigest.Proofs.Batch.Dispatch
import BatchDigest.Proofs.Device.Lengths

/-!
# Jobs that fail as copies or not at all

Of the jobs of a share only the copies can fail. That a launch cannot is decided when it is put into
its queue, and it takes all of what the host arranged before: two memories of just the lengths that
the kernel will ask for, and tables that are uploaded before the launch begins (`Assured`). Nothing
that happens afterwards takes that away, because memories keep their lengths and whatever is put
into a queue later writes into memories that no pending job knows of (`Fresh`).

So a machine is `Flawless` from some event on when every fault of a later event is that of a copy,
and every pending job with a later event will keep it that way. Steps of workers keep it
(`Flawless.turn`), and so do the calls of the host and what it submits (`Trusted`).
-/

namespace BatchDigest

/-- The names of the two copies. -/
def isCopyName (name : String) : Bool :=
  name == "memcpy:h2d" || name == "memcpy:d2h"

theorem isCopyName_in : isCopyName "memcpy:h2d" := by decide

theorem isCopyName_out : isCopyName "memcpy:d2h" := by decide

/-- A fault that a copy ended with. -/
def Fault.IsCopy (f : Fault) : Prop :=
  isCopyName f.operation

/-- A job that goes by the name of a copy and launches no kernel. -/
structure Job.IsCopy (job : Job) : Prop where
  label : isCopyName job.label
  plain : ∀ l, job.work ≠ .launch l

/-! ## Launches that no check refuses -/

/-- The memories of a launch are two. They have just the bytes that the kernel asks for, which no
word is too small for, but for a byte where records without bytes ask for none. -/
structure Launch.Fits (l : Launch) (c : Contents) : Prop where
  filled : 0 < l.batch
  apart : l.input ≠ l.output
  input : (c.memory l.input).length = max (l.recordLength * l.batch) 1
  output : (c.memory l.output).length = l.algorithm.kernel.digestSize * l.batch
  inputWord : l.recordLength * l.batch ≤ Size.largest
  outputWord : l.algorithm.kernel.digestSize * l.batch ≤ Size.largest

/-- A launch that passes every check of the kernel, and that goes through to its end. -/
structure Launch.Succeeds (l : Launch) (c : Contents) : Prop where
  prepared : ∃ tables, l.algorithm.kernel.prepare (l.input == l.output) (c.memory l.input).length
    (c.memory l.output).length (l.tables.map c.memory) l.recordLength l.batch = .ok tables
  performed : ((Work.launch l).perform c).failure = none

/-- Over tables that the kernel can load and digest any record with, a launch that fits succeeds. -/
theorem Launch.Fits.succeeds {l : Launch} {c : Contents} (h : l.Fits c)
    {tables : l.algorithm.kernel.Tables} {digest : Bytes → Bytes}
    (loaded : l.algorithm.kernel.load ((l.tables.map c.memory).getD []) = .ok tables)
    (digests : ∀ record, l.algorithm.kernel.digest tables record = .ok (digest record))
    (positive : l.algorithm.kernel.digestSize ≠ 0) : l.Succeeds c := by
  have differ : (l.input == l.output) = false := by simpa using h.apart
  have input : l.recordLength * l.batch ≤ (c.memory l.input).length := by
    rw [h.input]
    exact Nat.le_max_left _ _
  have output := Nat.le_of_eq h.output.symm
  refine ⟨⟨tables, ?_⟩, ?_⟩
  · rw [differ]
    exact Kernel.prepare_eq loaded positive h.inputWord h.outputWord input output
  · have executed := Kernel.execute_eq loaded digests positive h.inputWord h.outputWord input output
    show ((c.launch l).mapFailure WorkError.launch).failure = none
    unfold Contents.launch Contents.run
    dsimp only
    rw [differ, executed]
    rfl

namespace Machine

variable {m n after : Machine} {q : QueueId} {job : Job} {id : MemoryId} {length base : Nat}
  {queues : List QueueId} {name : QueueId → String}

/-- The fault among some events is the fault of one of them. -/
theorem exists_failed_of_firstFault? {deps : List EventId} {fault : Fault}
    (first : m.firstFault? deps = some fault) : ∃ d ∈ deps, m.status d = .failed fault := by
  obtain ⟨d, mem, failed⟩ := List.exists_of_findSome?_eq_some first
  refine ⟨d, mem, ?_⟩
  cases status : m.status d with
  | pending | complete => simp [status, Status.fault?] at failed
  | failed f => simpa [status, Status.fault?] using failed

/-! ## Memories that keep their lengths -/

/-- Memories stay, with the lengths that they have. -/
def KeepsLengths (m after : Machine) : Prop :=
  ∀ id, m.Holds (.memory id) → after.Holds (.memory id) ∧
    (after.contents.memory id).length = (m.contents.memory id).length

theorem Turn.keepsLengths (turn : m.Turn q after) (sound : m.Sound) : m.KeepsLengths after := by
  refine fun id holds => ⟨(turn.holds sound _).2 holds, ?_⟩
  have here := congrArg (·[id.index]?) (turn.lengths sound)
  simp only [Contents.lengths, List.getElem?_map] at here
  unfold Contents.memory
  cases before : m.contents.memories[id.index]? <;>
    cases now : after.contents.memories[id.index]? <;> simp_all

theorem Still.keepsLengths (still : m.Still after) : m.KeepsLengths after := by
  refine fun id holds => ⟨still.holds _ holds, ?_⟩
  rw [(still.agrees _ holds).memory_eq]

theorem Submitted.keepsLengths (submitted : m.Submitted q job after) : m.KeepsLengths after := by
  refine fun id holds => ⟨(submitted.holds _).2 holds, ?_⟩
  rw [submitted.contents]

/-! ## Memories that no pending job knows of -/

/-- No pending job reads or writes the memory. -/
def Fresh (m : Machine) (id : MemoryId) : Prop :=
  ∀ q, ∀ job ∈ m.pending q, .memory id ∉ job.work.touches

namespace Fresh

theorem turn (h : m.Fresh id) (turn : m.Turn q after) : after.Fresh id :=
  fun p job mem => h p job (turn.mem_pending mem)

theorem evolves (h : m.Fresh id) (evolves : m.Evolves n) : n.Fresh id :=
  evolves.keeps (p := (·.Fresh id)) (fun _ _ _ h turn => h.turn turn) h

theorem still (h : m.Fresh id) (still : m.Still after) : after.Fresh id := by
  intro p job mem
  rw [still.steady.pending] at mem
  exact h p job mem

theorem submit (h : m.Fresh id) (submitted : m.Submitted q job after)
    (untouched : .memory id ∉ job.work.touches) : after.Fresh id := by
  intro p old mem
  rcases submitted.mem_pending.1 mem with old' | ⟨_, rfl⟩
  · exact h p old old'
  · exact untouched

end Fresh

/-- A new memory is fresh. -/
theorem Allocates.fresh (h : m.Allocates length id after) (serving : m.Serving queues name)
    (quiet : m.Quiet after) : after.Fresh id := by
  intro p job mem touched
  rw [quiet.steady.pending] at mem
  have held : id.index < m.memories.length := serving.inside p job mem _ touched
  rw [h.id] at held
  exact Nat.lt_irrefl _ held

/-! ## Launches that cannot fail any more -/

/-- A launch that fits, and whose tables are staged once its dependencies are complete. -/
structure Assured (m : Machine) (deps : List EventId) (l : Launch) : Prop where
  fits : l.Fits m.contents
  held : m.Holds (.memory l.input) ∧ m.Holds (.memory l.output)
  away : ∀ id, l.tables = some id → id ≠ l.input ∧ id ≠ l.output
  staged : ∃ (k : Contract) (queue : QueueId) (tables : StagedTables),
    k.algorithm = l.algorithm ∧ tables.memory = l.tables ∧ tables.ready ∈ deps ∧
      m.Follows (k.tablesPlan queue tables)

namespace Assured

variable {deps more : List EventId} {l : Launch}

theorem mono (h : m.Assured deps l) (within : ∀ d ∈ deps, d ∈ more) : m.Assured more l := by
  obtain ⟨k, queue, tables, algorithm, memory, ready, follows⟩ := h.staged
  exact ⟨h.fits, h.held, h.away, k, queue, tables, algorithm, memory, within _ ready, follows⟩

/-- What memories of lasting lengths and the upload of the tables are kept by keeps a launch
assured. -/
theorem keep (h : m.Assured deps l) (lengths : m.KeepsLengths after)
    (follows : ∀ (k : Contract) (queue : QueueId) (tables : StagedTables),
      tables.memory = l.tables → m.Follows (k.tablesPlan queue tables) →
        after.Follows (k.tablesPlan queue tables)) : after.Assured deps l := by
  obtain ⟨heldInput, input⟩ := lengths _ h.held.1
  obtain ⟨heldOutput, output⟩ := lengths _ h.held.2
  obtain ⟨k, queue, tables, algorithm, memory, ready, staged⟩ := h.staged
  refine ⟨⟨h.fits.filled, h.fits.apart, ?_, ?_, h.fits.inputWord, h.fits.outputWord⟩,
    ⟨heldInput, heldOutput⟩, h.away, k, queue, tables, algorithm, memory, ready,
    follows k queue tables memory staged⟩
  · rw [input, h.fits.input]
  · rw [output, h.fits.output]

theorem turn (h : m.Assured deps l) (sound : m.Sound) (turn : m.Turn q after) :
    after.Assured deps l :=
  h.keep (turn.keepsLengths sound) fun k queue tables _ follows =>
    follows.turn sound turn (k.tablesPlan_delivers queue tables)

theorem still (h : m.Assured deps l) (still : m.Still after) : after.Assured deps l :=
  h.keep still.keepsLengths fun _ _ _ _ follows => follows.still still

/-- A job that does not write into the tables. -/
theorem submit (h : m.Assured deps l) (submitted : m.Submitted q job after)
    (apart : ∀ id, l.tables = some id → .memory id ∉ job.work.writes) : after.Assured deps l := by
  refine h.keep submitted.keepsLengths fun k queue tables memory follows => ?_
  refine follows.submit submitted ?_
  obtain ⟨_, memory?, _⟩ := tables
  cases memory? with
  | none => exact job.work.spares_nothing
  | some table => exact Work.spares_of_not_mem (apart table memory.symm)

/-- What the launch reads and writes is there. -/
theorem holds (h : m.Assured deps l) : ∀ r ∈ (Work.launch l).touches, m.Holds r := by
  obtain ⟨k, queue, tables, -, memory, -, follows⟩ := h.staged
  intro r touched
  simp only [Work.touches, Work.reads, Work.writes, List.cons_append, List.mem_cons,
    List.mem_append, List.mem_map, List.not_mem_nil, or_false, Option.mem_toList] at touched
  rcases touched with rfl | ⟨id, staged, rfl⟩ | rfl
  · exact h.held.1
  · exact Contract.tables_held follows (memory.trans staged)
  · exact h.held.2

/-- The upload of the tables is on record. -/
theorem known (h : m.Assured deps l) : ∃ d ∈ deps, d.index < m.events.length := by
  obtain ⟨k, queue, tables, -, -, ready, follows⟩ := h.staged
  exact ⟨tables.ready, ready, follows.known⟩

/-- **Once its dependencies are complete, an assured launch succeeds.** -/
theorem succeeds (h : m.Assured deps l) (complete : ∀ d ∈ deps, m.status d = .complete) :
    l.Succeeds m.contents := by
  obtain ⟨k, queue, tables, algorithm, memory, ready, follows⟩ := h.staged
  have ended : m.isResolved (k.tablesPlan queue tables).job.event :=
    isResolved_of_complete (complete _ ready)
  have blob : (tables.memory.map m.contents.memory).getD [] = k.blob :=
    (follows.of_resolved ended).2
  obtain ⟨_, input, output, staged, recordLength, batch⟩ := l
  obtain rfl : k.algorithm = _ := algorithm
  obtain rfl : tables.memory = staged := memory
  have loaded : k.algorithm.kernel.load ((tables.memory.map m.contents.memory).getD []) =
      .ok k.tables := by
    rw [blob]
    exact k.loaded
  have positive : k.algorithm.kernel.digestSize ≠ 0 := by
    rw [Algorithm.digestSize_kernel]
    exact k.positive
  exact h.fits.succeeds loaded k.digests positive

end Assured

/-! ## Flawless machines -/

/-- A job that fails as a copy or not at all, once nothing else happened to its dependencies. -/
structure Vetted (m : Machine) (base : Nat) (job : Job) : Prop where
  deps : ∀ d ∈ job.deps, base ≤ d.index
  work : job.IsCopy ∨ ∃ l, job.work = .launch l ∧ m.Assured job.deps l

/-- Of the events from `base` on none failed but those of copies, and no other one will. -/
structure Flawless (m : Machine) (base : Nat) : Prop where
  faults : ∀ e f, base ≤ e.index → m.status e = .failed f → f.IsCopy
  vetted : ∀ q, ∀ job ∈ m.pending q, base ≤ job.event.index → m.Vetted base job

theorem Vetted.keep (h : m.Vetted base job)
    (assured : ∀ l, job.work = .launch l → m.Assured job.deps l → after.Assured job.deps l) :
    after.Vetted base job :=
  ⟨h.deps, h.work.imp_right fun ⟨l, work, holds⟩ => ⟨l, work, assured l work holds⟩⟩

namespace Flawless

/-- From the next event on every machine is flawless. -/
theorem of_sound (sound : m.Sound) : m.Flawless m.events.length := by
  constructor
  · intro e f new failed
    have known := known_of_isResolved (isResolved_of_failed failed)
    exact absurd known (Nat.not_lt.2 new)
  · intro q job mem new
    exact absurd (sound.known q job mem) (Nat.not_lt.2 new)

/-- A job that was vetted ends as it has to. -/
theorem isCopy_of_verdict (h : m.Flawless base) (vetted : m.Vetted base job) {f : Fault}
    {c : Contents} (verdict : m.Verdict q job (.failed f) c) : f.IsCopy := by
  rcases verdict.cases.2 with ⟨fault, first, same, -⟩ | ⟨none, ended, -⟩
  · obtain rfl : f = fault := by simpa using same
    obtain ⟨d, mem, failed⟩ := exists_failed_of_firstFault? first
    exact h.faults d f (vetted.deps d mem) failed
  · rcases vetted.work with copy | ⟨l, work, assured⟩
    · -- The fault of work is told under the label of its job.
      cases failure : (job.work.perform m.contents).failure with
      | none => rw [failure] at ended; cases ended
      | some e =>
        rw [failure] at ended
        cases ended
        exact copy.label
    · have complete := complete_of_firstFault?_eq_none verdict.cases.1 none
      rw [work, (assured.succeeds complete).performed] at ended
      cases ended

/-- **Steps of workers keep a machine flawless.** -/
theorem turn (h : m.Flawless base) (sound : m.Sound) (turn : m.Turn q after) :
    after.Flawless base := by
  have keep : ∀ {job}, m.Vetted base job → after.Vetted base job := fun vetted =>
    vetted.keep fun l _ assured => assured.turn sound turn
  refine ⟨fun e f new failed => ?_, fun p job mem new =>
    keep (h.vetted p job (turn.mem_pending mem) new)⟩
  rcases turn.settles sound with rests | ⟨ended, s, ends⟩
  · rw [status_of_events rests.events] at failed
    exact h.faults e f new failed
  · rw [ends.status sound] at failed
    split at failed
    next same =>
      subst same
      subst failed
      exact h.isCopy_of_verdict (h.vetted q ended ends.mem new) ends.verdict
    next => exact h.faults e f new failed

/-- So do calls that bring no fault but that of a copy. -/
theorem still (h : m.Flawless base) (still : m.Still after)
    (new : ∀ e f, after.status e = .failed f → m.status e = .failed f ∨ f.IsCopy) :
    after.Flawless base := by
  refine ⟨fun e f late failed => (new e f failed).elim (h.faults e f late) id,
    fun p job mem late => ?_⟩
  rw [still.steady.pending] at mem
  exact (h.vetted p job mem late).keep fun l _ assured => assured.still still

/-- And so does the submission of a job that was vetted and writes into fresh memories. -/
theorem submit (h : m.Flawless base) (submitted : m.Submitted q job after)
    (vetted : m.Vetted base job) (fresh : ∀ id, .memory id ∈ job.work.writes → m.Fresh id) :
    after.Flawless base := by
  refine ⟨fun e f new failed => ?_, fun p old mem new => ?_⟩
  · rw [submitted.status_eq] at failed
    exact h.faults e f new failed
  · rcases submitted.mem_pending.1 mem with old' | ⟨_, rfl⟩
    · refine (h.vetted p old old' new).keep fun l work assured => ?_
      refine assured.submit submitted fun id tables writes => fresh id writes p old old' ?_
      rw [work]
      exact List.mem_append_left _ (List.mem_cons_of_mem _ (by simp [tables]))
    · refine vetted.keep fun l work assured => ?_
      refine assured.submit submitted fun id tables writes => ?_
      rw [work] at writes
      obtain rfl : id = l.output := by simpa [Work.writes] using writes
      exact (assured.away _ tables).2 rfl

end Flawless

/-! ## Machines that the host can trust -/

/-- The host can rely on queues, and since `base` events were on record nothing but copies
failed. -/
structure Trusted (base : Nat) (queues : List QueueId) (name : QueueId → String) (m : Machine) :
    Prop where
  serving : m.Serving queues name
  since : base ≤ m.events.length
  flawless : m.Flawless base

namespace Trusted

/-- Where no queue has to serve. -/
theorem weaken (h : m.Trusted base queues name) : m.Trusted base [] name :=
  ⟨h.serving.base name, h.since, h.flawless⟩

theorem advance (h : m.Trusted base queues name) (step : m.advance? q = some after) :
    after.Trusted base queues name := by
  have turn := turn_of_advance? step
  refine ⟨h.serving.advance step, ?_, h.flawless.turn h.serving.sound turn⟩
  rw [turn.length_events h.serving.sound]
  exact h.since

theorem evolves (h : m.Trusted base queues name) (evolves : m.Evolves n) :
    n.Trusted base queues name := by
  induction evolves with
  | refl => exact h
  | step _ q step ih => exact ih.advance step

/-- Calls that make no event and let no handle go. -/
theorem quiet (h : m.Trusted base queues name) (quiet : m.Quiet after)
    (events : after.events = m.events) : after.Trusted base queues name := by
  refine ⟨h.serving.quiet quiet, ?_, h.flawless.still quiet.toStill fun e f failed => .inl ?_⟩
  · rw [events]
    exact h.since
  · rwa [status_of_events events] at failed

/-- Handles may go where no queue has to serve. -/
theorem still (h : m.Trusted base [] name) (still : m.Still after)
    (events : after.events = m.events) : after.Trusted base [] name := by
  refine ⟨h.serving.still still, ?_, h.flawless.still still fun e f failed => .inl ?_⟩
  · rw [events]
    exact h.since
  · rwa [status_of_events events] at failed

/-- An event that is resolved from the start, and with no fault but that of a copy. -/
theorem addEvent (h : m.Trusted base queues name) {s : Status} (resolved : s ≠ .pending)
    (copy : ∀ f, s = .failed f → f.IsCopy) : (m.addEvent s).2.Trusted base queues name := by
  have quiet := m.quiet_addEvent resolved
  refine ⟨h.serving.quiet quiet, Nat.le_trans h.since quiet.steady.length_events,
    h.flawless.still quiet.toStill fun e f failed => ?_⟩
  by_cases known : e.index < m.events.length
  · rw [quiet.steady.status known] at failed
    exact .inl failed
  · have lt := known_of_isResolved (isResolved_of_failed failed)
    rw [length_events_addEvent] at lt
    obtain rfl : e = ⟨m.events.length⟩ := EventId.eq_of_index (by simp; omega)
    rw [status_addEvent] at failed
    exact .inr (copy f failed)

/-- A job that was vetted is put into a queue that serves. -/
theorem submit (h : m.Trusted base queues name) (mem : q ∈ queues) {label : String}
    {deps : List EventId} {work : Work} (known : ∀ d ∈ deps, d.index < m.events.length)
    (holds : ∀ r ∈ work.touches, m.Holds r) (carefree : work.held = [])
    (fresh : ∀ id, .memory id ∈ work.writes → m.Fresh id)
    (vetted : m.Vetted base ⟨label, deps, ⟨m.events.length⟩, work⟩) :
    (m.submit q label deps work).2.Trusted base queues name := by
  have submitted := h.serving.submitted mem label deps work
  refine ⟨h.serving.submit submitted known holds fun _ _ => carefree ▸ List.not_mem_nil, ?_,
    h.flawless.submit submitted vetted fresh⟩
  rw [submitted.events, List.length_append]
  exact Nat.le_add_right_of_le h.since

end Trusted

end Machine

end BatchDigest
