import BatchDigest.Batch.Compute
import BatchDigest.Proofs.Batch.Results
import BatchDigest.Proofs.Device.Launching

/-!
# Records in device memory

Records that are in device memory are hashed there, without a copy (`InPlace.program`). That takes
one launch behind the upload of the tables. What the launch comes to is told by the two memories
before it (`InPlace.Suits`): it writes the digests, or it is refused and both memories are left
alone. Whatever the workers do meanwhile, that is what it comes to in the end (`Launched.ended`).
-/

namespace BatchDigest

open Machine

variable {m n : Machine}

/-- Records in a device memory, and a memory for their digests. -/
structure InPlace where
  queue : QueueId
  algorithm : Algorithm
  key : Bytes
  input : MemoryId
  recordLength : Nat
  output : MemoryId
  count : Nat

namespace InPlace

/-- The records are hashed where they are. -/
def program (p : InPlace) : Host (Except Error Unit) :=
  computeOnDevice p.queue p.algorithm p.input p.recordLength p.output p.count p.key

/-- The same records for hashing from the host. -/
def batch (p : InPlace) (c : Contents) (output : BufferId) : Batch :=
  ⟨(c.memory p.input).take (p.recordLength * p.count), p.recordLength, output, p.count⟩

section

variable (p : InPlace) (c : Contents)

/-- The digest size. -/
def size : Nat :=
  p.algorithm.digestSize

/-- The memories are two, one of which holds the records, while the other one has room for their
digests. -/
def Suits : Prop :=
  p.input ≠ p.output ∧ p.recordLength * p.count ≤ (c.memory p.input).length ∧
    p.size * p.count ≤ (c.memory p.output).length

instance : Decidable (p.Suits c) :=
  inferInstanceAs (Decidable (_ ∧ _ ∧ _))

/-- Why memories do not suit. -/
def refusal : LaunchError :=
  if p.input = p.output then .aliased
  else if (c.memory p.input).length < p.recordLength * p.count then
    .shortInput (c.memory p.input).length p.count p.recordLength (p.recordLength * p.count)
  else .shortOutput (c.memory p.output).length p.count p.size (p.size * p.count)

/-- The fault of a launch between memories that do not suit. -/
def fault (m : Machine) : Fault :=
  ⟨m.queueName p.queue, "kernel:" ++ p.algorithm.name, (p.refusal m.contents).message⟩

end

/-! ## The launch -/

/-- The launch behind tables. -/
def launch (p : InPlace) (tables : Option MemoryId) : Launch :=
  ⟨p.algorithm, p.input, p.output, tables, p.recordLength, p.count⟩

/-- What is in the output after the launch. -/
def written (p : InPlace) (digest : Bytes → Bytes) (c : Contents) : Bytes :=
  if p.Suits c then
    (Bytes.pieces p.recordLength p.count (c.memory p.input)).flatMap digest ++
      (c.memory p.output).drop (p.size * p.count)
  else c.memory p.output

/-- The sizes of a launch do not overflow. -/
structure Moderate (p : InPlace) : Prop where
  accepted : p.algorithm.isSupported
  some : p.count ≠ 0
  input : p.recordLength * p.count ≤ Size.largest
  output : p.size * p.count ≤ Size.largest

section

variable {p : InPlace} {c : Contents} {constants : Option MemoryId} {digest : Bytes → Bytes}
  {tables : p.algorithm.kernel.Tables}

/-- A launch between memories that suit writes the digests. -/
theorem perform_of_suits (moderate : p.Moderate)
    (loaded : p.algorithm.kernel.load (c.staged constants) = .ok tables)
    (total : ∀ record, p.algorithm.kernel.digest tables record = .ok (digest record))
    (suits : p.Suits c) : (Work.launch (p.launch constants)).perform c =
      .success (c.setMemory p.output (p.written digest c)) := by
  have size : p.algorithm.kernel.digestSize = p.size := p.algorithm.digestSize_kernel
  have positive : p.size ≠ 0 := Algorithm.digestSize_ne_zero moderate.accepted
  have takes : c.Takes p.algorithm.kernel p.input p.output constants p.recordLength p.count :=
    ⟨suits.1, ⟨tables, loaded⟩, moderate.input, size ▸ moderate.output, suits.2.1,
      size ▸ suits.2.2⟩
  have ran := Contents.run_of_takes (size ▸ positive) total loaded takes
  show (c.run p.algorithm.kernel p.input p.output constants p.recordLength p.count).mapFailure
    WorkError.launch = _
  unfold written
  rw [ran, if_pos suits, size]
  rfl

/-- A launch between other memories is refused. -/
theorem perform_of_not_suits (moderate : p.Moderate)
    (loaded : p.algorithm.kernel.load (c.staged constants) = .ok tables) (misfit : ¬ p.Suits c) :
    (Work.launch (p.launch constants)).perform c = .failed c (.launch (p.refusal c)) := by
  have size : p.algorithm.kernel.digestSize = p.size := p.algorithm.digestSize_kernel
  have positive : p.size ≠ 0 := Algorithm.digestSize_ne_zero moderate.accepted
  have refused : p.algorithm.kernel.prepare (p.input == p.output) (c.memory p.input).length
      (c.memory p.output).length (constants.map c.memory) p.recordLength p.count =
        .error (p.refusal c) := by
    rw [Kernel.prepare_of_loaded loaded (size ▸ positive) moderate.input (size ▸ moderate.output),
      size]
    unfold refusal
    by_cases same : p.input = p.output
    · rw [if_pos same, if_pos (beq_iff_eq.2 same)]
    rw [if_neg same, if_neg fun equal => same (beq_iff_eq.1 equal)]
    split
    · rfl
    next enough =>
      have short : (c.memory p.output).length < p.size * p.count :=
        Nat.lt_of_not_le fun room => misfit ⟨same, Nat.le_of_not_lt enough, room⟩
      rw [if_pos short]
  show (c.run p.algorithm.kernel p.input p.output constants p.recordLength p.count).mapFailure
    WorkError.launch = _
  unfold Contents.run Kernel.execute
  dsimp only
  rw [if_neg moderate.some, refused]
  show Outcome.failed (c.setMemory p.output (c.memory p.output)) _ = _
  rw [Contents.setMemory_memory]

theorem length_written (sizes : ∀ record, (digest record).length = p.size) :
    (p.written digest c).length = (c.memory p.output).length := by
  unfold written
  split
  next suits =>
    have room := suits.2.2
    rw [List.length_append, Bytes.length_flatMap _ sizes, Bytes.length_pieces, List.length_drop]
    omega
  next => rfl

end

/-! ## The plan of the launch -/

/-- The fault with which the launch ends, unless the memories suit. -/
def fault? (p : InPlace) (m : Machine) : Option Fault :=
  if p.Suits m.contents then none else some (p.fault m)

/-- The launch, for memories that still are what they were on a machine. -/
def launchPlan (p : InPlace) (m : Machine) (digest : Bytes → Bytes) (tables : StagedTables)
    (event : EventId) : Plan where
  queue := p.queue
  job := ⟨"kernel:" ++ p.algorithm.name, [tables.ready], event, .launch (p.launch tables.memory)⟩
  place := .memory p.output
  before c := c.memory p.output = m.contents.memory p.output
  status := .ofFault? (p.fault? m)
  result c := c.memory p.output = p.written digest m.contents
  first := Place.memory_decides (· = m.contents.memory p.output)
  last := Place.memory_decides (· = p.written digest m.contents)
  settles := Status.ofFault?_ne_pending _

/-- The contract of a request has its tables and its digests. -/
structure Backs (p : InPlace) (m : Machine) (k : Contract) : Prop where
  moderate : p.Moderate
  algorithm : k.algorithm = p.algorithm
  device : k.device = m.queueName
  staged : p.algorithm.tableBlob p.key = .ok k.blob
  keyed : ∀ record, p.algorithm.digest p.key record = .ok (k.digest record)

/-- The launch is in its queue, or over, and what it finds is as it was. -/
structure Launched (p : InPlace) (m : Machine) (k : Contract) (tables : StagedTables)
    (event : EventId) (n : Machine) : Prop where
  named : n.Named [p.queue] k.device
  upload : n.Follows (k.tablesPlan p.queue tables)
  input : p.input ≠ p.output →
    n.Stands (.memory p.input) fun c => c.memory p.input = m.contents.memory p.input
  launch : n.Follows (p.launchPlan m k.digest tables event)

section

variable {p : InPlace} {k : Contract} {tables : StagedTables} {event : EventId}
  (backs : p.Backs m k)
include backs

theorem Backs.sizes (record : Bytes) : (k.digest record).length = p.size := by
  rw [k.sizes, backs.algorithm]
  rfl

/-- The launch comes to what its plan says. -/
theorem Launched.delivers (h : p.Launched m k tables event n) :
    (p.launchPlan m k.digest tables event).Delivers n := by
  intro s c verdict (before : n.contents.memory p.output = m.contents.memory p.output)
  have resolved := verdict.cases.1
  obtain ⟨complete, staged⟩ := h.upload.of_resolved (resolved _ List.mem_cons_self)
  change n.status tables.ready = .complete at complete
  change n.contents.staged tables.memory = k.blob at staged
  obtain ⟨rfl, rfl⟩ := verdict.of_complete fun d mem => by
    rw [List.mem_singleton.1 mem]
    exact complete
  obtain ⟨held, loaded, total⟩ : ∃ held, p.algorithm.kernel.load k.blob = .ok held ∧
      ∀ record, p.algorithm.kernel.digest held record = .ok (k.digest record) :=
    backs.algorithm ▸ ⟨k.tables, k.loaded, k.digests⟩
  rw [← staged] at loaded
  -- What the launch finds is what was there at the start.
  have input : n.contents.memory p.input = m.contents.memory p.input := by
    by_cases same : p.input = p.output
    · rw [same, before]
    · exact (h.input same).now
  have suits : p.Suits n.contents ↔ p.Suits m.contents := by
    unfold Suits
    rw [input, before]
  have written : p.written k.digest n.contents = p.written k.digest m.contents := by
    unfold InPlace.written
    simp only [suits, input, before]
  have name : n.queueName p.queue = m.queueName p.queue := by
    rw [(h.named _ List.mem_cons_self).2, backs.device]
  show Job.verdict _ (n.queueName p.queue) (Work.perform n.contents (.launch _)).failure =
      .ofFault? (p.fault? m) ∧
    (Work.perform n.contents (.launch _)).result.memory p.output = p.written k.digest m.contents
  unfold fault?
  by_cases fit : p.Suits m.contents
  · rw [perform_of_suits backs.moderate loaded total (suits.2 fit), if_pos fit, written]
    refine ⟨rfl, Contents.memory_setMemory (.inr ?_)⟩
    rw [length_written backs.sizes, before]
  · rw [perform_of_not_suits backs.moderate loaded (fit ∘ suits.1), if_neg fit, name]
    have refusal : p.refusal n.contents = p.refusal m.contents := by
      unfold InPlace.refusal
      rw [input, before]
    rw [refusal]
    refine ⟨rfl, before.trans ?_⟩
    unfold InPlace.written
    rw [if_neg fit]

/-- The launch goes on as planned while nothing but new work is submitted that writes nothing. -/
theorem Launched.passes {k' : Machine} (h : p.Launched m k tables event n)
    (serving : n.Serving [] k.device) (passes : n.Passes .nothing k') :
    p.Launched m k tables event k' := by
  refine (passes.drifts.keeps serving (p.Launched m k tables event) h ?_ ?_ ?_).2
  · intro l q after serving h turn
    have sound := serving.sound
    exact ⟨h.named.of_base (turn.base sound),
      h.upload.turn sound turn (Contract.tablesPlan_delivers _ _),
      fun apart => (h.input apart).turn sound turn, h.launch.turn sound turn (h.delivers backs)⟩
  · intro l after _ h still
    exact ⟨h.named.still still, h.upload.still still, fun apart => (h.input apart).still still,
      h.launch.still still⟩
  · intro l q job after _ h submitted confined
    have spares : ∀ place, job.work.Spares place :=
      fun place => confined.spares place place.outside_nothing
    exact ⟨h.named.of_base submitted.base, h.upload.submit submitted (spares _),
      fun apart => (h.input apart).submit submitted (spares _), h.launch.submit submitted (spares _)⟩

omit backs in
/-- What the launch comes to. -/
theorem Launched.ended (h : p.Launched m k tables event n) (resolved : n.isResolved event) :
    n.status event = .ofFault? (p.fault? m) ∧
      n.contents.memory p.output = p.written k.digest m.contents ∧
      n.contents.memory p.input = m.contents.memory p.input := by
  obtain ⟨status, output⟩ := h.launch.of_resolved resolved
  change n.contents.memory p.output = p.written k.digest m.contents at output
  refine ⟨status, output, ?_⟩
  by_cases same : p.input = p.output
  · rw [same, output]
    unfold InPlace.written
    exact if_neg fun suits => suits.1 same
  · exact (h.input same).now

/-- The launch is put into its queue, behind tables that are elsewhere. -/
theorem meets_launch (serving : n.Serving [p.queue] k.device)
    (algorithm : tables.algorithm = p.algorithm) (upload : n.Follows (k.tablesPlan p.queue tables))
    (elsewhere : (k.tablesPlan p.queue tables).place.Outside (.memory p.output))
    (input : n.Stands (.memory p.input) fun c => c.memory p.input = m.contents.memory p.input)
    (output : n.Stands (.memory p.output) fun c => c.memory p.output = m.contents.memory p.output) :
    (tables.launch p.queue [] p.input p.output p.recordLength p.count).Meets (fun _ => True)
      (fun event l => n.Passes (.memory p.output) l ∧ p.Launched m k tables event l) n := by
  unfold StagedTables.launch
  rw [algorithm]
  intro n' first
  have serving' := serving.evolves first
  have upload' := k.tables_evolves upload serving first
  have input' := input.evolves serving.sound first
  have output' := output.evolves serving.sound first
  let plan := p.launchPlan m k.digest tables ⟨n'.events.length⟩
  have uploads : ∀ old ∈ [k.tablesPlan p.queue tables], n'.Follows old := by simpa using upload'
  have apart : ∀ old ∈ [k.tablesPlan p.queue tables], old.place.Outside (.memory p.output) := by
    simpa using elsewhere
  have submission := serving'.submit_plan plan List.mem_cons_self rfl ?_ ?_
    (.launch (e := .memory p.output) rfl) uploads apart
  · obtain ⟨passes, follows⟩ := submission
    have all := follows output'
    rw [List.forall_mem_cons] at all
    have submitted := serving'.submitted (q := p.queue) List.mem_cons_self plan.job.label
      plan.job.deps plan.job.work
    have launched : p.Launched m k tables ⟨n'.events.length⟩
        (n'.submit p.queue plan.job.label plan.job.deps plan.job.work).2 :=
      ⟨serving'.isNamed.of_base submitted.base, all.2 _ List.mem_cons_self,
        fun apart => input'.passes serving' passes apart, all.1⟩
    refine ⟨trivial, fun l second => ⟨trivial, ?_, ?_⟩⟩
    · exact ((Passes.of_evolves first).trans passes).evolves second
    · rw [event_submit]
      exact launched.passes backs ((passes.serving serving').base k.device) (.of_evolves second)
  · intro d mem
    rw [List.mem_singleton.1 mem]
    exact upload'.known
  · intro r mem
    simp only [plan, launchPlan, launch, Work.touches, Work.reads, Work.writes, List.cons_append,
      List.mem_cons, List.mem_append, List.mem_map, List.not_mem_nil, or_false] at mem
    rcases mem with rfl | ⟨id, mem, rfl⟩ | rfl
    · exact input'.holds
    · exact Contract.tables_held upload' (by simpa using mem)
    · exact output'.holds

end

end InPlace

end BatchDigest
