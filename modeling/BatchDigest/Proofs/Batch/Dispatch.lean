import BatchDigest.Proofs.Batch.Contract

/-!
# Dispatching a share

Staging and dispatching are host programs, with workers at work between any two of their calls. Each
is described by what it leaves: the plans of its jobs are followed, and whatever happened meanwhile
was confined to new memories and to the range of the output that belongs to the share.
-/

namespace BatchDigest

open Machine

variable {k : Contract} {queues : List QueueId} {m n : Machine}

/-- The extent of the steps that write one memory. -/
def Extent.memory (id : MemoryId) : Extent :=
  ⟨(· = id), fun _ _ => False⟩

/-- The extent of the steps that write some bytes of a buffer. -/
def Extent.bytesOf (buffer : BufferId) (inside : Nat → Prop) : Extent :=
  ⟨fun _ => False, fun other i => other = buffer ∧ inside i⟩

/-- The extent of memories that the machine does not hold yet. -/
def Extent.new (m : Machine) : Extent :=
  ⟨fun id => m.memories.length ≤ id.index, fun _ _ => False⟩

/-- The extent of a share: the memories from `base` on and its range of the output. -/
def Contract.extent (k : Contract) (base : Nat) (s : Slice) : Extent :=
  ⟨fun id => base ≤ id.index, fun buffer i => buffer = k.batch.output ∧ k.Covers s i⟩

/-- Other owners of tables are quiet. -/
theorem StagedTables.meets_share (tables : StagedTables) :
    tables.share.Meets (fun _ => True) (fun _ n => m.Passes .nothing n) m := by
  unfold StagedTables.share
  split
  · exact fun n first => ⟨trivial, .of_evolves first⟩
  · intro n first
    refine ⟨trivial, fun n' second => ⟨trivial, ?_⟩⟩
    exact ((Passes.of_evolves first).quiet (n.quiet_addOwner _)).evolves second

namespace Contract

/-- The plan of the tables is a chain of its own. -/
theorem chain_tables (queue : QueueId) (tables : StagedTables) :
    Chain queues k.device [k.tablesPlan queue tables] :=
  .cons .nil fun _ _ _ => k.tablesPlan_delivers queue tables

/-- The upload of the tables goes on as planned. -/
theorem tables_passes {queue : QueueId} {tables : StagedTables}
    (follows : m.Follows (k.tablesPlan queue tables)) (serving : m.Serving queues k.device)
    {e : Extent} (passes : m.Passes e n)
    (outside : (k.tablesPlan queue tables).place.Outside e) :
    n.Follows (k.tablesPlan queue tables) := by
  have chain : Chain queues k.device _ := k.chain_tables queue tables
  refine chain.passes ?_ serving passes ?_ _ List.mem_cons_self
  · simpa using follows
  · simpa using outside

theorem tables_evolves {queue : QueueId} {tables : StagedTables}
    (follows : m.Follows (k.tablesPlan queue tables)) (serving : m.Serving queues k.device)
    (evolves : m.Evolves n) : n.Follows (k.tablesPlan queue tables) := by
  have chain : Chain queues k.device _ := k.chain_tables queue tables
  exact chain.evolves (by simpa using follows) serving evolves _ List.mem_cons_self

theorem tables_held {queue : QueueId} {tables : StagedTables}
    (follows : m.Follows (k.tablesPlan queue tables)) {id : MemoryId}
    (mem : tables.memory = some id) : m.Holds (.memory id) := by
  obtain ⟨_, memory?, _⟩ := tables
  obtain rfl : memory? = some id := mem
  exact follows.holds

/-- Tables lie in a memory, or nowhere. -/
theorem tables_outside {queue : QueueId} {tables : StagedTables}
    (follows : m.Follows (k.tablesPlan queue tables)) {e : Extent}
    (new : ∀ id, e.memories id → m.memories.length ≤ id.index) :
    (k.tablesPlan queue tables).place.Outside e := by
  refine outside_of_holds follows.holds new ?_
  intro buffer inside place
  obtain ⟨_, memory?, _⟩ := tables
  cases memory? <;> cases place

/-! ## Staging -/

/-- No tables are ready at once. -/
theorem follows_none (nothing : k.blob = []) (sound : m.Sound) (queue : QueueId) :
    (m.addEvent .complete).2.Follows
      (k.tablesPlan queue ⟨k.algorithm, none, ⟨m.events.length⟩⟩) := by
  have stands : m.Stands (k.tablesPlan queue ⟨k.algorithm, none, ⟨m.events.length⟩⟩).place
      (k.tablesPlan queue ⟨k.algorithm, none, ⟨m.events.length⟩⟩).result :=
    ⟨trivial, fun p job _ => job.work.spares_nothing, Plan.last _, nothing.symm⟩
  exact stands.follows_addEvent sound rfl

/-- The upload of tables into a memory of their length. -/
theorem follows_upload (serving : m.Serving queues k.device) {queue : QueueId}
    (mem : queue ∈ queues) {memory : MemoryId}
    (stands : m.Stands (.memory memory) fun c => (c.memory memory).length = k.blob.length) :
    (m.submit queue "memcpy:h2d" [] (.copyIn memory 0 k.blob)).2.Follows
      (k.tablesPlan queue ⟨k.algorithm, some memory, ⟨m.events.length⟩⟩) := by
  have submitted := serving.submitted mem "memcpy:h2d" [] (.copyIn memory 0 k.blob)
  have stands' : m.Stands (k.tablesPlan queue ⟨k.algorithm, some memory, ⟨m.events.length⟩⟩).place
      (k.tablesPlan queue ⟨k.algorithm, some memory, ⟨m.events.length⟩⟩).before := stands
  exact stands'.follows_submit serving.sound submitted

/-- Nothing but new memories is touched when tables are staged, and their upload is planned. -/
theorem meets_stage {key : Bytes} (staged : k.algorithm.tableBlob key = .ok k.blob)
    (serving : m.Serving queues k.device) {queue : QueueId} (mem : queue ∈ queues) :
    (StagedTables.stage k.algorithm key queue).Meets (fun _ => True)
      (fun r n => m.Passes (.new m) n ∧ ∀ tables, r = .ok tables →
        tables.algorithm = k.algorithm ∧ n.Follows (k.tablesPlan queue tables)) m := by
  unfold StagedTables.stage
  rw [staged]
  split
  next crash h => cases h
  next h =>
    have nothing : k.blob = [] := Except.ok.inj h
    intro n first
    have serving := serving.evolves first
    have calm := n.quiet_addEvent Status.complete_ne_pending
    refine ⟨trivial, fun n' second => ⟨trivial,
      ((Passes.of_evolves first).quiet calm).evolves second, fun tables answer => ?_⟩⟩
    obtain rfl := Except.ok.inj answer
    refine ⟨rfl, ?_⟩
    exact tables_evolves (follows_none nothing serving.sound queue) (serving.quiet calm) second
  next blob _ h =>
    obtain rfl : k.blob = blob := Except.ok.inj h
    refine Host.meets_allocate_bind serving (fun e n after first calm n' second =>
      ⟨trivial, ((Passes.of_evolves first).quiet calm).evolves second,
        fun _ answer => by cases answer⟩)
      fun memory n after first allocates calm => ?_
    have start := serving
    have serving := serving.evolves first
    have stands := allocates.stands serving calm
    have serving := serving.quiet calm
    refine Host.meets_call_bind fun n' second => ⟨trivial, ?_⟩
    have stands := stands.evolves serving.sound second
    have serving := serving.evolves second
    have follows := follows_upload serving mem stands
    have new := allocates.new first start
    have submission := serving.passes_submit mem "memcpy:h2d" [] (by simp)
      (fun r hr => by cases List.mem_singleton.1 hr; exact stands.holds)
      (Work.Confined.copyIn (e := .new m) 0 k.blob new)
    have passes := (((Passes.of_evolves first).quiet calm).evolves second).trans submission
    rw [event_submit]
    intro n'' third
    refine ⟨trivial, passes.evolves third, fun tables answer => ?_⟩
    obtain rfl := Except.ok.inj answer
    have serving := submission.serving serving
    exact ⟨rfl, tables_evolves follows serving third⟩

/-! ## Steps of a share -/

/-- The copy of the records comes after the upload of the tables. -/
theorem chain_copy {site : Site} (mem : site.queue ∈ queues) (copied : EventId) :
    Chain queues k.device [k.copyPlan site copied, k.tablesPlan site.queue site.tables] :=
  .cons (k.chain_tables _ _) fun _ named _ => copyPlan_delivers (named _ mem).2 copied

theorem chain_launch {site : Site} (mem : site.queue ∈ queues) (apart : site.input ≠ site.output)
    (copied computed : EventId) :
    Chain queues k.device [k.launchPlan site copied computed, k.copyPlan site copied,
      k.tablesPlan site.queue site.tables] := by
  refine .cons (chain_copy mem copied) fun m _ all => ?_
  simp only [List.forall_mem_cons] at all
  exact launchPlan_delivers all.1 all.2.1 apart

theorem chain_result {site : Site} (mem : site.queue ∈ queues) (apart : site.input ≠ site.output)
    (copied computed event : EventId) :
    Chain queues k.device [k.resultPlan site computed event, k.launchPlan site copied computed,
      k.copyPlan site copied, k.tablesPlan site.queue site.tables] := by
  refine .cons (chain_launch mem apart copied computed) fun m named all => ?_
  simp only [List.forall_mem_cons] at all
  exact resultPlan_delivers (named _ mem).2 all.1

/-- The copy of the records is put into its queue. -/
theorem submit_copy {site : Site} (serving : m.Serving queues k.device)
    (mem : site.queue ∈ queues) (tables : m.Follows (k.tablesPlan site.queue site.tables))
    (stands : m.Stands (.memory site.input) fun c => k.HasRoom site (c.memory site.input))
    (away : (k.tablesPlan site.queue site.tables).place.Outside (.memory site.input))
    (input : k.batch.HasInput site.slice) :
    m.Passes (.memory site.input) (m.submit site.queue "memcpy:h2d" []
        (.copyIn site.input 0 (k.batch.bytes site.slice))).2 ∧
      ∀ plan ∈ [k.copyPlan site ⟨m.events.length⟩, k.tablesPlan site.queue site.tables],
        (m.submit site.queue "memcpy:h2d" []
          (.copyIn site.input 0 (k.batch.bytes site.slice))).2.Follows plan := by
  have work : (k.copyPlan site ⟨m.events.length⟩).job.work =
      .copyIn site.input 0 (k.batch.bytes site.slice) := if_pos input
  have confined : (k.copyPlan site ⟨m.events.length⟩).job.work.Confined (.memory site.input) := by
    rw [work]
    exact .copyIn 0 _ rfl
  have all : ∀ old ∈ [k.tablesPlan site.queue site.tables], m.Follows old := by simpa using tables
  have submission := serving.submit_plan (k.copyPlan site ⟨m.events.length⟩) mem rfl
    (by simp [copyPlan])
    (by rw [work]; intro r hr; cases List.mem_singleton.1 hr; exact stands.holds)
    confined all (by simpa using away)
  rw [work] at submission
  exact ⟨submission.1, submission.2 stands⟩

/-- The copy of the records is over from the start: there is nothing to copy, or not enough. -/
theorem settle_copy {site : Site} (serving : m.Serving queues k.device)
    (tables : m.Follows (k.tablesPlan site.queue site.tables))
    (stands : m.Stands (.memory site.input) fun c => k.HasRoom site (c.memory site.input))
    (over' : k.batch.recordLength = 0 ∨ ¬ k.batch.HasInput site.slice) :
    m.Passes (.memory site.input)
        (m.addEvent (.ofFault? (k.batch.copyFault? site.slice (k.device site.queue)))).2 ∧
      ∀ plan ∈ [k.copyPlan site ⟨m.events.length⟩, k.tablesPlan site.queue site.tables],
        (m.addEvent (.ofFault? (k.batch.copyFault? site.slice (k.device site.queue)))).2.Follows
          plan := by
  have quiet := m.quiet_addEvent
    (Status.ofFault?_ne_pending (k.batch.copyFault? site.slice (k.device site.queue)))
  have stands' : m.Stands (k.copyPlan site ⟨m.events.length⟩).place
      (k.copyPlan site ⟨m.events.length⟩).result := by
    refine stands.weaken (k.copyPlan site _).last fun c room => ⟨room, fun input => ?_⟩
    rcases over' with empty | short
    · unfold Batch.records
      rw [empty]
      exact Bytes.pieces_zero _ _ _
    · exact absurd input short
  refine ⟨Passes.refl.quiet quiet, ?_⟩
  simp only [List.forall_mem_cons]
  exact ⟨stands'.follows_addEvent serving.sound rfl, tables.still quiet.toStill, List.forall_mem_nil _⟩

/-- The records of a share are copied, in one of three ways. -/
theorem meets_copyIn {site : Site} (serving : m.Serving queues k.device)
    (mem : site.queue ∈ queues) (tables : m.Follows (k.tablesPlan site.queue site.tables))
    (stands : m.Stands (.memory site.input) fun c => k.HasRoom site (c.memory site.input))
    (away : (k.tablesPlan site.queue site.tables).place.Outside (.memory site.input)) :
    (k.batch.copyIn site.slice site.queue site.input).Meets (fun _ => True)
      (fun copied n => m.Passes (.memory site.input) n ∧
        ∀ plan ∈ [k.copyPlan site copied, k.tablesPlan site.queue site.tables], n.Follows plan)
      m := by
  -- What the workers do before and after the one call that matters changes nothing.
  have between : ∀ {n l n' : Machine} {copied : EventId}, m.Evolves n →
      (n.Passes (.memory site.input) l ∧
        ∀ plan ∈ [k.copyPlan site copied, k.tablesPlan site.queue site.tables], l.Follows plan) →
      l.Evolves n' → m.Passes (.memory site.input) n' ∧
        ∀ plan ∈ [k.copyPlan site copied, k.tablesPlan site.queue site.tables],
          n'.Follows plan := by
    rintro n l n' copied first ⟨passes, all⟩ second
    have serving := passes.serving (serving.evolves first)
    exact ⟨((Passes.of_evolves first).trans passes).evolves second,
      (chain_copy mem copied).evolves all serving second⟩
  unfold Batch.copyIn
  dsimp only
  split
  next empty =>
    have complete : k.batch.copyFault? site.slice (k.device site.queue) = none :=
      if_pos (.inl empty)
    intro n first
    refine ⟨trivial, fun n' second => ⟨trivial, between first ?_ second⟩⟩
    have settled := settle_copy (serving.evolves first) (tables_evolves tables serving first)
      (stands.evolves serving.sound first) (.inl empty)
    rw [complete] at settled
    exact settled
  next filled =>
    split
    next enough =>
      intro n first
      refine ⟨trivial, fun n' second => ⟨trivial, between first ?_ second⟩⟩
      rw [event_submit]
      exact submit_copy (serving.evolves first) mem (tables_evolves tables serving first)
        (stands.evolves serving.sound first) away (.inr enough)
    next short =>
      have missing : ¬ k.batch.HasInput site.slice := by
        rintro (empty | enough)
        · exact filled empty
        · exact short enough
      have failed : k.batch.copyFault? site.slice (k.device site.queue) =
        some (k.batch.inputFault site.slice (k.device site.queue)) := if_neg missing
      intro n first
      refine ⟨trivial, fun n' second => ⟨trivial, fun n'' third =>
        ⟨trivial, between (first.trans second) ?_ third⟩⟩⟩
      have named := (serving.evolves first).named _ mem
      have settled := settle_copy (serving.evolves (first.trans second))
        (tables_evolves tables serving (first.trans second))
        (stands.evolves serving.sound (first.trans second)) (.inr missing)
      rw [failed, ← named] at settled
      exact settled

/-- The plans of a share, the last step first. -/
def plans (k : Contract) (site : Site) (copied computed event : EventId) : List Plan :=
  [k.resultPlan site computed event, k.launchPlan site copied computed, k.copyPlan site copied,
    k.tablesPlan site.queue site.tables]

/-- What a share finds when its steps are put into the queue. -/
structure Ready (k : Contract) (queues : List QueueId) (m : Machine) (site : Site) : Prop where
  algorithm : site.tables.algorithm = k.algorithm
  mem : site.queue ∈ queues
  apart : site.input ≠ site.output
  tables : m.Follows (k.tablesPlan site.queue site.tables)
  elsewhere : ∀ id, id = site.input ∨ id = site.output →
    (k.tablesPlan site.queue site.tables).place.Outside (.memory id)
  input : m.Stands (.memory site.input) fun c => k.HasRoom site (c.memory site.input)
  output : m.Stands (.memory site.output) fun c => k.IsExact site (c.memory site.output)
  found : m.Holds (.buffer k.batch.output)

/-- The range of a slice stands untouched. -/
def Clean (k : Contract) (m : Machine) (s : Slice) : Prop :=
  m.Stands (.bytes k.batch.output (k.Covers s)) (k.Untouched (k.Covers s))

/-- The launch is put into its queue. -/
theorem submit_launch {site : Site} (serving : m.Serving queues k.device)
    (ready : k.Ready queues n site) {copied : EventId}
    (all : ∀ plan ∈ [k.copyPlan site copied, k.tablesPlan site.queue site.tables], m.Follows plan)
    (output : m.Stands (.memory site.output) fun c => k.IsExact site (c.memory site.output)) :
    m.Passes (.memory site.output) (m.submit site.queue ("kernel:" ++ k.algorithm.name)
        ([copied] ++ [site.tables.ready]) (k.launchPlan site copied ⟨m.events.length⟩).job.work).2 ∧
      ∀ plan ∈ [k.launchPlan site copied ⟨m.events.length⟩, k.copyPlan site copied,
          k.tablesPlan site.queue site.tables],
        (m.submit site.queue ("kernel:" ++ k.algorithm.name) ([copied] ++ [site.tables.ready])
          (k.launchPlan site copied ⟨m.events.length⟩).job.work).2.Follows plan := by
  have both := all
  simp only [List.forall_mem_cons] at both
  obtain ⟨copy, tables, -⟩ := both
  have submission := serving.submit_plan (k.launchPlan site copied ⟨m.events.length⟩) ready.mem rfl
    ?_ ?_ (.launch (e := .memory site.output) rfl) all ?_
  · exact ⟨submission.1, submission.2 output⟩
  · intro d mem
    rcases List.mem_cons.1 mem with rfl | mem
    · exact copy.known
    · rw [List.mem_singleton.1 mem]
      exact tables.known
  · intro r hr
    simp only [launchPlan, Work.touches, Work.reads, Work.writes, List.cons_append, List.mem_cons,
      List.mem_append, List.mem_map, List.not_mem_nil, or_false] at hr
    rcases hr with rfl | ⟨id, mem, rfl⟩ | rfl
    · exact copy.holds
    · exact tables_held tables (by simpa using mem)
    · exact output.holds
  · simp only [List.forall_mem_cons]
    exact ⟨ready.apart, ready.elsewhere _ (.inr rfl), List.forall_mem_nil _⟩

/-- The copy of the digests is put into its queue. -/
theorem submit_result {site : Site} (serving : m.Serving queues k.device)
    (ready : k.Ready queues n site) {copied computed : EventId}
    (all : ∀ plan ∈ [k.launchPlan site copied computed, k.copyPlan site copied,
      k.tablesPlan site.queue site.tables], m.Follows plan)
    (found : m.Holds (.buffer k.batch.output)) :
    m.Passes (.bytesOf k.batch.output (k.Covers site.slice)) (m.submit site.queue "memcpy:d2h"
        [computed] (k.resultPlan site computed ⟨m.events.length⟩).job.work).2 ∧
      (k.Clean m site.slice → ∀ plan ∈ k.plans site copied computed ⟨m.events.length⟩,
        (m.submit site.queue "memcpy:d2h" [computed]
          (k.resultPlan site computed ⟨m.events.length⟩).job.work).2.Follows plan) := by
  have all' := all
  simp only [List.forall_mem_cons] at all'
  obtain ⟨launch, -, tables, -⟩ := all'
  have confined : (k.resultPlan site computed ⟨m.events.length⟩).job.work.Confined
      (.bytesOf k.batch.output (k.Covers site.slice)) := by
    refine .copyOut _ fun i lower upper => ⟨rfl, lower, ?_⟩
    rw [site.slice.stop_mul]
    exact upper
  refine serving.submit_plan (k.resultPlan site computed ⟨m.events.length⟩) ready.mem rfl
    ?_ ?_ confined all ?_
  · intro d mem
    rw [List.mem_singleton.1 mem]
    exact launch.known
  · intro r hr
    simp only [resultPlan, Work.touches, Work.reads, Work.writes, List.cons_append, List.nil_append,
      List.mem_cons, List.not_mem_nil, or_false] at hr
    rcases hr with rfl | rfl
    · exact launch.holds
    · exact found
  · simp only [List.forall_mem_cons]
    exact ⟨id, id, tables_outside tables fun _ => False.elim, List.forall_mem_nil _⟩

/-- The three steps of a share are put into its queue. All plans of them are followed if the range
of the slice was clean. -/
theorem meets_enqueue {site : Site} (serving : m.Serving queues k.device)
    (ready : k.Ready queues m site) {base : Nat} (input : base ≤ site.input.index)
    (output : base ≤ site.output.index) :
    (k.batch.enqueue site.slice site.queue site.tables site.input site.output).Meets
      (fun _ => True) (fun item n => m.Passes (k.extent base site.slice) n ∧
        ∃ copied computed event, item = ⟨site.input, site.output, event, site.tables⟩ ∧
          (k.Clean m site.slice → ∀ plan ∈ k.plans site copied computed event, n.Follows plan))
      m := by
  -- Until the digests are copied, only memory is written.
  have ofMemory : ∀ {id : MemoryId} {a b : Machine}, base ≤ id.index → a.Passes (.memory id) b →
      a.Passes ⟨fun id => base ≤ id.index, fun _ _ => False⟩ b := by
    intro id a b new passes
    exact passes.mono (fun other same => by cases same; exact new) nofun
  unfold Batch.enqueue
  dsimp only
  -- First the records.
  refine Host.Meets.bind ((meets_copyIn serving ready.mem ready.tables ready.input
    (ready.elsewhere _ (.inl rfl))).mono ?_)
  rintro copied n₁ - ⟨passes₁, all₁⟩
  have output₁ := ready.output.passes serving passes₁ (fun same => ready.apart same.symm)
  have serving₁ := passes₁.serving serving
  -- Then the launch.
  unfold StagedTables.launch
  rw [ready.algorithm]
  refine Host.meets_call_bind fun n₂ first => ⟨trivial, ?_⟩
  rw [event_submit]
  have serving₂ := serving₁.evolves first
  obtain ⟨passes₂, all₂⟩ := submit_launch serving₂ ready
    ((chain_copy ready.mem copied).evolves all₁ serving₁ first)
    (output₁.evolves serving₁.sound first)
  have serving₂ := passes₂.serving serving₂
  -- And then the digests.
  refine Host.meets_call_bind fun n₃ second => ⟨trivial, ?_⟩
  rw [event_submit]
  have serving₃ := serving₂.evolves second
  have opening := (((ofMemory input passes₁).evolves first).trans
    (ofMemory output passes₂)).evolves second
  obtain ⟨passes₃, all₃⟩ := submit_result serving₃ ready
    ((chain_launch ready.mem ready.apart _ _).evolves all₂ serving₂ second)
    (opening.drifts.holds serving ready.found)
  have serving₃ := passes₃.serving serving₃
  refine Host.Meets.bind ((site.tables.meets_share).mono ?_)
  rintro - n₄ - passes₄ n₅ third
  refine ⟨trivial, ?_, copied, ⟨n₂.events.length⟩, _, rfl, fun clean => ?_⟩
  · have before : m.Passes (k.extent base site.slice) n₃ :=
      opening.mono (fun _ => id) nofun
    have closing : n₃.Passes (k.extent base site.slice) _ := passes₃.mono nofun fun _ _ => id
    have sharing : Machine.Passes (k.extent base site.slice) _ n₄ := passes₄.mono nofun nofun
    exact (before.trans closing).trans (sharing.evolves third)
  · exact (chain_result ready.mem ready.apart copied _ _).passes
      (all₃ (clean.passes serving opening fun _ _ => id)) serving₃
      (passes₄.evolves third) fun plan _ => plan.place.outside_nothing

/-! ## Shares in flight -/

end Contract

/-- A share that was dispatched. -/
structure Share where
  slice : Slice
  queue : QueueId
  item : BatchItem

/-- Where a share is hashed. -/
def Share.site (share : Share) : Site :=
  ⟨share.slice, share.queue, share.item.tables, share.item.input, share.item.output⟩

namespace Contract

/-- The steps of a share were put into its queue, and all plans of them are followed. -/
structure InFlight (k : Contract) (queues : List QueueId) (m : Machine) (share : Share) : Prop where
  mem : share.queue ∈ queues
  apart : share.item.input ≠ share.item.output
  plans : ∃ copied computed, ∀ plan ∈ k.plans share.site copied computed share.item.event,
    m.Follows plan

theorem mulSaturating_of_backable {a b length : Nat} (floor : Size.mulSaturating a b ≤ length)
    (backable : length < 9223372036854775808) : Size.mulSaturating a b = a * b := by
  have bound : Size.largest = 18446744073709551615 := rfl
  unfold Size.mulSaturating at *
  omega

/-- A share is dispatched: its steps are in its queue, and nothing but new memories and its range is
touched. Or its memory could not be allocated, and nothing is touched at all. -/
theorem meets_dispatch {slice : Slice} {queue : QueueId} {tables : StagedTables}
    (serving : m.Serving queues k.device) (mem : queue ∈ queues)
    (algorithm : tables.algorithm = k.algorithm)
    (follows : m.Follows (k.tablesPlan queue tables))
    (found : m.Holds (.buffer k.batch.output)) :
    (k.batch.dispatch slice queue tables).Meets (fun _ => True)
      (fun r n => (∀ e, r = .error e → m.Passes .nothing n) ∧ ∀ item, r = .ok item →
        m.Passes (k.extent m.memories.length slice) n ∧
        (k.Clean m slice → k.InFlight queues n ⟨slice, queue, item⟩)) m := by
  unfold Batch.dispatch
  dsimp only
  refine Host.meets_allocate_bind serving (fun e n after first calm n' second =>
    ⟨trivial, fun _ _ => ((Passes.of_evolves first).quiet calm).evolves second, nofun⟩)
    fun input n₁ a₁ first made₁ calm₁ => ?_
  have serving₁ := serving.evolves first
  have input₁ := made₁.stands serving₁ calm₁
  have serving₁ := serving₁.quiet calm₁
  rw [algorithm]
  have passes₁ : m.Passes .nothing a₁ := (Passes.of_evolves first).quiet calm₁
  refine Host.meets_allocate_bind serving₁ ?_ fun output n₂ a₂ second made₂ calm₂ => ?_
  · -- The input goes back when there is no output.
    intro e n after second calm
    have opening := (passes₁.evolves second).quiet calm
    refine Host.meets_update_bind fun n' third => ⟨trivial, fun n'' fourth => ⟨trivial, ?_, nofun⟩⟩
    exact fun _ _ => ((opening.evolves third).quiet (n'.quiet_release input)).evolves fourth
  have serving₂ := serving₁.evolves second
  have output₂ := made₂.stands serving₂ calm₂
  have passes₂ : a₁.Passes .nothing a₂ := (Passes.of_evolves second).quiet calm₂
  have both := passes₁.trans passes₂
  have input₂ := input₁.passes serving₁ passes₂ (Place.outside_nothing _)
  have serving₂ := serving₂.quiet calm₂
  -- Both memories are new, and so they are neither the tables nor each other.
  have firstNew := made₁.new first serving
  have secondNew := made₁.newer second serving₁ made₂
  have bound : Size.largest = 18446744073709551615 := rfl
  have ready : k.Ready queues a₂ ⟨slice, queue, tables, input, output⟩ := by
    refine ⟨algorithm, mem, ?_, ?_, ?_, ?_, ?_, ?_⟩
    · intro same
      rw [show input = output from same] at secondNew
      exact Nat.lt_irrefl _ secondNew
    · exact tables_passes follows serving both (Place.outside_nothing _)
    · intro id new
      refine tables_outside follows ?_
      rintro other rfl
      rcases new with rfl | rfl
      · exact firstNew
      · exact Nat.le_trans firstNew (Nat.le_of_lt secondNew)
    · -- What could be allocated was not a saturated size.
      refine input₂.weaken (Place.memory_decides (k.HasRoom _)) fun c length => ?_
      have backable := made₁.backable
      have exact' := mulSaturating_of_backable (Nat.le_max_left _ 1) backable
      show _ ≤ (c.memory input).length ∧ (c.memory input).length ≤ Size.largest
      dsimp only
      omega
    · refine output₂.weaken (Place.memory_decides (k.IsExact _)) fun c length => ?_
      have backable := made₂.backable
      have exact' := mulSaturating_of_backable (Nat.le_refl _) backable
      show (c.memory output).length = k.algorithm.digestSize * slice.count ∧
        (c.memory output).length ≤ Size.largest
      omega
    · exact both.drifts.holds serving found
  refine Host.Meets.bind ((meets_enqueue serving₂ ready firstNew
    (Nat.le_trans firstNew (Nat.le_of_lt secondNew))).mono ?_)
  rintro item n₃ - ⟨passes₃, copied, computed, event, rfl, all₃⟩ n₄ third
  have opening : m.Passes (k.extent m.memories.length slice) a₂ := both.mono nofun nofun
  refine ⟨trivial, nofun, fun item answer => ?_⟩
  obtain rfl := Except.ok.inj answer
  refine ⟨(opening.trans passes₃).evolves third, fun clean => ⟨mem, ready.apart, copied, computed, ?_⟩⟩
  have clean := clean.passes serving both (Place.outside_nothing _)
  exact (chain_result mem ready.apart copied computed event).evolves (all₃ clean)
    (passes₃.serving serving₂) third

end Contract

end BatchDigest
