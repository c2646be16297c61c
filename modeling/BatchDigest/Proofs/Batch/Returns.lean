import BatchDigest.Batch.Compute
import BatchDigest.Proofs.Batch.Handling
import BatchDigest.Proofs.Batch.Hashers
import BatchDigest.Proofs.Device.Waiting

/-!
# Hashers and handles return

Dispatching waits for nothing. What waits is a join, for the shares of its batch, and the last owner
of tables, for their upload. What has an event on record comes, as long as nothing holds the workers
up (`Machine.Expects`), and programs wait for events only that they submitted work for themselves.
So hashers are made and dropped, batches are dispatched and handles are joined in the end, whether
or not a device has room.
-/

namespace BatchDigest

open Machine

variable {m : Machine}

/-! ## What hashers and handles submit holds up nobody -/

/-- Nothing comes that holds the workers up. -/
def Machine.Frees (m n : Machine) : Prop :=
  m.Unhindered → n.Unhindered

namespace Machine

theorem frees_of_steady {n : Machine} (steady : m.Steady n) (gates : n.gates = m.gates) :
    Frees m n :=
  fun free => free.steady steady gates

theorem frees_giveBack (m : Machine) (id : MemoryId) : Frees m (m.giveBack id) := by
  refine frees_of_steady (m.steady_giveBack id) ?_
  unfold giveBack
  split <;> rfl

theorem frees_dropOwner (m : Machine) (id : MemoryId) : Frees m (m.dropOwner id).2 :=
  frees_of_steady (steady_of_queues rfl rfl) rfl

theorem flow_frees : Flow Frees where
  refl _ := id
  trans first second free := second (first free)
  step step free := free.turn (turn_of_advance? step)

theorem giving_frees : Giving Frees :=
  flow_frees.giving frees_dropOwner frees_giveBack

theorem frees_submit (m : Machine) (q : QueueId) (label : String) (deps : List EventId)
    {work : Work} (carefree : work.held = [])
    (free : ∀ gate, work ≠ .gate gate) : Frees m (m.submit q label deps work).2 := by
  cases taken : m.isClosed q with
  | true =>
    refine frees_of_steady (steady_submit label deps work taken) ?_
    unfold submit
    rw [if_pos taken]
    rfl
  | false =>
    exact fun before =>
      before.submitted (submitted_submit label deps work taken) carefree free

theorem frees_allocate (m : Machine) (q : QueueId) (kind : MemoryKind) (length : Nat) :
    Frees m (m.allocate q kind length).2 := by
  refine frees_of_steady (m.steady_allocate q kind length) ?_
  unfold allocate
  split
  · rfl
  · dsimp only
    split <;> rfl

theorem taking_frees : Taking Frees where
  toGiving := giving_frees
  addOwner _ _ := frees_of_steady (steady_of_queues rfl rfl) rfl
  addEvent m _ resolved := frees_of_steady (m.steady_addEvent resolved) rfl
  submit m q label deps _ := m.frees_submit q label deps
  allocate m q length := m.frees_allocate q .device length

theorem frees_addHandle (m : Machine) (q : QueueId) : Frees m (m.addHandle q) :=
  frees_of_steady (m.steady_updateQueue q _ fun _ => ⟨rfl, rfl, rfl⟩) rfl

theorem frees_dropHandle (m : Machine) (q : QueueId) : Frees m (m.dropHandle q).2 :=
  frees_of_steady (m.steady_updateQueue q _ fun _ => ⟨rfl, rfl, rfl⟩) rfl

end Machine

/-! ## What waits for nothing -/

theorem StagedTables.prompt_stage (algorithm : Algorithm) (key : Bytes) (queue : QueueId) :
    (StagedTables.stage algorithm key queue).Prompt := by
  unfold stage
  split
  · exact Host.prompt_pure _
  · exact ((Host.prompt_call _).bind fun _ => Host.prompt_pure _).map _
  · refine (Host.prompt_call _).bind fun r => ?_
    cases r with
    | error e => exact Host.prompt_pure _
    | ok memory => exact (Host.prompt_call _).bind fun _ => Host.prompt_pure _

theorem StagedTables.prompt_share (tables : StagedTables) : tables.share.Prompt := by
  unfold share
  split
  · exact Host.prompt_pure ()
  · exact Host.prompt_update _

theorem Batch.prompt_copyIn (b : Batch) (slice : Slice) (queue : QueueId) (memory : MemoryId) :
    (b.copyIn slice queue memory).Prompt := by
  unfold copyIn
  dsimp only
  split
  · exact Host.prompt_call _
  · split
    · exact Host.prompt_call _
    · exact (Host.prompt_ask _).bind fun _ => Host.prompt_call _

theorem Batch.prompt_dispatch (b : Batch) (slice : Slice) (queue : QueueId)
    (tables : StagedTables) : (b.dispatch slice queue tables).Prompt := by
  refine (Host.prompt_call _).bind fun r => ?_
  cases r with
  | error e => exact Host.prompt_pure _
  | ok input =>
    refine (Host.prompt_call _).bind fun r => ?_
    cases r with
    | error e => exact (Host.prompt_update _).bind fun _ => Host.prompt_pure _
    | ok output =>
      refine Host.Prompt.map ?_ _
      refine (b.prompt_copyIn slice queue input).bind fun copied => ?_
      refine (Host.prompt_call _).bind fun computed => (Host.prompt_call _).bind fun event => ?_
      exact tables.prompt_share.bind fun _ => Host.prompt_pure _

theorem Hasher.prompt_holdQueues (runners : List Runner) : (Hasher.holdQueues runners).Prompt := by
  induction runners with
  | nil => exact Host.prompt_pure ()
  | cons runner rest ih => exact (Host.prompt_update _).bind fun _ => ih

/-! ## Events that come -/

/-- Nothing holds the workers up, and events are on record. So they come. -/
structure Machine.Expects (m : Machine) (events : List EventId) : Prop where
  sound : m.Sound
  free : m.Unhindered
  known : ∀ e ∈ events, e.index < m.events.length

/-- What a handle waits for, and what the tables of its shares wait for. -/
def Handle.events (handle : Handle) : List EventId :=
  handle.items.flatMap fun item => [item.event, item.tables.ready]

/-- What the tables of a hasher wait for. -/
def Hasher.uploading (hasher : Hasher) : List EventId :=
  hasher.stations.map (·.tables.ready)

namespace Machine.Expects

variable {n : Machine} {events others : List EventId} {α : Type}

theorem of_subset (h : m.Expects events) (subset : ∀ e ∈ others, e ∈ events) : m.Expects others :=
  ⟨h.sound, h.free, fun e mem => h.known e (subset e mem)⟩

theorem tail {e : EventId} (h : m.Expects (e :: events)) : m.Expects events :=
  h.of_subset fun _ => List.mem_cons_of_mem e

theorem evolves (h : m.Expects events) (later : m.Evolves n) : n.Expects events := by
  refine ⟨later.sound h.sound, h.free.evolves later, ?_⟩
  rw [later.length_events h.sound]
  exact h.known

/-- A call that concerns no job. -/
theorem steady (h : m.Expects events) (steady : m.Steady n) (frees : Frees m n) :
    n.Expects events :=
  ⟨steady.sound h.sound, frees h.free,
    fun e mem => Nat.lt_of_lt_of_le (h.known e mem) steady.length_events⟩

/-- An event that is resolved from the start is on record as well. -/
theorem addEvent (h : m.Expects events) {s : Status} (resolved : s ≠ .pending) :
    (m.addEvent s).2.Expects (⟨m.events.length⟩ :: events) := by
  have steady := m.steady_addEvent resolved
  have later := h.steady steady (frees_of_steady steady rfl)
  refine ⟨later.sound, later.free, List.forall_mem_cons.2 ⟨?_, later.known⟩⟩
  rw [length_events_addEvent]
  exact Nat.lt_succ_self _

/-- The end of a job comes, once the job is submitted. -/
theorem submit (h : m.Expects events) (q : QueueId) (label : String) {deps : List EventId}
    {work : Work} (known : ∀ d ∈ deps, d ∈ events) (carefree : work.held = [])
    (free : ∀ gate, work ≠ .gate gate) :
    (m.submit q label deps work).2.Expects ((m.submit q label deps work).1 :: events) := by
  refine ⟨?_, m.frees_submit q label deps carefree free h.free, ?_⟩
  · cases taken : m.isClosed q with
    | true => exact (steady_submit label deps work taken).sound h.sound
    | false =>
      exact (submitted_submit label deps work taken).sound h.sound
        fun d mem => h.known d (known d mem)
  · rw [List.forall_mem_cons, length_events_submit, event_submit]
    exact ⟨Nat.lt_succ_self _, fun e mem => Nat.lt_succ_of_lt (h.known e mem)⟩

theorem allocate (h : m.Expects events) (q : QueueId) (length : Nat) :
    (m.allocate q .device length).2.Expects events :=
  h.steady (m.steady_allocate q .device length) (m.frees_allocate q .device length)

/-- Whatever is given back, events stay on record. -/
theorem giving (events : List EventId) : Giving fun m n => m.Expects events → n.Expects events :=
  Flow.giving ⟨fun _ => id, fun first second h => second (first h),
    fun step h => h.evolves (Evolves.refl.step _ step)⟩
    (fun m id h => h.steady (steady_of_queues rfl rfl) (m.frees_dropOwner id))
    fun m id h => h.steady (m.steady_giveBack id) (m.frees_giveBack id)

/-! ### Work that is submitted -/

/-- A job of a program, and its event. -/
theorem meets_submit (h : m.Expects events) (q : QueueId) (label : String) (deps : List EventId)
    (work : Work) (known : ∀ d ∈ deps, d ∈ events) (carefree : work.held = [])
    (free : ∀ gate, work ≠ .gate gate) :
    (Host.call (·.submit q label deps work)).Meets (fun _ => True)
      (fun e n => n.Expects (e :: events)) m :=
  fun _ first => ⟨trivial, fun _ second =>
    ⟨trivial, ((h.evolves first).submit q label known carefree free).evolves second⟩⟩

theorem meets_addEvent (h : m.Expects events) {s : Status} (resolved : s ≠ .pending) :
    (Host.call (·.addEvent s)).Meets (fun _ => True) (fun e n => n.Expects (e :: events)) m :=
  fun _ first => ⟨trivial, fun _ second =>
    ⟨trivial, ((h.evolves first).addEvent resolved).evolves second⟩⟩

/-- The upload of tables. -/
theorem meets_stage (h : m.Expects events) (algorithm : Algorithm) (key : Bytes)
    (queue : QueueId) : (StagedTables.stage algorithm key queue).Meets (fun _ => True) (fun r n =>
      n.Expects events ∧ ∀ tables, r = .ok tables → n.Expects (tables.ready :: events)) m := by
  unfold StagedTables.stage
  split
  next => exact fun n first => ⟨trivial, h.evolves first, nofun⟩
  next =>
    refine Host.Meets.bind (Host.Meets.bind
      ((h.meets_addEvent Status.complete_ne_pending).mono fun ready n _ h => ?_))
    refine fun k first => ⟨trivial, fun l second => ?_⟩
    have h := h.evolves (first.trans second)
    refine ⟨trivial, h.tail, fun tables answer => ?_⟩
    obtain rfl := Except.ok.inj answer
    exact h
  next blob _ _ =>
    refine Host.meets_call_bind fun n first => ⟨trivial, ?_⟩
    have h := (h.evolves first).allocate queue blob.length
    cases made : (n.allocate queue .device blob.length).1 with
    | error e => exact fun k second => ⟨trivial, h.evolves second, nofun⟩
    | ok memory =>
      refine Host.Meets.bind ((h.meets_submit queue "memcpy:h2d" [] (.copyIn memory 0 blob)
        (List.forall_mem_nil _) rfl nofun).mono fun ready k _ h => ?_)
      intro l third
      have h := h.evolves third
      refine ⟨trivial, h.tail, fun tables answer => ?_⟩
      obtain rfl := Except.ok.inj answer
      exact h

theorem meets_share (h : m.Expects events) (tables : StagedTables) :
    tables.share.Meets (fun _ => True) (fun _ n => n.Expects events) m := by
  unfold StagedTables.share
  split
  next => exact fun n first => ⟨trivial, h.evolves first⟩
  next memory _ =>
    intro n first
    refine ⟨trivial, fun k second => ⟨trivial, ?_⟩⟩
    have steady : n.Steady (n.addOwner memory) := steady_of_queues rfl rfl
    exact ((h.evolves first).steady steady (frees_of_steady steady rfl)).evolves second

/-- The copy of records, in one of three ways. -/
theorem meets_copyIn (h : m.Expects events) (b : Batch) (slice : Slice) (queue : QueueId)
    (memory : MemoryId) : (b.copyIn slice queue memory).Meets (fun _ => True)
      (fun e n => n.Expects (e :: events)) m := by
  unfold Batch.copyIn
  dsimp only
  split
  next => exact h.meets_addEvent Status.complete_ne_pending
  next =>
    split
    next => exact h.meets_submit queue _ _ _ (List.forall_mem_nil _) rfl nofun
    next =>
      exact Host.meets_ask_bind fun n first =>
        ⟨trivial, (h.evolves first).meets_addEvent (Status.failed_ne_pending _)⟩

theorem meets_launch (h : m.Expects events) {tables : StagedTables} (ready : tables.ready ∈ events)
    (queue : QueueId) {deps : List EventId} (known : ∀ d ∈ deps, d ∈ events)
    (input output : MemoryId) (recordLength count : Nat) :
    (tables.launch queue deps input output recordLength count).Meets (fun _ => True)
      (fun e n => n.Expects (e :: events)) m := by
  refine h.meets_submit queue _ _ _ (fun d mem => ?_) rfl nofun
  rcases List.mem_append.1 mem with old | last
  · exact known d old
  · rw [List.mem_singleton.1 last]
    exact ready

/-- The steps of a share, the last of which its item knows. -/
theorem meets_enqueue (h : m.Expects events) {tables : StagedTables}
    (ready : tables.ready ∈ events) (b : Batch) (slice : Slice) (queue : QueueId)
    (input output : MemoryId) :
    (b.enqueue slice queue tables input output).Meets (fun _ => True)
      (fun item n => item.tables = tables ∧ n.Expects (item.event :: events)) m := by
  refine Host.Meets.bind ((h.meets_copyIn b slice queue input).mono fun copied n _ h => ?_)
  have ready := List.mem_cons_of_mem copied ready
  refine Host.Meets.bind ((h.meets_launch ready queue (by simp) input output _ _).mono
    fun computed n _ h => ?_)
  refine Host.Meets.bind ((h.meets_submit queue "memcpy:d2h" [computed] (.copyOut b.output
    (slice.offset * tables.algorithm.digestSize) output (tables.algorithm.digestSize * slice.count))
    (by simp) rfl nofun).mono fun event n _ h => ?_)
  refine Host.Meets.bind ((h.meets_share tables).mono fun _ n _ h => ?_)
  intro k later
  refine ⟨trivial, rfl, (h.evolves later).of_subset fun e mem => ?_⟩
  simp only [List.mem_cons] at mem ⊢
  tauto

theorem meets_dispatch (h : m.Expects events) {tables : StagedTables}
    (ready : tables.ready ∈ events) (b : Batch) (slice : Slice) (queue : QueueId) :
    (b.dispatch slice queue tables).Meets (fun _ => True) (fun r n => n.Expects events ∧
      ∀ item, r = .ok item → item.tables = tables ∧ n.Expects (item.event :: events)) m := by
  unfold Batch.dispatch
  dsimp only
  refine Host.meets_call_bind fun n first => ⟨trivial, ?_⟩
  have h := (h.evolves first).allocate queue
    (max (Size.mulSaturating b.recordLength slice.count) 1)
  cases (n.allocate queue .device _).1 with
  | error e => exact fun k second => ⟨trivial, h.evolves second, nofun⟩
  | ok input =>
    refine Host.meets_call_bind fun n' second => ⟨trivial, ?_⟩
    have h := (h.evolves second).allocate queue
      (Size.mulSaturating tables.algorithm.digestSize slice.count)
    cases (n'.allocate queue .device _).1 with
    | error e =>
      refine Host.meets_update_bind fun k third => ⟨trivial, fun l fourth => ?_⟩
      have left := (giving events).release k input (h.evolves third)
      exact ⟨trivial, left.evolves fourth, nofun⟩
    | ok output =>
      refine Host.Meets.bind ((h.meets_enqueue ready b slice queue input output).mono ?_)
      intro item k _ enqueued l third
      have later := enqueued.2.evolves third
      refine ⟨trivial, later.tail, fun _ answer => ?_⟩
      obtain rfl := Except.ok.inj answer
      exact ⟨enqueued.1, later⟩

/-! ### Programs that wait -/

/-- One operation after the other. -/
theorem returns_bind {p : Host α} {β : Type} {next : α → Host β} (h : m.Expects events)
    (returns : p.Returns m) (always : p.Always fun m n => m.Expects events → n.Expects events)
    (rest : ∀ a n, n.Expects events → (next a).Returns n) : (p >>= next).Returns m :=
  returns.bind (always m) fun a n kept => rest a n (kept h)

/-- The last owner waits for the upload. -/
theorem returns_drop {tables : StagedTables} (h : m.Expects events)
    (ready : tables.ready ∈ events) : tables.drop.Returns m := by
  unfold StagedTables.drop
  split
  next => trivial
  next memory here =>
    refine Host.returns_call_bind fun n first => ?_
    have steady : n.Steady (n.dropOwner memory).2 := steady_of_queues rfl rfl
    split
    next =>
      have h := (h.evolves first).steady steady (n.frees_dropOwner memory)
      exact Host.returns_join_bind h.free h.sound (h.known _ ready)
        fun _ _ _ => fun _ _ => trivial
    next => trivial

theorem returns_dropAll (h : m.Expects events) (all : List StagedTables)
    (ready : ∀ tables ∈ all, tables.ready ∈ events) : (StagedTables.dropAll all).Returns m := by
  induction all generalizing m with
  | nil => trivial
  | cons tables rest ih =>
    rw [List.forall_mem_cons] at ready
    exact h.returns_bind (h.returns_drop ready.1) (tables.always_drop (giving events))
      fun _ n h => ih h ready.2

theorem returns_release (h : m.Expects events) {item : BatchItem}
    (ready : item.tables.ready ∈ events) : item.release.Returns m := by
  refine Host.returns_update_bind fun n first => ?_
  have h := (giving events).release n item.input (h.evolves first)
  refine Host.returns_update_bind fun k second => ?_
  exact ((giving events).release k item.output (h.evolves second)).returns_drop ready

theorem returns_releaseAll (h : m.Expects events) (items : List BatchItem)
    (ready : ∀ item ∈ items, item.tables.ready ∈ events) :
    (BatchItem.releaseAll items).Returns m := by
  induction items generalizing m with
  | nil => trivial
  | cons item rest ih =>
    rw [List.forall_mem_cons] at ready
    exact h.returns_bind (h.returns_release ready.1) (item.always_release (giving events))
      fun _ n h => ih h ready.2

/-- A join waits for the last event of each share. -/
theorem returns_join (h : m.Expects events) (handle : Handle)
    (flying : ∀ e ∈ handle.events, e ∈ events) : handle.join.Returns m := by
  have mem : ∀ item ∈ handle.items, item.event ∈ events ∧ item.tables.ready ∈ events :=
    fun item inside => ⟨flying _ (List.mem_flatMap.2 ⟨item, inside, by simp⟩),
      flying _ (List.mem_flatMap.2 ⟨item, inside, by simp⟩)⟩
  refine h.returns_bind (Host.returns_joinAll _ h.free h.sound ?_) ((giving events).toFlow.joinAll _)
    fun fault? n h => ?_
  · intro e listed
    obtain ⟨item, inside, rfl⟩ := List.mem_map.1 listed
    exact h.known _ (mem item inside).1
  · exact (h.returns_releaseAll _ fun item inside => (mem item inside).2).bind
      (Host.meets_trivial _ n) fun _ _ _ => trivial

theorem returns_wait (h : m.Expects events) (handle : Handle)
    (flying : ∀ e ∈ handle.events, e ∈ events) : handle.wait.Returns m :=
  (h.returns_join handle flying).bind (Host.meets_trivial _ m) fun _ _ _ => trivial

theorem returns_waitAndThrow (h : m.Expects events) (handle : Handle)
    (flying : ∀ e ∈ handle.events, e ∈ events) : handle.waitAndThrow.Returns m := by
  refine (h.returns_join handle flying).bind (Host.meets_trivial _ m) fun fault? _ _ => ?_
  cases fault? <;> trivial

theorem dropHandle (events : List EventId) (m : Machine) (q : QueueId) (h : m.Expects events) :
    (m.dropHandle q).2.Expects events :=
  h.steady (m.steady_updateQueue q _ fun _ => ⟨rfl, rfl, rfl⟩) (m.frees_dropHandle q)

/-- Whoever lets go of the last handle waits for the jobs of the queue, which come to their end. -/
theorem returns_dropQueue (h : m.Expects events) (queue : QueueId) :
    (Host.dropQueue queue).Returns m := by
  refine Host.returns_call_bind fun n first => ?_
  have h := dropHandle events n queue (h.evolves first)
  split
  · exact fun k later => ⟨(h.free.evolves later).drains (later.sound h.sound) queue,
      fun _ => trivial⟩
  · trivial

theorem returns_dropQueues (h : m.Expects events) (runners : List Runner) :
    (Hasher.dropQueues runners).Returns m := by
  induction runners generalizing m with
  | nil => trivial
  | cons runner rest ih =>
    exact h.returns_bind (h.returns_dropQueue runner.queue)
      (Host.always_dropQueue (giving events).toFlow (dropHandle events) runner.queue)
      fun _ _ h => ih h

/-! ### Hashers -/

/-- One more station, with the event of its upload. -/
theorem ready_append {staged : List Station}
    (ready : ∀ station ∈ staged, station.tables.ready ∈ events) (new : Station) :
    ∀ station ∈ staged ++ [new], station.tables.ready ∈ new.tables.ready :: events := by
  intro station mem
  rcases List.mem_append.1 mem with old | last
  · exact List.mem_cons_of_mem _ (ready station old)
  · rw [List.mem_singleton.1 last]
    exact List.mem_cons_self

/-- The uploads for the stations that were made. -/
theorem meets_stageAll (h : m.Expects events) (algorithm : Algorithm) (key : Bytes)
    (runners : List Runner) (staged : List Station)
    (ready : ∀ station ∈ staged, station.tables.ready ∈ events) :
    (Hasher.stageAll algorithm key runners staged).Meets (fun _ => True) (fun r n =>
      n.Expects events ∧ ∀ all, r = .ok all →
        n.Expects (all.map (·.tables.ready) ++ events)) m := by
  induction runners generalizing m staged events with
  | nil =>
    intro n first
    have h := h.evolves first
    refine ⟨trivial, h, fun all answer => h.of_subset fun e mem => ?_⟩
    obtain rfl := Except.ok.inj answer
    rcases List.mem_append.1 mem with new | old
    · obtain ⟨station, inside, rfl⟩ := List.mem_map.1 new
      exact ready station inside
    · exact old
  | cons runner rest ih =>
    refine Host.Meets.bind ((h.meets_stage algorithm key runner.queue).mono fun r n _ goal => ?_)
    cases r with
    | error e =>
      refine Host.Meets.bind ((StagedTables.always_dropAll (giving events) _ n).mono ?_)
      exact fun _ k _ kept l later => ⟨trivial, (kept goal.1).evolves later, nofun⟩
    | ok tables =>
      refine (ih (goal.2 tables rfl) _ (ready_append ready ⟨runner, tables⟩)).mono ?_
      refine fun r k _ goal => ⟨goal.1.tail, fun all answer => ?_⟩
      refine (goal.2 all answer).of_subset fun e mem => ?_
      simp only [List.mem_append, List.mem_cons] at mem ⊢
      tauto

/-- When a device has no room, the tables before are given back. -/
theorem returns_stageAll (h : m.Expects events) (algorithm : Algorithm) (key : Bytes)
    (runners : List Runner) (staged : List Station)
    (ready : ∀ station ∈ staged, station.tables.ready ∈ events) :
    (Hasher.stageAll algorithm key runners staged).Returns m := by
  induction runners generalizing m staged events with
  | nil => trivial
  | cons runner rest ih =>
    refine (StagedTables.prompt_stage _ _ _ m).bind (h.meets_stage algorithm key runner.queue) ?_
    intro r n goal
    cases r with
    | error e =>
      refine (goal.1.returns_dropAll _ fun tables mem => ?_).bind (Host.meets_trivial _ n)
        fun _ _ _ => trivial
      obtain ⟨station, inside, rfl⟩ := List.mem_map.1 mem
      exact ready station inside
    | ok tables =>
      exact ih (goal.2 tables rfl) _ (ready_append ready ⟨runner, tables⟩)

theorem addHandle (events : List EventId) (m : Machine) (q : QueueId) (h : m.Expects events) :
    (m.addHandle q).Expects events :=
  h.steady (m.steady_updateQueue q _ fun _ => ⟨rfl, rfl, rfl⟩) (m.frees_addHandle q)

theorem meets_create (h : m.Expects events) (algorithm : Algorithm) (runners : List Runner)
    (key : Bytes) : (Hasher.create algorithm runners key).Meets (fun _ => True) (fun r n =>
      n.Expects events ∧ ∀ hasher, r = .ok hasher → n.Expects (hasher.uploading ++ events)) m := by
  unfold Hasher.create
  split
  · exact fun n first => ⟨trivial, h.evolves first, nofun⟩
  refine Host.meets_ask_bind fun n first => ⟨trivial, ?_⟩
  have h := h.evolves first
  split
  · exact fun k second => ⟨trivial, h.evolves second, nofun⟩
  refine Host.Meets.bind ((h.meets_stageAll algorithm key runners [] (List.forall_mem_nil _)).mono
    fun r k _ goal => ?_)
  cases r with
  | error e => exact fun l second => ⟨trivial, goal.1.evolves second, nofun⟩
  | ok stations =>
    have held := Hasher.always_holdQueues (giving (stations.map (·.tables.ready) ++ events)).toFlow
      runners fun m r _ => addHandle _ m r.queue
    refine Host.Meets.bind ((held k).mono fun _ l _ kept l' second => ?_)
    have h := (kept (goal.2 stations rfl)).evolves second
    refine ⟨trivial, h.of_subset fun e => List.mem_append_right _, fun hasher answer => ?_⟩
    obtain rfl := Except.ok.inj answer
    exact h

/-- **Making a hasher returns.** -/
theorem returns_create (h : m.Expects events) (algorithm : Algorithm) (runners : List Runner)
    (key : Bytes) : (Hasher.create algorithm runners key).Returns m := by
  unfold Hasher.create
  split
  · trivial
  · refine Host.returns_ask_bind fun n first => ?_
    split
    · trivial
    · refine ((h.evolves first).returns_stageAll algorithm key runners []
        (List.forall_mem_nil _)).bind (Host.meets_trivial _ n) fun r k _ => ?_
      cases r with
      | error e => trivial
      | ok stations => exact ((Hasher.prompt_holdQueues _).bind fun _ => Host.prompt_pure _) k

/-- **Letting go of a hasher returns.** -/
theorem returns_dropHasher (h : m.Expects events) (hasher : Hasher)
    (ready : ∀ e ∈ hasher.uploading, e ∈ events) : hasher.drop.Returns m := by
  refine h.returns_bind (h.returns_dropQueues _)
    (Hasher.always_dropQueues (giving events) (dropHandle events) _) fun _ n h =>
      h.returns_dropAll _ fun tables mem => ready _ ?_
  obtain ⟨station, inside, rfl⟩ := List.mem_map.1 mem
  exact List.mem_map_of_mem inside

/-- One more share in flight, with its event. -/
theorem flying_append {items : List BatchItem} (flying : ∀ e ∈ (Handle.mk items).events, e ∈ events)
    {item : BatchItem} (ready : item.tables.ready ∈ events) :
    ∀ e ∈ (Handle.mk (items ++ [item])).events, e ∈ item.event :: events := by
  intro e mem
  unfold Handle.events at mem flying
  rw [List.flatMap_append] at mem
  rcases List.mem_append.1 mem with old | new
  · exact List.mem_cons_of_mem _ (flying e old)
  · have both : e = item.event ∨ e = item.tables.ready := by simpa using new
    rcases both with rfl | rfl
    · exact List.mem_cons_self
    · exact List.mem_cons_of_mem _ ready

theorem meets_dispatchAll (h : m.Expects events) (b : Batch) (rest : List (Station × Slice))
    (items : List BatchItem) (ready : ∀ next ∈ rest, next.1.tables.ready ∈ events)
    (flying : ∀ e ∈ (Handle.mk items).events, e ∈ events) :
    (Hasher.dispatchAll b rest items).Meets (fun _ => True) (fun r n =>
      n.Expects events ∧ ∀ handle, r = .ok handle → n.Expects (handle.events ++ events)) m := by
  induction rest generalizing m items events with
  | nil =>
    intro n first
    have h := h.evolves first
    refine ⟨trivial, h, fun handle answer => h.of_subset fun e mem => ?_⟩
    obtain rfl := Except.ok.inj answer
    exact (List.mem_append.1 mem).elim (flying e) id
  | cons next rest ih =>
    rw [List.forall_mem_cons] at ready
    refine Host.Meets.bind ((h.meets_dispatch ready.1 b next.2 next.1.runner.queue).mono
      fun r n _ goal => ?_)
    cases r with
    | error e =>
      refine Host.Meets.bind ((Handle.always_wait (giving events) ⟨items⟩ n).mono ?_)
      exact fun _ k _ kept l later => ⟨trivial, (kept goal.1).evolves later, nofun⟩
    | ok item =>
      obtain ⟨tables, h⟩ := goal.2 item rfl
      refine (ih h (items ++ [item]) (fun other mem => List.mem_cons_of_mem _ (ready.2 other mem))
        (flying_append flying (tables ▸ ready.1))).mono fun r k _ goal => ?_
      refine ⟨goal.1.tail, fun handle answer => (goal.2 handle answer).of_subset fun e mem => ?_⟩
      simp only [List.mem_append, List.mem_cons] at mem ⊢
      tauto

/-- When a device has no room, the shares before are joined. -/
theorem returns_dispatchAll (h : m.Expects events) (b : Batch) (rest : List (Station × Slice))
    (items : List BatchItem) (ready : ∀ next ∈ rest, next.1.tables.ready ∈ events)
    (flying : ∀ e ∈ (Handle.mk items).events, e ∈ events) :
    (Hasher.dispatchAll b rest items).Returns m := by
  induction rest generalizing m items events with
  | nil => trivial
  | cons next rest ih =>
    rw [List.forall_mem_cons] at ready
    refine (b.prompt_dispatch _ _ _ m).bind (h.meets_dispatch ready.1 b next.2
      next.1.runner.queue) fun r n goal => ?_
    cases r with
    | error e =>
      exact (goal.1.returns_wait ⟨items⟩ flying).bind (Host.meets_trivial _ n)
        fun _ _ _ => trivial
    | ok item =>
      obtain ⟨tables, h⟩ := goal.2 item rfl
      exact ih h (items ++ [item]) (fun other mem => List.mem_cons_of_mem _ (ready.2 other mem))
        (flying_append flying (tables ▸ ready.1))

/-- The shares of a batch wait for uploads of the hasher. -/
theorem ready_shares {hasher : Hasher} (ready : ∀ e ∈ hasher.uploading, e ∈ events) (count : Nat) :
    ∀ next ∈ hasher.shares count, next.1.tables.ready ∈ events := by
  intro next inside
  apply ready
  exact List.mem_map_of_mem (List.of_mem_zip (List.mem_filter.1 inside).1).1

theorem meets_hash (h : m.Expects events) {hasher : Hasher}
    (ready : ∀ e ∈ hasher.uploading, e ∈ events) (b : Batch) :
    (hasher.hash b).Meets (fun _ => True) (fun r n =>
      n.Expects events ∧ ∀ handle, r = .ok handle → n.Expects (handle.events ++ events)) m := by
  unfold Hasher.hash
  split
  · intro n first
    have h := h.evolves first
    refine ⟨trivial, h, fun handle answer => ?_⟩
    obtain rfl := Except.ok.inj answer
    exact h
  · exact h.meets_dispatchAll b _ [] (ready_shares ready _) (List.forall_mem_nil _)

/-- **Dispatching a batch returns.** -/
theorem returns_hash (h : m.Expects events) {hasher : Hasher}
    (ready : ∀ e ∈ hasher.uploading, e ∈ events) (b : Batch) : (hasher.hash b).Returns m := by
  unfold Hasher.hash
  split
  · trivial
  · exact h.returns_dispatchAll b _ [] (ready_shares ready _) (List.forall_mem_nil _)

/-! ### Hashing on one queue -/

theorem returns_joinThrow (h : m.Expects events) {e : EventId} (known : e ∈ events) :
    (Host.joinThrow e).Returns m := by
  refine Host.returns_join_bind h.free h.sound (h.known e known) fun fault? _ _ => ?_
  cases fault? <;> trivial

/-- A batch that is hashed and joined leaves events on record. -/
theorem meets_computeBatch (h : m.Expects events) {hasher : Hasher}
    (ready : ∀ e ∈ hasher.uploading, e ∈ events) (b : Batch) :
    (hasher.compute b).Meets (fun _ => True) (fun _ n => n.Expects events) m := by
  refine Host.Meets.bind ((h.meets_hash ready b).mono fun r n _ goal => ?_)
  cases r with
  | error e => exact fun k later => ⟨trivial, goal.1.evolves later⟩
  | ok handle =>
    exact (handle.always_waitAndThrow (giving events) n).mono fun _ _ _ kept => kept goal.1

theorem returns_computeBatch (h : m.Expects events) {hasher : Hasher}
    (ready : ∀ e ∈ hasher.uploading, e ∈ events) (b : Batch) : (hasher.compute b).Returns m := by
  refine (h.returns_hash ready b).bind (h.meets_hash ready b) fun r n goal => ?_
  cases r with
  | error e => trivial
  | ok handle =>
    exact (goal.2 handle rfl).returns_waitAndThrow handle fun e => List.mem_append_left _

/-- **Hashing from and to the host returns.** -/
theorem returns_compute (h : m.Expects events) (queue : QueueId) (algorithm : Algorithm)
    (b : Batch) (key : Bytes) : (compute queue algorithm b key).Returns m := by
  refine (h.returns_create algorithm _ key).bind (h.meets_create algorithm _ key) fun r n goal => ?_
  cases r with
  | error e => trivial
  | ok hasher =>
    have h := goal.2 hasher rfl
    have ready : ∀ e ∈ hasher.uploading, e ∈ hasher.uploading ++ events :=
      fun e => List.mem_append_left _
    refine (h.returns_computeBatch ready b).bind (h.meets_computeBatch ready b) fun _ k h => ?_
    exact (h.returns_dropHasher hasher ready).bind (Host.meets_trivial _ k) fun _ _ _ => trivial

/-- **Hashing in device memory returns.** -/
theorem returns_computeOnDevice (h : m.Expects events) (queue : QueueId) (algorithm : Algorithm)
    (input : MemoryId) (recordLength : Nat) (output : MemoryId) (count : Nat) (key : Bytes) :
    (computeOnDevice queue algorithm input recordLength output count key).Returns m := by
  unfold computeOnDevice
  split
  · trivial
  split
  · trivial
  refine (StagedTables.prompt_stage _ _ _ m).bind (h.meets_stage algorithm key queue) ?_
  intro r n goal
  cases r with
  | error e => trivial
  | ok tables =>
    have launched := (goal.2 tables rfl).meets_launch List.mem_cons_self queue
      (List.forall_mem_nil _) input output recordLength count
    refine Host.Returns.bind (Host.prompt_call _ n) launched fun event k h => ?_
    have always := (giving (event :: tables.ready :: events)).toFlow
    refine h.returns_bind (h.returns_joinThrow List.mem_cons_self) ?_ fun outcome l h => ?_
    · refine always.bind (always.join event) fun fault? => ?_
      cases fault? <;> exact always.pure _
    · have known : tables.ready ∈ event :: tables.ready :: events :=
        List.mem_cons_of_mem _ List.mem_cons_self
      exact (h.returns_drop known).bind (Host.meets_trivial _ l) fun _ _ _ => trivial

end Machine.Expects

/-! ## What leases wait for -/

/-- The events of leases come. -/
theorem Machine.Leased.expects {leases : List Lease} (h : m.Leased leases) (free : m.Unhindered) :
    m.Expects (leases.flatMap Lease.events) := by
  refine ⟨h.sound, free, fun e mem => ?_⟩
  obtain ⟨l, leased, last⟩ := List.mem_flatMap.1 mem
  exact h.covered.known l leased e last

end BatchDigest
