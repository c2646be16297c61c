import BatchDigest.Proofs.Batch.Joining

/-!
# Who comes to the queues and who leaves

Two accounts of what a program does to the queues, whatever it does to memory. `Machine.Sheds` is
about handles: at most so many go, as long as no job carries a handle. `Machine.Enlists` is about
jobs: those that come use memory that is new, and what writes into a buffer has its event on a list.
From this it can be told later, when the new memory is gone or the events of the list are resolved,
that nothing of what the program put into the queues is left.
-/

namespace BatchDigest

namespace Machine

variable {m n k after : Machine} {p q : QueueId} {job : Job}

/-! ## Handles -/

/-- No job carries a handle. -/
def Carefree (m : Machine) : Prop :=
  ∀ q, m.held q = []

/-- As long as no job carries a handle, at most so many handles go. -/
def Sheds (loss : QueueId → Nat) (m n : Machine) : Prop :=
  m.Carefree → n.Carefree ∧ ∀ q, m.handles q ≤ n.handles q + loss q

/-- No handle goes. -/
abbrev Retains : Machine → Machine → Prop :=
  Sheds fun _ => 0

theorem Sheds.trans {loss loss' : QueueId → Nat} (first : Sheds loss m n)
    (second : Sheds loss' n k) : Sheds (fun q => loss q + loss' q) m k := by
  intro carefree
  obtain ⟨carefree, before⟩ := first carefree
  obtain ⟨carefree, after⟩ := second carefree
  refine ⟨carefree, fun q => ?_⟩
  calc m.handles q ≤ n.handles q + loss q := before q
    _ ≤ k.handles q + loss' q + loss q := Nat.add_le_add_right (after q) _
    _ = k.handles q + (loss q + loss' q) := by rw [Nat.add_assoc, Nat.add_comm (loss' q)]

theorem sheds_of_held {loss : QueueId → Nat} (held : ∀ q, n.held q = m.held q)
    (handles : ∀ q, m.handles q ≤ n.handles q + loss q) : Sheds loss m n :=
  fun carefree => ⟨fun q => (held q).trans (carefree q), handles⟩

theorem flow_retains : Flow Retains where
  refl _ := sheds_of_held (fun _ => rfl) fun _ => Nat.le_refl _
  trans first second := first.trans second
  step {m q after} step carefree := by
    have turn := turn_of_advance? step
    refine ⟨turn.carefree carefree, fun p => Nat.le_of_eq ?_⟩
    refine (turn.handles ?_).symm
    rw [carefree q]
    exact List.not_mem_nil

theorem retains_of_queues (queues : n.queues = m.queues) : Retains m n := by
  refine sheds_of_held (fun q => ?_) fun q => Nat.le_of_eq ?_
  · unfold held activity waiting queue?
    rw [queues]
  · unfold handles queue?
    rw [queues]
    rfl

/-- A change of a queue that leaves its jobs and its handles alone, or adds to the latter. -/
theorem retains_updateQueue (m : Machine) (q : QueueId) (change : Queue → Queue)
    (keeps : ∀ queue, (change queue).activity = queue.activity ∧
      (change queue).waiting = queue.waiting ∧ (change queue).config = queue.config)
    (handles : ∀ queue, queue.handles ≤ (change queue).handles) :
    Retains m (m.updateQueue q change) :=
  sheds_of_held (m.steady_updateQueue q change keeps).held
    (m.handles_updateQueue q change handles)

theorem retains_giveBack (m : Machine) (id : MemoryId) : Retains m (m.giveBack id) := by
  unfold giveBack
  split
  · exact flow_retains.refl m
  · exact m.retains_updateQueue _ _ (fun _ => ⟨rfl, rfl, rfl⟩) fun _ => Nat.le_refl _

theorem retains_allocate (m : Machine) (q : QueueId) (kind : MemoryKind) (length : Nat) :
    Retains m (m.allocate q kind length).2 :=
  sheds_of_held (m.steady_allocate q kind length).held
    (m.handles_allocate q kind length)

theorem giving_retains : Giving Retains :=
  flow_retains.giving (fun _ _ => retains_of_queues rfl) retains_giveBack

theorem retains_submit (m : Machine) (q : QueueId) (label : String) (deps : List EventId)
    {work : Work} (free : work.held = []) :
    Retains m (m.submit q label deps work).2 := by
  cases taken : m.isClosed q with
  | true =>
    unfold submit
    rw [if_pos taken]
    exact retains_of_queues rfl
  | false =>
    have submitted := submitted_submit label deps work taken
    exact sheds_of_held (submitted.held_of_carefree free) fun p =>
      Nat.le_of_eq (submitted.handles p).symm

theorem taking_retains : Taking Retains where
  toGiving := giving_retains
  addOwner _ _ := retains_of_queues rfl
  addEvent _ _ _ := retains_of_queues rfl
  submit m q label deps _ free _ := m.retains_submit q label deps free
  allocate m q length := m.retains_allocate q .device length

theorem retains_addHandle (m : Machine) (q : QueueId) : Retains m (m.addHandle q) :=
  m.retains_updateQueue q _ (fun _ => ⟨rfl, rfl, rfl⟩) fun _ => Nat.le_succ _

theorem handles_addHandle (held : 0 < m.handles q) (p : QueueId) :
    (m.addHandle q).handles p = m.handles p + if p = q then 1 else 0 := by
  unfold handles addHandle at *
  rw [queue?_updateQueue]
  split
  next same =>
    subst same
    cases found : m.queue? p with
    | none => simp [found] at held
    | some queue => rfl
  next => rfl

theorem sheds_dropHandle (m : Machine) (q : QueueId) :
    Sheds (fun p => if p = q then 1 else 0) m (m.dropHandle q).2 := by
  have steady : m.Steady (m.dropHandle q).2 := m.steady_updateQueue q _ fun _ => ⟨rfl, rfl, rfl⟩
  exact sheds_of_held steady.held (m.handles_dropHandle q)

/-! ## Queues that nobody holds -/

/-- As long as no job carries a handle, nobody comes to hold a queue that is not held. -/
def Shuts (q : QueueId) (m n : Machine) : Prop :=
  m.Carefree → n.Carefree ∧ (m.handles q = 0 → n.handles q = 0)

theorem shuts_of_sheds {loss : QueueId → Nat} (sheds : Sheds loss m n)
    (shut : m.handles q = 0 → n.handles q = 0) : Shuts q m n :=
  fun carefree => ⟨(sheds carefree).1, shut⟩

theorem handles_updateQueue_eq_zero (change : Queue → Queue)
    (less : ∀ queue, (change queue).handles ≤ queue.handles) (none : m.handles q = 0) :
    (m.updateQueue p change).handles q = 0 :=
  Nat.le_zero.1 (none ▸ m.handles_updateQueue_le p change less q)

theorem flow_shuts (q : QueueId) : Flow (Shuts q) where
  refl _ carefree := ⟨carefree, id⟩
  trans first second carefree := by
    obtain ⟨carefree, before⟩ := first carefree
    exact ⟨(second carefree).1, fun none => (second carefree).2 (before none)⟩
  step step carefree := ⟨(flow_retains.step step carefree).1, fun none =>
    Nat.le_zero.1 (none ▸ (turn_of_advance? step).handles_le q)⟩

theorem shuts_giveBack (m : Machine) (id : MemoryId) : Shuts q m (m.giveBack id) := by
  refine shuts_of_sheds (m.retains_giveBack id) fun none => ?_
  unfold giveBack
  split
  · exact none
  · exact handles_updateQueue_eq_zero _ (fun _ => Nat.le_refl _) none

theorem shuts_allocate (m : Machine) (p : QueueId) (kind : MemoryKind) (length : Nat) :
    Shuts q m (m.allocate p kind length).2 := by
  refine shuts_of_sheds (m.retains_allocate p kind length) fun none => ?_
  unfold allocate
  split
  · exact none
  next queue _ =>
    have shut := handles_updateQueue_eq_zero (p := p)
      (fun old => { old with ledger := (queue.ledger.allocate kind length).2 })
      (fun _ => Nat.le_refl _) none
    dsimp only
    split <;> exact shut

theorem shuts_submit (m : Machine) (p : QueueId) (label : String) (deps : List EventId)
    {work : Work} (free : work.held = []) :
    Shuts q m (m.submit p label deps work).2 := by
  refine shuts_of_sheds (m.retains_submit p label deps free) fun none => ?_
  cases taken : m.isClosed p with
  | true =>
    unfold submit
    rw [if_pos taken]
    exact none
  | false => exact ((submitted_submit label deps work taken).handles q).trans none

theorem taking_shuts (q : QueueId) : Taking (Shuts q) where
  toGiving := (flow_shuts q).giving
    (fun _ _ => shuts_of_sheds (retains_of_queues rfl) fun none => none) shuts_giveBack
  addOwner _ _ := shuts_of_sheds (retains_of_queues rfl) fun none => none
  addEvent _ _ _ := shuts_of_sheds (retains_of_queues rfl) fun none => none
  submit m p label deps _ free _ := m.shuts_submit p label deps free
  allocate m p length := m.shuts_allocate p .device length

theorem shuts_addHandle (m : Machine) (ne : p ≠ q) : Shuts q m (m.addHandle p) := by
  refine shuts_of_sheds (m.retains_addHandle p) fun none => ?_
  unfold handles addHandle at *
  rwa [queue?_updateQueue, if_neg ne.symm]

theorem shuts_dropHandle (m : Machine) (p : QueueId) : Shuts q m (m.dropHandle p).2 :=
  shuts_of_sheds (m.sheds_dropHandle p) fun none =>
    handles_updateQueue_eq_zero _ (fun _ => Nat.sub_le _ _) none

end Machine

open Machine

variable {m n : Machine}

/-- A queue handle that the host lets go is one of one queue. -/
theorem Host.dropQueue_sheds (q : QueueId) :
    (Host.dropQueue q).Always (Sheds fun p => if p = q then 1 else 0) := by
  intro m
  refine Host.meets_call_bind fun n first => ⟨trivial, ?_⟩
  have dropped := (flow_retains.evolves first).trans (n.sheds_dropHandle q)
  simp only [Nat.zero_add] at dropped
  split
  · exact fun k later => ⟨trivial, fun _ l last => ⟨trivial,
      dropped.trans (flow_retains.evolves (later.trans last))⟩⟩
  · exact fun k later => ⟨trivial, dropped.trans (flow_retains.evolves later)⟩

/-- How many of the runners are on a queue. -/
def Runner.on (runners : List Runner) (q : QueueId) : Nat :=
  (runners.map (·.queue)).count q

theorem Runner.on_cons (runner : Runner) (rest : List Runner) (q : QueueId) :
    on (runner :: rest) q = (if q = runner.queue then 1 else 0) + on rest q := by
  unfold on
  rw [List.map_cons, List.count_cons, Nat.add_comm]
  simp only [beq_iff_eq, @eq_comm _ q]

theorem Hasher.dropQueues_sheds (runners : List Runner) :
    (Hasher.dropQueues runners).Always (Sheds (Runner.on runners)) := by
  induction runners with
  | nil => exact flow_retains.pure ()
  | cons runner rest ih =>
    intro m
    refine Host.Meets.bind ((Host.dropQueue_sheds runner.queue m).mono fun _ n _ first => ?_)
    refine (ih n).mono fun _ k _ second => ?_
    rw [show Runner.on (runner :: rest) = _ from funext (Runner.on_cons runner rest)]
    exact first.trans second

/-- A hasher that goes lets go of one handle for each runner. -/
theorem Hasher.drop_sheds (h : Hasher) :
    h.drop.Always (Sheds (Runner.on (h.stations.map (·.runner)))) := by
  intro m
  refine Host.Meets.bind ((Hasher.dropQueues_sheds _ m).mono fun _ n _ first => ?_)
  exact (StagedTables.always_dropAll giving_retains _ n).mono fun _ k _ second =>
    first.trans second

/-- A hasher holds one handle for each runner. -/
theorem Hasher.meets_holdQueues_handles (runners : List Runner) {m : Machine}
    (carefree : m.Carefree) (held : ∀ r ∈ runners, 0 < m.handles r.queue) :
    (Hasher.holdQueues runners).Meets (fun _ => True) (fun _ n => n.Carefree ∧
      ∀ q, m.handles q + Runner.on runners q ≤ n.handles q) m := by
  induction runners generalizing m with
  | nil => exact fun n first => ⟨trivial, (flow_retains.evolves first) carefree⟩
  | cons runner rest ih =>
    rw [List.forall_mem_cons] at held
    refine Host.meets_update_bind fun n first => ⟨trivial, ?_⟩
    obtain ⟨carefree, kept⟩ := (flow_retains.evolves first) carefree
    have here : 0 < n.handles runner.queue := Nat.lt_of_lt_of_le held.1 (kept _)
    have more := handles_addHandle here
    have carefree := (n.retains_addHandle runner.queue carefree).1
    refine (ih carefree fun r mem => ?_).mono fun _ k _ ⟨carefree, after⟩ => ⟨carefree, fun q => ?_⟩
    · rw [more]
      exact Nat.lt_of_lt_of_le (held.2 r mem) (Nat.le_trans (kept _) (Nat.le_add_right _ _))
    · have after := after q
      have kept : m.handles q ≤ n.handles q := kept q
      rw [more] at after
      rw [Runner.on_cons]
      omega

theorem Hasher.meets_create_handles (a : Algorithm) {runners : List Runner} (key : Bytes)
    (carefree : m.Carefree) (held : ∀ r ∈ runners, 0 < m.handles r.queue) :
    (Hasher.create a runners key).Meets (fun _ => True) (fun r n => n.Carefree ∧
      ∀ h, r = .ok h → ∀ q, m.handles q + Runner.on runners q ≤ n.handles q) m := by
  have plain : ∀ {n k : Machine}, m.Evolves n → n.Evolves k → k.Carefree :=
    fun first second => ((flow_retains.evolves (first.trans second)) carefree).1
  unfold Hasher.create
  split
  · exact fun n first => ⟨trivial, plain first .refl, nofun⟩
  refine Host.meets_ask_bind fun n first => ⟨trivial, ?_⟩
  split
  · exact fun k second => ⟨trivial, plain first second, nofun⟩
  refine Host.Meets.bind ((Hasher.always_stageAll giving_retains
    (StagedTables.always_stage taking_retains a key) runners [] n).mono ?_)
  intro r k _ staged
  obtain ⟨carefree, kept⟩ := (flow_retains.trans (flow_retains.evolves first) staged) carefree
  cases r with
  | error e =>
    exact fun l third => ⟨trivial, ((flow_retains.evolves third) carefree).1, nofun⟩
  | ok stations =>
    refine Host.Meets.bind ((Hasher.meets_holdQueues_handles runners carefree fun r mem =>
      Nat.lt_of_lt_of_le (held r mem) (kept _)).mono ?_)
    rintro - l - ⟨carefree, more⟩ l' third
    obtain ⟨carefree, last⟩ := (flow_retains.evolves third) carefree
    refine ⟨trivial, carefree, fun _ _ q => ?_⟩
    calc m.handles q + Runner.on runners q ≤ k.handles q + Runner.on runners q :=
          Nat.add_le_add_right (kept q) _
      _ ≤ l.handles q := more q
      _ ≤ l'.handles q := last q

/-! ## Jobs -/

/-- The jobs that came since then use memory that is new, and the events of those that write into a
buffer are on a list. -/
structure Machine.Enlists (writers : List (BufferId × EventId)) (m n : Machine) : Prop where
  memories : m.memories.length ≤ n.memories.length
  jobs : ∀ q, ∀ job ∈ n.pending q, job ∈ m.pending q ∨
    (∃ id, .memory id ∈ job.work.touches ∧ m.memories.length ≤ id.index) ∧
      ∀ buffer, .buffer buffer ∈ job.work.writes → (buffer, job.event) ∈ writers

namespace Machine

variable {k after : Machine} {writers more : List (BufferId × EventId)} {q : QueueId}

theorem Enlists.trans (first : Enlists writers m n) (second : Enlists more n k) :
    Enlists (writers ++ more) m k := by
  refine ⟨Nat.le_trans first.memories second.memories, fun q job mem => ?_⟩
  rcases second.jobs q job mem with old | ⟨⟨id, touched, new⟩, listed⟩
  · rcases first.jobs q job old with old | ⟨new, listed⟩
    · exact .inl old
    · exact .inr ⟨new, fun buffer writes => List.mem_append_left _ (listed buffer writes)⟩
  · exact .inr ⟨⟨id, touched, Nat.le_trans first.memories new⟩,
      fun buffer writes => List.mem_append_right _ (listed buffer writes)⟩

/-- A call that leaves the jobs alone. -/
theorem Steady.enlists (steady : m.Steady n) (memories : m.memories.length ≤ n.memories.length) :
    Enlists [] m n := by
  refine ⟨memories, fun q job mem => .inl ?_⟩
  rwa [steady.pending] at mem

theorem flow_enlists : Flow (Enlists []) where
  refl m := (Steady.refl m).enlists (Nat.le_refl _)
  trans first second := first.trans second
  step step := by
    have turn := turn_of_advance? step
    exact ⟨Nat.le_of_eq (by rw [turn.books.memories]), fun _ _ mem => .inl (turn.mem_pending mem)⟩

theorem enlists_dropOwner (m : Machine) (id : MemoryId) : Enlists [] m (m.dropOwner id).2 :=
  have steady : m.Steady (m.dropOwner id).2 := steady_of_queues rfl rfl
  steady.enlists (by simp [dropOwner, updateMemory])

theorem enlists_giveBack (m : Machine) (id : MemoryId) : Enlists [] m (m.giveBack id) :=
  (m.steady_giveBack id).enlists (Nat.le_of_eq (by rw [memories_giveBack]))

theorem giving_enlists : Giving (Enlists []) :=
  flow_enlists.giving enlists_dropOwner enlists_giveBack

theorem enlists_addEvent (m : Machine) {s : Status} (resolved : s ≠ .pending) :
    Enlists [] m (m.addEvent s).2 :=
  (m.steady_addEvent resolved).enlists (Nat.le_refl _)

theorem enlists_addOwner (m : Machine) (id : MemoryId) : Enlists [] m (m.addOwner id) :=
  have steady : m.Steady (m.addOwner id) := steady_of_queues rfl rfl
  steady.enlists (by simp [addOwner, updateMemory])

theorem enlists_addHandle (m : Machine) (q : QueueId) : Enlists [] m (m.addHandle q) :=
  have steady : m.Steady (m.addHandle q) := m.steady_updateQueue q _ fun _ => ⟨rfl, rfl, rfl⟩
  steady.enlists (Nat.le_refl _)

theorem enlists_dropHandle (m : Machine) (q : QueueId) : Enlists [] m (m.dropHandle q).2 :=
  have steady : m.Steady (m.dropHandle q).2 := m.steady_updateQueue q _ fun _ => ⟨rfl, rfl, rfl⟩
  steady.enlists (Nat.le_refl _)

/-- An allocation makes a memory that was not there, if it makes one. -/
theorem enlists_allocate (m : Machine) (q : QueueId) (kind : MemoryKind) (length : Nat) :
    Enlists [] m (m.allocate q kind length).2 ∧
      ∀ id, (m.allocate q kind length).1 = .ok id → id = ⟨m.memories.length⟩ := by
  have steady := m.steady_allocate q kind length
  obtain ⟨e, failed, same⟩ | ⟨l, -, -, made, memories, -⟩ := m.allocate_books q kind length
  · refine ⟨steady.enlists (Nat.le_of_eq (by rw [same])), fun id made => ?_⟩
    rw [failed] at made
    cases made
  · refine ⟨steady.enlists (by rw [memories, List.length_append]; exact Nat.le_succ _), ?_⟩
    intro id made'
    rw [made] at made'
    cases made'
    rfl

theorem Enlists.then (first : Enlists writers m n) (second : Enlists [] n k) :
    Enlists writers m k := by
  have both := first.trans second
  rwa [List.append_nil] at both

/-- Work is put into a queue that uses memory which was not there before. -/
theorem Enlists.submit (h : Enlists writers m n) (q : QueueId) (label : String)
    (deps : List EventId) (work : Work) {id : MemoryId} (used : .memory id ∈ work.touches)
    (new : m.memories.length ≤ id.index)
    (listed : ∀ buffer, .buffer buffer ∈ work.writes → (buffer, ⟨n.events.length⟩) ∈ more) :
    Enlists (writers ++ more) m (n.submit q label deps work).2 := by
  have wider : Enlists (writers ++ more) m n := by
    refine ⟨h.memories, fun q job mem => (h.jobs q job mem).imp_right ?_⟩
    exact fun ⟨new, listed⟩ => ⟨new, fun buffer writes => List.mem_append_left _ (listed _ writes)⟩
  refine ⟨by rw [memories_submit]; exact h.memories, fun p job mem => ?_⟩
  cases taken : n.isClosed q with
  | true =>
    rw [(steady_submit label deps work taken).pending] at mem
    exact wider.jobs p job mem
  | false =>
    rcases (submitted_submit label deps work taken).mem_pending.1 mem with old | ⟨-, rfl⟩
    · exact wider.jobs p job old
    · exact .inr ⟨⟨id, used, new⟩, fun buffer writes =>
        List.mem_append_right _ (listed buffer writes)⟩

/-- Work that writes into no buffer. -/
theorem Enlists.submit_unlisted (h : Enlists writers m n) (q : QueueId) (label : String)
    (deps : List EventId) (work : Work) {id : MemoryId} (used : .memory id ∈ work.touches)
    (new : m.memories.length ≤ id.index) (none : ∀ buffer, .buffer buffer ∉ work.writes) :
    Enlists writers m (n.submit q label deps work).2 := by
  have nothing : ∀ buffer, .buffer buffer ∈ work.writes → (buffer, ⟨n.events.length⟩) ∈
      ([] : List (BufferId × EventId)) :=
    fun buffer writes => absurd writes (none buffer)
  have entered := h.submit q label deps work used new nothing
  rwa [List.append_nil] at entered

end Machine

/-- The upload of tables uses their memory, and writes into no buffer. -/
theorem StagedTables.always_stage_enlists (a : Algorithm) (key : Bytes) (queue : QueueId) :
    (StagedTables.stage a key queue).Always (Enlists []) := by
  have flow := flow_enlists
  unfold StagedTables.stage
  split
  · exact flow.pure _
  · have none : (StagedTables.none a).Always (Enlists []) :=
      flow.bind (flow.call fun m => m.enlists_addEvent Status.complete_ne_pending) fun _ =>
        flow.pure _
    exact flow.map none _
  next blob _ _ =>
    intro m
    refine Host.meets_call_bind fun n first => ⟨trivial, ?_⟩
    have before := flow.evolves first
    obtain ⟨allocated, new⟩ := n.enlists_allocate queue .device blob.length
    have opening := before.then allocated
    cases made : (n.allocate queue .device blob.length).1 with
    | error e => exact fun k later => ⟨trivial, opening.then (flow.evolves later)⟩
    | ok memory =>
      obtain rfl := new memory made
      refine Host.meets_call_bind fun k second => ⟨trivial, fun l third => ⟨trivial, ?_⟩⟩
      have entered := (opening.then (flow.evolves second)).submit_unlisted queue "memcpy:h2d" []
        (.copyIn ⟨n.memories.length⟩ 0 blob) (List.mem_singleton.2 rfl) before.memories
        (by simp [Work.writes])
      exact entered.then (flow.evolves third)

theorem Hasher.always_create_enlists (a : Algorithm) (runners : List Runner) (key : Bytes) :
    (Hasher.create a runners key).Always (Enlists []) :=
  Hasher.always_create giving_enlists (StagedTables.always_stage_enlists a key) runners
    fun m r _ => m.enlists_addHandle r.queue

namespace Batch

/-- The steps of a share use its memory, and the last one writes into the output. -/
theorem meets_enqueue_enlists (b : Batch) (slice : Slice) (queue : QueueId) (tables : StagedTables)
    {input output : MemoryId} {base : Machine} (start : Enlists [] base m)
    (new : base.memories.length ≤ input.index ∧ base.memories.length ≤ output.index) :
    (b.enqueue slice queue tables input output).Meets (fun _ => True)
      (fun item n => Enlists [(b.output, item.event)] base n) m := by
  have flow := flow_enlists
  -- The copy of the records, or what stands for it.
  have records : (b.copyIn slice queue input).Meets (fun _ => True)
      (fun _ n => Enlists [] base n) m := by
    unfold Batch.copyIn
    dsimp only
    split
    · refine fun n first => ⟨trivial, fun k second => ⟨trivial, ?_⟩⟩
      refine ((start.then (flow.evolves first)).then ?_).then (flow.evolves second)
      exact n.enlists_addEvent Status.complete_ne_pending
    · split
      · refine fun n first => ⟨trivial, fun k second => ⟨trivial, ?_⟩⟩
        refine Enlists.then ?_ (flow.evolves second)
        exact (start.then (flow.evolves first)).submit_unlisted queue "memcpy:h2d" [] _
          (List.mem_singleton.2 rfl) new.1 (by simp [Work.writes])
      · refine fun n first => ⟨trivial, fun k second => ⟨trivial, fun l third => ⟨trivial, ?_⟩⟩⟩
        refine ((start.then (flow.evolves (first.trans second))).then ?_).then (flow.evolves third)
        exact k.enlists_addEvent (Status.failed_ne_pending _)
  refine Host.Meets.bind (records.mono fun copied n _ first => ?_)
  refine Host.meets_call_bind fun n' second => ⟨trivial, ?_⟩
  have launched := (first.then (flow.evolves second)).submit_unlisted queue
    ("kernel:" ++ tables.algorithm.name) ([copied] ++ [tables.ready])
    (.launch ⟨tables.algorithm, input, output, tables.memory, b.recordLength, slice.count⟩)
    List.mem_cons_self new.1 (by simp [Work.writes])
  refine Host.meets_call_bind fun k third => ⟨trivial, ?_⟩
  rw [event_submit]
  have listed : ∀ buffer, .buffer buffer ∈ (Work.copyOut b.output
      (slice.offset * tables.algorithm.digestSize) output
      (tables.algorithm.digestSize * slice.count)).writes →
      (buffer, ⟨k.events.length⟩) ∈ [(b.output, (⟨k.events.length⟩ : EventId))] := by
    simp [Work.writes]
  have shared : tables.share.Always (Enlists []) := by
    unfold StagedTables.share
    split
    · exact flow.pure ()
    · exact flow.update fun m => m.enlists_addOwner _
  refine Host.Meets.bind ((shared _).mono fun _ l _ fourth => ?_)
  refine fun l' fifth => ⟨trivial, ?_⟩
  refine Enlists.then ?_ (flow.trans fourth (flow.evolves fifth))
  exact (launched.then (flow.evolves third)).submit queue _ _ _ List.mem_cons_self new.2 listed

theorem meets_dispatch_enlists (b : Batch) (slice : Slice) (queue : QueueId)
    (tables : StagedTables) : (b.dispatch slice queue tables).Meets (fun _ => True)
      (fun r n => (∀ e, r = .error e → Enlists [] m n) ∧
        ∀ item, r = .ok item → Enlists [(b.output, item.event)] m n) m := by
  have flow := flow_enlists
  unfold Batch.dispatch
  dsimp only
  refine Host.meets_call_bind fun n first => ⟨trivial, ?_⟩
  have before := flow.evolves first
  obtain ⟨allocated, new⟩ := n.enlists_allocate queue .device
    (max (Size.mulSaturating b.recordLength slice.count) 1)
  have opening := before.then allocated
  cases made : (n.allocate queue .device (max (Size.mulSaturating b.recordLength slice.count) 1)).1
  case error e =>
    exact fun k later => ⟨trivial, fun _ _ => opening.then (flow.evolves later), nofun⟩
  case ok input =>
    obtain rfl := new input made
    refine Host.meets_call_bind fun k second => ⟨trivial, ?_⟩
    obtain ⟨allocated, new⟩ := k.enlists_allocate queue .device
      (Size.mulSaturating tables.algorithm.digestSize slice.count)
    have between := opening.then (flow.evolves second)
    have opening := between.then allocated
    cases made' : (k.allocate queue .device
      (Size.mulSaturating tables.algorithm.digestSize slice.count)).1
    case error e =>
      exact fun l third => ⟨trivial, fun l' fourth => ⟨trivial, fun _ _ =>
        ((opening.then (flow.evolves third)).then (giving_enlists.release l _)).then
          (flow.evolves fourth), nofun⟩⟩
    case ok output =>
      obtain rfl := new output made'
      refine Host.Meets.bind ((b.meets_enqueue_enlists slice queue tables opening
        ⟨before.memories, between.memories⟩).mono fun item l _ entered => ?_)
      refine fun l' third => ⟨trivial, nofun, fun item' answer => ?_⟩
      obtain rfl := Except.ok.inj answer
      exact entered.then (flow.evolves third)

end Batch

/-- What a batch writes into buffers has the last events of its shares. -/
def Batch.writers (b : Batch) (items : List BatchItem) : List (BufferId × EventId) :=
  items.map fun item => (b.output, item.event)

/-- Each share puts jobs into its queue that use new memory, and of those that write into a buffer
the last step. -/
theorem Hasher.carries_enlists (b : Batch) (shares : List (Station × Slice)) :
    Hasher.Carries b (fun done n => Enlists (b.writers (done.map (·.2))) m n)
      (fun done _ _ n => Enlists (b.writers (done.map (·.2))) m n) shares := by
  intro done next later n _ entered
  refine (b.meets_dispatch_enlists _ _ _).mono fun r k _ goal => ⟨?_, ?_⟩
  · rintro item rfl
    have both := entered.trans (goal.2 item rfl)
    simpa [Batch.writers] using both
  · rintro e rfl
    refine (Handle.always_wait giving_enlists ⟨done.map (·.2)⟩ k).mono fun _ l _ joined => ?_
    exact (entered.then (goal.1 e rfl)).then joined

/-- **The jobs of a batch use new memory, and what writes into a buffer is the last step of a
share.** -/
theorem Hasher.meets_hash_enlists (h : Hasher) (b : Batch) :
    (h.hash b).Meets (fun _ => True) (Hasher.Outcome
      (fun done n => Enlists (b.writers (done.map (·.2))) m n)
      (fun done _ _ n => Enlists (b.writers (done.map (·.2))) m n) (h.shares b.count)) m :=
  Hasher.meets_hash h (Hasher.carries_enlists b _) fun _ first => flow_enlists.evolves first

end BatchDigest
