import BatchDigest.Proofs.Device.History
import BatchDigest.Proofs.Device.Plan

/-!
# Calls about events, memories and handles

None of these calls disturbs a job: they are quiet. An allocation brings a memory of zeros that no
pending job names, so its length stands from the start. Whatever the calls are, jobs name regions
that exist in every machine that calls and workers lead to.
-/

namespace BatchDigest

namespace Machine

variable {m after : Machine} {q : QueueId}

/-- A call that leaves the contents alone, and makes and takes no memory. -/
theorem Steady.quiet (steady : m.Steady after)
    (memories : after.memories.length = m.memories.length) (contents : after.contents = m.contents)
    (handles : ∀ q, m.handles q ≤ after.handles q) : m.Quiet after := by
  refine ⟨⟨steady, ?_, ?_, fun aligned => by rw [contents, memories, aligned]⟩, handles⟩
  · intro r held
    cases r with
    | memory id =>
      show id.index < after.memories.length
      rw [memories]
      exact held
    | buffer id =>
      show id.index < after.contents.buffers.length
      rw [contents]
      exact held
    | log => trivial
  · intro r _
    rw [contents]
    exact .refl _ r

theorem quiet_addEvent (m : Machine) {s : Status} (resolved : s ≠ .pending) :
    m.Quiet (m.addEvent s).2 :=
  (m.steady_addEvent resolved).quiet rfl rfl fun _ => Nat.le_refl _

theorem quiet_updateQueue (m : Machine) (q : QueueId) (change : Queue → Queue)
    (keeps : ∀ queue, (change queue).activity = queue.activity ∧
      (change queue).waiting = queue.waiting ∧ (change queue).config = queue.config)
    (handles : ∀ queue, queue.handles ≤ (change queue).handles) :
    m.Quiet (m.updateQueue q change) :=
  (m.steady_updateQueue q change keeps).quiet rfl rfl (m.handles_updateQueue q change handles)

theorem quiet_addHandle (m : Machine) (q : QueueId) : m.Quiet (m.addHandle q) :=
  m.quiet_updateQueue q _ (fun _ => ⟨rfl, rfl, rfl⟩) fun _ => Nat.le_succ _

theorem quiet_updateMemory (m : Machine) (id : MemoryId) (change : Memory → Memory) :
    m.Quiet (m.updateMemory id change) :=
  have steady : m.Steady (m.updateMemory id change) := steady_of_queues rfl rfl
  steady.quiet (by simp [updateMemory]) rfl fun _ => Nat.le_refl _

theorem quiet_addOwner (m : Machine) (id : MemoryId) : m.Quiet (m.addOwner id) :=
  m.quiet_updateMemory id _

theorem quiet_dropOwner (m : Machine) (id : MemoryId) : m.Quiet (m.dropOwner id).2 :=
  m.quiet_updateMemory id _

theorem quiet_giveBack (m : Machine) (id : MemoryId) : m.Quiet (m.giveBack id) := by
  unfold giveBack
  split
  · exact (Steady.refl m).quiet rfl rfl fun _ => Nat.le_refl _
  · exact m.quiet_updateQueue _ _ (fun _ => ⟨rfl, rfl, rfl⟩) fun _ => Nat.le_refl _

theorem Quiet.trans {mid : Machine} (first : m.Quiet mid) (second : mid.Quiet after) :
    m.Quiet after :=
  ⟨⟨first.steady.trans second.steady, fun r held => second.holds r (first.holds r held),
    fun r held => (second.agrees r (first.holds r held)).trans (first.agrees r held),
    fun aligned => second.aligned (first.aligned aligned)⟩,
    fun q => Nat.le_trans (first.handles q) (second.handles q)⟩

theorem quiet_release (m : Machine) (id : MemoryId) : m.Quiet (m.release id) := by
  unfold release
  dsimp only
  split
  · exact (m.quiet_dropOwner id).trans (quiet_giveBack _ id)
  · exact m.quiet_dropOwner id

/-! ## Allocations -/

/-- What an allocation that succeeds does. -/
structure Allocates (m : Machine) (length : Nat) (id : MemoryId) (after : Machine) : Prop where
  id : id = ⟨m.memories.length⟩
  memories : after.memories.length = m.memories.length + 1
  contents : after.contents =
    { m.contents with memories := m.contents.memories ++ [Bytes.zeros length] }
  backable : length < 9223372036854775808

theorem allocate_ok (kind : MemoryKind) {length : Nat} {id : MemoryId}
    (h : (m.allocate q kind length).1 = .ok id) :
    m.Allocates length id (m.allocate q kind length).2 := by
  unfold allocate at h ⊢
  cases hq : m.queue? q with
  | none => rw [hq] at h; cases h
  | some queue =>
    rw [hq] at h
    dsimp only at h ⊢
    cases ho : (queue.ledger.allocate kind length).1 with
    | error e => rw [ho] at h; cases h
    | ok allocation =>
      rw [ho] at h
      cases h
      refine ⟨rfl, by simp, rfl, ?_⟩
      -- The ledger gives an identifier only for a length that can be backed.
      unfold Ledger.allocate at ho
      split at ho
      · cases ho
      · split at ho
        · cases ho
        · split at ho
          next back => simpa [Ledger.isBackable] using back
          next => cases ho

theorem handles_allocate (m : Machine) (q : QueueId) (kind : MemoryKind) (length : Nat)
    (p : QueueId) : m.handles p ≤ (m.allocate q kind length).2.handles p := by
  unfold allocate
  split
  · exact Nat.le_refl _
  next queue _ =>
    have kept := m.handles_updateQueue q
      (fun old => { old with ledger := (queue.ledger.allocate kind length).2 })
      (fun _ => Nat.le_refl _) p
    dsimp only
    split <;> exact kept

theorem quiet_allocate (m : Machine) (q : QueueId) (kind : MemoryKind) (length : Nat)
    (aligned : m.contents.memories.length = m.memories.length) :
    m.Quiet (m.allocate q kind length).2 := by
  have steady := m.steady_allocate q kind length
  have handles := m.handles_allocate q kind length
  cases ho : (m.allocate q kind length).1 with
  | error e =>
    have same := allocate_error ho
    exact steady.quiet (by rw [same.1]) same.2 handles
  | ok id =>
    have made := allocate_ok kind ho
    refine ⟨⟨steady, ?_, ?_, ?_⟩, handles⟩
    · intro r held
      cases r with
      | memory old =>
        show old.index < _
        rw [made.memories]
        exact Nat.lt_succ_of_lt held
      | buffer old =>
        show old.index < _
        rw [made.contents]
        exact held
      | log => trivial
    · intro r held
      rw [made.contents]
      cases r with
      | memory old =>
        have lt : old.index < m.contents.memories.length := by
          rw [aligned]
          exact held
        exact List.getElem?_append_left lt
      | buffer old => rfl
      | log => rfl
    · intro _
      rw [made.contents, made.memories, ← aligned, List.length_append, List.length_singleton]

end Machine

theorem Place.memory_decides {id : MemoryId} (fact : Bytes → Prop) :
    (Place.memory id).Decides fun c => fact (c.memory id) := by
  intro c c' same hold
  have eq : c'.memory id = c.memory id := same
  rw [eq]
  exact hold

/-- The length of a new memory stands. -/
theorem Machine.Allocates.stands {m after : Machine} {queues : List QueueId}
    {name : QueueId → String} {length : Nat} {id : MemoryId} (h : m.Allocates length id after)
    (serving : m.Serving queues name) (quiet : m.Quiet after) :
    after.Stands (.memory id) fun c => (c.memory id).length = length := by
  have index : id.index = m.memories.length := by rw [h.id]
  refine ⟨?_, ?_, Place.memory_decides fun bytes => bytes.length = length, ?_⟩
  · show id.index < after.memories.length
    rw [h.memories, index]
    exact Nat.lt_succ_self _
  · intro p job mem
    rw [quiet.steady.pending] at mem
    refine Work.spares_of_not_mem fun writes => ?_
    have held : id.index < m.memories.length :=
      serving.inside p job mem _ (Work.mem_touches_of_mem_writes writes)
    omega
  · have last : after.contents.memory id = Bytes.zeros length := by
      rw [h.contents]
      unfold Contents.memory
      rw [index, ← serving.aligned, List.getElem?_append_right (Nat.le_refl _), Nat.sub_self]
      rfl
    show (after.contents.memory id).length = length
    rw [last]
    exact List.length_replicate

section

variable {m n after : Machine} {queues : List QueueId} {name : QueueId → String} {length : Nat}
  {id : MemoryId}

/-- An allocation brings a new memory, also after steps of workers. -/
theorem Machine.Allocates.new (h : n.Allocates length id after) (first : m.Evolves n)
    (serving : m.Serving queues name) : m.memories.length ≤ id.index := by
  rw [h.id]
  exact (Machine.Passes.of_evolves (e := .nothing) first).drifts.length_memories serving

/-- The memory of a later allocation is another one. -/
theorem Machine.Allocates.newer {later last : Machine} {more : Nat} {other : MemoryId}
    (h : n.Allocates length id after) (second : after.Evolves later)
    (serving : after.Serving queues name) (next : later.Allocates more other last) :
    id.index < other.index := by
  have new := next.new second serving
  rw [h.memories] at new
  rw [h.id]
  exact new

end

/-- An allocation, and what follows: it fails, or there is a new memory. -/
theorem Host.meets_allocate_bind {m : Machine} {queues : List QueueId} {name : QueueId → String}
    (serving : m.Serving queues name) {q : QueueId} {kind : MemoryKind} {length : Nat} {β : Type}
    {next : Except DeviceError MemoryId → Host β} {goal : β → Machine → Prop}
    (failed : ∀ e n after, m.Evolves n → n.Quiet after →
      (next (.error e)).Meets (fun _ => True) goal after)
    (made : ∀ id n after, m.Evolves n → n.Allocates length id after → n.Quiet after →
      (next (.ok id)).Meets (fun _ => True) goal after) :
    (call (·.allocate q kind length) >>= next).Meets (fun _ => True) goal m := by
  refine meets_call_bind fun n first => ⟨trivial, ?_⟩
  have quiet := n.quiet_allocate q kind length (serving.evolves first).aligned
  cases outcome : (n.allocate q kind length).1 with
  | error e => exact failed e n _ first quiet
  | ok id => exact made id n _ first (Machine.allocate_ok kind outcome) quiet

/-! ## Machines that calls and workers lead to -/

/-- A call other than a submission keeps the regions. -/
theorem Call.holds {m : Machine} (c : Call) (other : ¬ c.IsSubmission)
    (aligned : m.contents.memories.length = m.memories.length) :
    (∀ r, m.Holds r → (c.apply m).Holds r) ∧
      (c.apply m).contents.memories.length = (c.apply m).memories.length := by
  have ofQuiet : ∀ {after : Machine}, m.Quiet after → (∀ r, m.Holds r → after.Holds r) ∧
      after.contents.memories.length = after.memories.length :=
    fun quiet => ⟨quiet.holds, quiet.aligned aligned⟩
  cases c with
  | submit => exact absurd trivial other
  | holdQueue queue => exact ofQuiet (m.quiet_addHandle queue)
  | createEvent fault? => cases fault? <;> exact ofQuiet (m.quiet_addEvent nofun)
  | allocate queue kind length => exact ofQuiet (m.quiet_allocate queue kind length aligned)
  | holdMemory memory => exact ofQuiet (m.quiet_addOwner memory)
  | dropMemory memory => exact ofQuiet (m.quiet_dropOwner memory)
  | giveBack memory => exact ofQuiet (m.quiet_giveBack memory)
  | release memory => exact ofQuiet (m.quiet_release memory)
  | createQueue | dropQueue | createGate | openGate =>
    exact ⟨fun r held => by cases r <;> exact held, aligned⟩
  | createBuffer bytes =>
    refine ⟨fun r held => ?_, aligned⟩
    cases r with
    | buffer id =>
      show id.index < (m.contents.buffers ++ [bytes]).length
      rw [List.length_append]
      exact Nat.lt_add_right _ held
    | memory | log => exact held
  | writeBuffer buffer bytes =>
    refine ⟨fun r held => ?_, aligned⟩
    cases r with
    | buffer id =>
      show id.index < (m.contents.buffers.set buffer.index bytes).length
      rw [List.length_set]
      exact held
    | memory | log => exact held
  | writeMemory memory offset data =>
    show (∀ r, m.Holds r → (m.writeMemory memory offset data).2.Holds r) ∧
      (m.writeMemory memory offset data).2.contents.memories.length =
        (m.writeMemory memory offset data).2.memories.length
    unfold Machine.writeMemory
    split
    · exact ⟨fun _ => id, aligned⟩
    · split
      next contents copied =>
        have performed :
            (Work.copyIn memory offset data).perform m.contents = .success contents := by
          show Outcome.ofExcept m.contents
            ((m.contents.copyIn memory offset data).mapError WorkError.copy) = _
          rw [copied]
          rfl
        have lengths := (Work.copyIn memory offset data).length_perform m.contents
        rw [performed] at lengths
        refine ⟨fun r held => ?_, lengths.1.trans aligned⟩
        cases r with
        | buffer id =>
          show id.index < contents.buffers.length
          rw [show contents.buffers.length = _ from lengths.2]
          exact held
        | memory | log => exact held
      · exact ⟨fun _ => id, aligned⟩

/-- Jobs name regions that exist, whatever calls were made. -/
theorem Trace.serving_of_reaches {t : Trace} (run : Reaches .start t) (name : QueueId → String) :
    t.machine.Serving [] name := by
  induction run with
  | refl => exact ⟨Machine.sound_empty, rfl, nofun, nofun, nofun⟩
  | step _ step ih =>
    cases step with
    | worker q after step => exact ih.advance step
    | call c allowed =>
      by_cases submission : c.IsSubmission
      · cases c with
        | submit queue label deps work =>
          obtain ⟨held, known, holds⟩ := allowed
          have taken := Machine.isClosed_of_handles held
          exact ih.submit (Machine.submitted_submit label deps work taken) known holds nofun
        | _ => exact absurd submission id
      · have kept := c.holds submission ih.aligned
        exact ih.of_steady (c.steady _ submission) kept.1 kept.2

/-- Queues serve that have a handle that no job carries. -/
theorem Trace.serving_of_carried {t : Trace} (run : Reaches .start t) {queues : List QueueId}
    (held : ∀ q ∈ queues, t.machine.carried q < t.machine.handles q) :
    t.machine.Serving queues t.machine.queueName := by
  have base := Trace.serving_of_reaches run t.machine.queueName
  exact ⟨base.sound, base.aligned, base.inside, held, fun _ _ => rfl⟩

/-- Queues serve that the host holds by handles that no job carries. -/
theorem Trace.serving_of_held {t : Trace} (run : Reaches .start t) {queues : List QueueId}
    (held : ∀ q ∈ queues, 0 < t.machine.handles q)
    (kept : ∀ target ∈ queues, ∀ q, target ∉ t.machine.held q) :
    t.machine.Serving queues t.machine.queueName := by
  refine Trace.serving_of_carried run fun q mem => ?_
  rw [Machine.carried_eq_zero (kept q mem)]
  exact held q mem

end BatchDigest
