import BatchDigest.Proofs.Device.Footprint
import BatchDigest.Proofs.Device.Sound
import BatchDigest.Device.Access

/-!
# Calls of the host

The host acts on a machine by calls. `Call` lists them, with what the types of the interface ask
for: a caller names events, memories and buffers that exist, and queues that it holds. Only one of
them concerns jobs: `submit` puts a job behind those of its queue (`Submitted`). Every other call
leaves jobs and recorded events alone (`Steady`). Both keep `Machine.Sound`.
-/

namespace BatchDigest

namespace Machine

variable {m after : Machine} {q : QueueId}

/-! ## Calls that concern no job -/

/-- Every job and every event on record is as before; new events are resolved from the start. -/
structure Steady (m after : Machine) : Prop where
  activity : ∀ q, after.activity q = m.activity q
  waiting : ∀ q, after.waiting q = m.waiting q
  events : ∃ new : List Status, after.events = m.events ++ new ∧ ∀ s ∈ new, s ≠ .pending
  config : ∀ q queue, m.queue? q = some queue → (after.queue? q).map (·.config) = some queue.config

theorem Steady.pending (h : m.Steady after) (q : QueueId) : after.pending q = m.pending q := by
  unfold Machine.pending
  rw [h.activity, h.waiting]

theorem Steady.length_events (h : m.Steady after) : m.events.length ≤ after.events.length := by
  obtain ⟨new, events, _⟩ := h.events
  rw [events, List.length_append]
  exact Nat.le_add_right _ _

/-- An event on record keeps its status. -/
theorem Steady.status (h : m.Steady after) {e : EventId} (known : e.index < m.events.length) :
    after.status e = m.status e := by
  obtain ⟨new, events, _⟩ := h.events
  unfold Machine.status
  rw [events, List.getElem?_append_left known]

theorem Steady.held (h : m.Steady after) (q : QueueId) : after.held q = m.held q := by
  unfold Machine.held
  rw [h.activity, h.waiting]

/-- A status that is not pending belongs to an event on record. -/
theorem known_of_isResolved {e : EventId} (h : m.isResolved e = true) :
    e.index < m.events.length := by
  have ended := isResolved_iff.1 h
  by_cases known : e.index < m.events.length
  · exact known
  · unfold status at ended
    rw [List.getElem?_eq_none (Nat.le_of_not_lt known)] at ended
    exact absurd rfl ended

/-- Only events on record are pending after the call, but for those not on record then either. -/
theorem Steady.known_of_pending (h : m.Steady after) {e : EventId}
    (known : e.index < after.events.length) (pending : after.status e = .pending) :
    e.index < m.events.length := by
  obtain ⟨new, events, resolved⟩ := h.events
  by_cases old : e.index < m.events.length
  · exact old
  · have le := Nat.le_of_not_lt old
    unfold Machine.status at pending
    rw [events, List.length_append] at known
    rw [events, List.getElem?_append_right le] at pending
    have inside : e.index - m.events.length < new.length := by omega
    rw [List.getElem?_eq_getElem inside] at pending
    exact absurd pending (resolved _ (List.getElem_mem inside))

theorem Steady.refl (m : Machine) : m.Steady m :=
  ⟨fun _ => rfl, fun _ => rfl, ⟨[], by simp, nofun⟩, fun _ _ h => by rw [h]; rfl⟩

theorem Steady.trans {mid : Machine} (first : m.Steady mid) (second : mid.Steady after) :
    m.Steady after := by
  refine ⟨?_, ?_, ?_, ?_⟩
  · intro q
    rw [second.activity, first.activity]
  · intro q
    rw [second.waiting, first.waiting]
  · obtain ⟨a, ha, resolvedA⟩ := first.events
    obtain ⟨b, hb, resolvedB⟩ := second.events
    refine ⟨a ++ b, by rw [hb, ha, List.append_assoc], ?_⟩
    intro s hs
    rcases List.mem_append.1 hs with h | h
    · exact resolvedA s h
    · exact resolvedB s h
  · intro q queue found
    have config := first.config q queue found
    cases found' : mid.queue? q with
    | none => rw [found'] at config; cases config
    | some queue' =>
      rw [found'] at config
      rw [second.config q queue' found']
      exact config

/-- Queues stay. -/
theorem Steady.isSome_queue? (h : m.Steady after) (found : (m.queue? q).isSome) :
    (after.queue? q).isSome := by
  obtain ⟨queue, hq⟩ := Option.isSome_iff_exists.1 found
  have config := h.config q queue hq
  cases ha : after.queue? q with
  | none => rw [ha] at config; cases config
  | some new => rfl

/-- Queues keep their names. -/
theorem Steady.queueName (h : m.Steady after) (found : (m.queue? q).isSome) :
    after.queueName q = m.queueName q := by
  obtain ⟨queue, hq⟩ := Option.isSome_iff_exists.1 found
  have config := h.config q queue hq
  cases ha : after.queue? q with
  | none => rw [ha] at config; cases config
  | some new =>
    rw [ha] at config
    have same : new.config = queue.config := Option.some.inj config
    simp [Machine.queueName, ha, hq, same]

theorem Steady.sound (h : m.Steady after) (sound : m.Sound) : after.Sound := by
  refine sound.of_pending h.pending h.length_events (fun _ => h.status)
    (fun _ => h.known_of_pending) ?_ ?_
  · intro other job mem d hd
    rw [h.activity] at mem
    have complete := sound.started other job mem d hd
    rw [h.status (known_of_isResolved (isResolved_of_complete complete))]
    exact complete
  · intro other target left due closing
    rw [h.activity] at closing
    rw [h.queueName (isSome_queue?_of_activity (by rw [closing]; nofun))]
    exact sound.closers other target left due closing

/-- A machine with the queues and events of another one differs in nothing that concerns jobs. -/
theorem steady_of_queues (queues : after.queues = m.queues) (events : after.events = m.events) :
    m.Steady after := by
  have same : ∀ q, after.queue? q = m.queue? q := by
    intro q
    unfold queue?
    rw [queues]
  refine ⟨?_, ?_, ⟨[], by rw [events, List.append_nil], nofun⟩, ?_⟩
  · intro q
    unfold Machine.activity
    rw [same]
  · intro q
    unfold Machine.waiting
    rw [same]
  · intro q queue found
    rw [same, found]
    rfl

/-- A change of a queue that leaves its jobs and its configuration alone. -/
theorem steady_updateQueue (m : Machine) (q : QueueId) (change : Queue → Queue)
    (keeps : ∀ queue, (change queue).activity = queue.activity ∧
      (change queue).waiting = queue.waiting ∧ (change queue).config = queue.config) :
    m.Steady (m.updateQueue q change) := by
  refine ⟨?_, ?_, ⟨[], by simp, nofun⟩, ?_⟩
  · intro other
    unfold Machine.activity
    rw [queue?_updateQueue]
    split
    · cases m.queue? other with
      | none => rfl
      | some queue => simp [(keeps queue).1]
    · rfl
  · intro other
    unfold Machine.waiting
    rw [queue?_updateQueue]
    split
    · cases m.queue? other with
      | none => rfl
      | some queue => simp [(keeps queue).2.1]
    · rfl
  · intro other queue found
    rw [queue?_updateQueue, found]
    split
    · simp [(keeps queue).2.2]
    · rfl

theorem steady_addEvent (m : Machine) {s : Status} (resolved : s ≠ .pending) :
    m.Steady (m.addEvent s).2 := by
  refine ⟨fun _ => rfl, fun _ => rfl, ⟨[s], rfl, ?_⟩, fun _ _ h => by
    rw [show (m.addEvent s).2.queue? _ = m.queue? _ from rfl, h]; rfl⟩
  intro s' h
  cases List.mem_singleton.1 h
  exact resolved

theorem steady_addQueue (m : Machine) (config : QueueConfig) :
    m.Steady (m.addQueue config).2 := by
  have old : ∀ q, (m.addQueue config).2.queue? q =
      if q.index < m.queues.length then m.queue? q
      else if q.index = m.queues.length then some (.fresh config) else none := by
    intro q
    show (m.queues ++ [Queue.fresh config])[q.index]? = _
    unfold queue?
    rw [List.getElem?_append]
    split
    · rfl
    · split
      next h => rw [h, Nat.sub_self]; rfl
      next lt ne => exact List.getElem?_eq_none (by simp only [List.length_singleton]; omega)
  have none : ∀ q : QueueId, ¬ q.index < m.queues.length → m.queue? q = none := by
    intro q ge
    exact List.getElem?_eq_none (Nat.le_of_not_lt ge)
  refine ⟨?_, ?_, ⟨[], by simp [addQueue], nofun⟩, ?_⟩
  · intro q
    unfold Machine.activity
    rw [old]
    split
    · rfl
    · rw [none q (by assumption)]
      split <;> rfl
  · intro q
    unfold Machine.waiting
    rw [old]
    split
    · rfl
    · rw [none q (by assumption)]
      split <;> rfl
  · intro q queue found
    rw [old]
    split
    · rw [found]
      rfl
    · rw [none q (by assumption)] at found
      cases found

theorem steady_allocate (m : Machine) (q : QueueId) (kind : MemoryKind) (length : Nat) :
    m.Steady (m.allocate q kind length).2 := by
  unfold allocate
  cases m.queue? q with
  | none => exact .refl m
  | some queue =>
    have ledger := steady_updateQueue m q
      (fun old => { old with ledger := (queue.ledger.allocate kind length).2 })
      (fun _ => ⟨rfl, rfl, rfl⟩)
    dsimp only
    split
    · exact ledger
    · exact ledger.trans (steady_of_queues rfl rfl)

/-- An allocation that fails makes no memory. -/
theorem allocate_error {kind : MemoryKind} {length : Nat} {e : DeviceError}
    (h : (m.allocate q kind length).1 = .error e) :
    (m.allocate q kind length).2.memories = m.memories ∧
      (m.allocate q kind length).2.contents = m.contents := by
  unfold allocate at h ⊢
  split at h
  · exact ⟨rfl, rfl⟩
  · dsimp only at h ⊢
    split at h
    · exact ⟨rfl, rfl⟩
    · cases h

theorem steady_giveBack (m : Machine) (id : MemoryId) : m.Steady (m.giveBack id) := by
  unfold giveBack
  split
  · exact .refl m
  · exact steady_updateQueue m _ _ fun _ => ⟨rfl, rfl, rfl⟩

theorem steady_release (m : Machine) (id : MemoryId) : m.Steady (m.release id) := by
  have owner : m.Steady (m.dropOwner id).2 := steady_of_queues rfl rfl
  unfold release
  dsimp only
  split
  · exact owner.trans (steady_giveBack _ id)
  · exact owner

theorem steady_writeMemory (m : Machine) (id : MemoryId) (offset : Nat) (data : Bytes) :
    m.Steady (m.writeMemory id offset data).2 := by
  unfold writeMemory
  split
  · exact .refl m
  · split
    · exact steady_of_queues rfl rfl
    · exact .refl m

/-! ## Submission -/

/-- A job is put behind those of its queue, and its event is pending. Nothing else changes. -/
structure Submitted (m : Machine) (q : QueueId) (job : Job) (after : Machine) : Prop where
  found : (m.queue? q).isSome
  activity : ∀ other, after.activity other = m.activity other
  waiting : after.waiting q = m.waiting q ++ [job]
  others : ∀ other, other ≠ q → after.waiting other = m.waiting other
  event : job.event = ⟨m.events.length⟩
  events : after.events = m.events ++ [.pending]
  contents : after.contents = m.contents
  base : m.SameBase after
  handles : ∀ other, after.handles other = m.handles other

/-- The machine after a job was put into a queue that takes work. -/
theorem submitted_submit (label : String) (deps : List EventId) (work : Work)
    (taken : m.isClosed q = false) :
    m.Submitted q ⟨label, deps, ⟨m.events.length⟩, work⟩ (m.submit q label deps work).2 := by
  have found : ∃ queue, m.queue? q = some queue := by
    unfold isClosed at taken
    cases h : m.queue? q with
    | none => rw [h] at taken; cases taken
    | some queue => exact ⟨queue, rfl⟩
  obtain ⟨queue, found⟩ := found
  have accepted : (m.submit q label deps work).2 =
    (m.addEvent .pending).2.updateQueue q fun queue =>
      { queue with waiting := queue.waiting ++ [⟨label, deps, ⟨m.events.length⟩, work⟩] } := by
    unfold submit
    rw [if_neg (by rw [taken]; nofun)]
    rfl
  rw [accepted]
  have queues := fun other => queue?_updateQueue (m.addEvent .pending).2 q other
    fun queue : Queue =>
      { queue with waiting := queue.waiting ++ [⟨label, deps, ⟨m.events.length⟩, work⟩] }
  have before : ∀ other, (m.addEvent .pending).2.queue? other = m.queue? other := fun _ => rfl
  refine ⟨by rw [found]; rfl, ?activity, ?waiting, ?others, rfl, rfl, rfl,
    ⟨rfl, rfl, ?ledger, ?config⟩, ?handles⟩
  case activity =>
    intro other
    unfold Machine.activity
    rw [queues, before]
    split <;> cases m.queue? other <;> rfl
  case waiting =>
    unfold Machine.waiting
    rw [queues, before, if_pos rfl, found]
    rfl
  case others =>
    intro other ne
    unfold Machine.waiting
    rw [queues, before, if_neg ne]
  case ledger =>
    intro other
    unfold ledger?
    rw [queues, before]
    split <;> cases m.queue? other <;> rfl
  case config =>
    intro other
    rw [queues, before]
    split <;> cases m.queue? other <;> rfl
  case handles =>
    intro other
    unfold Machine.handles
    rw [queues, before]
    split <;> cases m.queue? other <;> rfl

/-- A closed queue takes no work, and the call concerns no job. -/
theorem steady_submit (label : String) (deps : List EventId) (work : Work)
    (closed : m.isClosed q = true) : m.Steady (m.submit q label deps work).2 := by
  unfold submit
  rw [if_pos closed]
  exact steady_addEvent m (Status.failed_ne_pending _)

theorem event_submit (m : Machine) (q : QueueId) (label : String) (deps : List EventId)
    (work : Work) : (m.submit q label deps work).1 = ⟨m.events.length⟩ := by
  unfold submit
  split <;> rfl

/-- A queue that somebody holds takes work. -/
theorem isClosed_of_handles (held : 0 < m.handles q) : m.isClosed q = false := by
  unfold handles at held
  unfold isClosed
  cases h : m.queue? q with
  | none => rw [h] at held; exact absurd held (Nat.lt_irrefl 0)
  | some queue =>
    rw [h] at held
    have held' : 0 < queue.handles := held
    have ne : (queue.handles == 0) = false := by simpa using Nat.ne_of_gt held'
    simp [ne]

namespace Submitted

variable {job : Job}

theorem pending (h : m.Submitted q job after) : after.pending q = m.pending q ++ [job] := by
  unfold Machine.pending
  rw [h.activity, h.waiting, List.append_assoc]

theorem pending_other (h : m.Submitted q job after) {other : QueueId} (ne : other ≠ q) :
    after.pending other = m.pending other := by
  unfold Machine.pending
  rw [h.activity, h.others other ne]

theorem mem_pending (h : m.Submitted q job after) {other : QueueId} {old : Job} :
    old ∈ after.pending other ↔ old ∈ m.pending other ∨ other = q ∧ old = job := by
  by_cases hq : other = q
  · subst hq
    rw [h.pending, List.mem_append, List.mem_singleton]
    simp
  · rw [h.pending_other hq]
    simp [hq]

/-- The handles that the new job carries come behind those of the older jobs of its queue. -/
theorem held (h : m.Submitted q job after) : after.held q = m.held q ++ job.work.held := by
  unfold Machine.held
  rw [h.activity, h.waiting, List.flatMap_append, List.flatMap_singleton, List.append_assoc]

theorem held_other (h : m.Submitted q job after) {other : QueueId} (ne : other ≠ q) :
    after.held other = m.held other := by
  unfold Machine.held
  rw [h.activity, h.others other ne]

/-- A job that carries no handle changes nothing of who carries what. -/
theorem held_of_carefree (h : m.Submitted q job after) (carefree : job.work.held = [])
    (other : QueueId) : after.held other = m.held other := by
  by_cases same : other = q
  · rw [same, h.held, carefree, List.append_nil]
  · exact h.held_other same

theorem status (h : m.Submitted q job after) {e : EventId} (known : e.index < m.events.length) :
    after.status e = m.status e := by
  unfold Machine.status
  rw [h.events, List.getElem?_append_left known]

theorem status_new (h : m.Submitted q job after) : after.status job.event = .pending := by
  unfold Machine.status
  rw [h.events, h.event, List.getElem?_append_right (Nat.le_refl _), Nat.sub_self]
  rfl

/-- No event changes its status: that of the job is pending, as are all that are not on record. -/
theorem status_eq (h : m.Submitted q job after) (e : EventId) : after.status e = m.status e := by
  by_cases known : e.index < m.events.length
  · exact h.status known
  · have old : m.status e = .pending := by
      unfold Machine.status
      rw [List.getElem?_eq_none (Nat.le_of_not_lt known)]
      rfl
    rw [old]
    unfold Machine.status
    rw [h.events, List.getElem?_append_right (Nat.le_of_not_lt known)]
    cases e.index - m.events.length <;> rfl

/-- The event of an older job is older. -/
theorem index_lt (h : m.Submitted q job after) (sound : m.Sound) {other : QueueId} {old : Job}
    (mem : old ∈ m.pending other) : old.event.index < job.event.index := by
  rw [h.event]
  exact sound.known other old mem

theorem sound (h : m.Submitted q job after) (sound : m.Sound)
    (deps : ∀ d ∈ job.deps, d.index < m.events.length) : after.Sound := by
  have length : after.events.length = m.events.length + 1 := by
    rw [h.events, List.length_append, List.length_singleton]
  refine ⟨?known, ?due, ?owed, ?apart, ?ordered, ?earlier, ?started, ?closers⟩
  case known =>
    intro other old mem
    rw [length]
    rcases h.mem_pending.1 mem with old' | ⟨_, rfl⟩
    · exact Nat.lt_succ_of_lt (sound.known other old old')
    · rw [h.event]
      exact Nat.lt_succ_self _
  case due =>
    intro other old mem
    rcases h.mem_pending.1 mem with old' | ⟨_, rfl⟩
    · rw [h.status (sound.known other old old')]
      exact sound.due other old old'
    · exact h.status_new
  case owed =>
    intro e known pending
    by_cases old : e.index < m.events.length
    · rw [h.status old] at pending
      obtain ⟨other, job', mem, same⟩ := sound.owed e old pending
      exact ⟨other, job', h.mem_pending.2 (.inl mem), same⟩
    · refine ⟨q, job, h.mem_pending.2 (.inr ⟨rfl, rfl⟩), ?_⟩
      apply EventId.eq_of_index
      rw [h.event]
      show m.events.length = e.index
      omega
  case apart =>
    intro a b job₁ mem₁ job₂ mem₂ same
    rcases h.mem_pending.1 mem₁ with old₁ | ⟨rfl, rfl⟩ <;>
      rcases h.mem_pending.1 mem₂ with old₂ | ⟨rfl, rfl⟩
    · exact sound.apart a b job₁ old₁ job₂ old₂ same
    · have lt := h.index_lt sound old₁
      rw [same] at lt
      exact absurd lt (Nat.lt_irrefl _)
    · have lt := h.index_lt sound old₂
      rw [same] at lt
      exact absurd lt (Nat.lt_irrefl _)
    · rfl
  case ordered =>
    intro other
    by_cases hq : other = q
    · subst hq
      rw [h.pending]
      refine List.pairwise_append.2 ⟨sound.ordered other, List.pairwise_singleton _ _, ?_⟩
      intro old mem new last
      cases List.mem_singleton.1 last
      exact h.index_lt sound mem
    · rw [h.pending_other hq]
      exact sound.ordered other
  case earlier =>
    intro other old mem
    rcases h.mem_pending.1 mem with old' | ⟨_, rfl⟩
    · exact sound.earlier other old old'
    · rw [h.event]
      exact deps
  case started =>
    intro other old mem d hd
    rw [h.activity] at mem
    have complete := sound.started other old mem d hd
    rw [h.status (known_of_isResolved (isResolved_of_complete complete))]
    exact complete
  case closers =>
    intro other target left due closing
    rw [h.activity] at closing
    rw [h.base.queueName]
    exact sound.closers other target left due closing

end Submitted

end Machine

/-! ## The calls of the interface -/

/-- A call of the host on the interface of devices. -/
inductive Call where
  | createQueue (config : QueueConfig)
  | holdQueue (queue : QueueId)
  | dropQueue (queue : QueueId)
  /-- An event that is complete, or has failed, from the start. -/
  | createEvent (fault? : Option Fault)
  | submit (queue : QueueId) (label : String) (deps : List EventId) (work : Work)
  | createBuffer (bytes : Bytes)
  | writeBuffer (buffer : BufferId) (bytes : Bytes)
  | createGate
  | openGate (gate : GateId)
  | allocate (queue : QueueId) (kind : MemoryKind) (length : Nat)
  | holdMemory (memory : MemoryId)
  | dropMemory (memory : MemoryId)
  | giveBack (memory : MemoryId)
  | release (memory : MemoryId)
  | writeMemory (memory : MemoryId) (offset : Nat) (data : Bytes)

namespace Call

/-- The machine after a call. -/
def apply (m : Machine) : Call → Machine
  | createQueue config => (m.addQueue config).2
  | holdQueue queue => m.addHandle queue
  | dropQueue queue => (m.dropHandle queue).2
  | createEvent none => (m.addEvent .complete).2
  | createEvent (some fault) => (m.addEvent (.failed fault)).2
  | submit queue label deps work => (m.submit queue label deps work).2
  | createBuffer bytes => (m.addBuffer bytes).2
  | writeBuffer buffer bytes => { m with contents := m.contents.setBuffer buffer bytes }
  | createGate => m.addGate.2
  | openGate gate => m.openGate gate
  | allocate queue kind length => (m.allocate queue kind length).2
  | holdMemory memory => m.addOwner memory
  | dropMemory memory => (m.dropOwner memory).2
  | giveBack memory => m.giveBack memory
  | release memory => m.release memory
  | writeMemory memory offset data => (m.writeMemory memory offset data).2

/-- What a caller vouches for: it holds the queue that it names, and the events, memories and
buffers that it names exist. -/
def Allowed (m : Machine) : Call → Prop
  | holdQueue queue | dropQueue queue => 0 < m.handles queue
  | submit queue _ deps work => 0 < m.handles queue ∧ (∀ d ∈ deps, d.index < m.events.length) ∧
      ∀ r ∈ work.touches, m.Holds r
  | _ => True

/-- Whether a call puts a job into a queue. -/
def IsSubmission : Call → Prop
  | submit .. => True
  | _ => False

/-- A call other than a submission concerns no job. -/
theorem steady (m : Machine) (c : Call) (other : ¬ c.IsSubmission) : m.Steady (c.apply m) := by
  cases c with
  | submit => exact absurd trivial other
  | createQueue config => exact m.steady_addQueue config
  | holdQueue queue => exact m.steady_updateQueue queue _ fun _ => ⟨rfl, rfl, rfl⟩
  | dropQueue queue => exact m.steady_updateQueue queue _ fun _ => ⟨rfl, rfl, rfl⟩
  | createEvent fault? => cases fault? <;> exact m.steady_addEvent nofun
  | createBuffer | writeBuffer | createGate | openGate | holdMemory | dropMemory =>
    exact Machine.steady_of_queues rfl rfl
  | allocate queue kind length => exact m.steady_allocate queue kind length
  | giveBack memory => exact m.steady_giveBack memory
  | release memory => exact m.steady_release memory
  | writeMemory memory offset data => exact m.steady_writeMemory memory offset data

end Call

end BatchDigest
