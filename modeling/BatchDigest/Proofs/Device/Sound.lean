import BatchDigest.Proofs.Device.Turn

/-!
# The standing invariant of the machine

`Machine.Sound` ties the three places together that know of a job: the waiting jobs of its queue,
the activity of the worker and the status of its event. A job is in a queue as long as its event is
pending, and in one place of one queue only; the jobs of a queue stand in the order of their events;
dependencies are older than the job; and what a worker has taken up had all dependencies complete.

`Machine.Turn.settles` says what a step means for the jobs, without the activity of the worker:
either no job ends, or the first pending job of one queue does, skipped or performed. Later proofs
use that and do not look at the six moves any more.
-/

namespace BatchDigest

theorem EventId.eq_of_index {a b : EventId} (h : a.index = b.index) : a = b := by
  cases a
  cases b
  cases h
  rfl

theorem Status.complete_ne_pending : Status.complete ≠ .pending := nofun

theorem Status.failed_ne_pending (fault : Fault) : Status.failed fault ≠ .pending := nofun

theorem Job.verdict_ne_pending (job : Job) (device : String) (failure : Option WorkError) :
    job.verdict device failure ≠ .pending := by
  unfold verdict
  split
  · exact Status.complete_ne_pending
  · exact Status.failed_ne_pending _

/-- The work of a job carried handles, so that it is plain, and it came to the status that is
due. -/
structure Due.Settled (due : Due) (device : String) : Prop where
  carries : due.job.work.held ≠ []
  status : ∀ c, due.status = due.job.verdict device (due.job.work.perform c).failure

namespace Machine

variable {m after : Machine} {q : QueueId}

/-! ## Statuses -/

/-- The status of an event that is on record is read off the list. -/
theorem status_of_events (h : after.events = m.events) (e : EventId) :
    after.status e = m.status e := by
  unfold status
  rw [h]

/-- After one event of the record was resolved, the others are as before. -/
theorem status_of_set {event : EventId} {s : Status} (known : event.index < m.events.length)
    (h : after.events = m.events.set event.index s) (e : EventId) :
    after.status e = if e = event then s else m.status e := by
  unfold status
  rw [h, List.getElem?_set]
  by_cases he : e = event
  · subst he
    simp [known]
  · have hi : event.index ≠ e.index := fun i => he (EventId.eq_of_index i.symm)
    simp [he, hi]

theorem status_addEvent (m : Machine) (status : Status) :
    (m.addEvent status).2.status ⟨m.events.length⟩ = status := by
  show (m.events ++ [status])[m.events.length]?.getD .pending = status
  rw [List.getElem?_append_right (Nat.le_refl _), Nat.sub_self]
  rfl

theorem length_events_addEvent (m : Machine) (status : Status) :
    (m.addEvent status).2.events.length = m.events.length + 1 := by
  simp [addEvent]

theorem isResolved_iff {e : EventId} : m.isResolved e = true ↔ m.status e ≠ .pending := by
  unfold isResolved
  cases m.status e <;> simp [Status.isResolved]

theorem isResolved_of_complete {e : EventId} (h : m.status e = .complete) : m.isResolved e = true :=
  isResolved_iff.2 (h ▸ Status.complete_ne_pending)

theorem isResolved_of_failed {e : EventId} {fault : Fault} (h : m.status e = .failed fault) :
    m.isResolved e = true :=
  isResolved_iff.2 (h ▸ Status.failed_ne_pending fault)

theorem isResolved_of_status {e : EventId} (same : after.status e = m.status e)
    (ended : m.isResolved e = true) : after.isResolved e = true := by
  rw [isResolved_iff, same]
  exact isResolved_iff.1 ended

/-- An event that was made resolved. -/
theorem isResolved_addEvent (m : Machine) {s : Status} (resolved : s ≠ .pending) :
    (m.addEvent s).2.isResolved (m.addEvent s).1 = true := by
  have status := m.status_addEvent s
  exact isResolved_iff.2 fun pending => resolved (status.symm.trans pending)

theorem status_of_not_isResolved {e : EventId} (due : ¬ m.isResolved e = true) :
    m.status e = .pending :=
  Decidable.byContradiction fun ended => due (isResolved_iff.2 ended)

/-- A search for the first answer depends on the answers only. -/
theorem findSome?_congr {α β : Type} {f g : α → Option β} {items : List α}
    (same : ∀ x ∈ items, f x = g x) : items.findSome? f = items.findSome? g := by
  induction items with
  | nil => rfl
  | cons x rest ih =>
    rw [List.findSome?_cons, List.findSome?_cons, same x List.mem_cons_self,
      ih fun y hy => same y (List.mem_cons_of_mem x hy)]

/-- The first fault of events depends on their statuses only. -/
theorem firstFault?_congr {deps : List EventId} (same : ∀ d ∈ deps, after.status d = m.status d) :
    after.firstFault? deps = m.firstFault? deps :=
  findSome?_congr fun d hd => by rw [same d hd]

/-- Complete events have no fault among them. -/
theorem firstFault?_eq_none {deps : List EventId} (complete : ∀ d ∈ deps, m.status d = .complete) :
    m.firstFault? deps = none := by
  refine List.findSome?_eq_none_iff.2 ?_
  intro d hd
  rw [complete d hd]
  rfl

/-- What holds of the jobs of every machine that calls and workers lead to. -/
structure Sound (m : Machine) : Prop where
  /-- The event of a pending job is on record. -/
  known : ∀ q, ∀ job ∈ m.pending q, job.event.index < m.events.length
  /-- The event of a pending job is pending. -/
  due : ∀ q, ∀ job ∈ m.pending q, m.status job.event = .pending
  /-- A pending event belongs to a pending job. -/
  owed : ∀ e : EventId, e.index < m.events.length → m.status e = .pending →
    ∃ q, ∃ job ∈ m.pending q, job.event = e
  /-- No event belongs to jobs of two queues. -/
  apart : ∀ q other, ∀ job ∈ m.pending q, ∀ job' ∈ m.pending other,
    job.event = job'.event → q = other
  /-- The jobs of a queue stand in the order of their events. -/
  ordered : ∀ q, (m.pending q).Pairwise fun a b => a.event.index < b.event.index
  /-- The dependencies of a job were on record before it. -/
  earlier : ∀ q, ∀ job ∈ m.pending q, ∀ d ∈ job.deps, d.index < job.event.index
  /-- What a worker has taken up had all its dependencies complete. -/
  started : ∀ q, ∀ job ∈ (m.activity q).current, ∀ d ∈ job.deps, m.status d = .complete
  /-- What is due when a worker comes back from the queues that it waits for is what the work of its
  job came to. -/
  closers : ∀ q target left due, m.activity q = .closing target left (some due) →
    due.Settled (m.queueName q)

/-- In a list of jobs in the order of their events, jobs with one event are one job. -/
theorem eq_of_ordered {jobs : List Job}
    (ordered : jobs.Pairwise fun a b => a.event.index < b.event.index) {a b : Job} (ha : a ∈ jobs)
    (hb : b ∈ jobs) (same : a.event = b.event) : a = b := by
  have pairs := List.pairwise_iff_getElem.1 ordered
  obtain ⟨i, hi, rfl⟩ := List.getElem_of_mem ha
  obtain ⟨j, hj, rfl⟩ := List.getElem_of_mem hb
  rcases Nat.lt_trichotomy i j with lt | rfl | gt
  · have older := pairs i j hi hj lt
    rw [same] at older
    exact absurd older (Nat.lt_irrefl _)
  · rfl
  · have older := pairs j i hj hi gt
    rw [same] at older
    exact absurd older (Nat.lt_irrefl _)

/-- Pending jobs with one event are one job. -/
theorem Sound.job_unique (sound : m.Sound) {other : QueueId} {a b : Job} (ha : a ∈ m.pending q)
    (hb : b ∈ m.pending other) (same : a.event = b.event) : q = other ∧ a = b := by
  have hq := sound.apart q other a ha b hb same
  subst hq
  exact ⟨rfl, eq_of_ordered (sound.ordered q) ha hb same⟩

/-- The machine without queues and events is sound. -/
theorem sound_empty : Sound empty := by
  have none : ∀ q, empty.pending q = [] := by
    intro q
    rfl
  constructor
  all_goals intros
  all_goals simp_all [empty, activity, queue?, Activity.current]

/-! ## What a step means for the jobs -/

/-- What no worker ever changes. -/
structure SameBase (m after : Machine) : Prop where
  memories : after.memories = m.memories
  gates : after.gates = m.gates
  ledger : ∀ q, after.ledger? q = m.ledger? q
  config : ∀ q, (after.queue? q).map (·.config) = (m.queue? q).map (·.config)

theorem SameBase.queueName (h : m.SameBase after) (q : QueueId) :
    after.queueName q = m.queueName q := by
  have config := h.config q
  unfold Machine.queueName
  cases ha : after.queue? q <;> cases hm : m.queue? q <;> simp_all

/-- Whether a queue exists does not change. -/
theorem SameBase.isSome_queue? (h : m.SameBase after) (q : QueueId) :
    (after.queue? q).isSome = (m.queue? q).isSome := by
  have config := h.config q
  cases ha : after.queue? q <;> cases hm : m.queue? q <;> simp_all

/-- No job is over. -/
structure Rests (m after : Machine) : Prop where
  pending : ∀ q, after.pending q = m.pending q
  events : after.events = m.events
  contents : after.contents = m.contents
  base : m.SameBase after

/-- What the end of a job does to its event and to the contents: it is skipped after a fault, or it
is performed. -/
inductive Verdict (m : Machine) (q : QueueId) (job : Job) : Status → Contents → Prop
  | skipped (fault : Fault) (ready : ∀ d ∈ job.deps, m.isResolved d)
      (failed : m.firstFault? job.deps = some fault) : Verdict m q job (.failed fault) m.contents
  | performed (ready : ∀ d ∈ job.deps, m.status d = .complete) :
      Verdict m q job (job.verdict (m.queueName q) (job.work.perform m.contents).failure)
        (job.work.perform m.contents).result

/-- The end of a job in terms of its dependencies. -/
theorem Verdict.cases {job : Job} {s : Status} {c : Contents} (h : m.Verdict q job s c) :
    (∀ d ∈ job.deps, m.isResolved d) ∧
      ((∃ fault, m.firstFault? job.deps = some fault ∧ s = .failed fault ∧ c = m.contents) ∨
        m.firstFault? job.deps = none ∧
          s = job.verdict (m.queueName q) (job.work.perform m.contents).failure ∧
          c = (job.work.perform m.contents).result) := by
  cases h with
  | skipped fault ready failed => exact ⟨ready, .inl ⟨fault, failed, rfl, rfl⟩⟩
  | performed ready =>
    exact ⟨fun d hd => isResolved_of_complete (ready d hd),
      .inr ⟨firstFault?_eq_none ready, rfl, rfl⟩⟩

/-- A job whose dependencies are complete is performed. -/
theorem Verdict.of_complete {job : Job} {s : Status} {c : Contents} (h : m.Verdict q job s c)
    (complete : ∀ d ∈ job.deps, m.status d = .complete) :
    s = job.verdict (m.queueName q) (job.work.perform m.contents).failure ∧
      c = (job.work.perform m.contents).result := by
  rcases h.cases.2 with ⟨fault, failed, _⟩ | ⟨_, performed⟩
  · rw [firstFault?_eq_none complete] at failed
    cases failed
  · exact performed

/-- A job passes the first fault of its dependencies on. -/
theorem Verdict.of_fault {job : Job} {s : Status} {c : Contents} (h : m.Verdict q job s c)
    {fault : Fault} (failed : m.firstFault? job.deps = some fault) :
    s = .failed fault ∧ c = m.contents := by
  rcases h.cases.2 with ⟨first, failed', skipped⟩ | ⟨none, _⟩
  · rw [failed] at failed'
    cases failed'
    exact skipped
  · rw [failed] at none
    cases none

/-- The first pending job of a queue is over. -/
structure Finishes (m : Machine) (q : QueueId) (job : Job) (status : Status) (after : Machine) :
    Prop where
  first : m.pending q = job :: after.pending q
  others : ∀ other, other ≠ q → after.pending other = m.pending other
  events : after.events = m.events.set job.event.index status
  verdict : Verdict m q job status after.contents
  base : m.SameBase after

theorem Moved.base {a : Activity} {w : List Job} {e : List Status} {c : Contents}
    (h : m.Moved q a w e c after) : m.SameBase after :=
  ⟨h.memories, h.gates, h.ledger, h.config⟩

private theorem Moved.pending {a : Activity} {w : List Job} {e : List Status} {c : Contents}
    (h : m.Moved q a w e c after) : after.pending q = a.current ++ w := by
  unfold Machine.pending
  rw [h.activity, h.waiting]

private theorem Moved.pending_other {a : Activity} {w : List Job} {e : List Status} {c : Contents}
    (h : m.Moved q a w e c after) (other : QueueId) (ne : other ≠ q) :
    after.pending other = m.pending other := by
  unfold Machine.pending
  rw [(h.others other ne).1, (h.others other ne).2]

/-- No job is over when the queue that moved has the same pending jobs. -/
private theorem Moved.rests {a : Activity} {w : List Job}
    (h : m.Moved q a w m.events m.contents after) (same : a.current ++ w = m.pending q) :
    m.Rests after := by
  refine ⟨?_, h.events, h.contents, h.base⟩
  intro other
  by_cases hq : other = q
  · subst hq
    rw [h.pending, same]
  · exact h.pending_other other hq

/-- A worker that skipped a job has no job. -/
private theorem current_of_calm {next : Activity} {held : List QueueId}
    (calm : next = .idle ∨ ∃ target left, next = .closing target left none ∧
      after.HeldUp q target left held) : next.current = [] := by
  rcases calm with rfl | ⟨target, left, rfl, _⟩ <;> rfl

/-- In a step of a worker no job is over, or the first one of its queue is. -/
theorem Turn.settles (turn : m.Turn q after) (sound : m.Sound) :
    m.Rests after ∨ ∃ job status, m.Finishes q job status after := by
  cases turn with
  | begins job rest idle first ready moved =>
    left
    refine moved.rests ?_
    unfold Machine.pending
    rw [idle, first]
    rfl
  | skips job rest fault next idle first ready failed calm moved =>
    right
    refine ⟨job, .failed fault, ?_, moved.pending_other, moved.events, ?_, moved.base⟩
    · rw [moved.pending, current_of_calm calm]
      unfold Machine.pending
      rw [idle, first]
      rfl
    · rw [moved.contents]
      exact .skipped fault ready failed
  | ends job running moved =>
    right
    refine ⟨job, _, ?_, moved.pending_other, moved.events, ?_, moved.base⟩
    · rw [moved.pending]
      unfold Machine.pending
      rw [running]
      rfl
    · rw [moved.contents]
      refine .performed ?_
      exact sound.started q job (by rw [running]; exact List.mem_singleton.2 rfl)
  | lingers job target left running heldUp moved =>
    -- The job of a worker that waits is still the first of its queue.
    left
    refine moved.rests ?_
    unfold Machine.pending
    rw [running]
    rfl
  | proceeds before target held left due? closing heldUp moved =>
    left
    refine moved.rests ?_
    unfold Machine.pending
    rw [closing]
    rfl
  | closes target left due? closing moved =>
    cases due? with
    | none =>
      left
      refine moved.rests ?_
      unfold Machine.pending
      rw [closing]
      rfl
    | some due =>
      right
      refine ⟨due.job, due.status, ?_, moved.pending_other, moved.events, ?_, moved.base⟩
      · rw [moved.pending]
        unfold Machine.pending
        rw [closing]
        rfl
      · rw [moved.contents]
        -- The work carried handles, so that it changed no contents when it was performed.
        have settled := sound.closers q target left due closing
        obtain ⟨failure, same⟩ := Work.perform_of_held settled.carries
        have ready := sound.started q due.job (by rw [closing]; exact List.mem_singleton.2 rfl)
        have verdict := Verdict.performed (m := m) (q := q) ready
        rw [← settled.status, same] at verdict
        exact verdict

/-! ## Steps keep the invariant -/

/-- The end of a job leaves no event pending. -/
theorem Verdict.ne_pending {job : Job} {s : Status} {c : Contents} (h : m.Verdict q job s c) :
    s ≠ .pending := by
  cases h with
  | skipped => exact Status.failed_ne_pending _
  | performed => exact job.verdict_ne_pending _ _

namespace Finishes

variable {job : Job} {s : Status}

theorem mem (h : m.Finishes q job s after) : job ∈ m.pending q := by
  rw [h.first]
  exact List.mem_cons_self

/-- What is pending after a job has ended was pending before, and is another job. -/
theorem mem_of_after (h : m.Finishes q job s after) (sound : m.Sound) {other : QueueId} {left : Job}
    (mem : left ∈ after.pending other) : left ∈ m.pending other ∧ left.event ≠ job.event := by
  by_cases hq : other = q
  · subst hq
    have ordered := sound.ordered other
    rw [h.first] at ordered ⊢
    refine ⟨List.mem_cons_of_mem _ mem, ?_⟩
    intro same
    have younger := (List.pairwise_cons.1 ordered).1 left mem
    rw [same] at younger
    exact Nat.lt_irrefl _ younger
  · rw [h.others other hq] at mem
    exact ⟨mem, fun same => hq (sound.apart other q left mem job h.mem same)⟩

/-- What was pending before a job has ended is that job or still pending. -/
theorem mem_or_eq (h : m.Finishes q job s after) {other : QueueId} {old : Job}
    (mem : old ∈ m.pending other) : old ∈ after.pending other ∨ other = q ∧ old = job := by
  by_cases hq : other = q
  · subst hq
    rw [h.first] at mem
    rcases List.mem_cons.1 mem with rfl | rest
    · exact .inr ⟨rfl, rfl⟩
    · exact .inl rest
  · rw [h.others other hq]
    exact .inl mem

theorem status (h : m.Finishes q job s after) (sound : m.Sound) (e : EventId) :
    after.status e = if e = job.event then s else m.status e :=
  status_of_set (sound.known q job h.mem) h.events e

end Finishes

/-- **Resolved events are final**: a step of a worker leaves their statuses as they are. -/
theorem Turn.status_of_isResolved (turn : m.Turn q after) (sound : m.Sound) {e : EventId}
    (resolved : m.isResolved e = true) : after.status e = m.status e := by
  rcases turn.settles sound with rests | ⟨job, s, ends⟩
  · exact status_of_events rests.events e
  · rw [ends.status sound]
    split
    next same =>
      subst same
      exact absurd (sound.due q job ends.mem) (isResolved_iff.1 resolved)
    next => rfl

theorem Turn.isResolved (turn : m.Turn q after) (sound : m.Sound) {e : EventId}
    (resolved : m.isResolved e = true) : after.isResolved e = true :=
  isResolved_of_status (turn.status_of_isResolved sound resolved) resolved

theorem Turn.length_events (turn : m.Turn q after) (sound : m.Sound) :
    after.events.length = m.events.length := by
  rcases turn.settles sound with rests | ⟨job, s, ends⟩
  · rw [rests.events]
  · rw [ends.events, List.length_set]

/-- The contents are those from before, or what a job makes of them. -/
theorem Turn.contents (turn : m.Turn q after) (sound : m.Sound) :
    after.contents = m.contents ∨
      ∃ job : Job, after.contents = (job.work.perform m.contents).result := by
  rcases turn.settles sound with rests | ⟨job, s, ends⟩
  · exact .inl rests.contents
  · rcases ends.verdict.cases.2 with ⟨_, _, _, kept⟩ | ⟨_, _, performed⟩
    · exact .inl kept
    · exact .inr ⟨job, performed⟩

theorem Turn.activity_other (turn : m.Turn q after) {other : QueueId} (ne : other ≠ q) :
    after.activity other = m.activity other := by
  obtain ⟨_, _, _, _, moved⟩ := turn.moved
  exact (moved.others other ne).1

theorem Turn.gates (turn : m.Turn q after) : after.gates = m.gates := by
  obtain ⟨_, _, _, _, moved⟩ := turn.moved
  exact moved.gates

/-- Handles that the jobs of a queue carry after a step of its worker are some of those that they
carried before. -/
theorem Turn.held (turn : m.Turn q after) :
    ∃ gone, m.held q = gone ++ after.held q ∧
      ∀ p, after.handles p = m.handles p - gone.count p := by
  obtain ⟨_, _, _, _, moved⟩ := turn.moved
  exact moved.handles

theorem Turn.mem_held (turn : m.Turn q after) {p target : QueueId}
    (mem : target ∈ after.held p) : target ∈ m.held p := by
  by_cases same : p = q
  · subst same
    obtain ⟨gone, held, _⟩ := turn.held
    rw [held]
    exact List.mem_append_right _ mem
  · obtain ⟨_, _, _, _, moved⟩ := turn.moved
    obtain ⟨activity, waiting⟩ := moved.others p same
    unfold Machine.held at mem ⊢
    rwa [activity, waiting] at mem

/-- No step of a worker puts a handle into a job. -/
theorem Turn.carefree (turn : m.Turn q after) (carefree : ∀ p, m.held p = []) (p : QueueId) :
    after.held p = [] := by
  refine List.eq_nil_iff_forall_not_mem.2 fun target mem => ?_
  have carried := turn.mem_held mem
  rw [carefree p] at carried
  cases carried

theorem Turn.handles_le (turn : m.Turn q after) (other : QueueId) :
    after.handles other ≤ m.handles other := by
  obtain ⟨gone, _, handles⟩ := turn.held
  rw [handles]
  exact Nat.sub_le _ _

/-- A queue of which no job of the worker carries a handle keeps its handles. -/
theorem Turn.handles (turn : m.Turn q after) {other : QueueId} (keeps : other ∉ m.held q) :
    after.handles other = m.handles other := by
  obtain ⟨gone, held, handles⟩ := turn.held
  have none : other ∉ gone := fun mem => keeps (by rw [held]; exact List.mem_append_left _ mem)
  rw [handles, List.count_eq_zero_of_not_mem none, Nat.sub_zero]

/-- No step of a worker puts a job into a queue. -/
theorem Turn.mem_pending (turn : m.Turn q after) {p : QueueId} {job : Job}
    (mem : job ∈ after.pending p) : job ∈ m.pending p := by
  have moved : ∀ {activity : Activity} {waiting : List Job} {events : List Status}
      {contents : Contents}, m.Moved q activity waiting events contents after →
      (∀ left ∈ activity.current ++ waiting, left ∈ m.pending q) → job ∈ m.pending p := by
    intro activity waiting events contents moved left
    by_cases same : p = q
    · subst same
      unfold pending at mem
      rw [moved.activity, moved.waiting] at mem
      exact left job mem
    · unfold pending at mem ⊢
      rwa [(moved.others p same).1, (moved.others p same).2] at mem
  cases turn with
  | begins job rest idle first _ step =>
    refine moved step fun left mem => ?_
    unfold pending
    rw [idle, first]
    exact mem
  | skips job rest fault next idle first _ _ calm step =>
    refine moved step fun left mem => ?_
    rw [current_of_calm calm] at mem
    unfold pending
    rw [idle, first]
    exact List.mem_cons_of_mem _ mem
  | ends job running step => exact moved step fun left mem => List.mem_append_right _ mem
  | lingers job target left running _ step =>
    refine moved step fun old mem => ?_
    unfold pending
    rw [running]
    exact mem
  | proceeds before target held left due? closing _ step =>
    refine moved step fun old mem => ?_
    unfold pending
    rw [closing]
    exact mem
  | closes target left due? _ step => exact moved step fun old mem => List.mem_append_right _ mem

/-- A worker waits after a step only for the queue of a last handle, one of the first handles that
its jobs carried. -/
theorem Turn.heldUp (turn : m.Turn q after) {target : QueueId} {left : List QueueId}
    {due? : Option Due} (closing : after.activity q = .closing target left due?) :
    ∃ held, held <+: m.held q ∧ after.HeldUp q target left held := by
  unfold Machine.held
  cases turn with
  | begins _ _ _ _ _ moved => rw [moved.activity] at closing; cases closing
  | skips job rest fault next idle first _ _ calm moved =>
    rw [moved.activity] at closing
    subst closing
    rcases calm with calm | ⟨_, _, waits, heldUp⟩
    · cases calm
    · cases waits
      refine ⟨job.work.held, ?_, heldUp⟩
      rw [idle, first, List.flatMap_cons]
      exact List.prefix_append _ _
  | ends _ _ moved => rw [moved.activity] at closing; cases closing
  | lingers job target' left' running heldUp moved =>
    rw [moved.activity] at closing
    cases closing
    refine ⟨job.work.held, ?_, heldUp⟩
    rw [running]
    exact List.prefix_append _ _
  | proceeds before target' held left' due? closing' heldUp moved =>
    rw [moved.activity] at closing
    cases closing
    refine ⟨held, ?_, heldUp⟩
    rw [closing']
    exact List.prefix_append _ _
  | closes _ _ _ _ moved => rw [moved.activity] at closing; cases closing

/-- A worker whose jobs carry no handles does not come to wait for another queue. -/
theorem Turn.activity_ne_closing (turn : m.Turn q after) (keeps : m.held q = [])
    (target : QueueId) (left : List QueueId) (due? : Option Due) :
    after.activity q ≠ .closing target left due? := by
  intro closing
  obtain ⟨held, front, heldUp⟩ := turn.heldUp closing
  rw [keeps] at front
  exact heldUp.ne_nil (List.prefix_nil.1 front)

/-- What a worker is at after a step: what it took up had its dependencies complete. -/
private theorem Turn.started (turn : m.Turn q after) (sound : m.Sound) (other : QueueId) (job : Job)
    (mem : job ∈ (after.activity other).current) : ∀ d ∈ job.deps, m.status d = .complete := by
  by_cases hq : other = q
  · subst hq
    cases turn with
    | begins job' rest idle first ready moved =>
      rw [moved.activity] at mem
      cases List.mem_singleton.1 mem
      exact ready
    | skips job' rest fault next idle first ready failed calm moved =>
      rw [moved.activity, current_of_calm calm] at mem
      cases mem
    | ends job' running moved =>
      rw [moved.activity] at mem
      cases mem
    | lingers job' target left running heldUp moved =>
      rw [moved.activity] at mem
      rw [show job = job' from List.mem_singleton.1 mem]
      exact sound.started other job' (by rw [running]; exact List.mem_singleton_self _)
    | proceeds before target held left due? closing heldUp moved =>
      rw [moved.activity] at mem
      exact sound.started other job (by rw [closing]; exact mem)
    | closes target left due? closing moved =>
      rw [moved.activity] at mem
      cases mem
  · rw [turn.activity_other hq] at mem
    exact sound.started other job mem

/-- The work of a job was performed, and its worker waits for another queue before it resolves the
event. -/
def Lingers (m : Machine) (q : QueueId) (due : Due) : Prop :=
  ∃ target left, m.activity q = .closing target left (some due)

theorem Sound.settled (sound : m.Sound) {due : Due} (lingers : m.Lingers q due) :
    due.Settled (m.queueName q) := by
  obtain ⟨target, left, closing⟩ := lingers
  exact sound.closers q target left due closing

/-- What is due of a worker that waits for another queue after a step comes from the job that it ran
before, and is what the work came to; or it was due already. -/
theorem Turn.running_of_lingers (turn : m.Turn q after) {due : Due}
    (lingers : after.Lingers q due) :
    m.activity q = .running due.job ∧ due.Settled (m.queueName q) ∨ m.Lingers q due := by
  obtain ⟨target, left, closing⟩ := lingers
  cases turn with
  | begins _ _ _ _ _ moved => rw [moved.activity] at closing; cases closing
  | skips _ _ _ _ _ _ _ _ calm moved =>
    rw [moved.activity] at closing
    have free := current_of_calm calm
    rw [closing] at free
    cases free
  | ends _ _ moved => rw [moved.activity] at closing; cases closing
  | lingers job target' left' running heldUp moved =>
    rw [moved.activity] at closing
    cases closing
    obtain ⟨failure, same⟩ := Work.perform_of_held heldUp.ne_nil
    exact .inl ⟨running, heldUp.ne_nil, fun c => by rw [same, same]⟩
  | proceeds before target' held left' due? closing' _ moved =>
    rw [moved.activity] at closing
    cases closing
    exact .inr ⟨before, held, closing'⟩
  | closes _ _ _ _ moved => rw [moved.activity] at closing; cases closing

/-- What is due of a worker that waits after a step is what its work came to. -/
private theorem Turn.closers (turn : m.Turn q after) (sound : m.Sound) (other target : QueueId)
    (left : List QueueId) (due : Due)
    (closing : after.activity other = .closing target left (some due)) :
    due.Settled (after.queueName other) := by
  obtain ⟨_, _, _, _, moved⟩ := turn.moved
  rw [moved.base.queueName]
  by_cases hq : other = q
  · subst hq
    rcases turn.running_of_lingers ⟨target, left, closing⟩ with ⟨_, settled⟩ | lingers
    · exact settled
    · exact sound.settled lingers
  · rw [turn.activity_other hq] at closing
    exact sound.closers other target left due closing

/-- The invariant stays where no job comes or goes. -/
theorem Sound.of_pending (sound : m.Sound) (pending : ∀ q, after.pending q = m.pending q)
    (length : m.events.length ≤ after.events.length)
    (status : ∀ e : EventId, e.index < m.events.length → after.status e = m.status e)
    (old : ∀ e : EventId, e.index < after.events.length → after.status e = .pending →
      e.index < m.events.length)
    (started : ∀ q, ∀ job ∈ (after.activity q).current, ∀ d ∈ job.deps, after.status d = .complete)
    (closers : ∀ q target left due, after.activity q = .closing target left (some due) →
      due.Settled (after.queueName q)) : after.Sound := by
  refine ⟨?known, ?due, ?owed, ?apart, ?ordered, ?earlier, started, closers⟩
  case known =>
    intro q job mem
    rw [pending] at mem
    exact Nat.lt_of_lt_of_le (sound.known q job mem) length
  case due =>
    intro q job mem
    rw [pending] at mem
    rw [status _ (sound.known q job mem)]
    exact sound.due q job mem
  case owed =>
    intro e known due
    have known := old e known due
    rw [status e known] at due
    obtain ⟨q, job, mem, same⟩ := sound.owed e known due
    exact ⟨q, job, by rw [pending]; exact mem, same⟩
  case apart =>
    intro a b job mem job' mem'
    rw [pending] at mem mem'
    exact sound.apart a b job mem job' mem'
  case ordered =>
    intro q
    rw [pending]
    exact sound.ordered q
  case earlier =>
    intro q job mem
    rw [pending] at mem
    exact sound.earlier q job mem

/-- **Every step of a worker keeps the invariant.** -/
theorem Turn.sound (turn : m.Turn q after) (sound : m.Sound) : after.Sound := by
  have started : ∀ other, ∀ job ∈ (after.activity other).current, ∀ d ∈ job.deps,
      after.status d = .complete := by
    intro other job mem d hd
    have complete := turn.started sound other job mem d hd
    rw [turn.status_of_isResolved sound (isResolved_of_complete complete)]
    exact complete
  have length := turn.length_events sound
  rcases turn.settles sound with rests | ⟨job, s, ends⟩
  · exact sound.of_pending rests.pending (Nat.le_of_eq length.symm)
      (fun e _ => status_of_events rests.events e) (fun e known _ => length ▸ known) started
      (turn.closers sound)
  · refine ⟨?known, ?due, ?owed, ?apart, ?ordered, ?earlier, started, turn.closers sound⟩
    case known =>
      intro other left mem
      rw [length]
      exact sound.known other left (ends.mem_of_after sound mem).1
    case due =>
      intro other left mem
      obtain ⟨old, ne⟩ := ends.mem_of_after sound mem
      rw [ends.status sound, if_neg ne]
      exact sound.due other left old
    case owed =>
      -- The event of the job that ended is not pending any more, and the others keep their jobs.
      intro e he pending
      rw [length] at he
      rw [ends.status sound] at pending
      split at pending
      next => exact absurd pending ends.verdict.ne_pending
      next ne =>
        obtain ⟨other, old, mem, same⟩ := sound.owed e he pending
        rcases ends.mem_or_eq mem with left | ⟨_, rfl⟩
        · exact ⟨other, old, left, same⟩
        · exact absurd same.symm ne
    case apart =>
      intro a b left mem left' mem'
      exact sound.apart a b left (ends.mem_of_after sound mem).1 left'
        (ends.mem_of_after sound mem').1
    case ordered =>
      intro other
      by_cases hq : other = q
      · subst hq
        have ordered := sound.ordered other
        rw [ends.first] at ordered
        exact (List.pairwise_cons.1 ordered).2
      · rw [ends.others other hq]
        exact sound.ordered other
    case earlier =>
      intro other left mem
      exact sound.earlier other left (ends.mem_of_after sound mem).1

/-! ## How events are resolved -/

/-- The end of a job resolves no other event. -/
theorem Finishes.isResolved_other {job : Job} {s : Status} (h : m.Finishes q job s after)
    (sound : m.Sound) {e : EventId} (ne : e ≠ job.event) : after.isResolved e = m.isResolved e := by
  unfold Machine.isResolved
  rw [h.status sound, if_neg ne]

theorem Turn.base (turn : m.Turn q after) (sound : m.Sound) : m.SameBase after := by
  rcases turn.settles sound with rests | ⟨job, s, ends⟩
  · exact rests.base
  · exact ends.base

theorem Finishes.isResolved {job : Job} {s : Status} (h : m.Finishes q job s after)
    (sound : m.Sound) : after.isResolved job.event := by
  rw [isResolved_iff, h.status sound, if_pos rfl]
  exact h.verdict.ne_pending

/-- A worker that waits for another queue goes on to the next one, or resolves the event of its job
to what is due. -/
theorem Turn.of_lingers (turn : m.Turn q after) (sound : m.Sound) {due : Due}
    (lingers : m.Lingers q due) : after.status due.job.event = due.status ∨
      after.status due.job.event = .pending ∧ after.Lingers q due := by
  obtain ⟨target, left, closing⟩ := lingers
  have mem : due.job ∈ m.pending q := by
    unfold Machine.pending
    rw [closing]
    exact List.mem_cons_self
  cases turn with
  | begins _ _ idle => rw [idle] at closing; cases closing
  | skips _ _ _ _ idle => rw [idle] at closing; cases closing
  | ends _ running => rw [running] at closing; cases closing
  | lingers _ _ _ running => rw [running] at closing; cases closing
  | proceeds before target' held left' due? closing' _ moved =>
    rw [closing'] at closing
    cases closing
    right
    refine ⟨?_, target', left', moved.activity⟩
    rw [status_of_events moved.events]
    exact sound.due q due.job mem
  | closes target' left' due? closing' moved =>
    rw [closing'] at closing
    cases closing
    left
    rw [status_of_set (sound.known q due.job mem) moved.events, if_pos rfl]

/-- A worker that was idle takes up or skips its first job, whose dependencies are resolved. -/
theorem Turn.of_idle (turn : m.Turn q after) (idle : m.activity q = .idle) :
    ∃ job rest, m.waiting q = job :: rest ∧ ∀ d ∈ job.deps, m.isResolved d := by
  cases turn with
  | begins job rest _ first ready =>
    exact ⟨job, rest, first, fun d hd => isResolved_of_complete (ready d hd)⟩
  | skips job rest _ _ _ first ready => exact ⟨job, rest, first, ready⟩
  | ends _ running => rw [running] at idle; cases idle
  | lingers _ _ _ running => rw [running] at idle; cases idle
  | proceeds _ _ _ _ _ closing => rw [closing] at idle; cases idle
  | closes _ _ _ closing => rw [closing] at idle; cases idle

/-- A worker that ran a job ends it by what the work came to, or lingers over it. -/
theorem Turn.of_running (turn : m.Turn q after) (sound : m.Sound) {job : Job}
    (running : m.activity q = .running job) :
    after.status job.event =
        job.verdict (m.queueName q) (job.work.perform m.contents).failure ∨
      after.status job.event = .pending ∧ ∃ due, after.Lingers q due ∧ due.job = job := by
  have known := sound.known q job (pending_of_running running)
  cases turn with
  | begins _ _ idle => rw [idle] at running; cases running
  | skips _ _ _ _ idle => rw [idle] at running; cases running
  | ends job' running' moved =>
    rw [running'] at running
    cases running
    left
    rw [status_of_set known moved.events, if_pos rfl]
  | lingers job' target left running' heldUp moved =>
    rw [running'] at running
    cases running
    right
    refine ⟨?_, _, ⟨target, left, moved.activity⟩, rfl⟩
    rw [status_of_events moved.events]
    exact sound.due q job (pending_of_running running')
  | proceeds _ _ _ _ _ closing => rw [closing] at running; cases running
  | closes _ _ _ closing => rw [closing] at running; cases running

/-- A worker performs the work of the job that it runs in the step that leaves the job behind. -/
theorem Turn.contents_of_running (turn : m.Turn q after) {job : Job}
    (running : m.activity q = .running job) :
    after.contents = (job.work.perform m.contents).result := by
  cases turn with
  | begins _ _ idle => rw [idle] at running; cases running
  | skips _ _ _ _ idle => rw [idle] at running; cases running
  | ends job' running' moved =>
    rw [running'] at running
    cases running
    exact moved.contents
  | lingers job' target left running' heldUp moved =>
    rw [running'] at running
    cases running
    obtain ⟨failure, same⟩ := Work.perform_of_held heldUp.ne_nil
    rw [moved.contents, same]
  | proceeds _ _ _ _ _ closing => rw [closing] at running; cases running
  | closes _ _ _ closing => rw [closing] at running; cases running

/-- A step of a worker that runs no job changes no contents. -/
theorem Turn.contents_of_not_running (turn : m.Turn q after)
    (none : ∀ job, m.activity q ≠ .running job) : after.contents = m.contents := by
  cases turn with
  | ends job running => exact absurd running (none job)
  | lingers job _ _ running => exact absurd running (none job)
  | begins _ _ _ _ _ moved => exact moved.contents
  | skips _ _ _ _ _ _ _ _ _ moved => exact moved.contents
  | proceeds _ _ _ _ _ _ _ moved => exact moved.contents
  | closes _ _ _ _ moved => exact moved.contents

/-- A pending job that is resolved in a step was the first of the queue that moved: it was skipped
after a fault, or its worker ran it or waited on its behalf. -/
theorem Turn.resolves (turn : m.Turn q after) (sound : m.Sound) {other : QueueId} {job : Job}
    (mem : job ∈ m.pending other) (ended : after.isResolved job.event) :
    other = q ∧ ((∃ fault, (∀ d ∈ job.deps, m.isResolved d) ∧
        m.firstFault? job.deps = some fault ∧ after.status job.event = .failed fault) ∨
      m.activity q = .running job ∨ ∃ due, m.Lingers q due ∧ due.job = job) := by
  have due := sound.due other job mem
  have ended := isResolved_iff.1 ended
  -- The event of the move is the event of the job.
  have same : ∀ {first : Job} {s : Status}, first ∈ m.pending q →
      after.events = m.events.set first.event.index s →
      other = q ∧ job = first ∧ after.status job.event = s := by
    intro first s hfirst events
    have status := status_of_set (sound.known q first hfirst) events job.event
    by_cases he : job.event = first.event
    · rw [if_pos he] at status
      obtain ⟨hq, hj⟩ := sound.job_unique mem hfirst he
      exact ⟨hq, hj, status⟩
    · rw [if_neg he, due] at status
      exact absurd status ended
  cases turn with
  | begins _ _ _ _ _ moved =>
    rw [status_of_events moved.events] at ended
    exact absurd due ended
  | skips first rest fault next idle hfirst ready failed _ moved =>
    have hmem := pending_of_first idle hfirst
    obtain ⟨hq, rfl, status⟩ := same hmem moved.events
    exact ⟨hq, .inl ⟨fault, ready, failed, status⟩⟩
  | ends first running moved =>
    obtain ⟨hq, rfl, _⟩ := same (pending_of_running running) moved.events
    exact ⟨hq, .inr (.inl running)⟩
  | lingers _ _ _ _ _ moved =>
    rw [status_of_events moved.events] at ended
    exact absurd due ended
  | proceeds _ _ _ _ _ _ _ moved =>
    rw [status_of_events moved.events] at ended
    exact absurd due ended
  | closes target left due? closing moved =>
    cases due? with
    | none =>
      rw [status_of_events moved.events] at ended
      exact absurd due ended
    | some first =>
      have hmem : first.job ∈ m.pending q := by
        unfold Machine.pending
        rw [closing]
        exact List.mem_cons_self
      obtain ⟨hq, rfl, _⟩ := same hmem moved.events
      exact ⟨hq, .inr (.inr ⟨first, ⟨target, left, closing⟩, rfl⟩)⟩

end Machine

end BatchDigest
