import BatchDigest.Proofs.Device.Footprint

/-!
# What a worker can do in one step

`Machine.advance?` is followed through a queue, its activity and its first job. Here it is read once
and for all as one of six moves:

* it *begins* a job whose dependencies are all complete;
* it *skips* a job of which a dependency failed;
* it *ends* the job that it runs, which performs the work;
* it *lingers* over a job that let go of the last handle of another queue;
* it *proceeds* from that other queue, once it is drained, to the next one of which the same job let
  go of the last handle;
* it *closes* the last of these queues, once it is drained.

Every move changes the activity and the waiting jobs of one queue, at most one event, the contents
only by performing work, and the handles only by letting go of those that the jobs of its queue
carry. `turn_of_advance?` is the inversion lemma: what is kept by the six moves is kept by every
step of every worker.
-/

namespace BatchDigest

theorem QueueId.eq_of_index {a b : QueueId} (h : a.index = b.index) : a = b := by
  cases a
  cases b
  cases h
  rfl

/-- The job that a worker has taken up and whose event is still due. -/
def Activity.current : Activity → List Job
  | idle => []
  | running job => [job]
  | closing _ _ due? => (due?.map (·.job)).toList

/-- The queue handles of the job that a worker has taken up. -/
def Activity.held : Activity → List QueueId
  | idle => []
  | running job => job.work.held
  | closing _ left _ => left

namespace Machine

/-! ## Views of a queue -/

/-- What the worker of a queue is at. -/
def activity (m : Machine) (q : QueueId) : Activity :=
  ((m.queue? q).map (·.activity)).getD .idle

/-- The jobs of a queue that have not been started. -/
def waiting (m : Machine) (q : QueueId) : List Job :=
  ((m.queue? q).map (·.waiting)).getD []

/-- The jobs of a queue whose events are due, in the order of submission. -/
def pending (m : Machine) (q : QueueId) : List Job :=
  (m.activity q).current ++ m.waiting q

/-- The queue handles that the jobs of a queue carry, in the order in which they are let go of. -/
def held (m : Machine) (q : QueueId) : List QueueId :=
  (m.activity q).held ++ (m.waiting q).flatMap (·.work.held)

/-- The handles that the jobs of a queue carry whose worker does not wait for another queue. -/
theorem held_of_calm {m : Machine} {q : QueueId}
    (calm : ∀ target left due?, m.activity q ≠ .closing target left due?) :
    m.held q = (m.pending q).flatMap (·.work.held) := by
  unfold held pending
  rw [List.flatMap_append]
  congr 1
  cases activity : m.activity q with
  | idle => rfl
  | running job => exact (List.append_nil _).symm
  | closing target left due? => exact absurd activity (calm target left due?)

/-- The number of handles to a queue. -/
def handles (m : Machine) (q : QueueId) : Nat :=
  ((m.queue? q).map (·.handles)).getD 0

/-- The ledger of a queue. -/
def ledger? (m : Machine) (q : QueueId) : Option Ledger :=
  (m.queue? q).map (·.ledger)

/-- A queue without jobs whose worker is idle may not exist; any other queue does. -/
theorem isSome_queue?_of_waiting {m : Machine} {q : QueueId} (h : m.waiting q ≠ []) :
    (m.queue? q).isSome := by
  unfold waiting at h
  cases found : m.queue? q with
  | none => rw [found] at h; exact absurd rfl h
  | some queue => rfl

theorem isSome_queue?_of_activity {m : Machine} {q : QueueId} (h : m.activity q ≠ .idle) :
    (m.queue? q).isSome := by
  unfold activity at h
  cases found : m.queue? q with
  | none => rw [found] at h; exact absurd rfl h
  | some queue => rfl

/-- A queue that nobody holds any more. -/
structure Gone (m : Machine) (q : QueueId) : Prop where
  known : (m.queue? q).isSome
  handles : m.handles q = 0

theorem pending_of_running {m : Machine} {q : QueueId} {job : Job}
    (running : m.activity q = .running job) : job ∈ m.pending q := by
  unfold pending
  rw [running]
  exact List.mem_cons_self

/-- A job that its worker can take up is pending. -/
theorem pending_of_first {m : Machine} {q : QueueId} {job : Job} {rest : List Job}
    (idle : m.activity q = .idle) (first : m.waiting q = job :: rest) : job ∈ m.pending q := by
  unfold pending
  rw [idle, first]
  exact List.mem_cons_self

@[simp] theorem queue?_updateQueue (m : Machine) (q other : QueueId) (change : Queue → Queue) :
    (m.updateQueue q change).queue? other =
      if other = q then (m.queue? other).map change else m.queue? other := by
  unfold updateQueue queue?
  rw [List.getElem?_modify]
  by_cases h : other = q
  · subst h
    simp
  · have hi : q.index ≠ other.index := fun i => h (QueueId.eq_of_index i.symm)
    simp [h, hi]

@[simp] theorem events_updateQueue (m : Machine) (q : QueueId) (change : Queue → Queue) :
    (m.updateQueue q change).events = m.events := rfl

@[simp] theorem contents_updateQueue (m : Machine) (q : QueueId) (change : Queue → Queue) :
    (m.updateQueue q change).contents = m.contents := rfl

@[simp] theorem memories_updateQueue (m : Machine) (q : QueueId) (change : Queue → Queue) :
    (m.updateQueue q change).memories = m.memories := rfl

@[simp] theorem gates_updateQueue (m : Machine) (q : QueueId) (change : Queue → Queue) :
    (m.updateQueue q change).gates = m.gates := rfl

@[simp] theorem queue?_resolve (m : Machine) (e : EventId) (s : Status) (q : QueueId) :
    (m.resolve e s).queue? q = m.queue? q := rfl

@[simp] theorem events_resolve (m : Machine) (e : EventId) (s : Status) :
    (m.resolve e s).events = m.events.set e.index s := rfl

@[simp] theorem contents_resolve (m : Machine) (e : EventId) (s : Status) :
    (m.resolve e s).contents = m.contents := rfl

@[simp] theorem memories_resolve (m : Machine) (e : EventId) (s : Status) :
    (m.resolve e s).memories = m.memories := rfl

@[simp] theorem gates_resolve (m : Machine) (e : EventId) (s : Status) :
    (m.resolve e s).gates = m.gates := rfl

/-! ## Moves -/

/-- One queue has another activity and other waiting jobs, the events and contents are as given, and
everything else is as before. -/
structure Moved (m : Machine) (q : QueueId) (activity : Activity) (waiting : List Job)
    (events : List Status) (contents : Contents) (after : Machine) : Prop where
  activity : after.activity q = activity
  waiting : after.waiting q = waiting
  others : ∀ other, other ≠ q →
    after.activity other = m.activity other ∧ after.waiting other = m.waiting other
  events : after.events = events
  contents : after.contents = contents
  memories : after.memories = m.memories
  gates : after.gates = m.gates
  ledger : ∀ other, after.ledger? other = m.ledger? other
  config : ∀ other, (after.queue? other).map (·.config) = (m.queue? other).map (·.config)
  /-- Handles are only let go of by the jobs that carry them, each once. -/
  handles : ∃ gone, m.held q = gone ++ after.held q ∧
    ∀ p, after.handles p = m.handles p - gone.count p

/-- A worker waits for a queue of which it let go of the last handle, one of those that a job
carries. -/
structure HeldUp (after : Machine) (q target : QueueId) (left held : List QueueId) : Prop where
  carried : target :: left <:+ held
  other : target ≠ q
  gone : after.Gone target

/-- A worker waits only after letting go of handles. -/
theorem HeldUp.ne_nil {after : Machine} {q target : QueueId} {left held : List QueueId}
    (h : after.HeldUp q target left held) : held ≠ [] := by
  rintro rfl
  cases List.suffix_nil.1 h.carried

/-- What the worker of a queue does in one step. -/
inductive Turn (m : Machine) (q : QueueId) (after : Machine) : Prop
  /-- The worker takes up the first job, all of whose dependencies are complete. -/
  | begins (job : Job) (rest : List Job) (idle : m.activity q = .idle)
      (first : m.waiting q = job :: rest) (ready : ∀ d ∈ job.deps, m.status d = .complete)
      (moved : m.Moved q (.running job) rest m.events m.contents after)
  /-- The worker passes the first fault of the dependencies on and never runs the work. -/
  | skips (job : Job) (rest : List Job) (fault : Fault) (next : Activity)
      (idle : m.activity q = .idle) (first : m.waiting q = job :: rest)
      (ready : ∀ d ∈ job.deps, m.isResolved d) (failed : m.firstFault? job.deps = some fault)
      (calm : next = .idle ∨ ∃ target left, next = .closing target left none ∧
        after.HeldUp q target left job.work.held)
      (moved : m.Moved q next rest (m.events.set job.event.index (.failed fault)) m.contents after)
  /-- The worker performs the work of its job and resolves the event. -/
  | ends (job : Job) (running : m.activity q = .running job)
      (moved : m.Moved q .idle (m.waiting q)
        (m.events.set job.event.index
          (job.verdict (m.queueName q) (job.work.perform m.contents).failure))
        (job.work.perform m.contents).result after)
  /-- The worker let go of the last handle of another queue and has to wait for it. -/
  | lingers (job : Job) (target : QueueId) (left : List QueueId)
      (running : m.activity q = .running job) (heldUp : after.HeldUp q target left job.work.held)
      (moved : m.Moved q (.closing target left (some ⟨job,
          job.verdict (m.queueName q) (job.work.perform m.contents).failure⟩))
        (m.waiting q) m.events m.contents after)
  /-- The other queue is drained, and the worker has to wait for the next one. -/
  | proceeds (before target : QueueId) (held left : List QueueId) (due? : Option Due)
      (closing : m.activity q = .closing before held due?)
      (heldUp : after.HeldUp q target left held)
      (moved : m.Moved q (.closing target left due?) (m.waiting q) m.events m.contents after)
  /-- The other queue is drained, and no handle is left. -/
  | closes (target : QueueId) (left : List QueueId) (due? : Option Due)
      (closing : m.activity q = .closing target left due?)
      (moved : m.Moved q .idle (m.waiting q) (m.resolveDue due?).events m.contents after)

/-- Whatever a worker does, its own queue is the only one with another activity and other jobs. -/
theorem Turn.moved {m after : Machine} {q : QueueId} (turn : m.Turn q after) :
    ∃ activity waiting events contents, m.Moved q activity waiting events contents after := by
  cases turn with
  | begins _ _ _ _ _ moved => exact ⟨_, _, _, _, moved⟩
  | skips _ _ _ _ _ _ _ _ _ moved => exact ⟨_, _, _, _, moved⟩
  | ends _ _ moved => exact ⟨_, _, _, _, moved⟩
  | lingers _ _ _ _ _ moved => exact ⟨_, _, _, _, moved⟩
  | proceeds _ _ _ _ _ _ _ moved => exact ⟨_, _, _, _, moved⟩
  | closes _ _ _ _ moved => exact ⟨_, _, _, _, moved⟩

/-- A machine whose queues differ from those of `m` only in activity, waiting jobs and handles, and
in the former two only on one queue. The handles that are let go of are those that its jobs do not
carry any more. -/
private theorem moved_of_queues {m after : Machine} {q : QueueId} {queue : Queue}
    {events : List Status} {contents : Contents} {activity : Activity} {waiting : List Job}
    (found : m.queue? q = some queue) (gone : List QueueId) (eventsAre : after.events = events)
    (contentsAre : after.contents = contents) (memories : after.memories = m.memories)
    (gates : after.gates = m.gates)
    (queues : ∀ other, after.queue? other = (m.queue? other).map fun old =>
      { old with
        activity := if other = q then activity else old.activity
        waiting := if other = q then waiting else old.waiting
        handles := old.handles - gone.count other })
    (held : m.held q = gone ++ (activity.held ++ waiting.flatMap (·.work.held))) :
    m.Moved q activity waiting events contents after := by
  have activityIs : after.activity q = activity := by
    unfold Machine.activity
    rw [queues q, found]
    simp
  have waitingIs : after.waiting q = waiting := by
    unfold Machine.waiting
    rw [queues q, found]
    simp
  refine ⟨activityIs, waitingIs, ?others, eventsAre, contentsAre, memories, gates, ?ledger, ?config,
    gone, ?held, ?handles⟩
  case others =>
    intro other ne
    unfold Machine.activity Machine.waiting
    rw [queues other]
    cases m.queue? other <;> simp [ne]
  case ledger =>
    intro other
    unfold ledger?
    rw [queues other]
    cases m.queue? other <;> rfl
  case config =>
    intro other
    rw [queues other]
    cases m.queue? other <;> rfl
  case held =>
    rw [held]
    unfold Machine.held
    rw [activityIs, waitingIs]
  case handles =>
    intro other
    unfold Machine.handles
    rw [queues other]
    cases m.queue? other with
    | none => exact (Nat.zero_sub _).symm
    | some old => rfl

/-! ## Letting go of handles -/

theorem events_resolveDue (m n : Machine) (same : n.events = m.events) (due? : Option Due) :
    (n.resolveDue due?).events = (m.resolveDue due?).events := by
  cases due? with
  | none => exact same
  | some due => exact congrArg (·.set due.job.event.index due.status) same

theorem queue?_resolveDue (m : Machine) (due? : Option Due) (q : QueueId) :
    (m.resolveDue due?).queue? q = m.queue? q := by
  cases due? <;> rfl

private theorem queue?_setActivity (m : Machine) (q other : QueueId) (activity : Activity) :
    (m.setActivity q activity).queue? other = (m.queue? other).map fun old =>
      { old with activity := if other = q then activity else old.activity } := by
  unfold setActivity
  rw [queue?_updateQueue]
  by_cases here : other = q <;> cases m.queue? other <;> simp [here]

private theorem queue?_dropHandle (m : Machine) (target other : QueueId) :
    (m.dropHandle target).2.queue? other = (m.queue? other).map fun old =>
      { old with handles := old.handles - [target].count other } := by
  unfold dropHandle
  dsimp only
  rw [queue?_updateQueue]
  by_cases here : target = other
  · subst here
    rw [if_pos rfl, List.count_singleton_self]
  · rw [if_neg (Ne.symm here), List.count_singleton, if_neg (by simpa using here)]
    cases m.queue? other <;> rfl

/-- Each queue has the waiting jobs that it has. -/
private theorem queue?_waiting (m : Machine) (q other : QueueId) :
    m.queue? other = (m.queue? other).map fun old =>
      { old with waiting := if other = q then m.waiting q else old.waiting } := by
  by_cases here : other = q
  · subst here
    unfold waiting
    cases m.queue? other <;> simp
  · simp only [if_neg here]
    cases m.queue? other <;> rfl

/-- A handle was the last one when none is left. -/
theorem gone_of_dropHandle {m : Machine} {q : QueueId} (last : (m.dropHandle q).1 = true) :
    (m.dropHandle q).2.Gone q := by
  obtain ⟨queue, found, none⟩ := (Option.any_eq_true _ _).1 last
  have found : (m.dropHandle q).2.queue? q = some queue := found
  refine ⟨by rw [found]; rfl, ?_⟩
  unfold handles
  rw [found]
  exact beq_iff_eq.1 none

private theorem Gone.setActivity {m : Machine} {target : QueueId} (gone : m.Gone target)
    (q : QueueId) (activity : Activity) : (m.setActivity q activity).Gone target := by
  refine ⟨?_, ?_⟩
  · rw [queue?_setActivity, Option.isSome_map]
    exact gone.known
  · unfold Machine.handles
    rw [queue?_setActivity, Option.map_map]
    exact gone.handles

/-- What becomes of a worker that lets go of queue handles: it lets go of all of them, is idle, and
the event of its job is resolved if it was due; or it waits for a queue of which one of them was the
last handle, and keeps those behind it. -/
private theorem letGo_cases {m after : Machine} {q : QueueId} {due? : Option Due}
    {held : List QueueId} (letGo : m.letGo q due? held = after) :
    ∃ gone next, held = gone ++ next.held ∧
      (next = .idle ∧ after.events = (m.resolveDue due?).events ∨
        after.events = m.events ∧ ∃ target left, next = .closing target left due? ∧
          after.HeldUp q target left held) ∧
      after.contents = m.contents ∧ after.memories = m.memories ∧ after.gates = m.gates ∧
      ∀ other, after.queue? other = (m.queue? other).map fun old =>
        { old with
          activity := if other = q then next else old.activity
          handles := old.handles - gone.count other } := by
  induction held generalizing m with
  | nil =>
    subst letGo
    have events := events_resolveDue m (m.setActivity q .idle) rfl due?
    refine ⟨[], .idle, rfl, .inl ⟨rfl, events⟩, ?_, ?_, ?_, fun other => ?_⟩
    · cases due? <;> rfl
    · cases due? <;> rfl
    · cases due? <;> rfl
    · exact (queue?_resolveDue _ due? other).trans (m.queue?_setActivity q other .idle)
  | cons target left ih =>
    unfold Machine.letGo at letGo
    dsimp only at letGo
    split at letGo
    next last =>
      subst letGo
      have gone := (gone_of_dropHandle last.1).setActivity q (.closing target left due?)
      refine ⟨[target], .closing target left due?, rfl,
        .inr ⟨rfl, target, left, rfl, List.suffix_rfl, last.2, gone⟩, rfl, rfl, rfl, fun other => ?_⟩
      rw [queue?_setActivity, queue?_dropHandle, Option.map_map]
      rfl
    next =>
      obtain ⟨gone, next, split, choice, contents, memories, gates, queues⟩ := ih letGo
      refine ⟨target :: gone, next, congrArg (List.cons target) split, ?_, contents, memories,
        gates, fun other => ?_⟩
      · refine choice.imp (fun ⟨idle, events⟩ => ⟨idle, events.trans ?_⟩)
          fun ⟨events, target', left', closing, heldUp⟩ => ⟨events, target', left', closing, ?_⟩
        · exact events_resolveDue m (m.dropHandle target).2 rfl due?
        · exact ⟨heldUp.carried.trans (List.suffix_cons _ _), heldUp.other, heldUp.gone⟩
      · have count : (target :: gone).count other = [target].count other + gone.count other := by
          rw [← List.count_append]
          rfl
        rw [queues other, queue?_dropHandle, Option.map_map, count]
        simp only [← Nat.sub_sub]
        rfl

/-- **Letting go of the handles of a job** is a move, after which the worker is idle or waits for
the queue of a last handle. `ready` is the machine of which it is seen, and has the waiting jobs of
the move already. -/
private theorem moved_of_letGo {m ready after : Machine} {q : QueueId} {queue : Queue}
    {waiting : List Job} {due? : Option Due} {held : List QueueId}
    (found : m.queue? q = some queue) (letGo : ready.letGo q due? held = after)
    (memories : ready.memories = m.memories) (gates : ready.gates = m.gates)
    (queues : ∀ other, ready.queue? other = (m.queue? other).map fun old =>
      { old with waiting := if other = q then waiting else old.waiting })
    (carried : m.held q = held ++ waiting.flatMap (·.work.held)) :
    m.Moved q .idle waiting (ready.resolveDue due?).events ready.contents after ∨
      ∃ target left, after.HeldUp q target left held ∧
        m.Moved q (.closing target left due?) waiting ready.events ready.contents after := by
  obtain ⟨gone, next, split, choice, contents, memories', gates', queues'⟩ := letGo_cases letGo
  have both : ∀ other, after.queue? other = (m.queue? other).map fun old =>
      { old with
        activity := if other = q then next else old.activity
        waiting := if other = q then waiting else old.waiting
        handles := old.handles - gone.count other } := by
    intro other
    rw [queues' other, queues other, Option.map_map]
    rfl
  have kept : m.held q = gone ++ (next.held ++ waiting.flatMap (·.work.held)) := by
    rw [carried, split, List.append_assoc]
  rcases choice with ⟨rfl, events⟩ | ⟨events, target, left, rfl, heldUp⟩
  · exact .inl (moved_of_queues found gone events contents (memories'.trans memories)
      (gates'.trans gates) both kept)
  · exact .inr ⟨target, left, heldUp, moved_of_queues found gone events contents
      (memories'.trans memories) (gates'.trans gates) both kept⟩

/-! ## The inversion of a step -/

/-- Without a fault among resolved events all of them are complete. -/
theorem complete_of_firstFault?_eq_none {m : Machine} {deps : List EventId}
    (resolved : ∀ d ∈ deps, m.isResolved d) (h : m.firstFault? deps = none) :
    ∀ d ∈ deps, m.status d = .complete := by
  intro d hd
  have free : (m.status d).fault? = none := List.findSome?_eq_none_iff.1 h d hd
  have ended := resolved d hd
  unfold isResolved at ended
  cases hs : m.status d with
  | pending => simp [hs, Status.isResolved] at ended
  | complete => rfl
  | failed f => simp [hs, Status.fault?] at free

/-- The start of a job begins or skips it. -/
private theorem turn_of_start? {m after : Machine} {q : QueueId} {queue : Queue} {job : Job}
    {rest : List Job} (found : m.queue? q = some queue) (idle : queue.activity = .idle)
    (first : queue.waiting = job :: rest) (h : m.start? q job rest = some after) :
    m.Turn q after := by
  have idle' : m.activity q = .idle := by simp [activity, found, idle]
  have first' : m.waiting q = job :: rest := by simp [waiting, found, first]
  have held : m.held q = job.work.held ++ rest.flatMap (·.work.held) := by
    unfold Machine.held
    rw [idle', first', List.flatMap_cons]
    rfl
  have started : ∀ other, (m.updateQueue q fun old => { old with waiting := rest }).queue? other =
      (m.queue? other).map fun old =>
        { old with waiting := if other = q then rest else old.waiting } := by
    intro other
    rw [queue?_updateQueue]
    by_cases here : other = q <;> cases m.queue? other <;> simp [here]
  unfold start? at h
  split at h
  next ready =>
    have resolved : ∀ d ∈ job.deps, m.isResolved d := by simpa using ready
    dsimp only at h
    cases fault? : m.firstFault? job.deps with
    | none =>
      rw [fault?] at h
      cases h
      refine .begins job rest idle' first' (complete_of_firstFault?_eq_none resolved fault?)
        (moved_of_queues found [] rfl rfl rfl rfl (fun other => ?_) held)
      rw [queue?_setActivity, started other, Option.map_map]
      rfl
    | some fault =>
      -- Skipped work is dropped unused, and the queue handles that it carries go with it.
      rw [fault?] at h
      rcases moved_of_letGo found (Option.some.inj h) rfl rfl started held with
        moved | ⟨target, left, heldUp, moved⟩
      · exact .skips job rest fault .idle idle' first' resolved fault? (.inl rfl) moved
      · exact .skips job rest fault (.closing target left none) idle' first' resolved fault?
          (.inr ⟨target, left, rfl, heldUp⟩) moved
  next => cases h

/-- The end of a job ends it, or lingers over a handle that it let go of. -/
private theorem turn_of_finish? {m after : Machine} {q : QueueId} {queue : Queue} {job : Job}
    (found : m.queue? q = some queue) (running : queue.activity = .running job)
    (h : m.finish? q queue job = some after) : m.Turn q after := by
  have running' : m.activity q = .running job := by simp [activity, found, running]
  have name : m.queueName q = queue.config.name := by simp [queueName, found]
  have held : m.held q = job.work.held ++ (m.waiting q).flatMap (·.work.held) := by
    unfold Machine.held
    rw [running']
    rfl
  unfold finish? at h
  split at h
  next =>
    rw [← name] at h
    rcases moved_of_letGo found (Option.some.inj h) rfl rfl (m.queue?_waiting q) held with
      moved | ⟨target, left, heldUp, moved⟩
    · exact .ends job running' moved
    · -- Work that carries handles changes no contents.
      obtain ⟨failure, same⟩ := Work.perform_of_held (heldUp.ne_nil)
      exact .lingers job target left running' heldUp (by rw [same] at moved ⊢; exact moved)
  next => cases h

/-- Once the queue that a worker waits for is drained, the worker goes on to the next one or is
idle. -/
private theorem turn_of_letGo {m after : Machine} {q target : QueueId} {left : List QueueId}
    {due? : Option Due} (closing : m.activity q = .closing target left due?)
    (h : m.letGo q due? left = after) : m.Turn q after := by
  have known : (m.queue? q).isSome := isSome_queue?_of_activity (by rw [closing]; nofun)
  obtain ⟨queue, found⟩ := Option.isSome_iff_exists.1 known
  have held : m.held q = left ++ (m.waiting q).flatMap (·.work.held) := by
    unfold Machine.held
    rw [closing]
    rfl
  rcases moved_of_letGo found h rfl rfl (m.queue?_waiting q) held with
    moved | ⟨target', left', heldUp, moved⟩
  · exact .closes target left due? closing moved
  · exact .proceeds target target' left left' due? closing heldUp moved

/-- Every step of a worker is one of the six moves. -/
theorem turn_of_advance? {m after : Machine} {q : QueueId} (h : m.advance? q = some after) :
    m.Turn q after := by
  unfold advance? at h
  cases found : m.queue? q with
  | none => simp [found] at h
  | some queue =>
    simp only [found, Option.bind_eq_bind, Option.bind_some] at h
    split at h
    next => cases h
    next job rest idle first => exact turn_of_start? found idle first h
    next job running => exact turn_of_finish? found running h
    next target left due? closing =>
      split at h
      next drained =>
        have closing' : m.activity q = .closing target left due? := by
          simp [activity, found, closing]
        exact turn_of_letGo closing' (Option.some.inj h)
      next => cases h

end Machine

end BatchDigest
