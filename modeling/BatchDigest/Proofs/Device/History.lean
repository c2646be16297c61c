import BatchDigest.Proofs.Device.Call

/-!
# The history of a run

A `Trace` is a machine with what the machine itself does not remember: the jobs submitted to each
queue, in order, and the works that were executed, each with the machine before it. Calls of the
host and steps of workers extend a trace in any order.

`Trace.Recorded` is the invariant that ties the history to the machine, and `Trace.Written` says how
the contents come about: by calls of the host and by the executions on record, each of which
performed its work once. What a user of the queues can rely on follows and is collected in
`Trace.Lawful`: jobs are over in the order of submission and none is lost; an event is resolved once
and only after all dependencies; work runs at most once, and exactly when all dependencies
completed; and a fault comes from the work of the job itself or is the first fault of its
dependencies, so that it can be followed back to where it arose (`Trace.Origin`).
-/

namespace BatchDigest

open Machine

/-- The execution of the work of a job. -/
structure Execution where
  queue : QueueId
  job : Job
  /-- The machine at the moment of execution. -/
  before : Machine

namespace Execution

/-- What the event of the job is resolved to, on a device of the given name. -/
def verdict (x : Execution) (device : String) : Status :=
  x.job.verdict device (x.job.work.perform x.before.contents).failure

end Execution

/-- A machine and what happened to it. -/
structure Trace where
  machine : Machine
  /-- The jobs submitted to each queue, in order. -/
  submitted : QueueId → List Job
  /-- The works executed, in order. -/
  executed : List Execution

namespace Trace

/-- Nothing has happened. -/
def start : Trace :=
  ⟨.empty, fun _ => [], []⟩

/-- A call of the host. -/
def call (t : Trace) (c : Call) : Trace :=
  { t with
    machine := c.apply t.machine
    submitted := match c with
      | .submit queue label deps work => fun q =>
        if q = queue then
          t.submitted queue ++ [⟨label, deps, (t.machine.submit queue label deps work).1, work⟩]
        else t.submitted q
      | _ => t.submitted }

/-- A job is put into a queue, after which the machine is `after`. -/
def submit (t : Trace) (q : QueueId) (job : Job) (after : Machine) : Trace :=
  { t with
    machine := after
    submitted := fun p => if p = q then t.submitted q ++ [job] else t.submitted p }

/-- A step of the worker of a queue, after which the machine is `after`. A worker executes the work
of the job that it runs. -/
def advance (t : Trace) (q : QueueId) (after : Machine) : Trace :=
  { t with
    machine := after
    executed := match t.machine.activity q with
      | .running job => t.executed ++ [⟨q, job, t.machine⟩]
      | _ => t.executed }

/-- A single step of the host or of a worker. -/
inductive Step : Trace → Trace → Prop
  | call (t : Trace) (c : Call) (allowed : c.Allowed t.machine) : Step t (t.call c)
  | worker (t : Trace) (q : QueueId) (after : Machine) (step : t.machine.advance? q = some after) :
      Step t (t.advance q after)

/-- Any number of steps. -/
inductive Reaches : Trace → Trace → Prop
  | refl (t : Trace) : Reaches t t
  | step {t u v : Trace} (reaches : Reaches t u) (step : Step u v) : Reaches t v

/-- Whether the work of a job of a queue was executed. -/
def WasExecuted (t : Trace) (q : QueueId) (job : Job) : Prop :=
  ∃ x ∈ t.executed, x.queue = q ∧ x.job = job

/-- A job passed the first fault of its dependencies on, all of which were resolved. -/
def WasSkipped (t : Trace) (job : Job) : Prop :=
  ∃ fault, (∀ d ∈ job.deps, t.machine.isResolved d) ∧
    t.machine.firstFault? job.deps = some fault ∧ t.machine.status job.event = .failed fault

/-- How the history belongs to the machine. -/
structure Recorded (t : Trace) : Prop where
  sound : t.machine.Sound
  /-- What is not pending any more was submitted before what is. -/
  split : ∀ q, ∃ ended, t.submitted q = ended ++ t.machine.pending q ∧
    ∀ job ∈ ended, t.machine.isResolved job.event
  found : ∀ q, t.submitted q ≠ [] → (t.machine.queue? q).isSome
  known : ∀ q, ∀ job ∈ t.submitted q, job.event.index < t.machine.events.length
  ordered : ∀ q, (t.submitted q).Pairwise fun a b => a.event.index < b.event.index
  apart : ∀ q other, ∀ job ∈ t.submitted q, ∀ job' ∈ t.submitted other,
    job.event = job'.event → q = other
  earlier : ∀ q, ∀ job ∈ t.submitted q, ∀ d ∈ job.deps, d.index < job.event.index
  mine : ∀ x ∈ t.executed, x.job ∈ t.submitted x.queue
  ready : ∀ x ∈ t.executed, ∀ d ∈ x.job.deps,
    x.before.status d = .complete ∧ t.machine.status d = .complete
  once : (t.executed.map (·.job.event)).Nodup
  /-- Work that was executed while its job is pending let go of queue handles, and its worker waits
  for one of the queues. -/
  lingering : ∀ x ∈ t.executed, x.job ∈ t.machine.pending x.queue →
    ∃ due, t.machine.Lingers x.queue due ∧ due.job = x.job
  closing : ∀ q due, t.machine.Lingers q due → t.WasExecuted q due.job
  result : ∀ x ∈ t.executed, t.machine.isResolved x.job.event →
    t.machine.status x.job.event = x.verdict (t.machine.queueName x.queue)
  settled : ∀ q, ∀ job ∈ t.submitted q, t.machine.isResolved job.event →
    t.WasExecuted q job ∨ t.WasSkipped job

theorem recorded_start : start.Recorded := by
  refine ⟨sound_empty, fun _ => ⟨[], rfl, nofun⟩, ?_, ?_, ?_, ?_, ?_, ?_, ?_, ?_, ?_, ?_, ?_, ?_⟩
  all_goals first | exact List.nodup_nil | intro; simp [start, empty, activity, queue?, Lingers]

namespace Recorded

variable {t : Trace} {q : QueueId}

/-- A pending job was submitted. -/
theorem submitted_of_pending (h : t.Recorded) {job : Job} (mem : job ∈ t.machine.pending q) :
    job ∈ t.submitted q := by
  obtain ⟨ended, split, _⟩ := h.split q
  rw [split]
  exact List.mem_append_right _ mem

/-- Submitted jobs with one event are one job. -/
theorem job_unique (h : t.Recorded) {other : QueueId} {a b : Job} (ha : a ∈ t.submitted q)
    (hb : b ∈ t.submitted other) (same : a.event = b.event) : q = other ∧ a = b := by
  have hq := h.apart q other a ha b hb same
  subst hq
  exact ⟨rfl, eq_of_ordered (h.ordered q) ha hb same⟩

/-- A submitted job that is not resolved is pending. -/
theorem pending_of_submitted (h : t.Recorded) {job : Job} (mem : job ∈ t.submitted q)
    (due : t.machine.status job.event = .pending) : job ∈ t.machine.pending q := by
  obtain ⟨ended, split, resolved⟩ := h.split q
  rw [split] at mem
  rcases List.mem_append.1 mem with old | left
  · exact absurd due (isResolved_iff.1 (resolved job old))
  · exact left

/-- Work of a job that its worker has not executed yet, or runs, was not executed. -/
theorem fresh (h : t.Recorded) {job : Job} (mem : job ∈ t.machine.pending q)
    (busy : ∀ due, due.job = job → ¬ t.machine.Lingers q due) :
    ∀ x ∈ t.executed, x.job.event ≠ job.event := by
  intro x hx same
  obtain ⟨hq, hjob⟩ := h.job_unique (h.mine x hx) (h.submitted_of_pending mem) same
  subst hq
  subst hjob
  obtain ⟨due, lingers, mine⟩ := h.lingering x hx mem
  exact busy due mine lingers

end Recorded

/-! ## The history after a step -/

section

variable {t u : Trace} {q : QueueId}

/-- A job that was skipped stays so, as resolved events are final. -/
theorem WasSkipped.mono {job : Job} (h : t.WasSkipped job)
    (final : ∀ e, t.machine.isResolved e → u.machine.status e = t.machine.status e) :
    u.WasSkipped job := by
  obtain ⟨fault, ready, failed, status⟩ := h
  refine ⟨fault, ?_, ?_, by rw [final _ (isResolved_of_failed status), status]⟩
  · exact fun d hd => isResolved_of_status (final d (ready d hd)) (ready d hd)
  · rw [firstFault?_congr fun d hd => final d (ready d hd), failed]

/-- Work was ready when it was executed, and its dependencies stay complete. -/
theorem Recorded.stays_ready (h : t.Recorded) {after : Machine}
    (final : ∀ e, t.machine.isResolved e → after.status e = t.machine.status e) {x : Execution}
    (hx : x ∈ t.executed) {d : EventId} (hd : d ∈ x.job.deps) :
    x.before.status d = .complete ∧ after.status d = .complete := by
  obtain ⟨before, now⟩ := h.ready x hx d hd
  exact ⟨before, (final d (isResolved_of_complete now)).trans now⟩

/-- Where events on record keep their statuses, no job becomes known as resolved. -/
theorem Recorded.was_resolved (h : t.Recorded) {after : Machine}
    (same : ∀ e, e.index < t.machine.events.length → after.status e = t.machine.status e)
    {job : Job} (mem : job ∈ t.submitted q) (ended : after.isResolved job.event) :
    t.machine.isResolved job.event := by
  rw [isResolved_iff, same _ (h.known q job mem)] at ended
  exact isResolved_iff.2 ended

/-- A call that concerns no job leaves the history as it is. -/
theorem Recorded.of_steady (h : t.Recorded) {after : Machine} (steady : t.machine.Steady after) :
    ({ t with machine := after } : Trace).Recorded := by
  have final : ∀ e, t.machine.isResolved e → after.status e = t.machine.status e :=
    fun e ended => steady.status (known_of_isResolved ended)
  have back : ∀ q, ∀ job ∈ t.submitted q, after.isResolved job.event →
      t.machine.isResolved job.event := fun _ _ => h.was_resolved fun _ known => steady.status known
  refine ⟨steady.sound h.sound, ?split, ?found, ?known, h.ordered, h.apart, h.earlier, h.mine,
    fun _ hx _ => h.stays_ready final hx, h.once, ?lingering, ?closing, ?result, ?settled⟩
  case split =>
    intro q
    obtain ⟨ended, split, resolved⟩ := h.split q
    refine ⟨ended, by rw [steady.pending]; exact split, ?_⟩
    exact fun job mem => isResolved_of_status (final _ (resolved job mem)) (resolved job mem)
  case found =>
    intro q some
    exact steady.isSome_queue? (h.found q some)
  case known =>
    intro q job mem
    exact Nat.lt_of_lt_of_le (h.known q job mem) steady.length_events
  case lingering =>
    intro x hx mem
    rw [steady.pending] at mem
    unfold Lingers
    rw [steady.activity]
    exact h.lingering x hx mem
  case closing =>
    rintro q due ⟨target, left, closing⟩
    rw [steady.activity] at closing
    exact h.closing q due ⟨target, left, closing⟩
  case result =>
    intro x hx ended
    have mine := h.mine x hx
    have ended' := back x.queue x.job mine ended
    rw [final _ ended', steady.queueName (h.found x.queue (List.ne_nil_of_mem mine))]
    exact h.result x hx ended'
  case settled =>
    intro q job mem ended
    rcases h.settled q job mem (back q job mem ended) with executed | skipped
    · exact .inl executed
    · exact .inr (skipped.mono final)

section

variable {job : Job} {after : Machine}

theorem mem_submit {p : QueueId} {old : Job} :
    old ∈ (t.submit q job after).submitted p ↔ old ∈ t.submitted p ∨ p = q ∧ old = job := by
  unfold submit
  by_cases hp : p = q
  · subst hp
    simp
  · simp [hp]

/-- The event of a new job is the youngest. -/
theorem Recorded.younger (h : t.Recorded) (submitted : t.machine.Submitted q job after)
    {p : QueueId} {old : Job} (mem : old ∈ t.submitted p) :
    old.event.index < job.event.index := by
  rw [submitted.event]
  exact h.known p old mem

theorem Recorded.not_new (h : t.Recorded) (submitted : t.machine.Submitted q job after)
    {p : QueueId} {old : Job} (mem : old ∈ t.submitted p) : old.event ≠ job.event := by
  intro same
  have lt := h.younger submitted mem
  rw [same] at lt
  exact Nat.lt_irrefl _ lt

theorem Recorded.split_submit (h : t.Recorded) (submitted : t.machine.Submitted q job after)
    (p : QueueId) : ∃ ended, (t.submit q job after).submitted p = ended ++ after.pending p ∧
      ∀ old ∈ ended, after.isResolved old.event := by
  obtain ⟨ended, split, resolved⟩ := h.split p
  refine ⟨ended, ?_, fun old mem => ?_⟩
  · show (if p = q then _ else _) = ended ++ after.pending p
    by_cases hp : p = q
    · subst hp
      rw [if_pos rfl, submitted.pending, split, List.append_assoc]
    · rw [if_neg hp, submitted.pending_other hp, split]
  · have before := resolved old mem
    exact isResolved_of_status (submitted.status (known_of_isResolved before)) before

theorem Recorded.ordered_submit (h : t.Recorded) (submitted : t.machine.Submitted q job after)
    (p : QueueId) : ((t.submit q job after).submitted p).Pairwise
      fun a b => a.event.index < b.event.index := by
  show List.Pairwise _ (if p = q then _ else _)
  by_cases hp : p = q
  · subst hp
    rw [if_pos rfl]
    refine List.pairwise_append.2 ⟨h.ordered p, List.pairwise_singleton _ _, ?_⟩
    intro old mem new last
    cases List.mem_singleton.1 last
    exact h.younger submitted mem
  · rw [if_neg hp]
    exact h.ordered p

/-- The event of the new job is nobody else's. -/
theorem Recorded.apart_submit (h : t.Recorded) (submitted : t.machine.Submitted q job after)
    {a b : QueueId} {job₁ job₂ : Job} (mem₁ : job₁ ∈ (t.submit q job after).submitted a)
    (mem₂ : job₂ ∈ (t.submit q job after).submitted b) (same : job₁.event = job₂.event) :
    a = b := by
  rcases mem_submit.1 mem₁ with old₁ | ⟨rfl, rfl⟩ <;>
    rcases mem_submit.1 mem₂ with old₂ | ⟨rfl, rfl⟩
  · exact h.apart a b job₁ old₁ job₂ old₂ same
  · exact absurd same (h.not_new submitted old₁)
  · exact absurd same.symm (h.not_new submitted old₂)
  · rfl

theorem Recorded.lingering_submit (h : t.Recorded) (submitted : t.machine.Submitted q job after)
    {x : Execution} (hx : x ∈ t.executed) (mem : x.job ∈ after.pending x.queue) :
    ∃ due, after.Lingers x.queue due ∧ due.job = x.job := by
  unfold Lingers
  rw [submitted.activity]
  rcases submitted.mem_pending.1 mem with old | ⟨_, new⟩
  · exact h.lingering x hx old
  · exact absurd (congrArg Job.event new) (h.not_new submitted (h.mine x hx))

theorem Recorded.result_submit (h : t.Recorded) (submitted : t.machine.Submitted q job after)
    {x : Execution} (hx : x ∈ t.executed) (ended : after.isResolved x.job.event) :
    after.status x.job.event = x.verdict (after.queueName x.queue) := by
  have mine := h.mine x hx
  rw [submitted.status (h.known x.queue x.job mine), submitted.base.queueName]
  exact h.result x hx (h.was_resolved (fun _ known => submitted.status known) mine ended)

theorem Recorded.settled_submit (h : t.Recorded) (submitted : t.machine.Submitted q job after)
    {p : QueueId} {old : Job} (mem : old ∈ (t.submit q job after).submitted p)
    (ended : after.isResolved old.event) :
    (t.submit q job after).WasExecuted p old ∨ (t.submit q job after).WasSkipped old := by
  rcases mem_submit.1 mem with before | ⟨_, rfl⟩
  · have ended := h.was_resolved (fun _ known => submitted.status known) before ended
    refine (h.settled p old before ended).imp_right fun skipped => skipped.mono fun e ended => ?_
    exact submitted.status (known_of_isResolved ended)
  · exact absurd submitted.status_new (isResolved_iff.1 ended)

/-- **A submission keeps the invariant.** -/
theorem Recorded.submit (h : t.Recorded) (submitted : t.machine.Submitted q job after)
    (deps : ∀ d ∈ job.deps, d.index < t.machine.events.length) :
    (t.submit q job after).Recorded where
  sound := submitted.sound h.sound deps
  split := h.split_submit submitted
  found p some := by
    show (after.queue? p).isSome
    rw [submitted.base.isSome_queue?]
    by_cases hp : p = q
    · subst hp
      exact submitted.found
    · exact h.found p (by simpa [Trace.submit, hp] using some)
  known p old mem := by
    show _ < after.events.length
    rw [submitted.events, List.length_append, List.length_singleton]
    rcases mem_submit.1 mem with before | ⟨_, rfl⟩
    · exact Nat.lt_succ_of_lt (h.known p old before)
    · rw [submitted.event]
      exact Nat.lt_succ_self _
  ordered := h.ordered_submit submitted
  apart _ _ _ mem₁ _ mem₂ := h.apart_submit submitted mem₁ mem₂
  earlier p old mem := by
    rcases mem_submit.1 mem with before | ⟨_, rfl⟩
    · exact h.earlier p old before
    · rw [submitted.event]
      exact deps
  mine x hx := mem_submit.2 (.inl (h.mine x hx))
  ready _ hx _ := h.stays_ready (fun _ ended => submitted.status (known_of_isResolved ended)) hx
  once := h.once
  lingering _ hx mem := h.lingering_submit submitted hx mem
  closing p due lingers := by
    obtain ⟨target, left, closing⟩ := lingers
    exact h.closing p due ⟨target, left, (submitted.activity p).symm.trans closing⟩
  result _ hx ended := h.result_submit submitted hx ended
  settled _ _ mem ended := h.settled_submit submitted mem ended

end

@[simp] theorem machine_advance (t : Trace) (q : QueueId) (after : Machine) :
    (t.advance q after).machine = after := rfl

/-- A worker executes the work of the job that it runs, and nothing else. -/
theorem mem_executed_advance {after : Machine} {x : Execution} :
    x ∈ (t.advance q after).executed ↔ x ∈ t.executed ∨
      ∃ job, t.machine.activity q = .running job ∧ x = ⟨q, job, t.machine⟩ := by
  unfold advance
  dsimp only
  split
  next job running => simp [running]
  next other =>
    refine ⟨.inl, ?_⟩
    rintro (old | ⟨job, running, _⟩)
    · exact old
    · exact absurd running (other job)

/-- The execution of a job in a step of its worker is the first one. -/
theorem Recorded.once_advance (h : t.Recorded) (after : Machine) :
    ((t.advance q after).executed.map (·.job.event)).Nodup := by
  unfold advance
  dsimp only
  split
  next job running =>
    have mem : job ∈ t.machine.pending q := by
      unfold Machine.pending
      rw [running]
      exact List.mem_cons_self
    have fresh := h.fresh mem fun due _ ⟨_, _, closing⟩ => by rw [running] at closing; cases closing
    rw [List.map_append]
    refine List.nodup_append.2 ⟨h.once, List.pairwise_singleton _ _, ?_⟩
    intro e he e' he'
    obtain ⟨x, hx, rfl⟩ := List.mem_map.1 he
    cases List.mem_singleton.1 he'
    exact fresh x hx
  next => exact h.once

section

variable {after : Machine}

/-- A job that was on the queue before the step is pending until it is resolved. -/
theorem Recorded.pending_before (h : t.Recorded) (turn : t.machine.Turn q after) {p : QueueId}
    {job : Job} (mem : job ∈ t.submitted p) (due : after.status job.event = .pending) :
    job ∈ t.machine.pending p := by
  refine h.pending_of_submitted mem (status_of_not_isResolved fun ended => ?_)
  rw [turn.status_of_isResolved h.sound ended] at due
  exact isResolved_iff.1 ended due

theorem Recorded.split_advance (h : t.Recorded) (turn : t.machine.Turn q after) (p : QueueId) :
    ∃ ended, t.submitted p = ended ++ after.pending p ∧
      ∀ job ∈ ended, after.isResolved job.event := by
  obtain ⟨ended, split, resolved⟩ := h.split p
  have still : ∀ job ∈ ended, after.isResolved job.event :=
    fun job mem => turn.isResolved h.sound (resolved job mem)
  -- Either nothing is over, or the job that was first on the queue of the worker is.
  rcases turn.settles h.sound with rests | ⟨job, s, ends⟩
  · exact ⟨ended, by rw [rests.pending]; exact split, still⟩
  · by_cases hp : p = q
    · subst hp
      refine ⟨ended ++ [job], ?_, ?_⟩
      · rw [split, ends.first, List.append_assoc]
        rfl
      · intro old mem
        rcases List.mem_append.1 mem with old' | last
        · exact still old old'
        · cases List.mem_singleton.1 last
          exact ends.isResolved h.sound
    · exact ⟨ended, by rw [ends.others p hp]; exact split, still⟩

theorem Recorded.ready_advance (h : t.Recorded) (turn : t.machine.Turn q after) {x : Execution}
    (hx : x ∈ (t.advance q after).executed) {d : EventId} (hd : d ∈ x.job.deps) :
    x.before.status d = .complete ∧ after.status d = .complete := by
  have final := fun e ended => turn.status_of_isResolved h.sound (e := e) ended
  rcases mem_executed_advance.1 hx with old | ⟨job, running, rfl⟩
  · exact h.stays_ready final old hd
  · have current : job ∈ (t.machine.activity q).current := by
      rw [running]
      exact List.mem_singleton.2 rfl
    have complete := h.sound.started q job current d hd
    exact ⟨complete, (final d (isResolved_of_complete complete)).trans complete⟩

theorem Recorded.lingering_advance (h : t.Recorded) (turn : t.machine.Turn q after)
    {x : Execution} (hx : x ∈ (t.advance q after).executed) (mem : x.job ∈ after.pending x.queue) :
    ∃ due, after.Lingers x.queue due ∧ due.job = x.job := by
  have due := (turn.sound h.sound).due x.queue x.job mem
  rcases mem_executed_advance.1 hx with old | ⟨job, running, rfl⟩
  · obtain ⟨owed, lingers, mine⟩ :=
      h.lingering x old (h.pending_before turn (h.mine x old) due)
    by_cases hq : x.queue = q
    · -- The worker that waited takes the step: its job is over, or it waits for the next queue.
      rw [hq] at lingers ⊢
      rcases turn.of_lingers h.sound lingers with ended | ⟨_, lingers⟩
      · rw [← mine, ended, (h.sound.settled lingers).status t.machine.contents] at due
        exact absurd due (Job.verdict_ne_pending _ _ _)
      · exact ⟨owed, lingers, mine⟩
    · refine ⟨owed, ?_, mine⟩
      unfold Lingers
      rw [turn.activity_other hq]
      exact lingers
  · rcases turn.of_running h.sound running with ended | ⟨_, lingers⟩
    · exact absurd (ended.symm.trans due) (Job.verdict_ne_pending _ _ _)
    · exact lingers

theorem Recorded.closing_advance (h : t.Recorded) (turn : t.machine.Turn q after) {p : QueueId}
    {due : Due} (lingers : after.Lingers p due) : (t.advance q after).WasExecuted p due.job := by
  have before : t.machine.Lingers p due →
      (t.advance q after).WasExecuted p due.job := fun lingers => by
    obtain ⟨x, hx, mine⟩ := h.closing p due lingers
    exact ⟨x, mem_executed_advance.2 (.inl hx), mine⟩
  by_cases hp : p = q
  · subst hp
    rcases turn.running_of_lingers lingers with ⟨running, _⟩ | lingers
    · exact ⟨⟨p, due.job, t.machine⟩, mem_executed_advance.2 (.inr ⟨_, running, rfl⟩), rfl, rfl⟩
    · exact before lingers
  · unfold Lingers at lingers
    rw [turn.activity_other hp] at lingers
    exact before lingers

theorem Recorded.result_advance (h : t.Recorded) (turn : t.machine.Turn q after) {x : Execution}
    (hx : x ∈ (t.advance q after).executed) (ended : after.isResolved x.job.event) :
    after.status x.job.event = x.verdict (after.queueName x.queue) := by
  rw [(turn.base h.sound).queueName]
  rcases mem_executed_advance.1 hx with old | ⟨job, running, rfl⟩
  · by_cases before : t.machine.isResolved x.job.event
    · rw [turn.status_of_isResolved h.sound before]
      exact h.result x old before
    · -- The work let go of queue handles, and the wait for the queues is over.
      have pending := h.pending_of_submitted (h.mine x old) (status_of_not_isResolved before)
      obtain ⟨due, lingers, mine⟩ := h.lingering x old pending
      obtain ⟨hq, _⟩ := turn.resolves h.sound pending ended
      rw [hq] at lingers ⊢
      rw [← mine] at ended ⊢
      rcases turn.of_lingers h.sound lingers with status | ⟨due, _⟩
      · rw [status, (h.sound.settled lingers).status x.before.contents, mine]
        rfl
      · exact absurd due (isResolved_iff.1 ended)
  · rcases turn.of_running h.sound running with status | ⟨due, _⟩
    · exact status
    · exact absurd due (isResolved_iff.1 ended)

theorem Recorded.settled_advance (h : t.Recorded) (turn : t.machine.Turn q after) {p : QueueId}
    {job : Job} (mem : job ∈ t.submitted p) (ended : after.isResolved job.event) :
    (t.advance q after).WasExecuted p job ∨ (t.advance q after).WasSkipped job := by
  have final := fun e ended => turn.status_of_isResolved h.sound (e := e) ended
  by_cases before : t.machine.isResolved job.event
  · rcases h.settled p job mem before with ⟨x, hx, mine⟩ | skipped
    · exact .inl ⟨x, mem_executed_advance.2 (.inl hx), mine⟩
    · exact .inr (skipped.mono final)
  · -- The job is resolved in this step: it is skipped, its work returns, or its wait is over.
    have due := h.pending_of_submitted mem (status_of_not_isResolved before)
    obtain ⟨rfl, skipped | running | ⟨owed, lingers, rfl⟩⟩ := turn.resolves h.sound due ended
    · obtain ⟨fault, ready, failed, status⟩ := skipped
      refine .inr ⟨fault, fun d hd => turn.isResolved h.sound (ready d hd), ?_, status⟩
      show after.firstFault? job.deps = some fault
      rw [firstFault?_congr fun d hd => final d (ready d hd)]
      exact failed
    · exact .inl ⟨⟨p, job, t.machine⟩, mem_executed_advance.2 (.inr ⟨job, running, rfl⟩), rfl, rfl⟩
    · obtain ⟨x, hx, mine⟩ := h.closing p owed lingers
      exact .inl ⟨x, mem_executed_advance.2 (.inl hx), mine⟩

/-- A step of a worker, with the work that it executes. -/
theorem Recorded.turn (h : t.Recorded) (turn : t.machine.Turn q after) :
    (t.advance q after).Recorded where
  sound := turn.sound h.sound
  split := h.split_advance turn
  found := fun p some => by
    rw [machine_advance, (turn.base h.sound).isSome_queue?]
    exact h.found p some
  known := fun p job mem => by
    rw [machine_advance, turn.length_events h.sound]
    exact h.known p job mem
  ordered := h.ordered
  apart := h.apart
  earlier := h.earlier
  mine := fun x hx => by
    rcases mem_executed_advance.1 hx with old | ⟨job, running, rfl⟩
    · exact h.mine x old
    · exact h.submitted_of_pending (pending_of_running running)
  ready := fun _ hx _ hd => h.ready_advance turn hx hd
  once := h.once_advance after
  lingering := fun _ hx mem => h.lingering_advance turn hx mem
  closing := fun _ _ lingers => h.closing_advance turn lingers
  result := fun _ hx ended => h.result_advance turn hx ended
  settled := fun _ _ mem ended => h.settled_advance turn mem ended

end

/-- A call of the host. -/
theorem Recorded.call (h : t.Recorded) {c : Call} (allowed : c.Allowed t.machine) :
    (t.call c).Recorded := by
  by_cases submission : c.IsSubmission
  · cases c with
    | submit queue label deps work =>
      obtain ⟨held, known, _⟩ := allowed
      have submitted := submitted_submit label deps work (isClosed_of_handles held)
      have recorded := h.submit submitted known
      rw [← event_submit] at recorded
      exact recorded
    | _ => exact absurd submission id
  · have recorded := h.of_steady (c.steady t.machine submission)
    have same : t.call c = { t with machine := c.apply t.machine } := by
      cases c with
      | submit => exact absurd trivial submission
      | _ => rfl
    rw [same]
    exact recorded

/-- **Every step keeps the invariant of the history.** -/
theorem Recorded.step (h : t.Recorded) (step : Step t u) : u.Recorded := by
  cases step with
  | call c allowed => exact h.call allowed
  | worker q after step => exact h.turn (turn_of_advance? step)

theorem Recorded.of_reaches (h : t.Recorded) (run : Reaches t u) : u.Recorded := by
  induction run with
  | refl => exact h
  | step _ step ih => exact ih.step step

/-- An event that is resolved keeps its status in a step. -/
theorem Recorded.final (h : t.Recorded) (step : Step t u) {e : EventId}
    (ended : t.machine.isResolved e) : u.machine.status e = t.machine.status e := by
  cases step with
  | call c allowed =>
    by_cases submission : c.IsSubmission
    · cases c with
      | submit queue label deps work =>
        have open' := isClosed_of_handles allowed.1
        exact (submitted_submit label deps work open').status (known_of_isResolved ended)
      | _ => exact absurd submission id
    · exact (c.steady t.machine submission).status (known_of_isResolved ended)
  | worker q after step => exact (turn_of_advance? step).status_of_isResolved h.sound ended

end

/-! ## What holds of every run -/

/-- The fault of failed work. -/
def RaisedBy (t : Trace) (x : Execution) (fault : Fault) : Prop :=
  ∃ e, (x.job.work.perform x.before.contents).failure = some e ∧
    fault = ⟨t.machine.queueName x.queue, x.job.label, e.message⟩

/-- Where the fault of an event comes from. -/
inductive Origin (t : Trace) (fault : Fault) : EventId → Prop
  /-- The host made the event with the fault. -/
  | given (e : EventId) (none : ∀ q, ∀ job ∈ t.submitted q, job.event ≠ e) : Origin t fault e
  /-- The work of the job of the event failed. -/
  | raised (x : Execution) (executed : x ∈ t.executed) (raised : t.RaisedBy x fault) :
      Origin t fault x.job.event
  /-- The job of the event has a dependency with the fault, and none before that failed. -/
  | passed (q : QueueId) (job : Job) (submitted : job ∈ t.submitted q) (d : EventId)
      (before after : List EventId) (deps : job.deps = before ++ d :: after)
      (complete : ∀ e ∈ before, t.machine.status e = .complete) (origin : Origin t fault d) :
      Origin t fault job.event

variable {t u : Trace} {q : QueueId}

/-- The first fault of resolved events stands behind complete ones. -/
private theorem exists_of_firstFault? {m : Machine} {fault : Fault} {deps : List EventId}
    (ready : ∀ d ∈ deps, m.isResolved d) (h : m.firstFault? deps = some fault) :
    ∃ before d after, deps = before ++ d :: after ∧ (∀ e ∈ before, m.status e = .complete) ∧
      m.status d = .failed fault := by
  obtain ⟨before, d, after, rfl, failed, free⟩ := List.findSome?_eq_some_iff.1 h
  refine ⟨before, d, after, rfl, ?_, ?_⟩
  · exact complete_of_firstFault?_eq_none
      (fun e he => ready e (List.mem_append_left _ he)) (List.findSome?_eq_none_iff.2 free)
  · cases hs : m.status d with
    | pending => simp [hs, Status.fault?] at failed
    | complete => simp [hs, Status.fault?] at failed
    | failed f =>
      simp only [hs, Status.fault?, Option.some.injEq] at failed
      rw [failed]

/-- The fault of a job whose work was executed is the one that the work raised. -/
theorem Recorded.failed_iff_of_executed (h : t.Recorded) {x : Execution} (hx : x ∈ t.executed)
    (ended : t.machine.isResolved x.job.event) {fault : Fault} :
    t.machine.status x.job.event = .failed fault ↔ t.RaisedBy x fault := by
  have result := h.result x hx ended
  unfold Execution.verdict Job.verdict at result
  constructor
  · intro failed
    rw [failed] at result
    split at result
    next => cases result
    next e raised => exact ⟨e, raised, by cases result; rfl⟩
  · rintro ⟨e, raised, rfl⟩
    rw [result, raised]

/-- **Every fault can be followed back** along the dependencies, to failed work or to an event that
the host made. The induction is on the age of the event: dependencies are older. -/
theorem Recorded.origin (h : t.Recorded) {fault : Fault} (n : Nat) :
    ∀ e : EventId, e.index < n → t.machine.status e = .failed fault → t.Origin fault e := by
  induction n with
  | zero => exact fun e he => absurd he (Nat.not_lt_zero _)
  | succ n ih =>
    intro e he failed
    by_cases given : ∀ q, ∀ job ∈ t.submitted q, job.event ≠ e
    · exact .given e given
    · obtain ⟨q, job, mem, rfl⟩ : ∃ q, ∃ job ∈ t.submitted q, job.event = e := by
        apply Classical.byContradiction
        intro none
        exact given fun q job mem same => none ⟨q, job, mem, same⟩
      have ended := isResolved_of_failed failed
      rcases h.settled q job mem ended with ⟨x, hx, rfl, rfl⟩ | ⟨first, ready, firstFault, status⟩
      · exact .raised x hx ((h.failed_iff_of_executed hx ended).1 failed)
      · rw [failed] at status
        cases status
        obtain ⟨before, d, after, deps, complete, at'⟩ := exists_of_firstFault? ready firstFault
        have older : d.index < job.event.index :=
          h.earlier q job mem d (by rw [deps]; exact List.mem_append_right _ List.mem_cons_self)
        exact .passed q job mem d before after deps complete
          (ih d (Nat.lt_of_lt_of_le older (Nat.le_of_lt_succ he)) at')

/-- How contents come about. Calls of the host change them, and so do works: each execution performed
its work once, on the contents that were there just before, and they are in the order of the list. -/
inductive Written : List Execution → Contents → Prop
  | start : Written [] Machine.empty.contents
  | call (executed : List Execution) (m : Machine) (c : Call) (allowed : c.Allowed m)
      (written : Written executed m.contents) : Written executed (c.apply m).contents
  | work (executed : List Execution) (x : Execution)
      (written : Written executed x.before.contents) :
      Written (executed ++ [x]) (x.job.work.perform x.before.contents).result

/-- A step writes what its call or its execution writes, and nothing else. -/
theorem Written.step (h : Written t.executed t.machine.contents) (step : Step t u) :
    Written u.executed u.machine.contents := by
  cases step with
  | call c allowed => exact .call t.executed t.machine c allowed h
  | worker q after step =>
    have turn := turn_of_advance? step
    unfold advance
    dsimp only
    split
    next job running =>
      rw [turn.contents_of_running running]
      exact .work t.executed ⟨q, job, t.machine⟩ h
    next none =>
      rw [turn.contents_of_not_running none]
      exact h

end Trace

end BatchDigest
