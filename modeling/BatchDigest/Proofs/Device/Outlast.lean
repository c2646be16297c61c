import BatchDigest.Proofs.Device.Call
import BatchDigest.Proofs.Device.Runs

/-!
# Events that outlast others

A queue resolves its events in the order of submission, so that the last event of a chain of jobs
tells that all of them are over. `Machine.Outlasts e d` is what is left of that when the chain is
half done: while the job of `d` is pending, so is the job of `e`. A submission outlasts all that is
on its queue (`outlasts_submit`), and no step of a worker and no call changes that again.
-/

namespace BatchDigest.Machine

variable {m n after : Machine} {q : QueueId} {d e f : EventId}

/-- While the job of `d` is pending, so is that of `e`, in the same queue and not before it. -/
def Outlasts (m : Machine) (e d : EventId) : Prop :=
  ∀ q, ∀ job ∈ m.pending q, job.event = d →
    d.index ≤ e.index ∧ ∃ last ∈ m.pending q, last.event = e

theorem Outlasts.refl (m : Machine) (e : EventId) : m.Outlasts e e :=
  fun _ job mem same => ⟨Nat.le_refl _, job, mem, same⟩

theorem Outlasts.trans (first : m.Outlasts f e) (second : m.Outlasts e d) : m.Outlasts f d := by
  intro q job mem same
  obtain ⟨le, last, mem', same'⟩ := second q job mem same
  obtain ⟨le', last'⟩ := first q last mem' same'
  exact ⟨Nat.le_trans le le', last'⟩

/-- Once the later event is resolved, no job of the earlier one is pending. -/
theorem Outlasts.not_pending (h : m.Outlasts e d) (sound : m.Sound) (ended : m.isResolved e)
    {job : Job} (mem : job ∈ m.pending q) : job.event ≠ d := by
  intro same
  obtain ⟨_, last, mem', rfl⟩ := h q job mem same
  exact isResolved_iff.1 ended (sound.due q last mem')

/-- Queues are first in, first out: a step cannot resolve the later event alone. -/
theorem Outlasts.turn (h : m.Outlasts e d) (sound : m.Sound) (turn : m.Turn q after) :
    after.Outlasts e d := by
  intro p job mem same
  rcases turn.settles sound with rests | ⟨ended, s, ends⟩
  · rw [rests.pending] at mem ⊢
    exact h p job mem same
  · obtain ⟨le, last, mem', rfl⟩ := h p job (ends.mem_of_after sound mem).1 same
    rcases ends.mem_or_eq mem' with still | ⟨rfl, rfl⟩
    · exact ⟨le, last, still, rfl⟩
    · -- The job that ended was the first, and what is left comes after it.
      have ordered := sound.ordered p
      rw [ends.first] at ordered
      have lt := (List.pairwise_cons.1 ordered).1 job mem
      subst same
      omega

theorem Outlasts.evolves (h : m.Outlasts e d) (sound : m.Sound) (evolves : m.Evolves n) :
    n.Outlasts e d :=
  evolves.keeps_sound (p := (·.Outlasts e d)) sound (fun _ _ _ sound h turn => h.turn sound turn) h

theorem Outlasts.steady (h : m.Outlasts e d) (steady : m.Steady after) : after.Outlasts e d := by
  intro p job mem same
  rw [steady.pending] at mem ⊢
  exact h p job mem same

theorem Outlasts.submitted {job : Job} (h : m.Outlasts e d) (submitted : m.Submitted q job after)
    (known : d.index < m.events.length) : after.Outlasts e d := by
  intro p old mem same
  rcases submitted.mem_pending.1 mem with old' | ⟨_, rfl⟩
  · obtain ⟨le, last, mem', same'⟩ := h p old old' same
    exact ⟨le, last, submitted.mem_pending.2 (.inl mem'), same'⟩
  · rw [← same, submitted.event] at known
    exact absurd known (Nat.lt_irrefl _)

/-! ## Events of one queue -/

/-- The event is on record, and its job is in the given queue as long as it is pending. -/
structure IsOn (m : Machine) (q : QueueId) (e : EventId) : Prop where
  known : e.index < m.events.length
  pending : ∀ p, ∀ job ∈ m.pending p, job.event = e → p = q

theorem isOn_of_isResolved (sound : m.Sound) (ended : m.isResolved e) (q : QueueId) :
    m.IsOn q e := by
  refine ⟨known_of_isResolved ended, ?_⟩
  rintro p job mem rfl
  exact absurd (sound.due p job mem) (isResolved_iff.1 ended)

theorem IsOn.turn {p : QueueId} (h : m.IsOn q e) (sound : m.Sound) (turn : m.Turn p after) :
    after.IsOn q e := by
  exact ⟨by rw [turn.length_events sound]; exact h.known,
    fun other job mem => h.pending other job (turn.mem_pending mem)⟩

theorem IsOn.evolves (h : m.IsOn q e) (sound : m.Sound) (evolves : m.Evolves n) : n.IsOn q e :=
  evolves.keeps_sound (p := (·.IsOn q e)) sound (fun _ _ _ sound h turn => h.turn sound turn) h

theorem IsOn.steady (h : m.IsOn q e) (steady : m.Steady after) : after.IsOn q e := by
  refine ⟨Nat.lt_of_lt_of_le h.known steady.length_events, fun p job mem => ?_⟩
  rw [steady.pending] at mem
  exact h.pending p job mem

section Submission

variable (q : QueueId) (label : String) (deps : List EventId) (work : Work)

/-- The event of a submission is on record, and older than all that come later. -/
theorem length_events_submit (m : Machine) :
    (m.submit q label deps work).2.events.length = m.events.length + 1 := by
  unfold submit
  split <;> simp [addEvent]

theorem IsOn.submit {p : QueueId} (h : m.IsOn p e) :
    (m.submit q label deps work).2.IsOn p e := by
  cases taken : m.isClosed q with
  | true => exact h.steady (steady_submit label deps work taken)
  | false =>
    have submitted := submitted_submit label deps work taken
    refine ⟨?_, fun other job mem same => ?_⟩
    · rw [length_events_submit]
      exact Nat.lt_succ_of_lt h.known
    rcases submitted.mem_pending.1 mem with old | ⟨_, rfl⟩
    · exact h.pending other job old same
    · have known := h.known
      rw [← same] at known
      exact absurd known (Nat.lt_irrefl _)

theorem isOn_submit (sound : m.Sound) :
    (m.submit q label deps work).2.IsOn q (m.submit q label deps work).1 := by
  rw [event_submit]
  refine ⟨by rw [length_events_submit]; exact Nat.lt_succ_self _, fun p job mem same => ?_⟩
  -- Either way no job that was there before has the new event.
  cases taken : m.isClosed q with
  | true =>
    rw [(steady_submit label deps work taken).pending] at mem
    have known := sound.known p job mem
    rw [same] at known
    exact absurd known (Nat.lt_irrefl _)
  | false =>
    rcases (submitted_submit label deps work taken).mem_pending.1 mem with old | ⟨on, _⟩
    · have known := sound.known p job old
      rw [same] at known
      exact absurd known (Nat.lt_irrefl _)
    · exact on

theorem Outlasts.submit (h : m.Outlasts e d) (known : d.index < m.events.length) :
    (m.submit q label deps work).2.Outlasts e d := by
  cases taken : m.isClosed q with
  | true => exact h.steady (steady_submit label deps work taken)
  | false => exact h.submitted (submitted_submit label deps work taken) known

end Submission

/-- Nothing is pending on a closed queue. -/
theorem pending_of_isClosed (closed : m.isClosed q = true) : m.pending q = [] := by
  unfold isClosed at closed
  unfold pending activity waiting
  cases found : m.queue? q with
  | none => rfl
  | some queue => simp_all [Queue.isDrained, Activity.current]

/-- The event of a submission outlasts all events of its queue: it is behind them, or the queue is
closed and nothing is pending there. -/
theorem outlasts_submit (label : String) (deps : List EventId) (work : Work) (on : m.IsOn q d) :
    (m.submit q label deps work).2.Outlasts (m.submit q label deps work).1 d := by
  rw [event_submit]
  intro p job mem same
  cases taken : m.isClosed q with
  | true =>
    rw [(steady_submit label deps work taken).pending] at mem
    have here := on.pending p job mem same
    rw [here, pending_of_isClosed taken] at mem
    cases mem
  | false =>
    have submitted := submitted_submit label deps work taken
    have here := (on.submit q label deps work).pending p job mem same
    subst here
    exact ⟨Nat.le_of_lt on.known, _, submitted.mem_pending.2 (.inr ⟨rfl, rfl⟩), rfl⟩

end BatchDigest.Machine
