import BatchDigest.Proofs.Device.Totals
import Mathlib.Data.Nat.Find

/-!
# How far workers go

For a job a worker takes one step to take it up, one to end it, and one more for each queue that it
may have to wait for because the job carries a handle to it. `Machine.load` counts what is left of
these, and every step of every worker lowers it. So workers that are left alone come to rest,
whatever the order of their steps, and `Machine.settle`, which takes as many steps as the load
allows, leaves no worker that could take another.

The other direction is when a worker can step at all: it is idle, and its first job has all its
dependencies resolved; or it runs a job that no gate holds up. Where nothing else holds the workers
up (`Machine.Unhindered`), one of them can step as long as an event is pending, so that all events
are resolved in the end.
-/

namespace BatchDigest

/-- The steps that a worker has left for what it is at. -/
def Activity.load : Activity → Nat
  | idle => 0
  | running job => job.work.held.length + 1
  | closing _ left _ => left.length + 1

/-- The steps that a worker takes for a job that waits. -/
def Job.load (job : Job) : Nat :=
  job.work.held.length + 2

/-- The steps that a worker has left, with those for what waits. -/
def Activity.steps (a : Activity) (waiting : List Job) : Nat :=
  (waiting.map Job.load).sum + a.load

theorem Queue.load_eq (queue : Queue) : queue.load = queue.activity.steps queue.waiting := by
  unfold Queue.load Activity.steps
  cases queue.activity <;> rfl

namespace Machine

variable {m after : Machine} {q : QueueId}

/-! ## Steps lower the load -/

/-- The load is a sum over the queues. -/
theorem load_eq_total (m : Machine) : m.load = m.total Activity.steps := by
  unfold load total
  rw [show Queue.load = fun queue => queue.activity.steps queue.waiting from funext Queue.load_eq]
  rfl

/-- A machine at rest has no load. -/
theorem load_eq_zero (quiet : ∀ q, m.activity q = .idle ∧ m.waiting q = []) : m.load = 0 := by
  rw [load_eq_total]
  refine total_eq_zero _ fun q => ?_
  rw [(quiet q).1, (quiet q).2]
  rfl

/-- A move lowers the load when it lowers that of its queue. -/
private theorem Moved.load_lt {a : Activity} {w : List Job} {e : List Status} {c : Contents}
    (h : m.Moved q a w e c after) (less : a.steps w < (m.activity q).steps (m.waiting q)) :
    after.load < m.load := by
  have change := h.total Activity.steps rfl
  rw [← load_eq_total, ← load_eq_total] at change
  omega

/-- A job that is submitted adds the steps that it takes at most. -/
theorem Submitted.load {job : Job} (h : m.Submitted q job after) :
    after.load = m.load + job.load := by
  have change := h.total Activity.steps rfl
  rw [← load_eq_total, ← load_eq_total] at change
  unfold Activity.steps at change
  rw [List.map_append, List.sum_append, List.map_singleton, List.sum_singleton] at change
  omega

/-- A worker that waits for a queue has fewer handles left than it had. -/
theorem HeldUp.length_lt {target : QueueId} {left held : List QueueId}
    (h : after.HeldUp q target left held) : left.length < held.length :=
  h.carried.length_le

/-- **Every step of a worker lowers the load.** -/
theorem Turn.load_lt (turn : m.Turn q after) : after.load < m.load := by
  cases turn with
  | begins job rest idle first ready moved =>
    refine moved.load_lt ?_
    rw [idle, first]
    show (rest.map Job.load).sum + (job.work.held.length + 1) <
      (job.work.held.length + 2 + (rest.map Job.load).sum) + 0
    omega
  | skips job rest fault next idle first ready failed calm moved =>
    refine moved.load_lt ?_
    have small : next.load ≤ job.work.held.length := by
      rcases calm with rfl | ⟨target, left, rfl, heldUp⟩
      · exact Nat.zero_le _
      · exact heldUp.length_lt
    rw [idle, first]
    show (rest.map Job.load).sum + next.load <
      (job.work.held.length + 2 + (rest.map Job.load).sum) + 0
    omega
  | ends job running moved =>
    refine moved.load_lt ?_
    rw [running]
    exact Nat.add_lt_add_left (Nat.succ_pos _) _
  | lingers job target left running heldUp moved =>
    refine moved.load_lt ?_
    rw [running]
    exact Nat.add_lt_add_left (Nat.succ_lt_succ heldUp.length_lt) _
  | proceeds before target held left due? closing heldUp moved =>
    refine moved.load_lt ?_
    rw [closing]
    exact Nat.add_lt_add_left (Nat.succ_lt_succ heldUp.length_lt) _
  | closes target left due? closing moved =>
    refine moved.load_lt ?_
    rw [closing]
    exact Nat.add_lt_add_left (Nat.succ_pos _) _

/-- Workers that may take as many steps as the load allows come to rest. -/
private theorem advanceAny?_settleFor (steps : Nat) (m : Machine) (enough : m.load ≤ steps) :
    (settleFor steps m).advanceAny? = none := by
  induction steps generalizing m with
  | zero =>
    cases h : m.advanceAny? with
    | none => exact h
    | some after =>
      obtain ⟨i, _, step⟩ := List.exists_of_findSome?_eq_some h
      have lower := (turn_of_advance? step).load_lt
      omega
  | succ steps ih =>
    unfold settleFor
    cases h : m.advanceAny? with
    | none => exact h
    | some after =>
      obtain ⟨i, _, step⟩ := List.exists_of_findSome?_eq_some h
      have lower := (turn_of_advance? step).load_lt
      exact ih after (by omega)

/-- **The settled machine is at rest**: no worker can take a step. -/
theorem advance?_settle (m : Machine) (q : QueueId) : m.settle.advance? q = none := by
  have rest : m.settle.advanceAny? = none := advanceAny?_settleFor m.load m (Nat.le_refl _)
  by_cases known : q.index < m.settle.queues.length
  · exact List.findSome?_eq_none_iff.1 rest q.index (List.mem_range.2 known)
  · have none : m.settle.queue? q = none := List.getElem?_eq_none (Nat.le_of_not_lt known)
    unfold advance?
    rw [none]
    rfl

/-! ## When a worker can step -/

/-- An idle worker takes up or skips its first job once all dependencies are resolved. -/
theorem isSome_advance?_of_idle {job : Job} {rest : List Job} (idle : m.activity q = .idle)
    (first : m.waiting q = job :: rest) (ready : ∀ d ∈ job.deps, m.isResolved d) :
    (m.advance? q).isSome := by
  have exists' := isSome_queue?_of_waiting (m := m) (q := q) (by rw [first]; nofun)
  obtain ⟨queue, found⟩ := Option.isSome_iff_exists.1 exists'
  have idle' : queue.activity = .idle := by
    unfold activity at idle
    rwa [found] at idle
  have first' : queue.waiting = job :: rest := by
    unfold waiting at first
    rwa [found] at first
  have all : job.deps.all m.isResolved = true := List.all_eq_true.2 ready
  unfold advance?
  simp only [found, Option.bind_eq_bind, Option.bind_some, idle', first']
  unfold start?
  rw [if_pos all]
  dsimp only
  cases m.firstFault? job.deps <;> rfl

/-- A worker ends the job that it runs, unless a gate holds it up. -/
theorem isSome_advance?_of_running {job : Job} (running : m.activity q = .running job)
    (free : ∀ gate, job.work = .gate gate → m.isOpen gate) : (m.advance? q).isSome := by
  have exists' := isSome_queue?_of_activity (m := m) (q := q) (by rw [running]; nofun)
  obtain ⟨queue, found⟩ := Option.isSome_iff_exists.1 exists'
  have running' : queue.activity = .running job := by
    unfold activity at running
    rwa [found] at running
  unfold advance?
  simp only [found, Option.bind_eq_bind, Option.bind_some, running']
  have free' : m.isFree job.work := by
    unfold isFree
    split
    next gate work => exact free gate work
    next => rfl
  unfold finish?
  rw [if_pos free']
  rfl

theorem isDrained_iff : m.isDrained q = true ↔ m.waiting q = [] ∧ m.activity q = .idle := by
  unfold isDrained waiting activity
  cases m.queue? q with
  | none => simp
  | some queue => simp [Queue.isDrained]

/-! ## When all events come -/

/-- Nothing holds the workers up but their work: the gates on the way are open, no job carries a
queue handle, and no worker waits for a queue. -/
structure Unhindered (m : Machine) : Prop where
  opened : ∀ q, ∀ job ∈ m.pending q, ∀ gate, job.work = .gate gate → m.isOpen gate
  carefree : ∀ q, m.held q = []
  calm : ∀ q target left due?, m.activity q ≠ .closing target left due?

/-- Gates that are open stay so, and no step of a worker adds a job behind another gate. -/
theorem Turn.opened (turn : m.Turn q after)
    (opened : ∀ p, ∀ job ∈ m.pending p, ∀ gate, job.work = .gate gate → m.isOpen gate) :
    ∀ p, ∀ job ∈ after.pending p, ∀ gate, job.work = .gate gate → after.isOpen gate := by
  intro p job mem gate work
  have ajar := opened p job (turn.mem_pending mem) gate work
  unfold isOpen at ajar ⊢
  rwa [turn.gates]

/-- **Progress**: while an event is pending, some worker can take a step. The worker of the queue of
the oldest pending event can, as all that this event depends on is older. -/
theorem Unhindered.progress (h : m.Unhindered) (sound : m.Sound)
    (due : ∃ e : EventId, e.index < m.events.length ∧ m.status e = .pending) :
    ∃ q, (m.advance? q).isSome := by
  obtain ⟨n, ⟨known, pending⟩, least⟩ : ∃ n : Nat,
      (n < m.events.length ∧ m.status ⟨n⟩ = .pending) ∧
        ∀ i, i < n → ¬ (i < m.events.length ∧ m.status ⟨i⟩ = .pending) := by
    obtain ⟨e, known, pending⟩ := due
    have exists' : ∃ n : Nat, n < m.events.length ∧ m.status ⟨n⟩ = .pending :=
      ⟨e.index, known, pending⟩
    exact ⟨Nat.find exists', Nat.find_spec exists', fun i lt => Nat.find_min exists' lt⟩
  have resolved : ∀ d : EventId, d.index < n → m.isResolved d := fun d lt =>
    isResolved_iff.2 fun due => least d.index lt ⟨Nat.lt_trans lt known, due⟩
  obtain ⟨q, job, mem, event⟩ := sound.owed ⟨n⟩ known pending
  have ready : ∀ d ∈ job.deps, m.isResolved d := by
    intro d hd
    have older := sound.earlier q job mem d hd
    rw [event] at older
    exact resolved d older
  -- Whatever stands before the job in its queue would be an older pending event.
  have first : ∃ rest, m.pending q = job :: rest := by
    have ordered := sound.ordered q
    cases hp : m.pending q with
    | nil => rw [hp] at mem; cases mem
    | cons head rest =>
      rw [hp] at mem ordered
      rcases List.mem_cons.1 mem with rfl | later
      · exact ⟨rest, rfl⟩
      · have older := (List.pairwise_cons.1 ordered).1 job later
        rw [event] at older
        have inFront : head ∈ m.pending q := by rw [hp]; exact List.mem_cons_self
        exact absurd (sound.due q head inFront) (isResolved_iff.1 (resolved _ older))
  obtain ⟨rest, first⟩ := first
  refine ⟨q, ?_⟩
  unfold Machine.pending at first
  cases activity : m.activity q with
  | idle =>
    rw [activity] at first
    exact isSome_advance?_of_idle activity first ready
  | running running =>
    rw [activity] at first
    cases (List.cons.inj first).1
    exact isSome_advance?_of_running activity (h.opened q _ mem)
  | closing target left due? => exact absurd activity (h.calm q target left due?)

/-- **All events are resolved once the workers have settled.** -/
theorem Unhindered.isResolved_of_rest (h : m.Unhindered) (sound : m.Sound)
    (rest : ∀ q, m.advance? q = none) {e : EventId} (known : e.index < m.events.length) :
    m.isResolved e := by
  refine isResolved_iff.2 fun pending => ?_
  obtain ⟨q, step⟩ := h.progress sound ⟨e, known, pending⟩
  rw [rest q] at step
  cases step

end Machine

end BatchDigest
