import BatchDigest.Proofs.Device.Progress
import BatchDigest.Proofs.Device.Serial

/-!
# Schedules do not matter

A program of submissions is run by the host and the workers in any interleaving. When it is free of
races, every run comes to the same: the statuses of all events and the contents of all regions are
those of the serial execution (`schedule_independent`). No run gets stuck, and none goes on for
ever.

The invariant of a run, `Partway`, compares the machine with the serial execution position by
position. The positions that are over are closed under happens-before. Each has the status that it
has in the serial execution. And each region is as the serial execution has it between its last
writer that is over and its first writer that is not; without races these two are next to each
other, as happens-before orders the writers of a region.
-/

namespace BatchDigest.Machine

/-- A program that the host can run on a machine at rest: the host holds the queues, a submission
depends on older events only, no gate is closed and no work carries a handle of a queue. -/
structure Runnable (m : Machine) (program : List Submission) : Prop where
  resolved : ∀ e : EventId, e.index < m.events.length → m.isResolved e
  quiet : ∀ q, m.activity q = .idle ∧ m.waiting q = []
  held : ∀ s ∈ program, 0 < m.handles s.queue
  known : ∀ i s, program[i]? = some s → ∀ d ∈ s.deps, d.index < m.events.length + i
  keeps : ∀ s ∈ program, s.work.held = []
  opened : ∀ s ∈ program, ∀ gate, s.work = .gate gate → m.isOpen gate

/-- The first `k` submissions of a program that is run from `m` on were made, and workers got
through some of them. -/
structure Partway (m : Machine) (program : List Submission) (k : Nat) (now : Machine) : Prop where
  sound : now.Sound
  within : k ≤ program.length
  count : now.events.length = m.events.length + k
  gates : now.gates = m.gates
  handles : ∀ q, now.handles q = m.handles q
  names : ∀ q, now.queueName q = m.queueName q
  calm : ∀ q target left due?, now.activity q ≠ .closing target left due?
  mine : ∀ q, ∀ job ∈ now.pending q, ∃ i, ∃ s : Submission, program[i]? = some s ∧
    s.queue = q ∧ job = s.job (m.eventAt i)
  old : ∀ e : EventId, e.index < m.events.length → now.status e = m.status e
  down : ∀ i j, m.Precedes program i j → now.isResolved (m.eventAt j) →
    now.isResolved (m.eventAt i)
  statuses : ∀ i, i < program.length → now.isResolved (m.eventAt i) →
    now.status (m.eventAt i) = (m.serial program (i + 1)).status (m.eventAt i)
  contents : ∀ r t, t ≤ program.length →
    (∀ i s, program[i]? = some s → r ∈ s.work.writes →
      (now.isResolved (m.eventAt i) ↔ i < t)) →
    now.contents.Agrees (m.serial program t).contents r

variable {m now after : Machine} {program : List Submission} {k i j : Nat} {q : QueueId}

theorem eventAt_inj (same : m.eventAt i = m.eventAt j) : i = j :=
  Nat.add_left_cancel (congrArg EventId.index same)

/-! ## Happens-before and the order of submission -/

theorem Runnable.lt_of_precedes (h : m.Runnable program) (precedes : m.Precedes program i j) :
    i < j := by
  obtain ⟨a, b, _, hb, ⟨lt, _⟩ | dep⟩ := precedes
  · exact lt
  · exact Nat.lt_of_add_lt_add_left (h.known j b hb _ dep)

theorem Runnable.lt_of_happensBefore (h : m.Runnable program)
    (before : m.HappensBefore program i j) : i < j := by
  induction before with
  | single precedes => exact h.lt_of_precedes precedes
  | tail _ precedes ih => exact Nat.lt_trans ih (h.lt_of_precedes precedes)

/-- Positions that are over are closed under happens-before. -/
theorem Partway.down_of_happensBefore (h : m.Partway program k now)
    (before : m.HappensBefore program i j) (ended : now.isResolved (m.eventAt j)) :
    now.isResolved (m.eventAt i) := by
  induction before with
  | single precedes => exact h.down _ _ precedes ended
  | tail _ precedes ih => exact ih (h.down _ _ precedes ended)

/-! ## The position whose job ends -/

section

variable {s : Submission} {status : Status}

/-- What comes before the first pending job of a queue whose dependencies are resolved is over. -/
private theorem Partway.over_of_precedes (h : m.Partway program k now)
    (runnable : m.Runnable program) (at' : program[j]? = some s)
    (mem : s.job (m.eventAt j) ∈ now.pending s.queue)
    (first : now.pending s.queue = s.job (m.eventAt j) :: after.pending s.queue)
    (ready : ∀ d ∈ s.deps, now.isResolved d) (precedes : m.Precedes program i j) :
    now.isResolved (m.eventAt i) := by
  have lt := runnable.lt_of_precedes precedes
  obtain ⟨a, b, ha, hb, ⟨_, queue⟩ | dep⟩ := precedes
  · rw [at'] at hb
    cases hb
    rw [isResolved_iff]
    intro due
    -- Otherwise the earlier job would stand before the first one.
    have inside : (m.eventAt j).index < now.events.length := h.sound.known s.queue _ mem
    have known : (m.eventAt i).index < now.events.length :=
      Nat.lt_trans (Nat.add_lt_add_left lt _) inside
    obtain ⟨q, job, hjob, same⟩ := h.sound.owed (m.eventAt i) known due
    obtain ⟨i', a', ha', rfl, rfl⟩ := h.mine q job hjob
    cases eventAt_inj same
    rw [ha] at ha'
    cases ha'
    have ordered := h.sound.ordered a.queue
    rw [queue, first] at ordered
    rw [queue, first] at hjob
    rcases List.mem_cons.1 hjob with same' | later
    · have index := eventAt_inj (congrArg Job.event same')
      omega
    · have younger := (List.pairwise_cons.1 ordered).1 _ later
      have index : m.events.length + j < m.events.length + i := younger
      omega
  · rw [at'] at hb
    cases hb
    exact ready _ dep

/-- A resolved event that a position depends on has the status of the serial execution. -/
private theorem Partway.status_eq_serial (h : m.Partway program k now) (inside : j ≤ program.length)
    {e : EventId} (known : e.index < m.events.length + j) (ended : now.isResolved e) :
    (m.serial program j).status e = now.status e := by
  by_cases old : e.index < m.events.length
  · rw [h.old e old]
    exact status_serial (Nat.zero_le j) inside old
  · have position : e = m.eventAt (e.index - m.events.length) := by
      apply EventId.eq_of_index
      show e.index = m.events.length + (e.index - m.events.length)
      omega
    have lt : e.index - m.events.length < j := by omega
    rw [position] at ended
    rw [position, h.statuses _ (Nat.lt_of_lt_of_le lt inside) ended]
    refine status_serial lt inside ?_
    show m.events.length + _ < _
    omega

/-- What the work of a position touches is as the serial execution has it there, once all that comes
before is over and while the position is not. -/
private theorem Partway.agrees_touched (h : m.Partway program k now) (runnable : m.Runnable program)
    (free : m.RaceFree program) (at' : program[j]? = some s)
    (before : ∀ i, m.Precedes program i j → now.isResolved (m.eventAt i))
    (due : ¬ now.isResolved (m.eventAt j)) {r : Region} (touched : r ∈ s.work.touches) :
    now.contents.Agrees (m.serial program j).contents r := by
  have inside : j < program.length := (List.getElem?_eq_some_iff.1 at').1
  refine h.contents r j (Nat.le_of_lt inside) ?_
  intro i a ha writes
  by_cases same : i = j
  · subst same
    exact ⟨fun ended => absurd ended due, fun lt => absurd lt (Nat.lt_irrefl _)⟩
  · have conflict : a.work.Conflicts s.work :=
      ⟨r, Work.mem_touches_of_mem_writes writes, touched, .inl writes⟩
    rcases free i j a s ha at' same conflict with earlier | later
    · refine ⟨fun _ => runnable.lt_of_happensBefore earlier, fun _ => ?_⟩
      cases earlier with
      | single precedes => exact before i precedes
      | tail chain precedes => exact h.down_of_happensBefore chain (before _ precedes)
    · have lt := runnable.lt_of_happensBefore later
      exact ⟨fun ended => absurd (h.down_of_happensBefore later ended) due, fun gt => by omega⟩

/-- The job of a position ends as in the serial execution. -/
private theorem Partway.verdict_eq_serial (h : m.Partway program k now)
    (runnable : m.Runnable program)
    (free : m.RaceFree program) (at' : program[j]? = some s)
    (ends : now.Finishes s.queue (s.job (m.eventAt j)) status after) :
    status = (m.serial program (j + 1)).status (m.eventAt j) ∧
      ∀ r ∈ s.work.touches, after.contents.Agrees (m.serial program (j + 1)).contents r := by
  have inside : j < program.length := (List.getElem?_eq_some_iff.1 at').1
  obtain ⟨ready, verdict⟩ := ends.verdict.cases
  have due : ¬ now.isResolved (m.eventAt j) := by
    rw [isResolved_iff]
    exact fun ne => ne (h.sound.due s.queue _ ends.mem)
  have touched : ∀ r ∈ s.work.touches, now.contents.Agrees (m.serial program j).contents r :=
    fun r hr => h.agrees_touched runnable free at'
      (fun i => h.over_of_precedes runnable at' ends.mem ends.first ready) due hr
  have deps : (m.serial program j).firstFault? s.deps = now.firstFault? s.deps :=
    firstFault?_congr fun d hd => h.status_eq_serial (Nat.le_of_lt inside)
      (runnable.known j s at' d hd) (ready d hd)
  have event : m.eventAt j = ⟨(m.serial program j).events.length⟩ := by
    rw [length_serial (Nat.le_of_lt inside)]
    rfl
  rw [serial_succ at', event]
  rcases verdict with ⟨fault, failed, rfl, contents⟩ | ⟨none, rfl, contents⟩
  · obtain ⟨status, same⟩ := execute_of_fault (deps.trans failed)
    rw [status, same, contents]
    exact ⟨rfl, touched⟩
  · obtain ⟨status, same⟩ := execute_of_no_fault (deps.trans none)
    obtain ⟨failure, result⟩ := Work.perform_congr touched
    rw [status, same, contents, queueName_serial j (Nat.le_of_lt inside), h.names, ← failure]
    exact ⟨rfl, result⟩

/-! ## Steps of a run -/

theorem Runnable.pending (h : m.Runnable program) (q : QueueId) : m.pending q = [] := by
  unfold Machine.pending
  rw [(h.quiet q).1, (h.quiet q).2]
  rfl

/-- A machine at rest has no job that could break the invariant. -/
theorem Runnable.sound (h : m.Runnable program) : m.Sound := by
  have none : ∀ q job, job ∉ m.pending q := by
    intro q job
    rw [h.pending]
    exact List.not_mem_nil
  refine ⟨?_, ?_, ?_, ?_, ?_, ?_, ?_, ?_⟩
  · exact fun q job mem => absurd mem (none q job)
  · exact fun q job mem => absurd mem (none q job)
  · exact fun e known due => absurd due (isResolved_iff.1 (h.resolved e known))
  · exact fun q _ job mem => absurd mem (none q job)
  · exact fun q => by rw [h.pending]; exact .nil
  · exact fun q job mem => absurd mem (none q job)
  · exact fun q job mem => absurd mem (by rw [(h.quiet q).1]; exact List.not_mem_nil)
  · exact fun q _ _ _ closing => absurd closing (by rw [(h.quiet q).1]; nofun)

/-- A machine at rest before the first submission. -/
theorem Runnable.partway (h : m.Runnable program) : m.Partway program 0 m := by
  have unknown : ∀ i, ¬ m.isResolved (m.eventAt i) := by
    intro i ended
    exact absurd (known_of_isResolved ended) (Nat.not_lt.2 (Nat.le_add_right _ _))
  refine ⟨h.sound, Nat.zero_le _, rfl, rfl, fun _ => rfl, fun _ => rfl, ?_, ?_, fun _ _ => rfl,
    ?_, ?_, ?_⟩
  · exact fun q _ _ _ closing => absurd closing (by rw [(h.quiet q).1]; nofun)
  · exact fun q job mem => absurd mem (by rw [h.pending]; exact List.not_mem_nil)
  · exact fun i j _ ended => absurd ended (unknown j)
  · exact fun i _ ended => absurd ended (unknown i)
  · intro r t inside writers
    -- No writer of the region stands before `t`, as none is over.
    refine (agrees_serial (Nat.zero_le t) inside ?_).symm
    intro i s at' _ lt writes
    exact unknown i ((writers i s at' writes).2 lt)

/-- The next submission. -/
theorem Partway.submit (h : m.Partway program k now) {s : Submission}
    (runnable : m.Runnable program) (at' : program[k]? = some s) :
    m.Partway program (k + 1) (s.submit now).2 := by
  have mem : s ∈ program := List.mem_of_getElem? at'
  have held : 0 < now.handles s.queue := by
    rw [h.handles]
    exact runnable.held s mem
  have submitted := submitted_submit s.label s.deps s.work (isClosed_of_handles held)
  have status := submitted.status_eq
  have resolved : ∀ e, (s.submit now).2.isResolved e = now.isResolved e := by
    intro e
    unfold isResolved Submission.submit
    rw [status]
  have event : (⟨now.events.length⟩ : EventId) = m.eventAt k := by
    rw [h.count]
    rfl
  refine ⟨submitted.sound h.sound ?deps, (List.getElem?_eq_some_iff.1 at').1, ?count,
    submitted.base.gates.trans h.gates, ?handles, ?names, ?calm, ?mine, ?old, ?down, ?statuses,
    ?contents⟩
  case deps =>
    intro d hd
    rw [h.count]
    exact runnable.known k s at' d hd
  case count =>
    have events : (s.submit now).2.events = _ := submitted.events
    rw [events, List.length_append, h.count]
    rfl
  case handles =>
    intro q
    exact (submitted.handles q).trans (h.handles q)
  case names =>
    intro q
    exact (submitted.base.queueName q).trans (h.names q)
  case calm =>
    intro q target left due? closing
    exact h.calm q target left due? ((submitted.activity q).symm.trans closing)
  case mine =>
    intro q job hjob
    rcases submitted.mem_pending.1 hjob with old | ⟨rfl, rfl⟩
    · exact h.mine q job old
    · exact ⟨k, s, at', rfl, by rw [← event]; rfl⟩
  case old =>
    intro e known
    exact (status e).trans (h.old e known)
  case down =>
    intro i j precedes ended
    rw [resolved] at ended ⊢
    exact h.down i j precedes ended
  case statuses =>
    intro i inside ended
    rw [resolved] at ended
    exact (status _).trans (h.statuses i inside ended)
  case contents =>
    intro r t inside writers
    have contents : (s.submit now).2.contents = now.contents := submitted.contents
    rw [contents]
    refine h.contents r t inside ?_
    intro i a ha writes
    rw [← resolved]
    exact writers i a ha writes

/-- Jobs of the program carry no handle. -/
private theorem Partway.keeps (h : m.Partway program k now) (runnable : m.Runnable program)
    (q : QueueId) : now.held q = [] := by
  have carefree : ∀ job ∈ now.pending q, job.work.held = [] := by
    intro job mem
    obtain ⟨i, s, at', _, rfl⟩ := h.mine q job mem
    exact runnable.keeps s (List.mem_of_getElem? at')
  rw [held_of_calm (h.calm q), List.flatMap_eq_nil_iff]
  exact carefree

/-- A step of a worker in which no job ends. -/
private theorem Partway.rests (h : m.Partway program k now) (rests : now.Rests after)
    (sound : after.Sound) (handles : ∀ p, after.handles p = m.handles p)
    (calm : ∀ p target left due?, after.activity p ≠ .closing target left due?) :
    m.Partway program k after := by
  have status := status_of_events rests.events
  have resolved : ∀ e, after.isResolved e = now.isResolved e := by
    intro e
    unfold isResolved
    rw [status]
  refine ⟨sound, h.within, by rw [rests.events]; exact h.count, rests.base.gates.trans h.gates,
    handles, ?_, calm, ?_, ?_, ?_, ?_, ?_⟩
  · exact fun p => (rests.base.queueName p).trans (h.names p)
  · intro p job mem
    rw [rests.pending] at mem
    exact h.mine p job mem
  · exact fun e known => (status e).trans (h.old e known)
  · intro i j precedes ended
    rw [resolved] at ended ⊢
    exact h.down i j precedes ended
  · intro i inside ended
    rw [resolved] at ended
    exact (status _).trans (h.statuses i inside ended)
  · intro r t inside writers
    rw [rests.contents]
    refine h.contents r t inside ?_
    intro i a ha writes
    rw [← resolved]
    exact writers i a ha writes

/-- A writer of what the job of a position writes is not over before that job. -/
private theorem Partway.not_over_of_later_writer (h : m.Partway program k now)
    (runnable : m.Runnable program) (free : m.RaceFree program) {s a : Submission} {r : Region}
    (at' : program[j]? = some s) (writes : r ∈ s.work.writes) (later : program[i]? = some a)
    (writes' : r ∈ a.work.writes) (lt : j < i) (due : ¬ now.isResolved (m.eventAt j)) :
    ¬ now.isResolved (m.eventAt i) := by
  intro past
  have conflict : a.work.Conflicts s.work := ⟨r, Work.mem_touches_of_mem_writes writes',
    Work.mem_touches_of_mem_writes writes, .inl writes'⟩
  rcases free i j a s later at' (Nat.ne_of_gt lt) conflict with earlier | before
  · exact absurd (runnable.lt_of_happensBefore earlier) (Nat.lt_asymm lt)
  · exact due (h.down_of_happensBefore before past)

/-- The regions after a job ended: those that it writes are as in the serial execution up to the
job, and the others are as they were. -/
private theorem Partway.contents_finishes (h : m.Partway program k now)
    (runnable : m.Runnable program) (free : m.RaceFree program) {s : Submission} {status : Status}
    (at' : program[j]? = some s)
    (ends : now.Finishes s.queue (s.job (m.eventAt j)) status after) {r : Region} {t : Nat}
    (inside : t ≤ program.length) (writers : ∀ i a, program[i]? = some a → r ∈ a.work.writes →
      (after.isResolved (m.eventAt i) ↔ i < t)) :
    after.contents.Agrees (m.serial program t).contents r := by
  have due : ¬ now.isResolved (m.eventAt j) :=
    fun ended => isResolved_iff.1 ended (h.sound.due s.queue _ ends.mem)
  have other : ∀ i, i ≠ j → after.isResolved (m.eventAt i) = now.isResolved (m.eventAt i) :=
    fun i ne => ends.isResolved_other h.sound fun same => ne (eventAt_inj same)
  by_cases writes : r ∈ s.work.writes
  · have lt : j < t := (writers j s at' writes).1 (ends.isResolved h.sound)
    have touched := (h.verdict_eq_serial runnable free at' ends).2
    refine (touched r (Work.mem_touches_of_mem_writes writes)).trans ?_
    -- No other writer stands between this position and `t`: it would be over too early.
    refine (agrees_serial lt inside ?_).symm
    intro i a later lower upper writes'
    have past := (writers i a later writes').2 upper
    rw [other i (Nat.ne_of_gt lower)] at past
    exact h.not_over_of_later_writer runnable free at' writes later writes' lower due past
  · have frame : after.contents.Agrees now.contents r := by
      rcases ends.verdict.cases.2 with ⟨_, _, _, contents⟩ | ⟨_, _, contents⟩
      · rw [contents]
        exact .refl _ r
      · rw [contents]
        exact Work.agrees_perform_of_not_mem writes
    refine frame.trans (h.contents r t inside ?_)
    intro i a at'' writes'
    have ne : i ≠ j := by
      rintro rfl
      rw [at'] at at''
      cases at''
      exact writes writes'
    rw [← other i ne]
    exact writers i a at'' writes'

/-- A step of a worker in which the job of a position ends. -/
private theorem Partway.finishes (h : m.Partway program k now) (runnable : m.Runnable program)
    (free : m.RaceFree program) {s : Submission} {status : Status} (at' : program[j]? = some s)
    (ends : now.Finishes s.queue (s.job (m.eventAt j)) status after)
    (sound : after.Sound) (handles : ∀ p, after.handles p = m.handles p)
    (calm : ∀ p target left due?, after.activity p ≠ .closing target left due?) :
    m.Partway program k after := by
  have statusEq : ∀ e, after.status e = if e = m.eventAt j then status else now.status e :=
    ends.status h.sound
  have other : ∀ i, i ≠ j → after.isResolved (m.eventAt i) = now.isResolved (m.eventAt i) :=
    fun i ne => ends.isResolved_other h.sound fun same => ne (eventAt_inj same)
  refine ⟨sound, h.within, ?count, ends.base.gates.trans h.gates, handles, ?names, calm, ?mine,
    ?old, ?down, ?statuses, fun r t inside => h.contents_finishes runnable free at' ends inside⟩
  case count =>
    rw [ends.events, List.length_set]
    exact h.count
  case names =>
    exact fun p => (ends.base.queueName p).trans (h.names p)
  case mine =>
    intro p job mem
    exact h.mine p job (ends.mem_of_after h.sound mem).1
  case old =>
    intro e known
    rw [statusEq, if_neg, h.old e known]
    rintro rfl
    exact absurd known (Nat.not_lt.2 (Nat.le_add_right _ _))
  case down =>
    intro i l precedes past
    have earlier : now.isResolved (m.eventAt i) := by
      by_cases hj : l = j
      · subst hj
        exact h.over_of_precedes runnable at' ends.mem ends.first ends.verdict.cases.1 precedes
      · rw [other l hj] at past
        exact h.down i l precedes past
    by_cases hi : i = j
    · subst hi
      exact ends.isResolved h.sound
    · rw [other i hi]
      exact earlier
  case statuses =>
    intro i inside past
    rw [statusEq]
    by_cases hj : i = j
    · subst hj
      rw [if_pos rfl]
      exact (h.verdict_eq_serial runnable free at' ends).1
    · rw [if_neg fun same => hj (eventAt_inj same)]
      rw [other i hj] at past
      exact h.statuses i inside past

/-- A step of a worker. -/
theorem Partway.turn (h : m.Partway program k now) (runnable : m.Runnable program)
    (free : m.RaceFree program) (turn : now.Turn q after) : m.Partway program k after := by
  have sound := turn.sound h.sound
  have keeps := h.keeps runnable q
  have handles : ∀ p, after.handles p = m.handles p := by
    intro p
    rw [← h.handles p]
    refine turn.handles ?_
    rw [keeps]
    exact List.not_mem_nil
  have calm : ∀ p target left due?, after.activity p ≠ .closing target left due? := by
    intro p target left due?
    by_cases hp : p = q
    · subst hp
      exact turn.activity_ne_closing keeps target left due?
    · rw [turn.activity_other hp]
      exact h.calm p target left due?
  rcases turn.settles h.sound with rests | ⟨job, status, ends⟩
  · exact h.rests rests sound handles calm
  · obtain ⟨j, s, at', rfl, rfl⟩ := h.mine q job ends.mem
    exact h.finishes runnable free at' ends sound handles calm

/-- **Progress**: while an event is pending, some worker can take a step, as nothing holds the
workers up in a run. -/
theorem Partway.progress (h : m.Partway program k now) (runnable : m.Runnable program)
    (due : ∃ e : EventId, e.index < now.events.length ∧ now.status e = .pending) :
    ∃ q, (now.advance? q).isSome := by
  have unhindered : now.Unhindered := by
    refine ⟨fun q job mem gate work => ?_, h.keeps runnable, h.calm⟩
    obtain ⟨i, s, at', _, rfl⟩ := h.mine q job mem
    have opened := runnable.opened s (List.mem_of_getElem? at') gate work
    unfold isOpen at opened ⊢
    rw [h.gates]
    exact opened
  exact unhindered.progress h.sound due

/-- A run that is over has the results of the serial execution. -/
theorem Partway.eq_serial (h : m.Partway program program.length now)
    (ended : ∀ e : EventId, e.index < now.events.length → now.isResolved e) :
    now.events = (m.executeAll program).events ∧
      now.contents = (m.executeAll program).contents := by
  have resolved : ∀ i, i < program.length → now.isResolved (m.eventAt i) := by
    intro i lt
    refine ended _ ?_
    rw [h.count]
    exact Nat.add_lt_add_left lt _
  have length := length_serial (m := m) (Nat.le_refl program.length)
  rw [serial_length] at length
  constructor
  · refine List.ext_getElem (h.count.trans length.symm) ?_
    intro n left right
    have status := h.status_eq_serial (Nat.le_refl _) (e := ⟨n⟩) (by rw [← h.count]; exact left)
      (ended ⟨n⟩ left)
    rw [serial_length] at status
    unfold Machine.status at status
    rw [List.getElem?_eq_getElem left, List.getElem?_eq_getElem right] at status
    exact status.symm
  · refine Contents.eq_of_agrees fun r => ?_
    rw [← serial_length]
    refine h.contents r program.length (Nat.le_refl _) ?_
    intro i s at' _
    have inside := (List.getElem?_eq_some_iff.1 at').1
    exact ⟨fun _ => inside, fun _ => resolved i inside⟩

/-! ## Runs of the host and the workers -/

/-- Where a run is, and a bound on the steps that it still takes. -/
private def Playing (m : Machine) (program : List Submission) (left : Nat)
    (state : Host Unit × Machine) : Prop :=
  ∃ k, m.Partway program k state.2 ∧ state.1 = Submission.submitAll (program.drop k) ∧
    left = state.2.load + 3 * (program.length - k)

private theorem Playing.step {state next : Host Unit × Machine} {left : Nat}
    (h : m.Playing program left state) (runnable : m.Runnable program)
    (free : m.RaceFree program) (step : Host.Step state next) :
    ∃ fewer, fewer < left ∧ m.Playing program fewer next := by
  obtain ⟨k, partway, host, rfl⟩ := h
  cases step with
  | act change rest now =>
    cases hd : program.drop k with
    | nil => rw [hd] at host; cases host
    | cons s tail =>
      have lt : k < program.length := by
        apply Decidable.byContradiction
        intro ge
        rw [List.drop_eq_nil_of_le (Nat.le_of_not_lt ge)] at hd
        cases hd
      rw [List.drop_eq_getElem_cons lt] at hd
      obtain ⟨rfl, rfl⟩ := List.cons.inj hd
      rw [List.drop_eq_getElem_cons lt] at host
      cases host
      have held : 0 < now.handles program[k].queue := by
        rw [partway.handles]
        exact runnable.held _ (List.getElem_mem lt)
      have submitted := submitted_submit program[k].label program[k].deps program[k].work
        (isClosed_of_handles held)
      refine ⟨_, ?_, k + 1, partway.submit runnable (List.getElem?_eq_getElem lt), rfl, rfl⟩
      show (program[k].submit now).2.load + _ < _
      unfold Submission.submit
      -- A job without handles takes two steps, and its submission was the third.
      rw [submitted.load]
      unfold Job.load
      rw [runnable.keeps _ (List.getElem_mem lt)]
      show now.load + 2 + _ < now.load + _
      omega
  | await wait rest now ended =>
    cases hd : program.drop k with
    | nil => rw [hd] at host; cases host
    | cons s tail => rw [hd] at host; cases host
  | worker host' q now after step =>
    have turn := turn_of_advance? step
    refine ⟨_, ?_, k, partway.turn runnable free turn, host, rfl⟩
    have lower := turn.load_lt
    show after.load + _ < now.load + _
    omega

private theorem Playing.of_reaches {state : Host Unit × Machine} (runnable : m.Runnable program)
    (free : m.RaceFree program)
    (run : Host.Reaches (Submission.submitAll program, m) state) :
    ∃ left, m.Playing program left state := by
  induction run with
  | refl => exact ⟨_, 0, runnable.partway, rfl, rfl⟩
  | step _ step ih =>
    obtain ⟨left, playing⟩ := ih
    obtain ⟨fewer, _, playing⟩ := playing.step runnable free step
    exact ⟨fewer, playing⟩

/-- A run takes at most three steps for each submission: one of the host and two of a worker. -/
private theorem length_of_run (runnable : m.Runnable program) (free : m.RaceFree program)
    (run : Nat → Host Unit × Machine) (start : run 0 = (Submission.submitAll program, m)) (n : Nat)
    (steps : ∀ i, i < n → Host.Step (run i) (run (i + 1))) : n ≤ 3 * program.length := by
  have bound : ∀ i, i ≤ n → ∃ left, i + left ≤ 3 * program.length ∧
      m.Playing program left (run i) := by
    intro i
    induction i with
    | zero =>
      intro _
      rw [start]
      refine ⟨_, ?_, 0, runnable.partway, rfl, rfl⟩
      show 0 + (m.load + _) ≤ _
      rw [load_eq_zero runnable.quiet]
      omega
    | succ i ih =>
      intro le
      obtain ⟨left, small, playing⟩ := ih (Nat.le_of_lt le)
      obtain ⟨fewer, less, playing⟩ := playing.step runnable free (steps i le)
      exact ⟨fewer, by omega, playing⟩
  obtain ⟨left, small, _⟩ := bound n (Nat.le_refl n)
  omega

/-- **Schedules do not matter.** Let a runnable program be free of races. Then no run of the host
and the workers goes on for ever, and none is stuck while an event is pending: some worker can take
a step. A run that can take no further step has made all submissions, all events are resolved, and
their statuses, the device memories, the host buffers and the log are those of the serial execution.
-/
theorem schedule_independent (runnable : m.Runnable program) (free : m.RaceFree program) :
    (∀ (run : Nat → Host Unit × Machine) (n : Nat),
      run 0 = (Submission.submitAll program, m) →
      (∀ i, i < n → Host.Step (run i) (run (i + 1))) → n ≤ 3 * program.length) ∧
    ∀ host now, Host.Reaches (Submission.submitAll program, m) (host, now) →
      ((∃ e : EventId, e.index < now.events.length ∧ now.status e = .pending) →
        ∃ q, (now.advance? q).isSome) ∧
      ((∀ next, ¬ Host.Step (host, now) next) →
        host = .done () ∧ (∀ e : EventId, e.index < now.events.length → now.isResolved e) ∧
          now.events = (m.executeAll program).events ∧
          now.contents = (m.executeAll program).contents) := by
  refine ⟨fun run n start steps => length_of_run runnable free run start n steps, ?_⟩
  intro host now run
  obtain ⟨_, k, partway, rfl, _⟩ := Playing.of_reaches runnable free run
  refine ⟨partway.progress runnable, ?_⟩
  intro rest
  have all : k = program.length := by
    apply Decidable.byContradiction
    intro ne
    have lt : k < program.length := Nat.lt_of_le_of_ne partway.within ne
    rw [List.drop_eq_getElem_cons lt] at rest
    exact rest _ (.act _ _ _)
  subst all
  have ended : ∀ e : EventId, e.index < now.events.length → now.isResolved e := by
    intro e known
    refine isResolved_iff.2 fun due => ?_
    obtain ⟨q, step⟩ := partway.progress runnable ⟨e, known, due⟩
    obtain ⟨after, step⟩ := Option.isSome_iff_exists.1 step
    exact rest _ (.worker _ q now after step)
  refine ⟨?_, ended, partway.eq_serial ended⟩
  show Submission.submitAll (program.drop program.length) = _
  rw [List.drop_length]
  rfl

end

/-- Two queues without jobs. -/
private def twoQueues : Machine :=
  ((empty.addQueue ⟨"left", .cpu, none⟩).2.addQueue ⟨"right", .gpu, none⟩).2

/-- A line logged on one queue, and another one on the other queue behind it. -/
private def dependentLines : List Submission :=
  [⟨⟨0⟩, "left", [], .log "first"⟩, ⟨⟨1⟩, "right", [⟨0⟩], .log "second"⟩]

private theorem runnable_dependentLines : twoQueues.Runnable dependentLines := by
  refine ⟨fun e known => absurd known (Nat.not_lt_zero _), ?_, by decide, ?_, ?_, ?_⟩
  · rintro ⟨_ | _ | n⟩ <;> exact ⟨rfl, rfl⟩
  · rintro (_ | _ | n) s at' <;> cases at' <;> decide
  · decide
  · simp [dependentLines]

private theorem raceFree_dependentLines : twoQueues.RaceFree dependentLines := by
  have before : twoQueues.HappensBefore dependentLines 0 1 :=
    .single ⟨_, _, rfl, rfl, .inr (List.mem_singleton.2 rfl)⟩
  intro i j a b ha hb ne _
  have hi : i < 2 := (List.getElem?_eq_some_iff.1 ha).1
  have hj : j < 2 := (List.getElem?_eq_some_iff.1 hb).1
  rcases Nat.lt_or_gt_of_ne ne with lt | gt
  · obtain ⟨rfl, rfl⟩ : i = 0 ∧ j = 1 := by omega
    exact .inl before
  · obtain ⟨rfl, rfl⟩ : i = 1 ∧ j = 0 := by omega
    exact .inr before

/-- Whatever the workers do, the lines are in the order of their dependency. -/
theorem schedule_independent_relay :
    twoQueues.Runnable dependentLines ∧ twoQueues.RaceFree dependentLines ∧
    ∀ host now, Host.Reaches (Submission.submitAll dependentLines, twoQueues) (host, now) →
      (∀ next, ¬ Host.Step (host, now) next) → now.contents.log = ["first", "second"] := by
  refine ⟨runnable_dependentLines, raceFree_dependentLines, ?_⟩
  intro host now run rest
  obtain ⟨_, _, _, contents⟩ :=
    ((schedule_independent runnable_dependentLines raceFree_dependentLines).2 host now run).2 rest
  rw [contents]
  rfl

end BatchDigest.Machine
