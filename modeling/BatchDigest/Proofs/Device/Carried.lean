import BatchDigest.Proofs.Device.Totals

/-!
# Handles that jobs carry

A job can carry queue handles, which go when its work is done or skipped. How many handles of a
queue are on the way like that is a sum over the queues (`Machine.carried`). A worker lets no other
handle go: whatever it does, a queue has as many handles that no job carries as before
(`Machine.Spares`).
-/

namespace BatchDigest

/-- How many handles of a queue are carried by a job that a worker has taken up and by jobs that
wait. -/
def Activity.carriers (target : QueueId) (a : Activity) (waiting : List Job) : Nat :=
  (a.held ++ waiting.flatMap (·.work.held)).count target

namespace Machine

variable {m n after : Machine} {p q target : QueueId} {job : Job}

/-- How many handles of a queue are carried by jobs. -/
def carried (m : Machine) (target : QueueId) : Nat :=
  m.total (Activity.carriers target)

/-- Every queue has at least as many handles that no job carries. -/
def Spares (m n : Machine) : Prop :=
  ∀ q, m.handles q + n.carried q ≤ n.handles q + m.carried q

/-- A queue with a handle that no job carries keeps one. -/
theorem Spares.lt (spares : m.Spares n) (held : m.carried q < m.handles q) :
    n.carried q < n.handles q := by
  have kept := spares q
  omega

/-- No handle is carried when no queue has a job that carries one. -/
theorem carried_eq_zero (free : ∀ q, target ∉ m.held q) : m.carried target = 0 :=
  total_eq_zero _ fun q => List.count_eq_zero_of_not_mem (free q)

/-! ## Handles -/

/-- A change of one queue leaves the handles of another as they are. -/
theorem handles_updateQueue_cases (m : Machine) (p : QueueId) (change : Queue → Queue)
    (q : QueueId) : (m.updateQueue p change).handles q = m.handles q ∨
      q = p ∧ ∃ queue, m.handles q = queue.handles ∧
        (m.updateQueue p change).handles q = (change queue).handles := by
  unfold handles
  rw [queue?_updateQueue]
  split
  next same =>
    cases m.queue? q with
    | none => exact .inl rfl
    | some queue => exact .inr ⟨same, queue, rfl, rfl⟩
  next => exact .inl rfl

theorem handles_updateQueue (m : Machine) (p : QueueId) (change : Queue → Queue)
    (keeps : ∀ queue, queue.handles ≤ (change queue).handles) (q : QueueId) :
    m.handles q ≤ (m.updateQueue p change).handles q := by
  rcases m.handles_updateQueue_cases p change q with same | ⟨_, queue, before, after⟩
  · exact Nat.le_of_eq same.symm
  · rw [before, after]
    exact keeps queue

theorem handles_updateQueue_le (m : Machine) (p : QueueId) (change : Queue → Queue)
    (less : ∀ queue, (change queue).handles ≤ queue.handles) (q : QueueId) :
    (m.updateQueue p change).handles q ≤ m.handles q := by
  rcases m.handles_updateQueue_cases p change q with same | ⟨_, queue, before, after⟩
  · exact Nat.le_of_eq same
  · rw [before, after]
    exact less queue

/-- A handle that goes is one of one queue. -/
theorem handles_dropHandle (m : Machine) (q p : QueueId) :
    m.handles p ≤ (m.dropHandle q).2.handles p + if p = q then 1 else 0 := by
  unfold dropHandle
  dsimp only
  rcases m.handles_updateQueue_cases q (fun queue => { queue with handles := queue.handles - 1 }) p
    with same | ⟨here, queue, before, after⟩
  · rw [same]
    exact Nat.le_add_right _ _
  · rw [before, after, if_pos here]
    show queue.handles ≤ queue.handles - 1 + 1
    omega

/-! ## Workers -/

/-- **A worker lets no handle go that no job carries.** -/
theorem Turn.spares (turn : m.Turn q after) : m.Spares after := by
  intro p
  obtain ⟨_, _, _, _, moved⟩ := turn.moved
  obtain ⟨gone, held, handles⟩ := moved.handles
  have carried : after.carried p + (m.held q).count p = m.carried p + (after.held q).count p :=
    total_add_eq (Activity.carriers p) rfl moved.others
  have count : (m.held q).count p = gone.count p + (after.held q).count p := by
    rw [held, List.count_append]
  have handles := handles p
  omega

theorem Steady.carried (h : m.Steady after) (q : QueueId) : after.carried q = m.carried q :=
  h.total _ rfl

theorem Submitted.carried (h : m.Submitted q job after) (free : p ∉ job.work.held) :
    after.carried p = m.carried p := by
  have change : after.carried p + (m.held q).count p = m.carried p + (after.held q).count p :=
    total_add_eq (Activity.carriers p) rfl fun other ne => ⟨h.activity other, h.others other ne⟩
  rw [h.held, List.count_append, List.count_eq_zero_of_not_mem free] at change
  omega

end Machine

end BatchDigest
