import BatchDigest.Proofs.Device.Passes

/-!
# Planned jobs

A host program that puts jobs into the queues wants to know what they come to, although other jobs
are there as well and the workers go their own way. A `Plan` says it of one job: until the job ends
one fact holds in a place; from then on its event has a status that was known beforehand, and
another fact holds there. A machine follows the plan from the submission of the job on, as long as
all other work spares the place (`Follows`).

What the job itself does when it ends (`Plan.Delivers`) may rest on what the plans of its
dependencies say. A `Chain` is a list of plans, the latest first, each of which delivers while those
after it in the list are followed.
-/

namespace BatchDigest

/-- What a job is to come to, told by facts about one place. -/
structure Plan where
  queue : QueueId
  job : Job
  place : Place
  /-- What holds until the job ends. -/
  before : Contents → Prop
  /-- What the event is resolved to. -/
  status : Status
  /-- What holds once the job has ended. -/
  result : Contents → Prop
  first : place.Decides before
  last : place.Decides result
  settles : status ≠ .pending

/-- The end of the job is as planned. -/
def Plan.Delivers (plan : Plan) (m : Machine) : Prop :=
  ∀ s c, m.Verdict plan.queue plan.job s c → plan.before m.contents →
    s = plan.status ∧ plan.result c

namespace Machine

variable {m n after : Machine} {plan : Plan} {p q : QueueId} {job : Job}

/-- The job is as far as the plan says, and no other job interferes. -/
structure Follows (m : Machine) (plan : Plan) : Prop where
  known : plan.job.event.index < m.events.length
  only : ∀ p, ∀ other ∈ m.pending p, other.event = plan.job.event →
    p = plan.queue ∧ other = plan.job
  holds : m.Holds plan.place.home
  spared : ∀ p, ∀ other ∈ m.pending p, other.event ≠ plan.job.event →
    other.work.Spares plan.place
  stage : m.status plan.job.event = .pending ∧ plan.before m.contents ∨
    m.status plan.job.event = plan.status ∧ plan.result m.contents

namespace Follows

theorem of_resolved (h : m.Follows plan) (ended : m.isResolved plan.job.event) :
    m.status plan.job.event = plan.status ∧ plan.result m.contents := by
  rcases h.stage with ⟨due, _⟩ | stage
  · exact absurd due (isResolved_iff.1 ended)
  · exact stage

theorem turn (h : m.Follows plan) (sound : m.Sound) (turn : m.Turn p after)
    (delivers : plan.Delivers m) : after.Follows plan := by
  refine ⟨by rw [turn.length_events sound]; exact h.known,
    fun p other mem => h.only p other (turn.mem_pending mem),
    (turn.holds sound plan.place.home).2 h.holds,
    fun p other mem => h.spared p other (turn.mem_pending mem), ?_⟩
  rcases turn.settles sound with rests | ⟨ended, s, ends⟩
  · rw [rests.contents, status_of_events rests.events]
    exact h.stage
  · rw [ends.status sound]
    -- The job that ended is the planned one, or it spares the place.
    by_cases same : ended.event = plan.job.event
    · obtain ⟨rfl, rfl⟩ := h.only p ended ends.mem same
      have due := sound.due _ _ ends.mem
      rw [if_pos rfl]
      rcases h.stage with ⟨_, start⟩ | ⟨resolved, _⟩
      · exact .inr (delivers s after.contents ends.verdict start)
      · rw [resolved] at due
        exact absurd due plan.settles
    · rw [if_neg fun eq => same eq.symm]
      have still := ends.verdict.same (h.spared p ended ends.mem same)
      rcases h.stage with ⟨due, start⟩ | ⟨resolved, result⟩
      · exact .inl ⟨due, plan.first _ _ still start⟩
      · exact .inr ⟨resolved, plan.last _ _ still result⟩

theorem still (h : m.Follows plan) (still : m.Still after) : after.Follows plan := by
  have same := (still.agrees _ h.holds).same
  refine ⟨Nat.lt_of_lt_of_le h.known still.steady.length_events, ?_, still.holds _ h.holds, ?_, ?_⟩
  · simpa only [still.steady.pending] using h.only
  · simpa only [still.steady.pending] using h.spared
  · rw [still.steady.status h.known]
    rcases h.stage with ⟨due, start⟩ | ⟨resolved, result⟩
    · exact .inl ⟨due, plan.first _ _ same start⟩
    · exact .inr ⟨resolved, plan.last _ _ same result⟩

/-- The submission of another job. -/
theorem submit (h : m.Follows plan) (submitted : m.Submitted q job after)
    (spares : job.work.Spares plan.place) : after.Follows plan := by
  refine ⟨?_, ?_, (submitted.holds _).2 h.holds, ?_, ?_⟩
  · rw [submitted.events, List.length_append]
    exact Nat.lt_add_right _ h.known
  · intro p other mem same
    rcases submitted.mem_pending.1 mem with old | ⟨_, rfl⟩
    · exact h.only p other old same
    · have known := h.known
      rw [← same, submitted.event] at known
      exact absurd known (Nat.lt_irrefl _)
  · intro p other mem ne
    rcases submitted.mem_pending.1 mem with old | ⟨_, rfl⟩
    · exact h.spared p other old ne
    · exact spares
  · rw [submitted.contents, submitted.status_eq]
    exact h.stage

end Follows

/-- The submission of the planned job, into a place where it finds what it needs. -/
theorem Stands.follows_submit (h : m.Stands plan.place plan.before) (sound : m.Sound)
    (submitted : m.Submitted plan.queue plan.job after) : after.Follows plan := by
  refine ⟨?_, ?_, (submitted.holds _).2 h.holds, ?_, .inl ⟨submitted.status_new, ?_⟩⟩
  · rw [submitted.events, submitted.event, List.length_append]
    exact Nat.lt_succ_self _
  · intro p other mem same
    rcases submitted.mem_pending.1 mem with old | job
    · have lt := submitted.index_lt sound old
      rw [same] at lt
      exact absurd lt (Nat.lt_irrefl _)
    · exact job
  · intro p other mem ne
    rcases submitted.mem_pending.1 mem with old | ⟨_, rfl⟩
    · exact h.spared p other old
    · exact absurd rfl ne
  · rw [submitted.contents]
    exact h.now

/-- An event that has the planned status from the start stands for a job that has ended. -/
theorem Stands.follows_addEvent (h : m.Stands plan.place plan.result) (sound : m.Sound)
    (event : plan.job.event = ⟨m.events.length⟩) : (m.addEvent plan.status).2.Follows plan := by
  have status : (m.addEvent plan.status).2.status plan.job.event = plan.status := by
    rw [event]
    exact m.status_addEvent _
  refine ⟨?_, ?_, ?_, fun p other mem _ => h.spared p other mem, .inr ⟨status, h.now⟩⟩
  · rw [event]
    simp [addEvent]
  · intro p other mem same
    have known := sound.known p other mem
    rw [same, event] at known
    exact absurd known (Nat.lt_irrefl _)
  · have held := h.holds
    revert held
    cases plan.place.home <;> exact id

/-- **A planned job is put into a queue.** Where what it needs stands and its work stays away from
the places of older plans, all of them are followed. -/
theorem Serving.submit_plan {queues : List QueueId} {name : QueueId → String}
    (serving : m.Serving queues name) (plan : Plan) (mem : plan.queue ∈ queues)
    (event : plan.job.event = ⟨m.events.length⟩)
    (known : ∀ d ∈ plan.job.deps, d.index < m.events.length)
    (holds : ∀ r ∈ plan.job.work.touches, m.Holds r) {e : Extent}
    (confined : plan.job.work.Confined e) {plans : List Plan}
    (all : ∀ old ∈ plans, m.Follows old) (outside : ∀ old ∈ plans, old.place.Outside e) :
    m.Passes e (m.submit plan.queue plan.job.label plan.job.deps plan.job.work).2 ∧
      (m.Stands plan.place plan.before → ∀ old ∈ plan :: plans,
        (m.submit plan.queue plan.job.label plan.job.deps plan.job.work).2.Follows old) := by
  have submitted := serving.submitted mem plan.job.label plan.job.deps plan.job.work
  rw [← event] at submitted
  refine ⟨serving.passes_submit mem _ _ known holds confined, fun stands => ?_⟩
  rw [List.forall_mem_cons]
  exact ⟨stands.follows_submit serving.sound submitted,
    fun old mem => (all old mem).submit submitted (confined.spares _ (outside old mem))⟩

end Machine

/-- Queues that exist have the given names. -/
def Machine.Named (m : Machine) (queues : List QueueId) (name : QueueId → String) : Prop :=
  ∀ q ∈ queues, (m.queue? q).isSome ∧ m.queueName q = name q

namespace Machine

variable {m n : Machine} {queues : List QueueId} {name : QueueId → String}

theorem Serving.isNamed (h : m.Serving queues name) : m.Named queues name :=
  fun q mem => ⟨h.isSome_queue? mem, h.named q mem⟩

theorem Named.of_base (named : m.Named queues name) (base : m.SameBase n) :
    n.Named queues name := by
  intro q mem
  obtain ⟨found, same⟩ := named q mem
  exact ⟨(base.isSome_queue? q).trans found, (base.queueName q).trans same⟩

theorem Named.still (named : m.Named queues name) (still : m.Still n) : n.Named queues name := by
  intro q mem
  obtain ⟨found, same⟩ := named q mem
  exact ⟨still.steady.isSome_queue? found, (still.steady.queueName found).trans same⟩

/-- Queues keep their names. -/
theorem Named.drifts (named : m.Named queues name) (serving : m.Serving [] name) {e : Extent}
    (drifts : m.Drifts e n) : n.Named queues name :=
  (drifts.keeps serving (fun k => k.Named queues name) named
    (fun _ _ _ serving named turn => named.of_base (turn.base serving.sound))
    (fun _ _ _ named still => named.still still)
    (fun _ _ _ _ _ named submitted _ => named.of_base submitted.base)).2

end Machine

/-! ## Chains -/

/-- Plans, the latest first, each of which delivers while the earlier ones are followed. -/
inductive Chain (queues : List QueueId) (name : QueueId → String) : List Plan → Prop
  | nil : Chain queues name []
  | cons {plan : Plan} {earlier : List Plan} (chain : Chain queues name earlier)
      (delivers : ∀ m : Machine, m.Named queues name → (∀ old ∈ earlier, m.Follows old) →
        plan.Delivers m) : Chain queues name (plan :: earlier)

namespace Chain

open Machine

variable {queues : List QueueId} {name : QueueId → String} {plans : List Plan} {m n : Machine}

theorem delivers (chain : Chain queues name plans) (named : m.Named queues name)
    (all : ∀ plan ∈ plans, m.Follows plan) : ∀ plan ∈ plans, plan.Delivers m := by
  induction chain with
  | nil =>
    intro plan mem
    cases mem
  | cons _ latest ih =>
    rw [List.forall_mem_cons] at all ⊢
    exact ⟨latest m named all.2, ih all.2⟩

/-- **A chain of plans goes on being followed**, whatever happens outside of its places. -/
theorem drifts (chain : Chain queues name plans) (all : ∀ plan ∈ plans, m.Follows plan)
    (serving : m.Serving [] name) (named : m.Named queues name) {e : Extent}
    (drifts : m.Drifts e n) (outside : ∀ plan ∈ plans, plan.place.Outside e) :
    ∀ plan ∈ plans, n.Follows plan := by
  have fact := drifts.keeps serving
    (fun k => k.Named queues name ∧ ∀ plan ∈ plans, k.Follows plan) ⟨named, all⟩ ?_ ?_ ?_
  · exact fact.2.2
  · rintro k q after serving ⟨named, all⟩ turn
    exact ⟨named.of_base (turn.base serving.sound), fun plan mem =>
      (all plan mem).turn serving.sound turn (chain.delivers named all plan mem)⟩
  · rintro k after serving ⟨named, all⟩ still
    exact ⟨named.still still, fun plan mem => (all plan mem).still still⟩
  · rintro k q job after serving ⟨named, all⟩ submitted confined
    exact ⟨named.of_base submitted.base, fun plan mem =>
      (all plan mem).submit submitted (confined.spares _ (outside plan mem))⟩

theorem passes (chain : Chain queues name plans) (all : ∀ plan ∈ plans, m.Follows plan)
    (serving : m.Serving queues name) {e : Extent} (passes : m.Passes e n)
    (outside : ∀ plan ∈ plans, plan.place.Outside e) : ∀ plan ∈ plans, n.Follows plan :=
  chain.drifts all (serving.base name) serving.isNamed passes.drifts outside

theorem evolves (chain : Chain queues name plans) (all : ∀ plan ∈ plans, m.Follows plan)
    (serving : m.Serving queues name) (evolves : m.Evolves n) : ∀ plan ∈ plans, n.Follows plan :=
  chain.passes all serving (e := .nothing) (.of_evolves evolves)
    fun plan _ => plan.place.outside_nothing

end Chain

end BatchDigest
