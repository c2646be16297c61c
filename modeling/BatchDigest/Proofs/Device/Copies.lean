import BatchDigest.Proofs.Device.Lengths
import BatchDigest.Proofs.Device.Plan
import BatchDigest.Proofs.Device.Waiting

/-!
# Copies

Bytes get into a device memory and out of it by queued copies, and directly from the host where the
kind of the memory lets it in. A queued copy replaces exactly its range or, when the range does not
fit or a dependency failed, changes nothing (`Machine.CopyEnds`). Whatever becomes of the
dependencies is not known when the copy is submitted, so its plan depends on it (`Plan.given`).

Direct copies do the same at once, so that the two ways agree, and bytes that were copied in are
found again where they are copied out (`Machine.copies_exact`).
-/

namespace BatchDigest

namespace Bytes

/-- A range of bytes has become the data, and nothing else has changed. -/
structure Replaced (before : Bytes) (offset : Nat) (data after : Bytes) : Prop where
  length : after.length = before.length
  inside : ∀ i, i < data.length → after[offset + i]? = data[i]?
  outside : ∀ i, i < offset ∨ offset + data.length ≤ i → after[i]? = before[i]?

/-- The result of replacing a range is determined. -/
theorem Replaced.unique {before data after other : Bytes} {offset : Nat}
    (h : Replaced before offset data after) (h' : Replaced before offset data other) :
    after = other := by
  refine List.ext_getElem? fun i => ?_
  by_cases inside : offset ≤ i ∧ i < offset + data.length
  · obtain ⟨j, rfl⟩ := Nat.exists_eq_add_of_le inside.1
    rw [h.inside j (by omega), h'.inside j (by omega)]
  · rw [h.outside i (by omega), h'.outside i (by omega)]

/-- Bytes that are where they should be are read there. -/
theorem read?_of_getElem? {bytes data : Bytes} {offset : Nat}
    (fits : offset + data.length ≤ bytes.length)
    (same : ∀ i, i < data.length → bytes[offset + i]? = data[i]?) :
    bytes.read? offset data.length = some data := by
  refine read?_eq_some_iff.2 ⟨fits, List.ext_getElem? fun i => ?_⟩
  by_cases inside : i < data.length
  · rw [List.getElem?_take_of_lt inside, List.getElem?_drop, same i inside]
  · rw [List.getElem?_eq_none (by omega),
      List.getElem?_eq_none (by rw [List.length_take]; omega)]

theorem Replaced.read? {before data after : Bytes} {offset : Nat}
    (h : Replaced before offset data after) (fits : offset + data.length ≤ before.length) :
    after.read? offset data.length = some data :=
  read?_of_getElem? (h.length ▸ fits) h.inside

theorem overwrite?_eq_none_iff {bytes data : Bytes} {offset : Nat} :
    overwrite? bytes offset data = none ↔ ¬ offset + data.length ≤ bytes.length := by
  simp [overwrite?]

theorem replaced_of_overwrite? {before data after : Bytes} {offset : Nat}
    (replaced : overwrite? before offset data = some after) :
    Replaced before offset data after := by
  refine ⟨length_of_overwrite? replaced, fun i lt => ?_, fun i out => ?_⟩
  · rw [getElem?_of_overwrite? replaced, if_pos ⟨by omega, by omega⟩, Nat.add_sub_cancel_left]
  · rw [getElem?_of_overwrite? replaced, if_neg (by omega)]

/-- The front of a string is read when it is there. -/
theorem read?_front {bytes : Bytes} {length : Nat} (fits : length ≤ bytes.length) :
    bytes.read? 0 length = some (bytes.take length) :=
  read?_eq_some_iff.2 ⟨by omega, rfl⟩

theorem read?_eq_none {bytes : Bytes} {length : Nat} (misfit : ¬ length ≤ bytes.length) :
    bytes.read? 0 length = none :=
  if_neg (by rwa [Nat.zero_add])

/-- The bytes with a range replaced, where the end of the range is computed in 64-bit words. -/
def overwriteWord? (bytes : Bytes) (offset : Nat) (data : Bytes) : Option Bytes :=
  (Size.add? offset data.length).bind fun stop =>
    if stop ≤ bytes.length then some (bytes.take offset ++ data ++ bytes.drop stop) else none

/-- No range that fits is lost to an overflow, and none that overflows fits. -/
theorem overwriteWord?_eq {bytes : Bytes} (word : bytes.length ≤ Size.largest) (offset : Nat)
    (data : Bytes) : bytes.overwriteWord? offset data = bytes.overwrite? offset data := by
  unfold overwriteWord? overwrite? Size.add?
  by_cases fits : offset + data.length ≤ bytes.length
  · rw [if_pos (Nat.le_trans fits word), Option.bind_some, if_pos fits]
  · rw [if_neg fits]
    split
    · rw [Option.bind_some, if_neg fits]
    · rfl

end Bytes

/-! ## Plans that depend on the dependencies -/

/-- The plan of a job when its dependencies come to the given statuses: after a fault among them the
job is skipped. -/
def Plan.given (plan : Plan) (final : EventId → Status) : Plan :=
  match plan.job.deps.findSome? fun d => (final d).fault? with
  | none => plan
  | some fault =>
    { plan with
      status := .failed fault
      result := plan.before
      last := plan.first
      settles := Status.failed_ne_pending fault }

namespace Plan

variable (plan : Plan) (final : EventId → Status)

@[simp] theorem given_queue : (plan.given final).queue = plan.queue := by
  unfold given
  split <;> rfl

@[simp] theorem given_job : (plan.given final).job = plan.job := by
  unfold given
  split <;> rfl

@[simp] theorem given_place : (plan.given final).place = plan.place := by
  unfold given
  split <;> rfl

@[simp] theorem given_before : (plan.given final).before = plan.before := by
  unfold given
  split <;> rfl

end Plan

/-- The whole of a host buffer. -/
def Place.whole (buffer : BufferId) : Place :=
  .bytes buffer fun _ => True

/-- All bytes of a buffer decide what is in it. -/
theorem Place.whole_decides {buffer : BufferId} (fact : Bytes → Prop) :
    (whole buffer).Decides fun c => fact (c.buffer buffer) := by
  intro c c' same holds
  have eq : c'.buffer buffer = c.buffer buffer := List.ext_getElem? fun i => same.2 i trivial
  rwa [eq]

/-- The plan of a job that changes a place when something fits, and fails otherwise. -/
def Plan.ofFits (queue : QueueId) (job : Job) (place : Place) (fits : Prop) [Decidable fits]
    (fault : Fault) (before changed : Contents → Prop) (first : place.Decides before)
    (last : place.Decides changed) : Plan where
  queue
  job
  place
  before
  status := if fits then .complete else .failed fault
  result := if fits then changed else before
  first
  last := by split <;> assumption
  settles := by
    split
    · exact Status.complete_ne_pending
    · exact Status.failed_ne_pending fault

namespace Machine

variable {m n k after : Machine} {q : QueueId} {name : QueueId → String} {extent : Extent}

/-- A plan that tells what the work comes to when it is performed. -/
def Performs (m : Machine) (plan : Plan) : Prop :=
  plan.before m.contents →
    plan.job.verdict (m.queueName plan.queue) (plan.job.work.perform m.contents).failure =
        plan.status ∧
      plan.result (plan.job.work.perform m.contents).result

/-- What such a plan tells is delivered, whatever the dependencies come to. -/
theorem Performs.delivers {plan : Plan} (performs : m.Performs plan) {final : EventId → Status}
    (agrees : ∀ e, m.isResolved e → m.status e = final e) : (plan.given final).Delivers m := by
  intro s c verdict before
  simp only [Plan.given_queue, Plan.given_job, Plan.given_before] at verdict before
  obtain ⟨ready, ended⟩ := verdict.cases
  have first : (plan.job.deps.findSome? fun d => (final d).fault?) = m.firstFault? plan.job.deps :=
    findSome?_congr fun d mem => by rw [agrees d (ready d mem)]
  unfold Plan.given
  rw [first]
  rcases ended with ⟨fault, failed, rfl, rfl⟩ | ⟨none, rfl, rfl⟩
  · rw [failed]
    exact ⟨rfl, before⟩
  · rw [none]
    exact performs before

/-- **A job is over as planned**, once its dependencies are what they are. -/
theorem Stands.follows_given (plan : Plan) (stands : m.Stands plan.place plan.before)
    (serving : m.Serving [] name) (submitted : m.Submitted plan.queue plan.job after)
    (served : after.Serving [] name) (outside : plan.place.Outside extent)
    (performs : ∀ k, after.Drifts extent k → k.Performs plan) (drifts : after.Drifts extent n) :
    n.Follows (plan.given n.status) := by
  suffices all : ∀ final, (∀ e, n.isResolved e → n.status e = final e) →
      n.Follows (plan.given final) from all n.status fun _ _ => rfl
  induction drifts with
  | refl =>
    intro final _
    refine Stands.follows_submit (m := m) ?_ serving.sound ?_
    · rwa [plan.given_place, plan.given_before]
    · rwa [plan.given_queue, plan.given_job]
  | @worker k after q drifts turn ih =>
    intro final agrees
    have sound := (drifts.serving served).sound
    have earlier : ∀ e, k.isResolved e → k.status e = final e := fun e ended => by
      rw [← turn.status_of_isResolved sound ended]
      exact agrees e (turn.isResolved sound ended)
    exact (ih final earlier).turn sound turn ((performs k drifts).delivers earlier)
  | @still k after drifts still ih =>
    intro final agrees
    have same : ∀ e, k.isResolved e → after.status e = k.status e :=
      fun e ended => still.steady.status (known_of_isResolved ended)
    refine (ih final fun e ended => ?_).still still
    rw [← same e ended]
    exact agrees e (isResolved_of_status (same e ended) ended)
  | @submit k after q job drifts submitted deps holds confined ih =>
    intro final agrees
    refine (ih final fun e ended => ?_).submit submitted ?_
    · rw [← submitted.status_eq e]
      exact agrees e (isResolved_of_status (submitted.status_eq e) ended)
    · rw [plan.given_place]
      exact confined.spares _ outside

/-! ## Copies that end -/

/-- A place exists, and no pending job changes it. -/
structure Undisturbed (m : Machine) (place : Place) : Prop where
  holds : m.Holds place.home
  spared : ∀ p, ∀ job ∈ m.pending p, job.work.Spares place

theorem Undisturbed.stands {place : Place} (h : m.Undisturbed place) {fact : Contents → Prop}
    (decides : place.Decides fact) (now : fact m.contents) : m.Stands place fact :=
  ⟨h.holds, h.spared, decides, now⟩

theorem Stands.undisturbed {place : Place} {fact : Contents → Prop} (h : m.Stands place fact) :
    m.Undisturbed place :=
  ⟨h.holds, h.spared⟩

/-- When a planned job is over, nothing changes its place any more. -/
theorem Follows.undisturbed {plan : Plan} (h : m.Follows plan) (sound : m.Sound)
    (ended : m.isResolved plan.job.event) : m.Undisturbed plan.place := by
  refine ⟨h.holds, fun p job mem => h.spared p job mem fun same => ?_⟩
  have due := sound.due p job mem
  rw [same] at due
  exact isResolved_iff.1 ended due

/-- What a copy has come to that is over: it is complete when no dependency failed and what it
copies fits, and then it has changed what it writes; otherwise it has failed, and changed nothing. -/
structure CopyEnds (n : Machine) (event : EventId) (deps : List EventId) (fits : Prop)
    (fault : Fault) (changed kept : Prop) : Prop where
  complete_iff : n.status event = .complete ↔ n.firstFault? deps = none ∧ fits
  changed : n.status event = .complete → changed
  kept : n.status event ≠ .complete → kept
  passed : ∀ first, n.firstFault? deps = some first → n.status event = .failed first
  refused : n.firstFault? deps = none → ¬ fits → n.status event = .failed fault

section

variable {job : Job} {place : Place} {fits : Prop} [Decidable fits] {fault : Fault}
  {before changed : Contents → Prop} {first : place.Decides before} {last : place.Decides changed}

/-- A copy that followed its plan to the end. -/
theorem Follows.copyEnds
    (h : n.Follows ((Plan.ofFits q job place fits fault before changed first last).given n.status))
    (ended : n.isResolved job.event) :
    n.CopyEnds job.event job.deps fits fault (changed n.contents) (before n.contents) := by
  have told := h.of_resolved (by rwa [Plan.given_job])
  have deps : (job.deps.findSome? fun d => (n.status d).fault?) = n.firstFault? job.deps := rfl
  unfold Plan.given at told
  rw [show (Plan.ofFits q job place fits fault before changed first last).job = job from rfl,
    deps] at told
  cases found : n.firstFault? job.deps with
  | some passed =>
    rw [found] at told
    obtain ⟨status, result⟩ := told
    change n.status job.event = .failed passed at status
    refine ⟨?_, fun complete => ?_, fun _ => result, ?_, fun none => ?_⟩
    · rw [status, found]
      exact iff_of_false nofun nofun
    · rw [status] at complete
      cases complete
    · rintro _ eq
      rw [found] at eq
      cases eq
      exact status
    · rw [found] at none
      cases none
  | none =>
    rw [found] at told
    obtain ⟨status, result⟩ := told
    change n.status job.event = if fits then .complete else .failed fault at status
    change (if fits then changed else before) n.contents at result
    by_cases fit : fits
    · rw [if_pos fit] at status result
      exact ⟨iff_of_true status ⟨found, fit⟩, fun _ => result, fun failed => absurd status failed,
        fun _ eq => (nomatch found.symm.trans eq), fun _ misfit => absurd fit misfit⟩
    · rw [if_neg fit] at status result
      refine ⟨iff_of_false ?_ fun both => fit both.2, fun complete => ?_, fun _ => result,
        fun _ eq => (nomatch found.symm.trans eq), fun _ _ => status⟩
      · rw [status]
        nofun
      · rw [status] at complete
        cases complete

/-- Such a plan tells what the work comes to, when both of its cases do. -/
theorem performs_ofFits
    (done : before m.contents → fits → (job.work.perform m.contents).failure = none ∧
      changed (job.work.perform m.contents).result)
    (refused : before m.contents → ¬ fits → ∃ e, (job.work.perform m.contents).failure = some e ∧
      fault = ⟨m.queueName q, job.label, e.message⟩ ∧
      before (job.work.perform m.contents).result) :
    m.Performs (Plan.ofFits q job place fits fault before changed first last) := by
  intro start
  change before m.contents at start
  show job.verdict (m.queueName q) (job.work.perform m.contents).failure =
      (if fits then .complete else .failed fault) ∧
    (if fits then changed else before) (job.work.perform m.contents).result
  by_cases fit : fits
  · obtain ⟨free, result⟩ := done start fit
    rw [if_pos fit, if_pos fit, free]
    exact ⟨rfl, result⟩
  · obtain ⟨e, failed, rfl, result⟩ := refused start fit
    rw [if_neg fit, if_neg fit, failed]
    exact ⟨rfl, result⟩

end

/-- A later machine, on which an operation is over. What happened since is confined to an extent. -/
structure Joined (submission : EventId × Machine) (e : Extent) (n : Machine) : Prop where
  drifts : submission.2.Drifts e n
  ended : n.isResolved submission.1

/-- Puts a copy from the host into a memory into a queue. -/
def copyToDevice (m : Machine) (q : QueueId) (deps : List EventId) (id : MemoryId) (offset : Nat)
    (data : Bytes) : EventId × Machine :=
  m.submit q "memcpy:h2d" deps (.copyIn id offset data)

/-- Puts a copy of the front of a memory into a buffer into a queue. -/
def copyToHost (m : Machine) (q : QueueId) (deps : List EventId) (buffer : BufferId) (offset : Nat)
    (id : MemoryId) (length : Nat) : EventId × Machine :=
  m.submit q "memcpy:d2h" deps (.copyOut buffer offset id length)

theorem holds_copyIn {id : MemoryId} (holds : m.Holds (.memory id)) (offset : Nat) (data : Bytes) :
    ∀ r ∈ (Work.copyIn id offset data).touches, m.Holds r := by
  intro r mem
  cases List.mem_singleton.1 mem
  exact holds

theorem holds_copyOut {id : MemoryId} {buffer : BufferId} (holds : m.Holds (.memory id))
    (target : m.Holds (.buffer buffer)) (offset length : Nat) :
    ∀ r ∈ (Work.copyOut buffer offset id length).touches, m.Holds r := by
  intro r mem
  rcases List.mem_append.1 mem with read | written
  · cases List.mem_singleton.1 read
    exact holds
  · cases List.mem_singleton.1 written
    exact target

section

variable (serving : m.Serving [] name) (held : 0 < m.handles q) {deps : List EventId}
  (known : ∀ d ∈ deps, d.index < m.events.length)
include serving held known

/-- What is known right after a submission. -/
theorem Serving.after_submit (label : String) {work : Work}
    (holds : ∀ r ∈ work.touches, m.Holds r) :
    m.Submitted q ⟨label, deps, ⟨m.events.length⟩, work⟩ (m.submit q label deps work).2 ∧
      (m.submit q label deps work).2.Serving [] name :=
  have submitted := submitted_submit label deps work (isClosed_of_handles held)
  ⟨submitted, serving.submit submitted known holds nofun⟩

/-- Queues keep their names after a submission. -/
theorem Serving.queueName_later {label : String} {work : Work}
    (holds : ∀ r ∈ work.touches, m.Holds r)
    (drifts : (m.submit q label deps work).2.Drifts extent k) : k.queueName q = m.queueName q := by
  obtain ⟨submitted, served⟩ := serving.after_submit held known label holds
  have named : (m.submit q label deps work).2.Named [q] m.queueName := by
    intro p mem
    cases List.mem_singleton.1 mem
    exact ⟨(submitted.base.isSome_queue? q).trans submitted.found, submitted.base.queueName q⟩
  exact (named.drifts (served.base _) drifts q List.mem_cons_self).2

/-- A job that changes a place when something fits, and is over. -/
theorem Undisturbed.ends {place : Place} (free : m.Undisturbed place) {label : String}
    {work : Work} (holds : ∀ r ∈ work.touches, m.Holds r) {fits : Prop} [Decidable fits]
    {message : String} {before changed : Contents → Prop} (first : place.Decides before)
    (last : place.Decides changed) (start : before m.contents)
    (done : ∀ k, (m.submit q label deps work).2.Drifts extent k → before k.contents → fits →
      (work.perform k.contents).failure = none ∧ changed (work.perform k.contents).result)
    (refused : ∀ k, (m.submit q label deps work).2.Drifts extent k → before k.contents → ¬ fits →
      ∃ e, (work.perform k.contents).failure = some e ∧ message = e.message ∧
        before (work.perform k.contents).result)
    (outside : place.Outside extent) (joined : Joined (m.submit q label deps work) extent n) :
    n.CopyEnds (m.submit q label deps work).1 deps fits ⟨m.queueName q, label, message⟩
      (changed n.contents) (before n.contents) ∧ n.Undisturbed place := by
  obtain ⟨drifts, ended⟩ := joined
  obtain ⟨submitted, served⟩ := serving.after_submit held known label holds
  rw [event_submit] at ended ⊢
  let plan : Plan := Plan.ofFits q ⟨label, deps, ⟨m.events.length⟩, work⟩ place fits
    ⟨m.queueName q, label, message⟩ before changed first last
  have performs : ∀ k, (m.submit q label deps work).2.Drifts extent k → k.Performs plan := by
    intro k drifts
    refine performs_ofFits (done k drifts) fun before misfit => ?_
    obtain ⟨e, failed, rfl, kept⟩ := refused k drifts before misfit
    exact ⟨e, failed, by rw [serving.queueName_later held known holds drifts], kept⟩
  have follows := Stands.follows_given plan (free.stands first start) serving submitted
    served outside performs drifts
  have rest := follows.undisturbed (drifts.serving served).sound (by rwa [Plan.given_job])
  rw [Plan.given_place] at rest
  exact ⟨follows.copyEnds ended, rest⟩

/-- What stands in a place that neither the work nor anything later writes. -/
theorem Stands.after_submit {place : Place} {fact : Contents → Prop} (stands : m.Stands place fact)
    {label : String} {work : Work} (holds : ∀ r ∈ work.touches, m.Holds r)
    (apart : place.home ∉ work.writes) (outside : place.Outside extent)
    (drifts : (m.submit q label deps work).2.Drifts extent k) : k.Stands place fact := by
  obtain ⟨submitted, served⟩ := serving.after_submit held known label holds
  exact (stands.submit submitted (Work.spares_of_not_mem apart)).drifts served drifts outside

/-- A job that needs no gate and carries no handle comes to an end where the others do. -/
theorem Unhindered.exists_joined (h : m.Unhindered) {label : String} {work : Work}
    (holds : ∀ r ∈ work.touches, m.Holds r) (carefree : work.held = [])
    (free : ∀ gate, work ≠ .gate gate) :
    ∃ n, Joined (m.submit q label deps work) .nothing n := by
  obtain ⟨submitted, served⟩ := serving.after_submit held known label holds
  have event : m.events.length < (m.submit q label deps work).2.events.length := by
    rw [submitted.events, List.length_append]
    exact Nat.lt_succ_self _
  obtain ⟨n, evolves, ended⟩ := (h.submitted submitted carefree free).comes served.sound event
  exact ⟨n, (Passes.of_evolves evolves).drifts, by rw [event_submit]; exact ended⟩

/-- **A copy into a memory** replaces its range, or nothing. -/
theorem copyToDevice_ends {id : MemoryId} (free : m.Undisturbed (.memory id)) {offset : Nat}
    {data : Bytes} (outside : (Place.memory id).Outside extent)
    (joined : Joined (m.copyToDevice q deps id offset data) extent n) :
    n.CopyEnds (m.copyToDevice q deps id offset data).1 deps
        (offset + data.length ≤ (m.contents.memory id).length)
        ⟨m.queueName q, "memcpy:h2d", (CopyError.inPastEnd data.length offset
          (m.contents.memory id).length).message⟩
        (Bytes.Replaced (m.contents.memory id) offset data (n.contents.memory id))
        (n.contents.memory id = m.contents.memory id) ∧
      n.Undisturbed (.memory id) := by
  refine free.ends serving held known (holds_copyIn free.holds offset data)
    (Place.memory_decides (· = m.contents.memory id))
    (Place.memory_decides (Bytes.Replaced (m.contents.memory id) offset data)) rfl
    (fun k _ before fits => ?_) (fun k _ before misfit => ?_) outside joined
  · rw [Work.perform_copyIn, before]
    cases written : (m.contents.memory id).overwrite? offset data with
    | none => exact absurd fits (Bytes.overwrite?_eq_none_iff.1 written)
    | some bytes =>
      refine ⟨rfl, ?_⟩
      show Bytes.Replaced _ _ _ ((k.contents.setMemory id bytes).memory id)
      rw [Contents.memory_setMemory (.inr ((Bytes.length_of_overwrite? written).trans
        (congrArg List.length before.symm)))]
      exact Bytes.replaced_of_overwrite? written
  · rw [Work.perform_copyIn, before, Bytes.overwrite?_eq_none_iff.2 misfit]
    exact ⟨_, rfl, rfl, before⟩

/-- **A copy out of a memory** replaces a range of the buffer, or nothing, and leaves the memory
alone. -/
theorem copyToHost_ends {id : MemoryId} {buffer : BufferId} (free : m.Undisturbed (.memory id))
    (target : m.Undisturbed (.whole buffer)) {offset length : Nat}
    (outside : (Place.memory id).Outside extent) (apart : (Place.whole buffer).Outside extent)
    (joined : Joined (m.copyToHost q deps buffer offset id length) extent n) :
    n.CopyEnds (m.copyToHost q deps buffer offset id length).1 deps
        (length ≤ (m.contents.memory id).length ∧
          offset + length ≤ (m.contents.buffer buffer).length)
        ⟨m.queueName q, "memcpy:d2h", (if length ≤ (m.contents.memory id).length then
          CopyError.outPastBuffer length offset (m.contents.buffer buffer).length
          else .outPastAllocation length (m.contents.memory id).length).message⟩
        (Bytes.Replaced (m.contents.buffer buffer) offset ((m.contents.memory id).take length)
          (n.contents.buffer buffer))
        (n.contents.buffer buffer = m.contents.buffer buffer) ∧
      n.contents.memory id = m.contents.memory id ∧
      n.Undisturbed (.memory id) ∧ n.Undisturbed (.whole buffer) := by
  have holds := holds_copyOut free.holds target.holds offset length
  -- The memory stays as it is up to the copy and beyond it.
  have stands {k : Machine} (drifts : (m.copyToHost q deps buffer offset id length).2.Drifts
      extent k) : k.Stands (.memory id) fun c => c.memory id = m.contents.memory id :=
    (free.stands (Place.memory_decides (· = m.contents.memory id)) rfl).after_submit serving held
      known holds (by simp [Work.writes, Place.home]) outside drifts
  have kept := stands joined.drifts
  refine And.imp_right (fun rest => ⟨kept.now, kept.undisturbed, rest⟩)
    (target.ends serving held known holds (Place.whole_decides (· = m.contents.buffer buffer))
      (Place.whole_decides (Bytes.Replaced (m.contents.buffer buffer) offset
        ((m.contents.memory id).take length))) rfl
      (fun k drifts before fits => ?_) (fun k drifts before misfit => ?_) apart joined)
  · have source : k.contents.memory id = m.contents.memory id :=
      (stands drifts).now
    have size : ((m.contents.memory id).take length).length = length :=
      List.length_take_of_le fits.1
    rw [Work.perform_copyOut, source, before, Bytes.read?_front fits.1]
    dsimp only
    cases written : (m.contents.buffer buffer).overwrite? offset
        ((m.contents.memory id).take length) with
    | none => exact absurd (size.symm ▸ fits.2) (Bytes.overwrite?_eq_none_iff.1 written)
    | some bytes =>
      refine ⟨rfl, ?_⟩
      show Bytes.Replaced _ _ _ ((k.contents.setBuffer buffer bytes).buffer buffer)
      rw [Contents.buffer_setBuffer (.inr ((Bytes.length_of_overwrite? written).trans
        (congrArg List.length before.symm)))]
      exact Bytes.replaced_of_overwrite? written
  · have source : k.contents.memory id = m.contents.memory id :=
      (stands drifts).now
    rw [Work.perform_copyOut, source, before]
    by_cases short : length ≤ (m.contents.memory id).length
    · have size : ((m.contents.memory id).take length).length = length :=
        List.length_take_of_le short
      have none : (m.contents.buffer buffer).overwrite? offset
          ((m.contents.memory id).take length) = none :=
        Bytes.overwrite?_eq_none_iff.2 fun fits => misfit ⟨short, size ▸ fits⟩
      rw [Bytes.read?_front short, if_pos short]
      dsimp only
      rw [none]
      exact ⟨_, rfl, rfl, before⟩
    · rw [Bytes.read?_eq_none short, if_neg short]
      exact ⟨_, rfl, rfl, before⟩

/-- What is copied in is found again where it is copied out. -/
theorem copyToHost_restores {id : MemoryId} {buffer : BufferId} (free : m.Undisturbed (.memory id))
    (whole : m.Undisturbed (.whole buffer)) {offset : Nat} {data : Bytes}
    (outside : (Place.memory id).Outside extent) (apart : (Place.whole buffer).Outside extent)
    (copied : Joined (m.copyToDevice q deps id offset data) extent n)
    (clear : n.firstFault? deps = none) {p : QueueId} {later : List EventId}
    (held' : 0 < n.handles p) (known' : ∀ d ∈ later, d.index < n.events.length) {extent' : Extent}
    (outside' : (Place.memory id).Outside extent') (apart' : (Place.whole buffer).Outside extent')
    {target size : Nat} (joined : Joined (n.copyToHost p later buffer target id size) extent' k)
    (clear' : k.firstFault? later = none) (within : offset + data.length ≤ size)
    (fits : size ≤ (m.contents.memory id).length)
    (room : target + size ≤ (m.contents.buffer buffer).length) :
    k.status (n.copyToHost p later buffer target id size).1 = .complete ∧
      (k.contents.buffer buffer).read? (target + offset) data.length = some data := by
  obtain ⟨ends, rest⟩ := copyToDevice_ends serving held known free outside copied
  have replaced := ends.changed (ends.complete_iff.2 ⟨clear, by omega⟩)
  have holds := holds_copyIn free.holds offset data
  -- The buffer is as it was until it is copied to.
  have kept := (whole.stands (Place.whole_decides (· = m.contents.buffer buffer))
    rfl).after_submit serving held known holds (by simp [Work.writes, Place.home, Place.whole])
    apart copied.drifts
  have served := copied.drifts.serving (serving.after_submit held known _ holds).2
  have ends' := (copyToHost_ends served held' known' rest kept.undisturbed outside' apart'
    joined).1
  rw [replaced.length, kept.now] at ends'
  have complete := ends'.complete_iff.2 ⟨clear', fits, room⟩
  have delivered := ends'.changed complete
  have front : ((n.contents.memory id).take size).length = size :=
    List.length_take_of_le (by rwa [replaced.length])
  refine ⟨complete, Bytes.read?_of_getElem? (by rw [delivered.length]; omega) fun i inside => ?_⟩
  rw [Nat.add_assoc, delivered.inside _ (by omega), List.getElem?_take_of_lt (by omega),
    replaced.inside i inside]

end

/-! ## Copies of the host -/

section

variable {id : MemoryId} {memory : Memory} (found : m.memory? id = some memory)
  (owned : m.isReleased id = false) (visible : memory.kind.isHostAccessible = true)
include found owned visible

/-- The host is let in to memory that it sees and that was not given back. -/
theorem checkAccess_of_visible (operation : String) : m.checkAccess operation id = .ok memory := by
  unfold checkAccess
  rw [found]
  dsimp only
  rw [if_neg (by rw [owned]; nofun), if_neg (by rw [visible]; nofun)]

/-- **The host writes what a copy writes**, where it may. -/
theorem writeMemory_of_visible (offset : Nat) (data : Bytes) :
    if offset + data.length ≤ (m.contents.memory id).length then
      (m.writeMemory id offset data).1 = .ok () ∧ Bytes.Replaced (m.contents.memory id) offset data
        ((m.writeMemory id offset data).2.contents.memory id)
    else (m.writeMemory id offset data).1 = .error (.misuse (.writePastEnd data.length offset
        memory.length)) ∧ (m.writeMemory id offset data).2 = m := by
  unfold writeMemory Contents.copyIn
  rw [checkAccess_of_visible found owned visible]
  dsimp only
  cases written : (m.contents.memory id).overwrite? offset data with
  | none =>
    rw [if_neg (Bytes.overwrite?_eq_none_iff.1 written)]
    exact ⟨rfl, rfl⟩
  | some bytes =>
    rw [if_pos (Bytes.overwrite?_eq_some_iff.1 written).1]
    refine ⟨rfl, ?_⟩
    show Bytes.Replaced _ _ _ ((m.contents.setMemory id bytes).memory id)
    rw [Contents.memory_setMemory (.inr (Bytes.length_of_overwrite? written))]
    exact Bytes.replaced_of_overwrite? written

/-- The host writes at once what a copy into the memory writes, and in the same cases. -/
theorem writeMemory_agrees (serving : m.Serving [] name) (held : 0 < m.handles q)
    {deps : List EventId} (known : ∀ d ∈ deps, d.index < m.events.length)
    (free : m.Undisturbed (.memory id)) {offset : Nat} {data : Bytes}
    (outside : (Place.memory id).Outside extent)
    (joined : Joined (m.copyToDevice q deps id offset data) extent n)
    (clear : n.firstFault? deps = none) :
    (n.status (m.copyToDevice q deps id offset data).1 = .complete ↔
      (m.writeMemory id offset data).1 = .ok ()) ∧
    n.contents.memory id = (m.writeMemory id offset data).2.contents.memory id := by
  have ends := (copyToDevice_ends serving held known free outside joined).1
  have written := writeMemory_of_visible found owned visible offset data
  by_cases fits : offset + data.length ≤ (m.contents.memory id).length
  · rw [if_pos fits] at written
    have complete := ends.complete_iff.2 ⟨clear, fits⟩
    exact ⟨iff_of_true complete written.1, (ends.changed complete).unique written.2⟩
  · rw [if_neg fits] at written
    have failed := fun complete => fits (ends.complete_iff.1 complete).2
    rw [written.1, written.2]
    exact ⟨iff_of_false failed nofun, ends.kept failed⟩

theorem writeMemory_eq_ok_iff (offset : Nat) (data : Bytes) :
    (m.writeMemory id offset data).1 = .ok () ↔
      offset + data.length ≤ (m.contents.memory id).length := by
  have written := writeMemory_of_visible found owned visible offset data
  by_cases fits : offset + data.length ≤ (m.contents.memory id).length
  · rw [if_pos fits] at written
    exact iff_of_true written.1 fits
  · rw [if_neg fits] at written
    rw [written.1]
    exact iff_of_false nofun fits

/-- The host reads all bytes, where it may. -/
theorem readMemory_of_visible : m.readMemory id = .ok (m.contents.memory id) := by
  unfold readMemory
  rw [checkAccess_of_visible found owned visible]

end

/-! ## All ways of copying -/

/-- What copies into and out of a memory come to. They are put into any queue that is held, behind
any dependencies, and nothing else changes the memory or the buffer in the meantime. -/
structure CopiesExactly (m : Machine) (id : MemoryId) (memory : Memory) : Prop where
  /-- A copy into the memory replaces its range, or fails and changes nothing. -/
  toDevice : ∀ q deps offset data e n, 0 < m.handles q → (∀ d ∈ deps, d.index < m.events.length) →
    (Place.memory id).Outside e → Joined (m.copyToDevice q deps id offset data) e n →
    n.CopyEnds (m.copyToDevice q deps id offset data).1 deps
      (offset + data.length ≤ memory.length)
      ⟨m.queueName q, "memcpy:h2d", (CopyError.inPastEnd data.length offset memory.length).message⟩
      (Bytes.Replaced (m.contents.memory id) offset data (n.contents.memory id))
      (n.contents.memory id = m.contents.memory id)
  /-- A copy out of the memory replaces its range of the buffer, or fails and changes nothing. -/
  toHost : ∀ q deps buffer offset length e n, 0 < m.handles q →
    (∀ d ∈ deps, d.index < m.events.length) → m.Undisturbed (.whole buffer) →
    (Place.memory id).Outside e → (Place.whole buffer).Outside e →
    Joined (m.copyToHost q deps buffer offset id length) e n →
    n.CopyEnds (m.copyToHost q deps buffer offset id length).1 deps
        (length ≤ memory.length ∧ offset + length ≤ (m.contents.buffer buffer).length)
        ⟨m.queueName q, "memcpy:d2h", (if length ≤ memory.length then
          CopyError.outPastBuffer length offset (m.contents.buffer buffer).length
          else .outPastAllocation length memory.length).message⟩
        (Bytes.Replaced (m.contents.buffer buffer) offset ((m.contents.memory id).take length)
          (n.contents.buffer buffer))
        (n.contents.buffer buffer = m.contents.buffer buffer) ∧
      n.contents.memory id = m.contents.memory id
  /-- Copies come to an end where nothing holds the workers up. -/
  ends : ∀ q deps, 0 < m.handles q → (∀ d ∈ deps, d.index < m.events.length) → m.Unhindered →
    (∀ offset data, ∃ n, Joined (m.copyToDevice q deps id offset data) .nothing n) ∧
    ∀ buffer offset length, m.Holds (.buffer buffer) →
      ∃ n, Joined (m.copyToHost q deps buffer offset id length) .nothing n
  /-- The host writes at once what a copy into the memory writes, and in the same cases. -/
  write : m.isReleased id = false → memory.kind.isHostAccessible = true → ∀ offset data,
    ((m.writeMemory id offset data).1 = .ok () ↔ offset + data.length ≤ memory.length) ∧
    ∀ q deps e n, 0 < m.handles q → (∀ d ∈ deps, d.index < m.events.length) →
      (Place.memory id).Outside e → Joined (m.copyToDevice q deps id offset data) e n →
      n.firstFault? deps = none →
      (n.status (m.copyToDevice q deps id offset data).1 = .complete ↔
        (m.writeMemory id offset data).1 = .ok ()) ∧
      n.contents.memory id = (m.writeMemory id offset data).2.contents.memory id
  /-- The host reads what a copy of the full length delivers. -/
  read : m.isReleased id = false → memory.kind.isHostAccessible = true →
    ∃ bytes, m.readMemory id = .ok bytes ∧
      ∀ q deps buffer offset e n, 0 < m.handles q → (∀ d ∈ deps, d.index < m.events.length) →
        m.Undisturbed (.whole buffer) → (Place.memory id).Outside e →
        (Place.whole buffer).Outside e →
        Joined (m.copyToHost q deps buffer offset id memory.length) e n →
        n.status (m.copyToHost q deps buffer offset id memory.length).1 = .complete →
        (n.contents.buffer buffer).read? offset memory.length = some bytes
  /-- What is copied in is found again where it is copied out. -/
  restores : ∀ q deps offset data e n p later buffer target length e' n',
    0 < m.handles q → (∀ d ∈ deps, d.index < m.events.length) → m.Undisturbed (.whole buffer) →
    (Place.memory id).Outside e → (Place.whole buffer).Outside e →
    Joined (m.copyToDevice q deps id offset data) e n → n.firstFault? deps = none →
    0 < n.handles p → (∀ d ∈ later, d.index < n.events.length) →
    (Place.memory id).Outside e' → (Place.whole buffer).Outside e' →
    Joined (n.copyToHost p later buffer target id length) e' n' → n'.firstFault? later = none →
    offset + data.length ≤ length → length ≤ memory.length →
    target + length ≤ (m.contents.buffer buffer).length →
    n'.status (n.copyToHost p later buffer target id length).1 = .complete ∧
      (n'.contents.buffer buffer).read? (target + offset) data.length = some data
  /-- The ends of ranges may as well be computed in 64-bit words. -/
  word : ∀ bytes ∈ m.contents.memory id :: m.contents.buffers, bytes.length ≤ Size.largest →
    ∀ offset data, bytes.overwriteWord? offset data = bytes.overwrite? offset data

end Machine

/-- **Copies are exact, bounded and atomic, and agree with the direct ones.** A memory that exists
and that no pending job changes, on any machine that calls and workers lead to. -/
theorem Trace.copies_exact {t : Trace} (run : Reaches .start t) {id : MemoryId} {memory : Memory}
    (found : t.machine.memory? id = some memory) (free : t.machine.Undisturbed (.memory id)) :
    t.machine.CopiesExactly id memory := by
  have serving := Trace.serving_of_reaches run t.machine.queueName
  have length := (Trace.sized_of_reaches run).length found
  refine ⟨?toDevice, ?toHost, ?ends, ?write, ?read, ?restores, ?word⟩
  case toDevice =>
    intro q deps offset data e n held known outside joined
    have ends := (Machine.copyToDevice_ends serving held known free outside joined).1
    rwa [length] at ends
  case toHost =>
    intro q deps buffer offset size e n held known target outside apart joined
    have ends := Machine.copyToHost_ends serving held known free target outside apart joined
    rw [length] at ends
    exact ⟨ends.1, ends.2.1⟩
  case ends =>
    intro q deps held known unhindered
    refine ⟨fun offset data => ?_, fun buffer offset size target => ?_⟩
    · exact unhindered.exists_joined serving held known
        (Machine.holds_copyIn free.holds offset data) rfl nofun
    · exact unhindered.exists_joined serving held known
        (Machine.holds_copyOut free.holds target offset size) rfl nofun
  case write =>
    intro owned visible offset data
    rw [← length]
    exact ⟨Machine.writeMemory_eq_ok_iff found owned visible offset data,
      fun q deps e n held known outside joined clear => Machine.writeMemory_agrees found owned
        visible serving held known free outside joined clear⟩
  case read =>
    intro owned visible
    refine ⟨_, Machine.readMemory_of_visible found owned visible, ?_⟩
    intro q deps buffer offset e n held known target outside apart joined complete
    have ends := (Machine.copyToHost_ends serving held known free target outside apart joined).1
    have fits := (ends.complete_iff.1 complete).2
    have replaced := ends.changed complete
    rw [← length] at replaced ⊢
    rw [List.take_length] at replaced
    exact replaced.read? (by rw [length]; exact fits.2)
  case restores =>
    intro q deps offset data e n p later buffer target size e' n' held known whole outside apart
      copied clear held' known' outside' apart' joined clear' within fits room
    exact Machine.copyToHost_restores serving held known free whole outside apart copied clear held'
      known' outside' apart' joined clear' within (by rwa [length]) room
  case word => exact fun bytes _ word => Bytes.overwriteWord?_eq word

/-- A queue with a memory of four bytes and no jobs. -/
private def fourByteMemory : Trace :=
  (Trace.start.call (.createQueue ⟨"quay", .cpu, none⟩)).call (.allocate ⟨0⟩ .host 4)

/-- Two bytes go into the middle of the four. -/
theorem Trace.copies_exact_middle : ∃ n, Reaches .start fourByteMemory ∧
    fourByteMemory.machine.CopiesExactly ⟨0⟩ ⟨⟨0⟩, 1, .host, 4, 1⟩ ∧
    Machine.Joined (fourByteMemory.machine.copyToDevice ⟨0⟩ [] ⟨0⟩ 1 [7, 8]) .nothing n ∧
    n.contents.memory ⟨0⟩ = [0, 7, 8, 0] := by
  have run : Reaches .start fourByteMemory :=
    ((Reaches.refl _).step (.call _ (.createQueue _) trivial)).step
      (.call _ (.allocate _ _ _) trivial)
  have none : ∀ q, ∀ job ∈ fourByteMemory.machine.pending q, False := by
    rintro ⟨i⟩ job mem
    cases i <;> cases mem
  have copies : fourByteMemory.machine.CopiesExactly ⟨0⟩ ⟨⟨0⟩, 1, .host, 4, 1⟩ :=
    copies_exact run rfl ⟨by decide, fun q job mem => (none q job mem).elim⟩
  have free : fourByteMemory.machine.Unhindered :=
    ⟨fun q job mem => (none q job mem).elim, by rintro ⟨_ | i⟩ <;> rfl,
      by rintro ⟨_ | i⟩ <;> nofun⟩
  obtain ⟨n, joined⟩ := (copies.ends ⟨0⟩ [] (by decide) nofun free).1 1 [7, 8]
  have ends := copies.toDevice ⟨0⟩ [] 1 [7, 8] _ n (by decide) nofun
    (Place.outside_nothing _) joined
  have replaced := ends.changed (ends.complete_iff.2 ⟨rfl, by decide⟩)
  exact ⟨n, run, copies, joined, replaced.unique (Bytes.replaced_of_overwrite? rfl)⟩

end BatchDigest
