import BatchDigest.Proofs.Device.Entangled
import BatchDigest.Proofs.Device.Handles

/-!
# The end of a queue

Whoever lets go of the last handle of a queue waits until the queue is drained: a caller, or the
worker of another queue whose job carried the handle, whether the job ran or was passed over. Only
the worker of the queue itself does not wait. `Teardown` follows a trace together with the callers
that wait and the drops that came back.

Any number of callers make their calls in any order, and may let go of a handle at any moment. The
handles are counted and not owned, so that a run in which every handle is let go of by its owner is
one run among these.

A run of open gates comes to an end, and then every job is over and no drop waits, unless workers
are entangled (`Teardown.finishes_or_entangles`). Two queues whose jobs carry the last handles of
each other show that this does happen (`Teardown.entangles_across`).
-/

namespace BatchDigest

open Machine

/-- A trace with the drops of last handles. -/
structure Teardown where
  trace : Trace
  /-- The queues for which a caller waits that let go of the last handle. -/
  leaving : List QueueId
  /-- The queues of which a caller, or the worker of another queue, let go of the last handle and
  went on. -/
  returned : List QueueId

namespace Teardown

/-- The machine of the trace. -/
def machine (s : Teardown) : Machine :=
  s.trace.machine

/-- Nothing has happened. -/
def start : Teardown :=
  ⟨.start, [], []⟩

/-- The queue of which a call lets go of the last handle. -/
def lastDrop? (m : Machine) : Call → Option QueueId
  | .dropQueue q => if (m.dropHandle q).1 then some q else none
  | _ => none

/-- A call, after which a caller that let go of a last handle waits. -/
def call (s : Teardown) (c : Call) : Teardown :=
  { s with
    trace := s.trace.call c
    leaving := (lastDrop? s.machine c).toList ++ s.leaving }

/-- A step of the worker of a queue, after which the machine is `after`. A worker that waited in a
drop goes on. -/
def advance (s : Teardown) (q : QueueId) (after : Machine) : Teardown :=
  { s with
    trace := s.trace.advance q after
    returned := match s.machine.activity q with
      | .closing target _ _ => target :: s.returned
      | _ => s.returned }

/-- The drop of a caller comes back. -/
def comeBack (s : Teardown) (q : QueueId) : Teardown :=
  { s with
    leaving := s.leaving.erase q
    returned := q :: s.returned }

/-- A step that needs no further call: of a worker, or of a caller that waits in a drop. -/
inductive Goes : Teardown → Teardown → Prop
  | worker (s : Teardown) (q : QueueId) (after : Machine)
      (step : s.machine.advance? q = some after) : Goes s (s.advance q after)
  | caller (s : Teardown) (q : QueueId) (waits : q ∈ s.leaving)
      (drained : s.machine.isDrained q) : Goes s (s.comeBack q)

/-- A single step. -/
inductive Step : Teardown → Teardown → Prop
  | call (s : Teardown) (c : Call) (allowed : c.Allowed s.machine) : Step s (s.call c)
  | goes {s t : Teardown} (goes : Goes s t) : Step s t

/-- Any number of steps. -/
inductive Reaches : Teardown → Teardown → Prop
  | refl (s : Teardown) : Reaches s s
  | step {s t u : Teardown} (reaches : Reaches s t) (step : Step t u) : Reaches s u

/-- A number of steps that need no further call. -/
inductive GoesFor : Nat → Teardown → Teardown → Prop
  | zero (s : Teardown) : GoesFor 0 s s
  | succ {n : Nat} {s t u : Teardown} (goesFor : GoesFor n s t) (goes : Goes t u) :
      GoesFor (n + 1) s u

/-- Every job is over and no drop waits. -/
structure Finished (s : Teardown) : Prop where
  resolved : ∀ q, ∀ job ∈ s.trace.submitted q, s.machine.isResolved job.event
  leaving : s.leaving = []
  closing : ∀ q target left due?, s.machine.activity q ≠ .closing target left due?

/-- A bound on the steps that are left without further calls. -/
def load (s : Teardown) : Nat :=
  s.machine.load + s.leaving.length

variable {s t u : Teardown} {q : QueueId}

/-! ## What holds of every run -/

/-- The jobs of a queue are over for good: it is gone, and nothing is left of it. -/
structure Over (s : Teardown) (q : QueueId) : Prop where
  gone : s.machine.Gone q
  resolved : ∀ job ∈ s.trace.submitted q, s.machine.isResolved job.event

/-- What the drops say about the machine. -/
structure Kept (s : Teardown) : Prop where
  recorded : s.trace.Recorded
  leaving : ∀ q ∈ s.leaving, s.machine.Gone q
  closing : ∀ q target left due?, s.machine.activity q = .closing target left due? →
    s.machine.Gone target
  returned : ∀ q ∈ s.returned, s.Over q

theorem kept_start : start.Kept := by
  refine ⟨Trace.recorded_start, nofun, fun q target left due? closing => ?_, nofun⟩
  have idle : start.machine.activity q = .idle := by
    simp [start, machine, Trace.start, empty, activity, queue?]
  rw [idle] at closing
  cases closing

/-- Where a queue is drained, its jobs are over. -/
theorem resolved_of_isDrained (recorded : s.trace.Recorded) (drained : s.machine.isDrained q) :
    ∀ job ∈ s.trace.submitted q, s.machine.isResolved job.event := by
  obtain ⟨ended, split, resolved⟩ := recorded.split q
  obtain ⟨waiting, idle⟩ := isDrained_iff.1 drained
  have none : s.trace.machine.pending q = [] := by
    unfold pending
    exact List.append_eq_nil_iff.2 ⟨by rw [show s.trace.machine.activity q = _ from idle]; rfl,
      waiting⟩
  rw [none, List.append_nil] at split
  rw [split]
  exact resolved

/-- A call changes no queue that is gone: it takes no job any more. -/
theorem submitted_call {c : Call} (allowed : c.Allowed s.machine) (gone : s.machine.Gone q) :
    (s.trace.call c).submitted q = s.trace.submitted q := by
  cases c with
  | submit queue label deps work =>
    refine if_neg ?_
    rintro rfl
    exact absurd gone.handles (Nat.ne_of_gt allowed.1)
  | _ => rfl

theorem activity_call {c : Call} (allowed : c.Allowed s.machine) (q : QueueId) :
    (s.call c).machine.activity q = s.machine.activity q := by
  by_cases submission : c.IsSubmission
  · cases c with
    | submit queue label deps work =>
      exact (submitted_submit label deps work (isClosed_of_handles allowed.1)).activity q
    | _ => exact absurd submission id
  · exact (c.steady s.machine submission).activity q

theorem Kept.call {c : Call} (kept : s.Kept) (allowed : c.Allowed s.machine) :
    (s.call c).Kept := by
  have gone : ∀ {q}, s.machine.Gone q → (s.call c).machine.Gone q := Call.gone allowed
  refine ⟨kept.recorded.call allowed, ?leaving, ?closing, ?returned⟩
  case leaving =>
    intro q mem
    rcases List.mem_append.1 mem with new | old
    · cases c with
      | dropQueue queue =>
        unfold lastDrop? at new
        dsimp only at new
        split at new
        next last =>
          cases List.mem_singleton.1 new
          exact gone_of_dropHandle last
        next => cases new
      | _ => cases new
    · exact gone (kept.leaving q old)
  case closing =>
    intro q target left due? closing
    rw [activity_call allowed] at closing
    exact gone (kept.closing q target left due? closing)
  case returned =>
    intro q mem
    obtain ⟨shut, resolved⟩ := kept.returned q mem
    refine ⟨gone shut, fun job mem => ?_⟩
    have mem : job ∈ s.trace.submitted q := submitted_call allowed shut ▸ mem
    have ended := resolved job mem
    exact isResolved_of_status (kept.recorded.final (.call _ c allowed) ended) ended

/-- A worker goes on with a drop once the queue is drained. -/
theorem isDrained_of_advance? {after : Machine} {target : QueueId} {left : List QueueId}
    {due? : Option Due} (step : s.machine.advance? q = some after)
    (closing : s.machine.activity q = .closing target left due?) : s.machine.isDrained target := by
  rw [← isSome_advance?_of_closing closing, step]
  rfl

theorem Kept.advance {after : Machine} (kept : s.Kept)
    (step : s.machine.advance? q = some after) : (s.advance q after).Kept := by
  have turn := turn_of_advance? step
  have stays : ∀ {p}, s.Over p → (s.advance q after).Over p := fun ended =>
    ⟨ended.gone.advance step, fun job mem => turn.isResolved kept.recorded.sound
      (ended.resolved job mem)⟩
  refine ⟨kept.recorded.turn turn, fun p mem => (kept.leaving p mem).advance step, ?closing,
    ?returned⟩
  case closing =>
    intro p target left due? closing
    by_cases same : p = q
    · subst same
      exact gone_of_advance? step closing
    · have before : s.machine.activity p = .closing target left due? := by
        rw [← turn.activity_other same]
        exact closing
      exact (kept.closing p target left due? before).advance step
  case returned =>
    intro p mem
    cases activity : s.machine.activity q with
    | closing target left due? =>
      simp only [Teardown.advance, activity, List.mem_cons] at mem
      rcases mem with rfl | old
      · exact stays ⟨kept.closing q p left due? activity,
          resolved_of_isDrained kept.recorded (isDrained_of_advance? step activity)⟩
      · exact stays (kept.returned p old)
    | _ =>
      simp only [Teardown.advance, activity] at mem
      exact stays (kept.returned p mem)

theorem Kept.comeBack (kept : s.Kept) (waits : q ∈ s.leaving) (drained : s.machine.isDrained q) :
    (s.comeBack q).Kept := by
  refine ⟨kept.recorded, fun p mem => kept.leaving p (List.mem_of_mem_erase mem), kept.closing,
    fun p mem => ?_⟩
  rcases List.mem_cons.1 mem with rfl | old
  · exact ⟨kept.leaving p waits, resolved_of_isDrained kept.recorded drained⟩
  · exact ⟨(kept.returned p old).gone, (kept.returned p old).resolved⟩

theorem Kept.goes (kept : s.Kept) (goes : Goes s t) : t.Kept := by
  cases goes with
  | worker q after step => exact kept.advance step
  | caller q waits drained => exact kept.comeBack waits drained

theorem Kept.step (kept : s.Kept) (step : Step s t) : t.Kept := by
  cases step with
  | call c allowed => exact kept.call allowed
  | goes goes => exact kept.goes goes

theorem Kept.of_reaches (kept : s.Kept) (run : Reaches s t) : t.Kept := by
  induction run with
  | refl => exact kept
  | step _ step ih => exact ih.step step

theorem Kept.goesFor {n : Nat} (kept : s.Kept) (run : GoesFor n s t) : t.Kept := by
  induction run with
  | zero => exact kept
  | succ _ goes ih => exact (ih kept).goes goes

/-! ## Steps without further calls -/

/-- Every step uses up some of the load. -/
theorem load_lt_of_goes (goes : Goes s t) : t.load < s.load := by
  cases goes with
  | worker q after step => exact Nat.add_lt_add_right (turn_of_advance? step).load_lt _
  | caller q waits drained =>
    refine Nat.add_lt_add_left ?_ _
    show (s.leaving.erase q).length < s.leaving.length
    rw [List.length_erase_of_mem waits]
    exact Nat.sub_lt (List.length_pos_of_mem waits) Nat.one_pos

theorem load_of_goesFor {n : Nat} (run : GoesFor n s t) : n + t.load ≤ s.load := by
  induction run with
  | zero => exact Nat.le_of_eq (Nat.zero_add _)
  | succ _ goes ih =>
    have less := load_lt_of_goes goes
    omega

/-- Gates that are open stay so. -/
theorem opened_of_goes (opened : s.machine.Opened) (goes : Goes s t) : t.machine.Opened := by
  cases goes with
  | worker q after step => exact (turn_of_advance? step).opened opened
  | caller => exact opened

theorem opened_of_goesFor {n : Nat} (opened : s.machine.Opened) (run : GoesFor n s t) :
    t.machine.Opened := by
  induction run with
  | zero => exact opened
  | succ _ goes ih => exact opened_of_goes (ih opened) goes

/-- A queue is not drained where a job is due. -/
theorem isDrained_of_due (recorded : s.trace.Recorded) {job : Job}
    (mem : job ∈ s.trace.submitted q) (due : ¬ s.machine.isResolved job.event) :
    s.machine.isDrained q = false :=
  Bool.eq_false_iff.2 fun drained => due (resolved_of_isDrained recorded drained job mem)

/-- **Who cannot go on is entangled**, unless everything is finished. -/
theorem Kept.finished_or_entangled (kept : s.Kept) (opened : s.machine.Opened)
    (rest : ∀ t, ¬ Goes s t) : s.Finished ∨ s.machine.Entangled := by
  by_cases busy : ∃ q, s.machine.isDrained q = false
  · rcases kept.recorded.sound.progress_or_entangled opened busy with ⟨q, some⟩ | entangled
    · obtain ⟨after, step⟩ := Option.isSome_iff_exists.1 some
      exact absurd (.worker s q after step) (rest _)
    · exact .inr entangled
  · have drained : ∀ q, s.machine.isDrained q = true := fun q =>
      Bool.eq_true_of_not_eq_false fun isBusy => busy ⟨q, isBusy⟩
    refine .inl ⟨fun q => resolved_of_isDrained kept.recorded (drained q), ?_, ?_⟩
    · refine List.eq_nil_iff_forall_not_mem.2 fun q waits => ?_
      exact rest _ (.caller s q waits (drained q))
    · intro q target left due? closing
      rw [(isDrained_iff.1 (drained q)).2] at closing
      cases closing

/-! ## Entangled for ever -/

theorem entangled_of_step (kept : s.Kept) (entangled : s.machine.Entangled) (step : Step s t) :
    t.machine.Entangled := by
  cases step with
  | call c allowed => exact c.entangled allowed entangled
  | goes goes =>
    cases goes with
    | worker q after step => exact entangled.turn kept.recorded.sound step
    | caller => exact entangled

theorem entangled_of_reaches (kept : s.Kept) (entangled : s.machine.Entangled)
    (run : Reaches s t) : t.machine.Entangled := by
  induction run with
  | refl => exact entangled
  | step reaches step ih => exact entangled_of_step (kept.of_reaches reaches) ih step

/-! ## How runs end -/

/-- **A run comes to its end or entangles.** From every state that calls, workers and callers in a
drop lead to, while the gates are open:

* without further calls there is an end to the steps, in whatever order they are taken, and at the
  end every job is over and every drop is back, or workers are entangled;
* while a job is due or a worker is in a drop, some worker can step, or workers are entangled, and
  so it is while a caller is in a drop, if the queue is not drained already;
* a drop that is back left all jobs of its queue over;
* workers that are entangled stay so for ever. -/
theorem finishes_or_entangles {n : Nat} (run : Reaches start s) (opened : s.machine.Opened)
    (further : GoesFor n s t) :
    n ≤ s.load ∧
      ((∀ u, ¬ Goes t u) → t.Finished ∨ t.machine.Entangled) ∧
      ((∃ q, ∃ job ∈ t.trace.submitted q, ¬ t.machine.isResolved job.event) ∨
          (∃ q target left due?, t.machine.activity q = .closing target left due?) →
        (∃ q, (t.machine.advance? q).isSome) ∨ t.machine.Entangled) ∧
      (∀ q ∈ t.leaving, t.machine.isDrained q ∨ (∃ p, (t.machine.advance? p).isSome) ∨
        t.machine.Entangled) ∧
      (∀ q ∈ t.returned, ∀ job ∈ t.trace.submitted q, t.machine.isResolved job.event) ∧
      (t.machine.Entangled → ∀ u, Reaches t u → u.machine.Entangled ∧ ¬ u.Finished) := by
  have kept := (kept_start.of_reaches run).goesFor further
  have opened := opened_of_goesFor opened further
  have progress := kept.recorded.sound.progress_or_entangled opened
  refine ⟨Nat.le_trans (Nat.le_add_right _ _) (load_of_goesFor further),
    kept.finished_or_entangled opened, ?busy, fun q _ => ?leaving,
    fun q back => (kept.returned q back).resolved, fun entangled u later => ?entangled⟩
  case busy =>
    rintro (⟨q, job, mem, due⟩ | ⟨q, target, left, due?, closing⟩)
    · exact progress ⟨q, isDrained_of_due kept.recorded mem due⟩
    · exact progress ⟨q, isDrained_of_closing closing⟩
  case leaving =>
    cases drained : t.machine.isDrained q with
    | true => exact .inl rfl
    | false => exact .inr (progress ⟨q, drained⟩)
  case entangled =>
    have circle := entangled_of_reaches kept entangled later
    refine ⟨circle, fun finished => ?_⟩
    obtain ⟨q, r, ⟨⟨left, due?, closing⟩, _⟩, _⟩ := circle
    exact finished.closing q r left due? closing

/-- A job of one queue carries the only handles of two others, and panics. A caller lets go of the
last handle of its own queue. The worker comes back from one queue after the other, and then the
caller does. -/
theorem finishes_handed_over : ∃ s t : Teardown, Reaches start s ∧ s.leaving = [⟨0⟩] ∧
    GoesFor 7 s t ∧ t.returned = [⟨0⟩, ⟨2⟩, ⟨1⟩] ∧
    ∀ q ∈ t.returned, ∀ job ∈ t.trace.submitted q, t.machine.isResolved job.event := by
  have run := (Reaches.refl start).step (.call _ (.createQueue ⟨"left", .cpu, none⟩) trivial)
    |>.step (.call _ (.createQueue ⟨"right", .cpu, none⟩) trivial)
    |>.step (.call _ (.createQueue ⟨"far", .cpu, none⟩) trivial)
    |>.step (.call _ (.submit ⟨1⟩ "count" [] (.plain .succeeds []))
      (by unfold Call.Allowed; decide))
    |>.step (.call _ (.submit ⟨0⟩ "drop both" [] (.plain (.panics .other) [⟨1⟩, ⟨2⟩]))
      (by unfold Call.Allowed; decide))
    |>.step (.call _ (.dropQueue ⟨0⟩) (by unfold Call.Allowed; decide))
  have wait : ∀ {s}, Reaches start s → GoesFor 0 s s := fun _ => .zero _
  have further := (wait run).succ (.worker _ ⟨1⟩ _ rfl) |>.succ (.worker _ ⟨1⟩ _ rfl)
    |>.succ (.worker _ ⟨0⟩ _ rfl) |>.succ (.worker _ ⟨0⟩ _ rfl) |>.succ (.worker _ ⟨0⟩ _ rfl)
    |>.succ (.worker _ ⟨0⟩ _ rfl) |>.succ (.caller _ ⟨0⟩ (by decide) (by decide))
  refine ⟨_, _, run, rfl, further, rfl, (finishes_or_entangles run ?_ further).2.2.2.2.1⟩
  rintro ⟨_ | _ | _ | _⟩ job mem gate work
  · cases List.mem_singleton.1 mem
    cases work
  · cases List.mem_singleton.1 mem
    cases work
  · cases mem
  · cases mem

/-- **Two queues that let go of each other wait for ever.** A job of either queue carries the last
handle of the other one. Both workers run their job, let go of the handle, and wait for the other
queue to be drained, which it is not before its worker comes back. -/
theorem entangles_across : ∃ s : Teardown, Reaches start s ∧ s.machine.Opened ∧
    (∃ job ∈ s.trace.submitted ⟨0⟩, ¬ s.machine.isResolved job.event) ∧
    (∀ q, s.machine.advance? q = none) ∧ s.leaving = [] := by
  have run := (Reaches.refl start).step (.call _ (.createQueue ⟨"left", .cpu, none⟩) trivial)
    |>.step (.call _ (.createQueue ⟨"right", .cpu, none⟩) trivial)
    |>.step (.call _ (.holdQueue ⟨1⟩) (by unfold Call.Allowed; decide))
    |>.step (.call _ (.submit ⟨0⟩ "drop right" [] (.plain .succeeds [⟨1⟩]))
      (by unfold Call.Allowed; decide))
    |>.step (.call _ (.submit ⟨1⟩ "drop left" [] (.plain .succeeds [⟨0⟩]))
      (by unfold Call.Allowed; decide))
    |>.step (.call _ (.dropQueue ⟨1⟩) (by unfold Call.Allowed; decide))
    |>.step (.goes (.worker _ ⟨0⟩ _ rfl)) |>.step (.goes (.worker _ ⟨1⟩ _ rfl))
    |>.step (.goes (.worker _ ⟨0⟩ _ rfl)) |>.step (.goes (.worker _ ⟨1⟩ _ rfl))
  refine ⟨_, run, ?_, ⟨_, List.mem_singleton_self _, by decide⟩, ?_, rfl⟩
  · rintro ⟨_ | _ | _⟩ job mem gate work
    · cases List.mem_singleton.1 mem
      cases work
    · cases List.mem_singleton.1 mem
      cases work
    · cases mem
  · rintro ⟨_ | _ | _⟩ <;> rfl

end Teardown

end BatchDigest
