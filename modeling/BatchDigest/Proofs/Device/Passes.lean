import BatchDigest.Proofs.Device.Carried
import BatchDigest.Proofs.Device.Runs

/-!
# What happens in the meantime

Between two moments of a host program the workers take steps and the host makes calls. `Drifts` is
what can happen then as far as jobs are concerned: steps of workers, calls that leave jobs and bytes
alone (`Still`), and submissions of work that is confined to an extent. Two things last that long:
resolved events keep their statuses, and what stands in a place outside of the extent goes on
standing there (`Stands`). As long as the host lets no handle go (`Quiet`, `Passes`), the queues that
it holds serve as well (`Serving`).
-/

namespace BatchDigest.Machine

variable {m n after : Machine} {p q : QueueId} {job : Job}

/-- A call that leaves the jobs and the bytes of all regions alone. -/
structure Still (m after : Machine) : Prop where
  steady : m.Steady after
  holds : ∀ r, m.Holds r → after.Holds r
  agrees : ∀ r, m.Holds r → after.contents.Agrees m.contents r
  aligned : m.contents.memories.length = m.memories.length →
    after.contents.memories.length = after.memories.length

/-- A call that leaves the handles of all queues alone besides. -/
structure Quiet (m after : Machine) : Prop extends Still m after where
  handles : ∀ q, m.handles q ≤ after.handles q

/-- Workers take steps, and the host makes calls; what it submits is confined to an extent. -/
inductive Drifts (e : Extent) (m : Machine) : Machine → Prop
  | refl : Drifts e m m
  | worker {n after : Machine} {q : QueueId} (drifts : Drifts e m n) (turn : n.Turn q after) :
      Drifts e m after
  | still {n after : Machine} (drifts : Drifts e m n) (still : n.Still after) : Drifts e m after
  | submit {n after : Machine} {q : QueueId} {job : Job} (drifts : Drifts e m n)
      (submitted : n.Submitted q job after) (deps : ∀ d ∈ job.deps, d.index < n.events.length)
      (holds : ∀ r ∈ job.work.touches, n.Holds r) (confined : job.work.Confined e) :
      Drifts e m after

/-- The same, and the host lets no handle go. -/
inductive Passes (e : Extent) (m : Machine) : Machine → Prop
  | refl : Passes e m m
  | worker {n after : Machine} {q : QueueId} (passes : Passes e m n)
      (step : n.advance? q = some after) : Passes e m after
  | quiet {n after : Machine} (passes : Passes e m n) (quiet : n.Quiet after) : Passes e m after
  | submit {n after : Machine} {q : QueueId} {job : Job} (passes : Passes e m n)
      (submitted : n.Submitted q job after) (deps : ∀ d ∈ job.deps, d.index < n.events.length)
      (holds : ∀ r ∈ job.work.touches, n.Holds r) (confined : job.work.Confined e) :
      Passes e m after

namespace Drifts

variable {e : Extent}

theorem trans (first : m.Drifts e n) (second : n.Drifts e after) : m.Drifts e after := by
  induction second with
  | refl => exact first
  | worker _ turn ih => exact ih.worker turn
  | still _ still ih => exact ih.still still
  | submit _ submitted deps holds confined ih => exact ih.submit submitted deps holds confined

end Drifts

namespace Passes

variable {e : Extent}

theorem drifts (passes : m.Passes e n) : m.Drifts e n := by
  induction passes with
  | refl => exact .refl
  | worker _ step ih => exact ih.worker (turn_of_advance? step)
  | quiet _ quiet ih => exact ih.still quiet.toStill
  | submit _ submitted deps holds confined ih => exact ih.submit submitted deps holds confined

theorem trans (first : m.Passes e n) (second : n.Passes e after) : m.Passes e after := by
  induction second with
  | refl => exact first
  | worker _ step ih => exact ih.worker step
  | quiet _ quiet ih => exact ih.quiet quiet
  | submit _ submitted deps holds confined ih => exact ih.submit submitted deps holds confined

theorem of_evolves (evolves : m.Evolves n) : m.Passes e n := by
  induction evolves with
  | refl => exact .refl
  | step _ q step ih => exact ih.worker step

theorem evolves (passes : m.Passes e n) (later : n.Evolves after) : m.Passes e after :=
  passes.trans (of_evolves later)

/-- The extent may be widened. -/
theorem mono (passes : m.Passes e n) {wider : Extent}
    (memories : ∀ id, e.memories id → wider.memories id)
    (bytes : ∀ buffer i, e.bytes buffer i → wider.bytes buffer i) : m.Passes wider n := by
  induction passes with
  | refl => exact .refl
  | worker _ step ih => exact ih.worker step
  | quiet _ quiet ih => exact ih.quiet quiet
  | submit _ submitted deps holds confined ih =>
    exact ih.submit submitted deps holds (confined.mono memories bytes)

end Passes

/-! ## Regions -/

theorem Turn.length_contents (turn : m.Turn q after) (sound : m.Sound) :
    after.contents.memories.length = m.contents.memories.length ∧
      after.contents.buffers.length = m.contents.buffers.length := by
  rcases turn.contents sound with kept | ⟨job, performed⟩
  · rw [kept]
    exact ⟨rfl, rfl⟩
  · rw [performed]
    exact job.work.length_perform m.contents

/-- No step of a worker makes or takes a region. -/
theorem Turn.holds (turn : m.Turn q after) (sound : m.Sound) (r : Region) :
    after.Holds r ↔ m.Holds r := by
  cases r with
  | memory id =>
    show id.index < after.memories.length ↔ _
    rw [(turn.base sound).memories]
    exact Iff.rfl
  | buffer id =>
    show id.index < after.contents.buffers.length ↔ _
    rw [(turn.length_contents sound).2]
    exact Iff.rfl
  | log => exact Iff.rfl

/-- No submission makes or takes a region. -/
theorem Submitted.holds (h : m.Submitted q job after) (r : Region) :
    after.Holds r ↔ m.Holds r := by
  cases r with
  | memory id =>
    show id.index < after.memories.length ↔ _
    rw [h.base.memories]
    exact Iff.rfl
  | buffer id =>
    show id.index < after.contents.buffers.length ↔ _
    rw [h.contents]
    exact Iff.rfl
  | log => exact Iff.rfl

/-- What the end of a job leaves of a place that its work spares. -/
theorem Verdict.same {s : Status} {c : Contents} (h : m.Verdict q job s c) {place : Place}
    (spares : job.work.Spares place) : c.Same m.contents place := by
  rcases h.cases.2 with ⟨_, _, _, rfl⟩ | ⟨_, _, rfl⟩
  · exact (Contents.Agrees.refl _ _).same
  · exact spares _

/-! ## Queues that serve -/

/-- The host can rely on queues: the machine is sound, jobs name regions that exist, and each of the
queues, which have the given names, is held by a handle that no job carries. -/
structure Serving (m : Machine) (queues : List QueueId) (name : QueueId → String) : Prop where
  sound : m.Sound
  aligned : m.contents.memories.length = m.memories.length
  inside : ∀ q, ∀ job ∈ m.pending q, ∀ r ∈ job.work.touches, m.Holds r
  held : ∀ q ∈ queues, m.carried q < m.handles q
  named : ∀ q ∈ queues, m.queueName q = name q

namespace Serving

variable {queues : List QueueId} {name : QueueId → String}

theorem base (h : m.Serving queues name) (other : QueueId → String) : m.Serving [] other :=
  ⟨h.sound, h.aligned, h.inside, nofun, nofun⟩

/-- Where no queue has to serve, handles may go with any job. -/
theorem turn (h : m.Serving [] name) (turn : m.Turn q after) : after.Serving [] name := by
  have sound := h.sound
  refine ⟨turn.sound sound, ?aligned, ?inside, nofun, nofun⟩
  case aligned =>
    rw [(turn.base sound).memories, ← h.aligned]
    exact (turn.length_contents sound).1
  case inside =>
    intro p job mem r hr
    exact (turn.holds sound r).2 (h.inside p job (turn.mem_pending mem) r hr)

theorem advance (h : m.Serving queues name) (step : m.advance? q = some after) :
    after.Serving queues name := by
  have turn := turn_of_advance? step
  have base := (h.base name).turn turn
  refine ⟨base.sound, base.aligned, base.inside, fun target mem => ?_, fun target mem => ?_⟩
  · exact turn.spares.lt (h.held target mem)
  · rw [(turn.base h.sound).queueName]
    exact h.named target mem

theorem handles_pos (h : m.Serving queues name) (mem : q ∈ queues) : 0 < m.handles q :=
  Nat.zero_lt_of_lt (h.held q mem)

/-- A queue that serves exists. -/
theorem isSome_queue? (h : m.Serving queues name) (mem : q ∈ queues) : (m.queue? q).isSome := by
  have held := h.handles_pos mem
  unfold handles at held
  cases hq : m.queue? q with
  | none => rw [hq] at held; exact absurd held (Nat.lt_irrefl 0)
  | some queue => rfl

theorem quiet (h : m.Serving queues name) (quiet : m.Quiet after) :
    after.Serving queues name := by
  refine ⟨quiet.steady.sound h.sound, quiet.aligned h.aligned, ?_, ?_, ?_⟩
  · intro p job mem r hr
    rw [quiet.steady.pending] at mem
    exact quiet.holds r (h.inside p job mem r hr)
  · intro target mem
    rw [quiet.steady.carried]
    exact Nat.lt_of_lt_of_le (h.held target mem) (quiet.handles target)
  · intro target mem
    rw [quiet.steady.queueName (h.isSome_queue? mem)]
    exact h.named target mem

theorem submit (h : m.Serving queues name) (submitted : m.Submitted q job after)
    (deps : ∀ d ∈ job.deps, d.index < m.events.length)
    (holds : ∀ r ∈ job.work.touches, m.Holds r)
    (keeps : ∀ target ∈ queues, target ∉ job.work.held) : after.Serving queues name := by
  refine ⟨submitted.sound h.sound deps, ?aligned, ?inside, ?held, ?named⟩
  case aligned =>
    rw [submitted.contents, submitted.base.memories]
    exact h.aligned
  case inside =>
    intro p old mem r hr
    rw [submitted.holds]
    rcases submitted.mem_pending.1 mem with old' | ⟨_, rfl⟩
    · exact h.inside p old old' r hr
    · exact holds r hr
  case held =>
    intro target mem
    rw [submitted.handles, submitted.carried (keeps target mem)]
    exact h.held target mem
  case named =>
    intro target mem
    rw [submitted.base.queueName]
    exact h.named target mem

/-- Where no queue has to serve, calls only have to keep the regions. -/
theorem of_steady (h : m.Serving [] name) (steady : m.Steady after)
    (holds : ∀ r, m.Holds r → after.Holds r)
    (aligned : after.contents.memories.length = after.memories.length) : after.Serving [] name := by
  refine ⟨steady.sound h.sound, aligned, ?_, nofun, nofun⟩
  intro p job mem r hr
  rw [steady.pending] at mem
  exact holds r (h.inside p job mem r hr)

theorem evolves (h : m.Serving queues name) (evolves : m.Evolves n) : n.Serving queues name := by
  induction evolves with
  | refl => exact h
  | step _ q step ih => exact ih.advance step

/-- Where no queue has to serve, handles may go. -/
theorem still (h : m.Serving [] name) (still : m.Still after) : after.Serving [] name :=
  h.of_steady still.steady still.holds (still.aligned h.aligned)

/-- A job can be put into a queue that serves. -/
theorem submitted (h : m.Serving queues name) (mem : q ∈ queues) (label : String)
    (deps : List EventId) (work : Work) :
    m.Submitted q ⟨label, deps, ⟨m.events.length⟩, work⟩ (m.submit q label deps work).2 :=
  submitted_submit label deps work (isClosed_of_handles (h.handles_pos mem))

end Serving

namespace Drifts

variable {queues : List QueueId} {name : QueueId → String} {extent : Extent}

/-- **What every step keeps lasts.** -/
theorem keeps (drifts : m.Drifts extent n) (serving : m.Serving [] name) (fact : Machine → Prop)
    (start : fact m)
    (worker : ∀ n q after, n.Serving [] name → fact n → n.Turn q after → fact after)
    (still : ∀ n after, n.Serving [] name → fact n → n.Still after → fact after)
    (submit : ∀ n q job after, n.Serving [] name → fact n → n.Submitted q job after →
      job.work.Confined extent → fact after) : n.Serving [] name ∧ fact n := by
  induction drifts with
  | refl => exact ⟨serving, start⟩
  | worker _ turn ih => exact ⟨ih.1.turn turn, worker _ _ _ ih.1 ih.2 turn⟩
  | still _ calm ih => exact ⟨ih.1.still calm, still _ _ ih.1 ih.2 calm⟩
  | submit _ submitted deps holds confined ih =>
    exact ⟨ih.1.submit submitted deps holds nofun, submit _ _ _ _ ih.1 ih.2 submitted confined⟩

theorem serving (drifts : m.Drifts extent n) (serving : m.Serving [] name) : n.Serving [] name :=
  (drifts.keeps serving (fun _ => True) trivial (fun _ _ _ _ _ _ => trivial)
    (fun _ _ _ _ _ => trivial) (fun _ _ _ _ _ _ _ _ => trivial)).1

/-- Resolved events are final. -/
theorem status (drifts : m.Drifts extent n) (serving : m.Serving queues name) {e : EventId}
    (ended : m.isResolved e) : n.status e = m.status e := by
  have still : ∀ k : Machine, k.status e = m.status e → k.isResolved e :=
    fun k same => isResolved_of_status same ended
  refine (drifts.keeps (serving.base name) (fun k => k.status e = m.status e) rfl ?_ ?_ ?_).2
  · intro k q after serving same turn
    rw [turn.status_of_isResolved serving.sound (still k same), same]
  · intro k after _ same calm
    rw [calm.steady.status (known_of_isResolved (still k same)), same]
  · intro k q job after _ same submitted _
    rw [submitted.status_eq, same]

theorem isResolved (drifts : m.Drifts extent n) (serving : m.Serving queues name) {e : EventId}
    (ended : m.isResolved e) : n.isResolved e :=
  isResolved_of_status (drifts.status serving ended) ended

/-- Regions stay. -/
theorem holds (drifts : m.Drifts extent n) (serving : m.Serving queues name) {r : Region}
    (held : m.Holds r) : n.Holds r := by
  refine (drifts.keeps (serving.base name) (fun k => k.Holds r) held ?_ ?_ ?_).2
  · intro k q after serving held turn
    exact (turn.holds serving.sound r).2 held
  · intro k after _ held still
    exact still.holds r held
  · intro k q job after _ held submitted _
    exact (submitted.holds r).2 held

/-- Memories only get more. -/
theorem length_memories (drifts : m.Drifts extent n) (serving : m.Serving queues name) :
    m.memories.length ≤ n.memories.length := by
  refine Nat.le_of_not_lt fun fewer => ?_
  have held : n.Holds (.memory ⟨n.memories.length⟩) := drifts.holds serving fewer
  exact Nat.lt_irrefl _ held

end Drifts

/-- As long as the host lets no handle go, queues that served go on to serve. -/
theorem Passes.serving {queues : List QueueId} {name : QueueId → String} {extent : Extent}
    (passes : m.Passes extent n) (serving : m.Serving queues name) : n.Serving queues name := by
  induction passes with
  | refl => exact serving
  | worker _ step ih => exact ih.advance step
  | quiet _ calm ih => exact ih.quiet calm
  | submit _ submitted deps holds confined ih =>
    exact ih.submit submitted deps holds fun _ _ => confined.carefree ▸ List.not_mem_nil

/-- The submission of confined work to a queue that serves. -/
theorem Serving.passes_submit {queues : List QueueId} {name : QueueId → String} {extent : Extent}
    (h : m.Serving queues name) (mem : q ∈ queues) (label : String) (deps : List EventId)
    {work : Work} (known : ∀ d ∈ deps, d.index < m.events.length)
    (holds : ∀ r ∈ work.touches, m.Holds r) (confined : work.Confined extent) :
    m.Passes extent (m.submit q label deps work).2 :=
  Passes.refl.submit (h.submitted mem label deps work) known holds confined

/-! ## What stands -/

/-- A fact about a place holds, and no pending job is about to change the place. -/
structure Stands (m : Machine) (place : Place) (fact : Contents → Prop) : Prop where
  holds : m.Holds place.home
  spared : ∀ p, ∀ job ∈ m.pending p, job.work.Spares place
  decides : place.Decides fact
  now : fact m.contents

namespace Stands

variable {place : Place} {fact : Contents → Prop}

theorem turn (h : m.Stands place fact) (sound : m.Sound) (turn : m.Turn q after) :
    after.Stands place fact := by
  refine ⟨(turn.holds sound _).2 h.holds, fun p job mem => h.spared p job (turn.mem_pending mem),
    h.decides, ?_⟩
  rcases turn.settles sound with rests | ⟨ended, s, ends⟩
  · rw [rests.contents]
    exact h.now
  · exact h.decides _ _ (ends.verdict.same (h.spared q ended ends.mem)) h.now

theorem still (h : m.Stands place fact) (still : m.Still after) : after.Stands place fact := by
  refine ⟨still.holds _ h.holds, ?_, h.decides, h.decides _ _ (still.agrees _ h.holds).same h.now⟩
  intro p job mem
  rw [still.steady.pending] at mem
  exact h.spared p job mem

theorem submit (h : m.Stands place fact) (submitted : m.Submitted q job after)
    (spares : job.work.Spares place) : after.Stands place fact := by
  refine ⟨(submitted.holds _).2 h.holds, ?_, h.decides, by rw [submitted.contents]; exact h.now⟩
  intro p old mem
  rcases submitted.mem_pending.1 mem with old' | ⟨_, rfl⟩
  · exact h.spared p old old'
  · exact spares

theorem evolves (h : m.Stands place fact) (sound : m.Sound) (evolves : m.Evolves n) :
    n.Stands place fact :=
  evolves.keeps_sound (p := (·.Stands place fact)) sound
    (fun _ _ _ sound h turn => h.turn sound turn) h

/-- Fewer bytes stand as well. -/
theorem bytes {buffer : BufferId} {inside fewer : Nat → Prop}
    (h : m.Stands (.bytes buffer inside) fact) (within : ∀ i, fewer i → inside i)
    {weaker : Contents → Prop} (decides : (Place.bytes buffer fewer).Decides weaker)
    (weaken : ∀ c, fact c → weaker c) : m.Stands (.bytes buffer fewer) weaker :=
  ⟨h.holds, fun p job mem => (h.spared p job mem).bytes_mono within, decides, weaken _ h.now⟩

theorem weaken (h : m.Stands place fact) {weaker : Contents → Prop}
    (decides : place.Decides weaker) (weaken : ∀ c, fact c → weaker c) : m.Stands place weaker :=
  ⟨h.holds, h.spared, decides, weaken _ h.now⟩

/-- **What stands outside of the extent stays.** -/
theorem drifts (h : m.Stands place fact) {queues : List QueueId} {name : QueueId → String}
    (serving : m.Serving queues name) {e : Extent} (drifts : m.Drifts e n)
    (outside : place.Outside e) : n.Stands place fact :=
  (drifts.keeps (serving.base name) (fun k => k.Stands place fact) h
    (fun _ _ _ serving h turn => h.turn serving.sound turn) (fun _ _ _ h still => h.still still)
    (fun _ _ _ _ _ h submitted confined => h.submit submitted (confined.spares _ outside))).2

theorem passes (h : m.Stands place fact) {queues : List QueueId} {name : QueueId → String}
    (serving : m.Serving queues name) {e : Extent} (passes : m.Passes e n)
    (outside : place.Outside e) : n.Stands place fact :=
  h.drifts serving passes.drifts outside

end Stands

/-- A place that exists lies outside of an extent of new memories and other bytes. -/
theorem outside_of_holds {place : Place} (holds : m.Holds place.home) {e : Extent}
    (new : ∀ id, e.memories id → m.memories.length ≤ id.index)
    (bytes : ∀ buffer inside, place = .bytes buffer inside → ∀ i, inside i → ¬ e.bytes buffer i) :
    place.Outside e := by
  cases place with
  | nothing => trivial
  | memory id => exact fun inside => absurd (new id inside) (Nat.not_le.2 holds)
  | bytes buffer inside => exact bytes buffer inside rfl

end BatchDigest.Machine
