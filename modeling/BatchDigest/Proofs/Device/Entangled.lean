import BatchDigest.Proofs.Device.Progress
import Mathlib.Data.Fintype.Order
import Mathlib.Logic.Relation

/-!
# Workers that wait for each other

A worker that cannot step waits for another one: its first job depends on an event that is due on
another queue, or it let go of the last handle of another queue and stays in that drop until the
queue is drained. Waiting for events alone leads to older and older events and comes to an end. So
where no worker can step although there are jobs left, the waiting runs in a circle, and through a
drop (`Machine.Entangled`). There is no other way to get stuck (`Sound.progress_or_entangled`), and
no way out (`Entangled.turn`, `Call.entangled`).
-/

namespace BatchDigest

namespace Machine

variable {m after : Machine} {q r : QueueId}

/-! ## Drained queues -/

/-- A queue with a pending job is not drained. -/
theorem isDrained_of_pending {job : Job} (mem : job ∈ m.pending q) : m.isDrained q = false := by
  refine Bool.eq_false_iff.2 fun drained => ?_
  obtain ⟨waiting, idle⟩ := isDrained_iff.1 drained
  unfold pending at mem
  rw [waiting, idle] at mem
  cases mem

theorem isDrained_of_closing {left : List QueueId} {due? : Option Due}
    (closing : m.activity q = .closing r left due?) :
    m.isDrained q = false := by
  refine Bool.eq_false_iff.2 fun drained => ?_
  rw [(isDrained_iff.1 drained).2] at closing
  cases closing

/-- A worker that waits for a queue goes on once that is drained, and not before. -/
theorem isSome_advance?_of_closing {left : List QueueId} {due? : Option Due}
    (closing : m.activity q = .closing r left due?) :
    (m.advance? q).isSome = m.isDrained r := by
  have known := isSome_queue?_of_activity (m := m) (q := q) (by rw [closing]; nofun)
  obtain ⟨queue, found⟩ := Option.isSome_iff_exists.1 known
  have closing' : queue.activity = .closing r left due? := by
    unfold activity at closing
    rwa [found] at closing
  unfold advance?
  simp only [found, Option.bind_eq_bind, Option.bind_some, closing']
  cases m.isDrained r <;> rfl

/-! ## Who waits for whom -/

/-- The worker of `q` is in the drop of the last handle of `r`, which is not drained. -/
def Joins (m : Machine) (q r : QueueId) : Prop :=
  (∃ left due?, m.activity q = .closing r left due?) ∧ m.isDrained r = false

/-- The first job of `q` depends on the event of a pending job of `r`. -/
def Awaits (m : Machine) (q r : QueueId) : Prop :=
  m.activity q = .idle ∧ ∃ job rest, m.waiting q = job :: rest ∧
    ∃ d ∈ job.deps, ∃ other ∈ m.pending r, other.event = d

/-- The worker of `q` cannot go on before that of `r` does. -/
def WaitsFor (m : Machine) (q r : QueueId) : Prop :=
  m.Joins q r ∨ m.Awaits q r

/-- Some workers wait for each other in a circle that passes through the drop of a last handle. -/
def Entangled (m : Machine) : Prop :=
  ∃ q r, m.Joins q r ∧ Relation.ReflTransGen m.WaitsFor r q

/-- The gates of all pending jobs are open. -/
def Opened (m : Machine) : Prop :=
  ∀ q, ∀ job ∈ m.pending q, ∀ gate, job.work = .gate gate → m.isOpen gate

/-! ## Where the waiting leads -/

/-- What a worker that cannot step waits for, with the age of the event that it awaits. -/
theorem Sound.waits (sound : m.Sound) (opened : m.Opened) (busy : m.isDrained q = false)
    (stuck : m.advance? q = none) :
    (∃ r, m.Joins q r) ∨ ∃ job rest, m.pending q = job :: rest ∧
      ∃ r, m.Awaits q r ∧ ∃ other ∈ m.pending r, other.event.index < job.event.index := by
  cases activity : m.activity q with
  | running job =>
    have mem := pending_of_running activity
    have step := isSome_advance?_of_running activity (opened q job mem)
    rw [stuck] at step
    cases step
  | closing r left due? =>
    refine .inl ⟨r, ⟨left, due?, activity⟩, Bool.eq_false_iff.2 fun drained => ?_⟩
    have step := isSome_advance?_of_closing activity
    rw [stuck, drained] at step
    cases step
  | idle =>
    cases waiting : m.waiting q with
    | nil =>
      rw [isDrained_iff.2 ⟨waiting, activity⟩] at busy
      cases busy
    | cons job rest =>
      have first : m.pending q = job :: rest := by
        unfold pending
        rw [activity, waiting]
        rfl
      have mem := pending_of_first activity waiting
      obtain ⟨d, hd, due⟩ : ∃ d ∈ job.deps, ¬ m.isResolved d = true := by
        refine Classical.byContradiction fun none => ?_
        have ready : ∀ d ∈ job.deps, m.isResolved d := fun d hd =>
          Classical.byContradiction fun due => none ⟨d, hd, due⟩
        have step := isSome_advance?_of_idle activity waiting ready
        rw [stuck] at step
        cases step
      have older := sound.earlier q job mem d hd
      have known := Nat.lt_trans older (sound.known q job mem)
      obtain ⟨r, other, mem', event⟩ := sound.owed d known (status_of_not_isResolved due)
      refine .inr ⟨job, rest, first, r, ⟨activity, job, rest, waiting, d, hd, other, mem', event⟩,
        other, mem', ?_⟩
      rw [event]
      exact older

/-- The first job of a queue has the oldest event. -/
theorem Sound.first_le (sound : m.Sound) {first other : Job} {rest : List Job}
    (pending : m.pending q = first :: rest) (mem : other ∈ m.pending q) :
    first.event.index ≤ other.event.index := by
  have ordered := sound.ordered q
  rw [pending] at ordered mem
  rcases List.mem_cons.1 mem with rfl | later
  · exact Nat.le_refl _
  · exact Nat.le_of_lt ((List.pairwise_cons.1 ordered).1 other later)

/-- **Waiting leads to a drop**: events get older along the way. -/
theorem Sound.leads_to_drop (sound : m.Sound) (opened : m.Opened)
    (stuck : ∀ q, m.advance? q = none) (busy : m.isDrained q = false) :
    ∃ p r, Relation.ReflTransGen m.WaitsFor q p ∧ m.Joins p r := by
  -- The induction is on the age of the first pending event of the queue.
  suffices age : ∀ n q, m.isDrained q = false → (∀ job rest, m.pending q = job :: rest →
      job.event.index ≤ n) → ∃ p r, Relation.ReflTransGen m.WaitsFor q p ∧ m.Joins p r by
    cases pending : m.pending q with
    | nil => exact age 0 q busy fun job rest first => by rw [pending] at first; cases first
    | cons job rest =>
      refine age job.event.index q busy fun job' rest' first => ?_
      rw [pending] at first
      cases first
      exact Nat.le_refl _
  intro n
  induction n using Nat.strongRecOn with
  | ind n ih =>
    intro q busy young
    obtain ⟨r, joins⟩ | ⟨job, rest, first, r, awaits, other, mem, older⟩ :=
      sound.waits opened busy (stuck q)
    · exact ⟨q, r, .refl, joins⟩
    · have younger : other.event.index < n := Nat.lt_of_lt_of_le older (young job rest first)
      obtain ⟨p, s, path, joins⟩ := ih _ younger r (isDrained_of_pending mem) fun head tail first' =>
        sound.first_le first' mem
      exact ⟨p, s, .head (.inr awaits) path, joins⟩

/-- One drop leads to another. -/
def Chained (m : Machine) (q p : QueueId) : Prop :=
  ∃ r, m.Joins q r ∧ Relation.ReflTransGen m.WaitsFor r p

theorem Chained.trans {p s : QueueId} (first : m.Chained q p) (second : m.Chained p s) :
    m.Chained q s := by
  obtain ⟨r, joins, path⟩ := first
  obtain ⟨r', joins', path'⟩ := second
  exact ⟨r, joins, (path.tail (.inl joins')).trans path'⟩

/-- **Progress or a circle**: while a queue is not drained, some worker can step, unless workers
wait for each other through a drop. -/
theorem Sound.progress_or_entangled (sound : m.Sound) (opened : m.Opened)
    (busy : ∃ q, m.isDrained q = false) : (∃ q, (m.advance? q).isSome) ∨ m.Entangled := by
  refine Classical.or_iff_not_imp_left.2 fun none => ?_
  have stuck : ∀ q, m.advance? q = Option.none := fun q =>
    Option.not_isSome_iff_eq_none.1 fun some => none ⟨q, some⟩
  refine Classical.byContradiction fun free => ?_
  -- The workers in a drop are finitely many, so the chain from one to the next cannot go on.
  let Dropper := { q : QueueId // q.index < m.queues.length ∧ ∃ r, m.Joins q r }
  have finite : Finite Dropper := by
    refine Finite.of_injective (fun q => (⟨q.1.index, q.2.1⟩ : Fin m.queues.length)) ?_
    intro a b same
    exact Subtype.ext (QueueId.eq_of_index (congrArg Fin.val same))
  have transitive : IsTrans Dropper fun a b => m.Chained b.1 a.1 :=
    ⟨fun _ _ _ second first => first.trans second⟩
  have acyclic : Std.Irrefl fun a b : Dropper => m.Chained b.1 a.1 :=
    ⟨fun a circle => free ⟨a.1, circle⟩⟩
  have founded := Finite.wellFounded_of_trans_of_irrefl fun a b : Dropper => m.Chained b.1 a.1
  have dropper : ∀ {p s}, m.Joins p s → p.index < m.queues.length := by
    rintro p s ⟨⟨left, due?, closing⟩, _⟩
    have known := isSome_queue?_of_activity (m := m) (q := p) (by rw [closing]; nofun)
    obtain ⟨queue, found⟩ := Option.isSome_iff_exists.1 known
    exact (List.getElem?_eq_some_iff.1 found).1
  obtain ⟨q, busy⟩ := busy
  obtain ⟨p, r, _, joins⟩ := sound.leads_to_drop opened stuck busy
  obtain ⟨⟨last, _, s, joins'⟩, _, least⟩ :=
    founded.has_min Set.univ ⟨⟨p, dropper joins, r, joins⟩, trivial⟩
  obtain ⟨p', r', path, joins''⟩ := sound.leads_to_drop opened stuck joins'.2
  exact least ⟨p', dropper joins'', r', joins''⟩ trivial ⟨s, joins', path⟩

/-! ## No way out -/

/-- A worker that waits for another one cannot step. -/
theorem WaitsFor.stuck (waits : m.WaitsFor q r) (sound : m.Sound) : m.advance? q = none := by
  refine Option.not_isSome_iff_eq_none.1 fun some => ?_
  obtain ⟨⟨left, due?, closing⟩, busy⟩ |
    ⟨idle, job, rest, waiting, d, hd, other, mem, event⟩ := waits
  · rw [isSome_advance?_of_closing closing, busy] at some
    cases some
  · obtain ⟨after, step⟩ := Option.isSome_iff_exists.1 some
    have due := sound.due r other mem
    rw [event] at due
    obtain ⟨job', rest', first, ready⟩ := (turn_of_advance? step).of_idle idle
    rw [waiting] at first
    cases first
    exact isResolved_iff.1 (ready d hd) due

/-- The jobs of a queue are as before, but for new ones behind them. -/
def Lengthens (m after : Machine) (q : QueueId) : Prop :=
  after.activity q = m.activity q ∧ ∃ new, after.waiting q = m.waiting q ++ new

theorem Lengthens.pending (h : m.Lengthens after q) :
    ∃ new, after.pending q = m.pending q ++ new := by
  obtain ⟨activity, new, waiting⟩ := h
  refine ⟨new, ?_⟩
  unfold Machine.pending
  rw [activity, waiting, List.append_assoc]

theorem Lengthens.isDrained (h : m.Lengthens after q) (busy : m.isDrained q = false) :
    after.isDrained q = false := by
  refine Bool.eq_false_iff.2 fun drained => ?_
  obtain ⟨activity, new, waiting⟩ := h
  obtain ⟨none, idle⟩ := isDrained_iff.1 drained
  rw [waiting] at none
  rw [activity] at idle
  rw [isDrained_iff.2 ⟨(List.append_eq_nil_iff.1 none).1, idle⟩] at busy
  cases busy

/-- New jobs behind the old ones do not change who waits for whom. -/
theorem WaitsFor.lengthens (waits : m.WaitsFor q r) (self : m.Lengthens after q)
    (other : m.Lengthens after r) : after.WaitsFor q r := by
  obtain ⟨⟨left, due?, closing⟩, busy⟩ | ⟨idle, job, rest, waiting, d, hd, old, mem, event⟩ := waits
  · exact .inl ⟨⟨left, due?, self.1.trans closing⟩, other.isDrained busy⟩
  · obtain ⟨activity, new, waiting'⟩ := self
    obtain ⟨more, pending⟩ := other.pending
    refine .inr ⟨activity.trans idle, job, rest ++ new, ?_, d, hd, old, ?_, event⟩
    · rw [waiting', waiting, List.cons_append]
    · rw [pending]
      exact List.mem_append_left _ mem

/-- Whoever is on the way to one that waits, waits as well. -/
theorem waits_of_path {p : QueueId} (path : Relation.ReflTransGen m.WaitsFor r p)
    (last : ∃ s, m.WaitsFor p s) : ∃ s, m.WaitsFor r s := by
  obtain rfl | ⟨s, next, _⟩ := path.cases_head
  · exact last
  · exact ⟨s, next⟩

/-- A path of waiting stays while only queues that wait for nobody are changed. -/
theorem path_lengthens {p : QueueId} (keeps : ∀ q r, m.WaitsFor q r → m.Lengthens after q)
    (last : ∃ s, m.WaitsFor p s) (path : Relation.ReflTransGen m.WaitsFor q p) :
    Relation.ReflTransGen after.WaitsFor q p := by
  induction path using Relation.ReflTransGen.head_induction_on with
  | refl => exact .refl
  | head waits path ih =>
    rename_i a b
    obtain ⟨s, next⟩ := waits_of_path path last
    exact .head (waits.lengthens (keeps a b waits) (keeps b s next)) ih

/-- **Entangled workers stay entangled** while only queues that wait for nobody are changed. -/
theorem Entangled.lengthens (entangled : m.Entangled)
    (keeps : ∀ q r, m.WaitsFor q r → m.Lengthens after q) : after.Entangled := by
  obtain ⟨q, r, joins, path⟩ := entangled
  obtain ⟨s, next⟩ := waits_of_path path ⟨r, .inl joins⟩
  have self := keeps q r (.inl joins)
  obtain ⟨⟨left, due?, closing⟩, busy⟩ := joins
  exact ⟨q, r, ⟨⟨left, due?, self.1.trans closing⟩, (keeps r s next).isDrained busy⟩,
    path_lengthens keeps ⟨r, .inl ⟨⟨left, due?, closing⟩, busy⟩⟩ path⟩

/-- No step of a worker ends the circle. -/
theorem Entangled.turn (entangled : m.Entangled) (sound : m.Sound)
    (step : m.advance? q = some after) : after.Entangled := by
  refine entangled.lengthens fun p r waits => ?_
  have other : p ≠ q := by
    rintro rfl
    rw [waits.stuck sound] at step
    cases step
  obtain ⟨_, _, _, _, moved⟩ := (turn_of_advance? step).moved
  obtain ⟨activity, waiting⟩ := moved.others p other
  exact ⟨activity, [], by rw [waiting, List.append_nil]⟩

end Machine

/-- No call of the host ends the circle. -/
theorem Call.entangled {m : Machine} {c : Call} (allowed : c.Allowed m)
    (entangled : m.Entangled) : (c.apply m).Entangled := by
  refine entangled.lengthens fun p r _ => ?_
  by_cases submission : c.IsSubmission
  · cases c with
    | submit queue label deps work =>
      have submitted := Machine.submitted_submit label deps work
        (Machine.isClosed_of_handles allowed.1)
      refine ⟨submitted.activity p, ?_⟩
      by_cases same : p = queue
      · rw [same]
        exact ⟨_, submitted.waiting⟩
      · exact ⟨[], by rw [List.append_nil]; exact submitted.others p same⟩
    | _ => exact absurd submission id
  · have steady := c.steady m submission
    exact ⟨steady.activity p, [], by rw [List.append_nil]; exact steady.waiting p⟩

end BatchDigest
