import BatchDigest.Proofs.Batch.Client
import BatchDigest.Proofs.Batch.Results
import BatchDigest.Proofs.Batch.Returns
import BatchDigest.Proofs.Batch.Demands
import BatchDigest.Proofs.Configuration.Accepted

/-!
# What is built from a configuration

A configuration that is accepted gets a queue for each of its runners, in order
(`Configuration.meets_setUpRunners`), unless one of the names holds a NUL: no thread can have that
name, and the calling thread panics (`Configuration.meets_setUpRunners_panics`). The hasher over the
queues is then made, unless a device has no room for the tables or the sum of the weights is not
finite (`Configuration.meets_assemble`). Both programs return. `Configuration.check_agrees` puts
this together with what is accepted.
-/

namespace BatchDigest

open Machine

variable {m n after : Machine} {q : QueueId}

/-! ## Making a hasher fails for want of memory only -/

/-- An allocation of some bytes on a queue that exists fails for want of memory. -/
theorem Machine.isRecoverable_of_allocate {kind : MemoryKind} {length : Nat} {e : DeviceError}
    (known : (m.queue? q).isSome) (filled : length ≠ 0)
    (refused : (m.allocate q kind length).1 = .error e) : e.isRecoverable := by
  obtain ⟨queue, found⟩ := Option.isSome_iff_exists.1 known
  unfold allocate at refused
  rw [found] at refused
  dsimp only at refused
  cases made : (queue.ledger.allocate kind length).1 with
  | ok id => rw [made] at refused; cases refused
  | error e' =>
    rw [made] at refused
    cases refused
    unfold Ledger.allocate at made
    rw [if_neg filled] at made
    split at made
    · cases made; rfl
    · split at made
      · cases made
      · cases made; rfl

/-- Queues that exist go on to exist where names are kept. -/
theorem Machine.Titles.isSome_queue? (titles : Titles m n) (known : (m.queue? q).isSome) :
    (n.queue? q).isSome := by
  rw [← Option.isSome_map (f := Queue.label), titles q, Option.isSome_map]
  exact known

variable {a : Algorithm} {key blob : Bytes}

theorem StagedTables.meets_stage_fails (staged : a.tableBlob key = .ok blob)
    (known : (m.queue? q).isSome) : (StagedTables.stage a key q).Meets (fun _ => True)
      (fun r _ => ∀ e, r = .error e → e.isOutOfMemory) m := by
  unfold StagedTables.stage
  split
  next crashed => rw [staged] at crashed; cases crashed
  next => exact fun _ _ => ⟨trivial, fun _ _ => ⟨trivial, nofun⟩⟩
  next blob' filled _ =>
    refine Host.meets_call_bind fun n first => ⟨trivial, ?_⟩
    cases made : (n.allocate q .device blob'.length).1 with
    | error e =>
      refine fun _ _ => ⟨trivial, fun e' answer => ?_⟩
      obtain rfl := Except.error.inj answer
      refine isRecoverable_of_allocate ((flow_titles.evolves first).isSome_queue? known) ?_ made
      exact fun none => filled (List.length_eq_zero_iff.1 none)
    | ok memory =>
      exact Host.meets_call_bind fun _ _ => ⟨trivial, fun _ _ => ⟨trivial, nofun⟩⟩

namespace Hasher

theorem meets_stageAll_fails (staged : a.tableBlob key = .ok blob) {runners : List Runner}
    (known : ∀ r ∈ runners, (m.queue? r.queue).isSome) (stations : List Station) :
    (Hasher.stageAll a key runners stations).Meets (fun _ => True)
      (fun r _ => ∀ e, r = .error e → e.isOutOfMemory) m := by
  induction runners generalizing m stations with
  | nil => exact fun _ _ => ⟨trivial, nofun⟩
  | cons runner rest ih =>
    rw [List.forall_mem_cons] at known
    have titles := StagedTables.always_stage taking_titles a key runner.queue m
    refine Host.Meets.bind (((StagedTables.meets_stage_fails staged known.1).and titles).mono ?_)
    rintro r n - ⟨fails, titles⟩
    cases r with
    | error e =>
      refine Host.Meets.bind ((Host.meets_trivial _ n).mono fun _ _ _ _ _ _ => ⟨trivial, ?_⟩)
      exact fun e' answer => fails e' (by rw [Except.error.inj answer])
    | ok tables => exact ih (fun r mem => titles.isSome_queue? (known.2 r mem)) _

/-- **A hasher is refused for its runners, or for want of memory.** -/
theorem meets_create_fails (accepted : a.checkKey key.length = .ok ()) {runners : List Runner}
    (known : ∀ r ∈ runners, (m.queue? r.queue).isSome) :
    (Hasher.create a runners key).Meets (fun _ => True) (fun r _ => ∀ e, r = .error e →
      (∃ cause, Runner.check (Runner.named m runners) = .error cause ∧ e = .rejected cause) ∨
        Runner.check (Runner.named m runners) = .ok () ∧ e.isOutOfMemory) m := by
  obtain ⟨supported, short⟩ := Algorithm.accepted_of_checkKey accepted
  obtain ⟨blob, tables, loads⟩ := Algorithm.exists_loads supported short
  unfold Hasher.create
  rw [accepted]
  refine Host.meets_ask_bind fun n first => ⟨trivial, ?_⟩
  have titles := flow_titles.evolves first
  rw [titles.named]
  cases checked : Runner.check (Runner.named m runners) with
  | error cause =>
    exact fun _ _ => ⟨trivial, fun e answer => .inl ⟨cause, rfl, (Except.error.inj answer).symm⟩⟩
  | ok =>
    have known := fun r mem => titles.isSome_queue? (known r mem)
    refine Host.Meets.bind ((meets_stageAll_fails loads.staged known []).mono fun r k _ fails => ?_)
    cases r with
    | error e =>
      refine fun _ _ => ⟨trivial, fun e' answer => .inr ⟨rfl, fails e' ?_⟩⟩
      rw [Except.error.inj answer]
    | ok stations =>
      exact Host.Meets.bind ((Host.meets_trivial _ k).mono fun _ _ _ _ _ _ => ⟨trivial, nofun⟩)

end Hasher

/-! ## Setting up queues -/

namespace Machine

/-- The queues are those that there were, under their configurations. -/
def SameQueues (m n : Machine) : Prop :=
  ∀ q, (n.queue? q).map (·.config) = (m.queue? q).map (·.config)

theorem flow_sameQueues : Flow SameQueues where
  refl _ _ := rfl
  trans first second q := (second q).trans (first q)
  step step := by
    obtain ⟨_, _, _, _, moved⟩ := (turn_of_advance? step).moved
    exact moved.config

theorem SameQueues.length_queues (same : SameQueues m n) :
    n.queues.length = m.queues.length := by
  have known : ∀ i, i < n.queues.length ↔ i < m.queues.length := by
    intro i
    have here := congrArg Option.isSome (same ⟨i⟩)
    rw [Option.isSome_map, Option.isSome_map] at here
    unfold queue? at here
    rw [Bool.eq_iff_iff] at here
    simpa using here
  have less := known m.queues.length
  have more := known n.queues.length
  omega

/-- A queue that is set up is a new one, and the others stay. -/
theorem config_addQueue (m : Machine) (config : QueueConfig) (q : QueueId) :
    ((m.addQueue config).2.queue? q).map (·.config) =
      if q.index = m.queues.length then some config else (m.queue? q).map (·.config) := by
  show ((m.queues ++ [Queue.fresh config])[q.index]?).map _ = _
  rw [List.getElem?_append]
  unfold queue?
  split
  next old => rw [if_neg (Nat.ne_of_lt old)]
  next new =>
    split
    next last => rw [last, Nat.sub_self]; rfl
    next ne =>
      rw [List.getElem?_eq_none (by simp only [List.length_singleton]; omega),
        List.getElem?_eq_none (Nat.le_of_not_lt new)]

/-- Queues that are drained stay so. -/
def StaysDrained (m n : Machine) : Prop :=
  ∀ q, m.isDrained q → n.isDrained q

/-- The worker of a drained queue has no next step, and no other puts jobs into the queue. -/
theorem flow_staysDrained : Flow StaysDrained where
  refl _ _ drained := drained
  trans first second q drained := second q (first q drained)
  step := by
    intro m q after step p drained
    have turn := turn_of_advance? step
    obtain ⟨waiting, idle⟩ := isDrained_iff.1 drained
    have ne : p ≠ q := by
      rintro rfl
      obtain ⟨job, rest, first, -⟩ := turn.of_idle idle
      rw [first] at waiting
      cases waiting
    obtain ⟨_, _, _, _, moved⟩ := turn.moved
    obtain ⟨activity, jobs⟩ := moved.others p ne
    exact isDrained_iff.2 ⟨jobs.trans waiting, activity.trans idle⟩

theorem Steady.staysDrained (steady : m.Steady n) : m.StaysDrained n := by
  intro q drained
  obtain ⟨waiting, idle⟩ := isDrained_iff.1 drained
  exact isDrained_iff.2 ⟨(steady.waiting q).trans waiting, (steady.activity q).trans idle⟩

/-- A new queue has no jobs. -/
theorem isDrained_addQueue (m : Machine) (config : QueueConfig) :
    (m.addQueue config).2.isDrained (m.addQueue config).1 := by
  refine (m.steady_addQueue config).staysDrained _ ?_
  have none : m.queues[m.queues.length]? = none := List.getElem?_eq_none (Nat.le_refl _)
  show (m.queues[m.queues.length]?).all Queue.isDrained
  rw [none]
  rfl

end Machine

/-- Whoever lets go of drained queues has nothing to wait for. -/
theorem Hasher.returns_dropQueues_of_isDrained {runners : List Runner}
    (drained : ∀ r ∈ runners, m.isDrained r.queue) : (Hasher.dropQueues runners).Returns m := by
  have drop (m : Machine) (q : QueueId) : m.StaysDrained (m.dropHandle q).2 :=
    (m.steady_updateQueue q (fun queue => { queue with handles := queue.handles - 1 })
      fun _ => ⟨rfl, rfl, rfl⟩).staysDrained
  induction runners generalizing m with
  | nil => trivial
  | cons runner rest ih =>
    rw [List.forall_mem_cons] at drained
    refine Host.Returns.bind ?_ (Host.always_dropQueue flow_staysDrained drop runner.queue m)
      fun _ n stays => ih fun r mem => stays _ (drained.2 r mem)
    refine Host.returns_call_bind fun n first => ?_
    split
    · intro k second
      have stays := flow_staysDrained.trans (flow_staysDrained.evolves first)
        (flow_staysDrained.trans (drop n runner.queue) (flow_staysDrained.evolves second))
      exact ⟨⟨k, .refl, stays _ drained.1⟩, fun _ => trivial⟩
    · trivial

/-- A program, and then a value that does not depend on it. -/
theorem Host.meets_bind_pure {α β : Type} (p : Host α) (b : β) (m : Machine) :
    (p >>= fun _ => pure b).Meets (fun _ => True) (fun r _ => r = b) m :=
  Host.Meets.bind ((Host.meets_trivial p m).mono fun _ _ _ _ _ _ => ⟨trivial, rfl⟩)

namespace Configuration

/-- A runner is set up for an entry when it has a queue and the weight that the entry asks for. -/
structure SetUp (m : Machine) (entry : RunnerEntry) (runner : Runner) : Prop where
  queue : (m.queue? runner.queue).map (·.config) = some entry.queueConfig
  weight : runner.weight = entry.weight

theorem SetUp.queueName {entry : RunnerEntry} {runner : Runner} (h : SetUp m entry runner) :
    m.queueName runner.queue = entry.name := by
  obtain ⟨queue, found, config⟩ := Option.map_eq_some_iff.1 h.queue
  unfold Machine.queueName
  rw [found]
  exact congrArg QueueConfig.name config

/-- A queue that can be set up is the next one. -/
theorem meets_createQueue {config : QueueConfig} (sound : config.check = .ok ())
    (nameable : config.isNameable) :
    (Host.createQueue config).Meets (fun _ => True) (fun r n =>
      r = .ok ⟨m.queues.length⟩ ∧ n.queues.length = m.queues.length + 1 ∧
      ∀ q : QueueId, (n.queue? q).map (·.config) =
        if q.index = m.queues.length then some config else (m.queue? q).map (·.config)) m := by
  unfold Host.createQueue
  rw [sound]
  dsimp only
  rw [if_pos nameable]
  refine Host.meets_call_bind fun n first => ⟨trivial, fun k second => ⟨trivial, ?_⟩⟩
  have before := flow_sameQueues.evolves first
  have later := flow_sameQueues.evolves second
  have length := before.length_queues
  refine ⟨by rw [← length]; rfl, ?_, fun q => ?_⟩
  · rw [later.length_queues, ← length]
    exact List.length_append
  · rw [later q, config_addQueue, length, before q]

/-- Runners are set up for entries in order, on queues that are new. -/
structure AllSetUp (m : Machine) (entries : List RunnerEntry) (runners : List Runner)
    (n : Machine) : Prop where
  each : List.Forall₂ (SetUp n) entries runners
  new : runners.map (·.queue.index) = List.range' m.queues.length entries.length
  old : ∀ q : QueueId, q.index < m.queues.length →
    (n.queue? q).map (·.config) = (m.queue? q).map (·.config)

/-- **Each entry gets a queue of its own**, in order, behind the runners made so far. -/
theorem meets_setUpRunners {entries : List RunnerEntry}
    (sound : ∀ r ∈ entries, r.queueConfig.check = .ok ())
    (nameable : ∀ r ∈ entries, r.queueConfig.isNameable) (made : List Runner) :
    (setUpRunners entries made).Meets (fun _ => True)
      (fun r n => ∃ runners, r = .ok (made ++ runners) ∧ AllSetUp m entries runners n) m := by
  induction entries generalizing m made with
  | nil =>
    refine fun n first => ⟨trivial, [], by rw [List.append_nil], .nil, rfl, fun q _ => ?_⟩
    exact flow_sameQueues.evolves first q
  | cons next rest ih =>
    rw [List.forall_mem_cons] at sound nameable
    refine Host.Meets.bind ((meets_createQueue sound.1 nameable.1).mono ?_)
    rintro r n - ⟨rfl, length, queues⟩
    refine (ih sound.2 nameable.2 _).lasting.mono ?_
    rintro r k - lasting
    obtain ⟨runners, rfl, all⟩ := lasting k .refl
    have new : (k.queue? ⟨m.queues.length⟩).map (·.config) = some next.queueConfig := by
      rw [all.old _ (by rw [length]; exact Nat.lt_succ_self _), queues, if_pos rfl]
    refine ⟨⟨⟨m.queues.length⟩, next.weight⟩ :: runners, ?_, .cons ⟨new, rfl⟩ all.each, ?_, ?_⟩
    · rw [List.append_assoc, List.singleton_append]
    · rw [List.map_cons, all.new, length]
      rfl
    · intro q old
      rw [all.old q (by rw [length]; exact Nat.lt_succ_of_lt old), queues,
        if_neg (Nat.ne_of_lt old)]

/-- **The first name that holds a NUL makes the calling thread panic.** -/
theorem meets_setUpRunners_panics {entries : List RunnerEntry} {entry : RunnerEntry}
    (sound : ∀ r ∈ entries, r.queueConfig.check = .ok ())
    (first : entries.find? (fun r => !r.queueConfig.isNameable) = some entry)
    (made : List Runner) :
    (setUpRunners entries made).Meets (fun _ => True)
      (fun r _ => r = .error (.crashed (.thread entry.queueConfig.threadName))) m := by
  induction entries generalizing m made with
  | nil => cases first
  | cons next rest ih =>
    rw [List.forall_mem_cons] at sound
    cases nameable : next.queueConfig.isNameable with
    | true =>
      rw [List.find?_cons_of_neg (by rw [nameable]; nofun)] at first
      refine Host.Meets.bind ((meets_createQueue sound.1 nameable).mono ?_)
      rintro r n - ⟨rfl, -, -⟩
      exact ih sound.2 first _
    | false =>
      rw [List.find?_cons_of_pos (by rw [nameable]; rfl)] at first
      cases first
      unfold setUpRunners Host.createQueue
      rw [sound.1]
      dsimp only
      rw [if_neg (by rw [nameable]; nofun)]
      exact Host.meets_bind_pure (Hasher.dropQueues made) _ m

/-- Every worker can have a thread: no name holds a NUL (`QueueConfig.isNameable_iff`). -/
def Nameable (c : Configuration) : Prop :=
  ∀ r ∈ c.runners, r.queueConfig.isNameable

instance (c : Configuration) : Decidable c.Nameable :=
  inferInstanceAs (Decidable (∀ r ∈ c.runners, r.queueConfig.isNameable))

/-- The first runner whose worker can have no thread. -/
def unnameable? (c : Configuration) : Option RunnerEntry :=
  c.runners.find? fun r => !r.queueConfig.isNameable

variable {c : Configuration}

theorem exists_unnameable (h : ¬ c.Nameable) : ∃ entry, c.unnameable? = some entry := by
  refine Option.isSome_iff_exists.1 ?_
  unfold Nameable at h
  unfold unnameable?
  rw [List.find?_isSome]
  simpa using h

theorem buildRunners_of_check (accepted : c.check = .ok ()) :
    c.buildRunners = setUpRunners c.runners [] := by
  unfold buildRunners
  rw [accepted]

/-- The runners are known to the hasher by the names and weights of their entries. -/
theorem named_of_setUp {entries : List RunnerEntry} {runners : List Runner}
    (setUp : List.Forall₂ (SetUp n) entries runners) :
    Runner.named n runners = entries.map fun r => (r.name, r.weight) := by
  unfold Runner.named
  induction setUp with
  | nil => rfl
  | cons first _ ih =>
    rw [List.map_cons, List.map_cons, ih]
    rw [first.queueName, first.weight]

theorem known_of_setUp {entries : List RunnerEntry} {runners : List Runner}
    (setUp : List.Forall₂ (SetUp n) entries runners) :
    ∀ r ∈ runners, (n.queue? r.queue).isSome := by
  induction setUp with
  | nil => nofun
  | cons first _ ih =>
    rw [List.forall_mem_cons]
    obtain ⟨queue, found, -⟩ := Option.map_eq_some_iff.1 first.queue
    exact ⟨by rw [found]; rfl, ih⟩

theorem weights_of_setUp {entries : List RunnerEntry} {runners : List Runner}
    (setUp : List.Forall₂ (SetUp n) entries runners) :
    runners.map (·.weight) = entries.map (·.weight) := by
  induction setUp with
  | nil => rfl
  | cons first _ ih => rw [List.map_cons, List.map_cons, ih, first.weight]

/-- A hasher over runners that are set up for entries. -/
def assemble (a : Algorithm) (key : Bytes) (entries : List RunnerEntry) :
    Host (Except Error Hasher) := do
  match ← setUpRunners entries [] with
  | .error e => return .error e
  | .ok runners => do
    let hasher ← Hasher.create a runners key
    Hasher.dropQueues runners
    return hasher

theorem buildHasher_of_check (accepted : c.check = .ok ()) (fits : c.Fits a) :
    c.buildHasher = assemble a c.keyBytes c.runners := by
  unfold buildHasher assemble
  refine congr (congrArg _ (buildRunners_of_check accepted)) (funext fun r => ?_)
  cases r with
  | error e => rfl
  | ok runners => simp only [fits.algorithm]

-- What is known of the program of a configuration that is accepted is known of `assemble`. Kept
-- closed, it is not run as far as the table of names on the way there.
attribute [local irreducible] buildHasher

/-- **The hasher is made** when the runners are accepted, unless a device has no room. -/
theorem meets_assemble (accepted : a.checkKey key.length = .ok ()) {entries : List RunnerEntry}
    (sound : ∀ r ∈ entries, r.queueConfig.check = .ok ())
    (nameable : ∀ r ∈ entries, r.queueConfig.isNameable) :
    (assemble a key entries).Meets (fun _ => True) (fun r _ =>
      (∀ h, r = .ok h → h.algorithm = a ∧
        h.stations.map (·.runner.weight) = entries.map (·.weight) ∧
        Runner.check (entries.map fun r => (r.name, r.weight)) = .ok ()) ∧
      ∀ e, r = .error e →
        (∃ cause, Runner.check (entries.map fun r => (r.name, r.weight)) = .error cause ∧
          e = .rejected cause) ∨
        Runner.check (entries.map fun r => (r.name, r.weight)) = .ok () ∧ e.isOutOfMemory) m := by
  refine Host.Meets.bind ((meets_setUpRunners sound nameable []).mono ?_)
  rintro r n - ⟨runners, rfl, all⟩
  have setUp := all.each
  refine Host.Meets.bind (((Hasher.meets_create_takes a runners key).and
    (Hasher.meets_create_fails accepted (known_of_setUp setUp))).mono ?_)
  rintro r k - ⟨⟨makes, -⟩, fails⟩
  rw [named_of_setUp setUp] at makes fails
  refine Host.Meets.bind ((Host.meets_trivial _ k).mono fun _ _ _ _ _ _ => ⟨trivial, ?_, fails⟩)
  intro h made
  obtain ⟨algorithm, supplied, ok⟩ := makes h made
  refine ⟨algorithm, ?_, ok⟩
  rw [← weights_of_setUp setUp, ← supplied.made, List.map_map]
  rfl

/-! ## Building returns -/

/-- Setting up a queue leads along what a new queue leads along. -/
theorem always_createQueue {R : Machine → Machine → Prop} (flow : Flow R)
    (addQueue : ∀ m config, R m (m.addQueue config).2) (config : QueueConfig) :
    (Host.createQueue config).Always R := by
  unfold Host.createQueue
  split
  · exact flow.pure _
  · split
    · exact flow.map (flow.call fun m => addQueue m _) _
    · exact flow.pure _

/-- Setting up queues leads along what a new queue leads along, and one that is let go. -/
theorem always_setUpRunners {R : Machine → Machine → Prop} (giving : Giving R)
    (addQueue : ∀ m config, R m (m.addQueue config).2)
    (dropHandle : ∀ m q, R m (m.dropHandle q).2) (entries : List RunnerEntry)
    (made : List Runner) : (setUpRunners entries made).Always R := by
  have flow := giving.toFlow
  induction entries generalizing made with
  | nil => exact flow.pure _
  | cons next rest ih =>
    refine flow.bind (always_createQueue flow addQueue _) fun r => ?_
    cases r with
    | error e =>
      exact flow.bind (Hasher.always_dropQueues giving dropHandle made) fun _ => flow.pure _
    | ok queue => exact ih _

/-- A queue that is set up is drained, and those that were drained stay so. -/
theorem meets_createQueue_isDrained (config : QueueConfig) (m : Machine) :
    (Host.createQueue config).Meets (fun _ => True)
      (fun r n => m.StaysDrained n ∧ ∀ q, r = .ok q → n.isDrained q) m := by
  unfold Host.createQueue
  split
  · exact fun n later => ⟨trivial, flow_staysDrained.evolves later, nofun⟩
  · split
    · refine Host.meets_call_bind fun n first => ⟨trivial, fun k second => ⟨trivial, ?_, ?_⟩⟩
      · exact flow_staysDrained.trans (flow_staysDrained.evolves first) (flow_staysDrained.trans
          (n.steady_addQueue config).staysDrained (flow_staysDrained.evolves second))
      · rintro q made
        cases made
        exact flow_staysDrained.evolves second _ (n.isDrained_addQueue config)
    · exact fun n later => ⟨trivial, flow_staysDrained.evolves later, nofun⟩

theorem prompt_createQueue (config : QueueConfig) : (Host.createQueue config).Prompt := by
  unfold Host.createQueue
  split
  · exact Host.prompt_pure _
  · split
    · exact (Host.prompt_call _).map _
    · exact Host.prompt_pure _

/-- **Setting up queues returns**: nothing was submitted to those that may have to be let go. -/
theorem returns_setUpRunners (entries : List RunnerEntry) {made : List Runner}
    (drained : ∀ r ∈ made, m.isDrained r.queue) : (setUpRunners entries made).Returns m := by
  induction entries generalizing m made with
  | nil => trivial
  | cons next rest ih =>
    refine (prompt_createQueue _ m).bind (meets_createQueue_isDrained _ m) fun r n goal => ?_
    obtain ⟨stays, new⟩ := goal
    have drained := fun r mem => stays _ (drained r mem)
    cases r with
    | error e =>
      exact (Hasher.returns_dropQueues_of_isDrained drained).bind (Host.meets_trivial _ n)
        fun _ _ _ => trivial
    | ok queue =>
      refine ih fun r mem => ?_
      rcases List.mem_append.1 mem with old | last
      · exact drained r old
      · rw [List.mem_singleton.1 last]
        exact new queue rfl

theorem expects_addQueue (m : Machine) (config : QueueConfig) (h : m.Expects []) :
    (m.addQueue config).2.Expects [] :=
  have steady := m.steady_addQueue config
  h.steady steady (frees_of_steady steady rfl)

/-- **Building a hasher returns** where nothing holds the workers up. -/
theorem returns_assemble (h : m.Expects []) (a : Algorithm) (key : Bytes)
    (entries : List RunnerEntry) : (assemble a key entries).Returns m := by
  have keeps := always_setUpRunners (Expects.giving []) expects_addQueue
    (Expects.dropHandle []) entries [] m
  refine (returns_setUpRunners entries (List.forall_mem_nil _)).bind keeps fun r n kept => ?_
  have h := kept h
  cases r with
  | error e => trivial
  | ok runners =>
    refine (h.returns_create a runners key).bind (h.meets_create a runners key)
      fun r k goal => ?_
    exact (goal.1.returns_dropQueues runners).bind (Host.meets_trivial _ k) fun _ _ _ => trivial

/-! ## The two checks -/

theorem returns_buildHasher (accepted : c.check = .ok ()) {leases : List Lease}
    (leased : m.Leased leases) (free : m.Unhindered) : c.buildHasher.Returns m := by
  obtain ⟨⟨a, fits⟩, -⟩ := fits_of_check accepted
  have expects := (leased.expects free).of_subset (List.forall_mem_nil _)
  rw [buildHasher_of_check accepted fits]
  exact returns_assemble expects a c.keyBytes c.runners

/-- What comes of a configuration that is accepted, once each of its queues has a thread. -/
theorem outcome_of_buildHasher (accepted : c.check = .ok ()) (nameable : c.Nameable)
    {r : Except Error Hasher} (run : Host.Reaches (c.buildHasher, m) (.done r, n)) :
    c.Overflows ∧ r = .error (.rejected .noWeight) ∨
    Runner.check c.named = .ok () ∧
      ((∃ h, r = .ok h ∧ c.namedAlgorithm = .ok h.algorithm ∧
          h.stations.map (·.runner.weight) = c.runners.map (·.weight)) ∨
        ∃ e, r = .error e ∧ e.isOutOfMemory) := by
  obtain ⟨⟨a, fits⟩, checked⟩ := (check_eq_ok_iff c).1 accepted
  rw [buildHasher_of_check accepted fits] at run
  obtain ⟨makes, fails⟩ := (meets_assemble fits.key fits.queues nameable).goal_of_reaches run
  cases r with
  | ok h =>
    obtain ⟨algorithm, weights, ok⟩ := makes h rfl
    exact .inr ⟨ok, .inl ⟨h, rfl, by rw [algorithm, fits.algorithm], weights⟩⟩
  | error e =>
    rcases fails e rfl with ⟨cause, refused, rfl⟩ | ⟨ok, memory⟩
    · rcases checked with ok | overflows
      · cases ok.symm.trans refused
      · cases overflows.check_named.symm.trans refused
        exact .inl ⟨overflows, rfl⟩
    · exact .inr ⟨ok, .inr ⟨e, rfl, memory⟩⟩

/-- A name that holds a NUL is met before the hasher is made. -/
theorem panic_of_buildHasher (accepted : c.check = .ok ()) {entry : RunnerEntry}
    (first : c.unnameable? = some entry) {r : Except Error Hasher}
    (run : Host.Reaches (c.buildHasher, m) (.done r, n)) :
    r = .error (.crashed (.thread entry.queueConfig.threadName)) := by
  obtain ⟨⟨a, fits⟩, -⟩ := fits_of_check accepted
  rw [buildHasher_of_check accepted fits] at run
  suffices panics : (assemble a c.keyBytes c.runners).Meets (fun _ => True)
      (fun r _ => r = .error (.crashed (.thread entry.queueConfig.threadName))) m from
    panics.goal_of_reaches run
  refine Host.Meets.bind ((meets_setUpRunners_panics fits.queues first []).mono ?_)
  rintro r n - rfl
  exact fun _ _ => ⟨trivial, rfl⟩

/-- **The two checks agree but for sums that are not finite and for names that hold a NUL.** A
configuration is accepted when its algorithm is known and takes the key, no two runners have one
name, every queue can be set up, and the runners would do for a hasher or have weights whose sum is
not finite. Once it is accepted, both programs return. Where no name holds a NUL, a runner is set up
for each entry in order, whatever the workers do, and the hasher is refused for want of device
memory, or because the sum is not finite, and for nothing else. Otherwise the calling thread panics
at the first entry whose name holds one. -/
theorem check_agrees (c : Configuration) (m : Machine) :
    (c.check = .ok () ↔ (∃ a, c.Fits a) ∧ (Runner.check c.named = .ok () ∨ c.Overflows)) ∧
    (c.Overflows → Runner.check c.named = .error .noWeight) ∧
    (c.check = .ok () →
      c.buildRunners.Returns m ∧
      (∀ leases, m.Leased leases → m.Unhindered → c.buildHasher.Returns m) ∧
      (c.Nameable →
        (∀ r n, Host.Reaches (c.buildRunners, m) (.done r, n) →
          ∃ runners, r = .ok runners ∧ AllSetUp m c.runners runners n) ∧
        ∀ r n, Host.Reaches (c.buildHasher, m) (.done r, n) →
          c.Overflows ∧ r = .error (.rejected .noWeight) ∨
          Runner.check c.named = .ok () ∧
            ((∃ h, r = .ok h ∧ c.namedAlgorithm = .ok h.algorithm ∧
                h.stations.map (·.runner.weight) = c.runners.map (·.weight)) ∨
              ∃ e, r = .error e ∧ e.isOutOfMemory)) ∧
      (¬ c.Nameable → ∃ entry ∈ c.runners, c.unnameable? = some entry ∧
        (∀ r n, Host.Reaches (c.buildRunners, m) (.done r, n) →
          r = .error (.crashed (.thread entry.queueConfig.threadName))) ∧
        ∀ r n, Host.Reaches (c.buildHasher, m) (.done r, n) →
          r = .error (.crashed (.thread entry.queueConfig.threadName)))) := by
  refine ⟨check_eq_ok_iff c, Overflows.check_named, fun accepted => ?_⟩
  obtain ⟨⟨a, fits⟩, -⟩ := fits_of_check accepted
  have builds := buildRunners_of_check accepted
  refine ⟨?returns, fun _ => returns_buildHasher accepted, fun nameable => ⟨?runners,
    fun _ _ => outcome_of_buildHasher accepted nameable⟩, fun unnameable => ?panics⟩
  case returns =>
    rw [builds]
    exact returns_setUpRunners c.runners (List.forall_mem_nil _)
  case runners =>
    intro r n run
    rw [builds] at run
    exact (meets_setUpRunners fits.queues nameable []).goal_of_reaches run
  case panics =>
    obtain ⟨entry, first⟩ := exists_unnameable unnameable
    refine ⟨entry, List.mem_of_find?_eq_some first, first, fun r n run => ?_,
      fun _ _ => panic_of_buildHasher accepted first⟩
    rw [builds] at run
    exact (meets_setUpRunners_panics fits.queues first []).goal_of_reaches run

/-- Two weights that are finite, with a sum that is not. -/
def heavy : Configuration :=
  ⟨"sha256", none, [⟨"a", .cpu, 1e308, none⟩, ⟨"b", .cpu, 1e308, none⟩]⟩

/-- A name that holds a NUL. -/
def cleft : Configuration :=
  ⟨"sha256", none, [⟨"a\x00b", .cpu, 1, none⟩]⟩

theorem eq_ok_of_isOk (isOk : c.check.isOk = true) : c.check = .ok () := by
  cases checked : c.check with
  | error e => rw [checked] at isOk; cases isOk
  | ok => rfl

/-- **Two configurations are accepted and never get a hasher**, whatever the devices have room for:
the weights of one have no finite sum, and one has a name that holds a NUL, at which the calling
thread panics before there is a single runner. -/
theorem check_accepts_too_much :
    (heavy.check = .ok () ∧ Runner.check heavy.named = .error .noWeight ∧
      (∃ r n, Host.Reaches (heavy.buildHasher, empty) (.done r, n)) ∧
      ∀ r n, Host.Reaches (heavy.buildHasher, empty) (.done r, n) →
        r = .error (.rejected .noWeight)) ∧
    cleft.check = .ok () ∧ Runner.check cleft.named = .ok () ∧
      (∃ r n, Host.Reaches (cleft.buildRunners, empty) (.done r, n)) ∧
      ∀ r n, Host.Reaches (cleft.buildRunners, empty) (.done r, n) →
        r = .error (.crashed (.thread "warp-device-a\x00b")) := by
  refine ⟨?overflow, ?panic⟩
  case overflow =>
    have accepted : heavy.check = .ok () := eq_ok_of_isOk (by decide +kernel)
    have overflows : heavy.Overflows := by
      have fit : heavy.runners.all (fun r => Runner.isFitWeight r.weight) = true := by
        decide +kernel
      have positive : decide (heavy.total ≤ 0) = false := by decide +kernel
      exact ⟨nofun, List.all_eq_true.1 fit, of_decide_eq_false positive, by decide +kernel⟩
    refine ⟨accepted, overflows.check_named,
      (returns_buildHasher accepted leased_empty ⟨nofun, fun _ => rfl, nofun⟩).exists_reaches,
      fun r n run => ?_⟩
    rcases outcome_of_buildHasher accepted (by decide) run with ⟨-, answer⟩ | ⟨ok, -⟩
    · exact answer
    · cases overflows.check_named.symm.trans ok
  case panic =>
    have accepted : cleft.check = .ok () := eq_ok_of_isOk (by decide +kernel)
    have first : cleft.unnameable? = some ⟨"a\x00b", .cpu, 1, none⟩ := rfl
    obtain ⟨⟨a, fits⟩, -⟩ := fits_of_check accepted
    rw [buildRunners_of_check accepted]
    refine ⟨accepted, rfl,
      (returns_setUpRunners cleft.runners (List.forall_mem_nil _)).exists_reaches,
      fun r n run => (meets_setUpRunners_panics fits.queues first []).goal_of_reaches run⟩

end Configuration

end BatchDigest
