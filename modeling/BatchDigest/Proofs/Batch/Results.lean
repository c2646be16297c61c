import BatchDigest.Proofs.Batch.Hashing

/-!
# Batches from end to end

A hasher that was made for an algorithm, runners and a key hashes a batch, and its handle is joined.
Whatever the workers do meanwhile, the output holds the digests of every slice that fits and is
untouched elsewhere, and the join answers with the fault of the first slice that does not fit. The
machine that the hasher is made on may be any that calls and workers lead to, as long as the host
holds the queues and nothing else is about to write into the output.
-/

namespace BatchDigest

open Machine

/-! ## Contracts for accepted algorithms and keys -/

theorem Algorithm.accepted_of_checkKey {a : Algorithm} {length : Nat}
    (accepted : a.checkKey length = .ok ()) : a.isSupported ∧ length ≤ Algorithm.longestKey := by
  unfold checkKey check at accepted
  cases supported : a.isSupported with
  | false =>
    rw [supported] at accepted
    cases accepted
  | true =>
    refine ⟨rfl, Nat.le_of_not_lt fun long => ?_⟩
    have some : length ≠ 0 := by omega
    rw [supported] at accepted
    simp only [if_true, bind, Except.bind, if_neg some, if_pos long] at accepted
    split at accepted <;> cases accepted

/-- What is accepted can be contracted for. -/
theorem Contract.exists_of_accepted {a : Algorithm} {key : Bytes}
    (accepted : a.checkKey key.length = .ok ()) (batch : Batch) (initial : Bytes)
    (device : QueueId → String) :
    ∃ k : Contract, k.algorithm = a ∧ k.batch = batch ∧ k.initial = initial ∧ k.device = device ∧
      a.tableBlob key = .ok k.blob ∧ ∀ record, a.digest key record = .ok (k.digest record) := by
  obtain ⟨supported, short⟩ := Algorithm.accepted_of_checkKey accepted
  obtain ⟨blob, tables, loads⟩ := Algorithm.exists_loads supported short
  have digest := fun record => Classical.choose_spec (loads.digest record)
  exact ⟨{ algorithm := a, batch := batch, blob := blob, tables := tables,
           digest := fun record => Classical.choose (loads.digest record), initial := initial,
           device := device, loaded := loads.load, digests := fun record => (digest record).1,
           sizes := fun record => (digest record).2.2,
           positive := Algorithm.digestSize_ne_zero supported },
    rfl, rfl, rfl, rfl, loads.staged, fun record => (digest record).2.1⟩

namespace Contract

variable {k : Contract} {queues : List QueueId} {m n : Machine}

/-! ## Making a hasher -/

/-- Nothing but new memories is touched when a hasher is made, whatever comes of it. -/
theorem meets_creation {key : Bytes} (staged : k.algorithm.tableBlob key = .ok k.blob)
    {runners : List Runner} (mem : ∀ r ∈ runners, r.queue ∈ queues)
    (serving : m.Serving queues k.device) :
    (Hasher.create k.algorithm runners key).Meets (fun _ => True)
      (fun r n => m.Passes (.new m) n ∧ ∀ h, r = .ok h → h.algorithm = k.algorithm ∧
        h.stations.map (·.runner) = runners ∧ ∀ station ∈ h.stations, k.Stationed queues n station)
      m := by
  unfold Hasher.create
  split
  · exact fun n first => ⟨trivial, .of_evolves first, nofun⟩
  · refine Host.meets_ask_bind fun n first => ⟨trivial, ?_⟩
    have serving' := serving.evolves first
    split
    · exact fun n' second => ⟨trivial, .of_evolves (first.trans second), nofun⟩
    · refine Host.Meets.bind ((meets_stageAll staged runners mem serving' [] nofun).mono ?_)
      rintro r n' - ⟨passes, staged⟩
      have more := (Passes.of_evolves (e := .nothing) first).drifts.length_memories serving
      have opening : m.Passes (.new m) n' := (Passes.of_evolves first).trans
        (passes.mono (fun _ new => Nat.le_trans more new) nofun)
      cases r with
      | error e => exact fun n'' second => ⟨trivial, opening.evolves second, nofun⟩
      | ok stations =>
        obtain ⟨list, ready⟩ := staged stations rfl
        refine Host.Meets.bind ((meets_holdQueues runners).mono ?_)
        rintro - l - held l' second
        have later := held.evolves second
        refine ⟨trivial, opening.trans (later.mono nofun nofun), fun h answer => ?_⟩
        obtain rfl := Except.ok.inj answer
        refine ⟨rfl, list, fun station mem => ?_⟩
        exact (ready station mem).passes (passes.serving serving') later nofun

theorem meets_create {key : Bytes} (staged : k.algorithm.tableBlob key = .ok k.blob)
    {runners : List Runner} (mem : ∀ r ∈ runners, r.queue ∈ queues)
    (serving : m.Serving queues k.device) :
    (Hasher.create k.algorithm runners key).Meets (fun _ => True)
      (fun r n => ∀ h, r = .ok h → m.Passes (.new m) n ∧ h.algorithm = k.algorithm ∧
        h.stations.map (·.runner) = runners ∧ ∀ station ∈ h.stations, k.Stationed queues n station)
      m :=
  (meets_creation staged mem serving).mono fun _ _ _ goal h answer => ⟨goal.1, goal.2 h answer⟩

/-! ## Dispatching a batch -/

/-- The shares that a hasher makes of a batch are its slices with records. -/
theorem shared_of_shares {h : Hasher} {count : Nat} {all : List Share} {device : Nat → String}
    (shares : all.map (fun share => (share.queue, share.slice)) =
      (h.shares count).map fun next => (next.1.runner.queue, next.2))
    (names : ∀ (i : Nat) station, h.stations[i]? = some station →
      k.device station.runner.queue = device i) :
    Shared (Slice.partition (h.stations.map (·.runner.weight)) count) device k.device all := by
  refine ⟨?_, ?_, ?_⟩
  · intro share mem
    have mem' := List.mem_map_of_mem (f := fun share : Share => (share.queue, share.slice)) mem
    rw [shares] at mem'
    obtain ⟨next, mem', same⟩ := List.mem_map.1 mem'
    obtain ⟨queue, slice⟩ := Prod.mk.inj same
    obtain ⟨filled, i, station, at'⟩ := mem_shares.1 mem'
    rw [← queue, ← slice, Slice.runner_of_partition at']
    exact ⟨List.mem_of_getElem? at', filled, names i _ station⟩
  · intro s mem filled
    obtain ⟨i, at'⟩ := List.mem_iff_getElem?.1 mem
    have inside : i < h.stations.length := by
      have lt := (List.getElem?_eq_some_iff.1 at').1
      rwa [Slice.length_partition, List.length_map] at lt
    have share : (h.stations[i], s) ∈ h.shares count :=
      mem_shares.2 ⟨filled, i, List.getElem?_eq_getElem inside, at'⟩
    have mem' := List.mem_map_of_mem
      (f := fun next : Station × Slice => (next.1.runner.queue, next.2)) share
    rw [← shares] at mem'
    obtain ⟨share, flying, same⟩ := List.mem_map.1 mem'
    exact ⟨share, flying, (Prod.mk.inj same).2⟩
  · have slices : all.map (·.slice) = (h.shares count).map (·.2) := by
      have second := congrArg (List.map Prod.snd) shares
      rw [List.map_map, List.map_map] at second
      exact second
    have ordered := (Slice.ordered_partition _ count).sublist (sublist_shares h count)
    rw [← slices, List.pairwise_map] at ordered
    exact ordered

/-- A batch is dispatched share by share. -/
theorem meets_hash {h : Hasher} (serving : m.Serving queues k.device)
    (ready : ∀ station ∈ h.stations, k.Stationed queues m station)
    (whole : m.Stands (.bytes k.batch.output fun _ => True) (k.Untouched fun _ => True))
    (size : k.batch.count ≤ Size.largest) {device : Nat → String}
    (names : ∀ (i : Nat) station, h.stations[i]? = some station →
      k.device station.runner.queue = device i) :
    (h.hash k.batch).Meets (fun _ => True) (fun r n => ∀ handle, r = .ok handle →
      ∃ all : List Share, handle.items = all.map (·.item) ∧
        Shared (Slice.partition (h.stations.map (·.runner.weight)) k.batch.count) device k.device
          all ∧ k.Flight queues n all) m := by
  refine (meets_hash_flight serving ready whole.holds size).mono ?_
  rintro r n - outcome handle rfl
  obtain ⟨all, items, shares, -, flight⟩ := outcome
  refine ⟨all.map Share.of, ?_, shared_of_shares ?_ names, flight whole⟩
  · rw [items, List.map_map]
    rfl
  · rw [← shares, List.map_map, List.map_map]
    rfl

/-- A joined batch is hashed and stays so, whatever is let go of, and the join tells the first fault
of its shares. -/
private theorem Flight.meets_join {shares : List Share} {handle : Handle} {key : Bytes}
    {slices : List Slice} {device : Nat → String} (flight : k.Flight queues m shares)
    (items : handle.items = shares.map (·.item))
    (keyed : ∀ record, k.algorithm.digest key record = .ok (k.digest record))
    (shared : Shared slices device k.device shares) :
    handle.join.Meets (fun _ => True) (fun fault? n =>
      (∀ l, n.Drifts .nothing l →
        k.batch.Hashed k.algorithm key slices k.initial (l.contents.buffer k.batch.output)) ∧
      fault? = shares.findSome? fun share =>
        k.batch.fault? share.slice k.size k.initial.length (k.device share.queue)) m := by
  refine (handle.meets_join flight.base).mono ?_
  rintro fault? n - ⟨passes, resolved, rfl⟩
  have flight := flight.calm passes
  rw [items] at resolved ⊢
  have ended : ∀ share ∈ shares, n.isResolved share.item.event :=
    fun share mem => resolved _ (List.mem_map_of_mem mem)
  refine ⟨fun l later => ?_, ?_⟩
  · have flight' := flight.drifts later nofun fun _ => id
    have settled := (flight'.settled fun share mem =>
      later.isResolved flight.base (ended share mem)).1
    exact hashed keyed (fun share mem => (shared.mine share mem).1) shared.every settled
      flight'.rest.now
  · rw [List.map_map]
    exact (flight.settled ended).2

theorem Flight.meets_wait {shares : List Share} {handle : Handle} {key : Bytes}
    {slices : List Slice} {device : Nat → String} (flight : k.Flight queues m shares)
    (items : handle.items = shares.map (·.item))
    (keyed : ∀ record, k.algorithm.digest key record = .ok (k.digest record))
    (shared : Shared slices device k.device shares) :
    handle.wait.Meets (fun _ => True) (fun _ n =>
      k.batch.Hashed k.algorithm key slices k.initial (n.contents.buffer k.batch.output)) m :=
  Host.Meets.bind ((flight.meets_join items keyed shared).mono fun _ _ _ goal l later =>
    ⟨trivial, goal.1 l (Passes.of_evolves later).drifts⟩)

/-- What a joined batch left stays when more is let go of. -/
theorem Flight.meets_waitAndThrow_drifts {shares : List Share} {handle : Handle} {key : Bytes}
    {slices : List Slice} {device : Nat → String} (flight : k.Flight queues m shares)
    (items : handle.items = shares.map (·.item))
    (keyed : ∀ record, k.algorithm.digest key record = .ok (k.digest record))
    (shared : Shared slices device k.device shares) :
    handle.waitAndThrow.Meets (fun _ => True) (fun answer n =>
      (∀ l, n.Drifts .nothing l →
        k.batch.Hashed k.algorithm key slices k.initial (l.contents.buffer k.batch.output)) ∧
      k.batch.Reported k.size k.initial.length slices device answer) m := by
  refine Host.Meets.bind ((flight.meets_join items keyed shared).mono fun fault? n _ goal => ?_)
  obtain ⟨hashed, told⟩ := goal
  have after : ∀ l, n.Evolves l → ∀ l', l.Drifts .nothing l' → _ :=
    fun l later l' drifts => hashed l' ((Passes.of_evolves later).drifts.trans drifts)
  cases fault? with
  | none =>
    refine fun l later => ⟨trivial, after l later, Contract.reported shared ?_⟩
    rw [← told]
  | some fault =>
    refine fun l later => ⟨trivial, after l later, Contract.reported shared ?_⟩
    rw [← told]

theorem Flight.meets_waitAndThrow {shares : List Share} {handle : Handle} {key : Bytes}
    {slices : List Slice} {device : Nat → String} (flight : k.Flight queues m shares)
    (items : handle.items = shares.map (·.item))
    (keyed : ∀ record, k.algorithm.digest key record = .ok (k.digest record))
    (shared : Shared slices device k.device shares) :
    handle.waitAndThrow.Meets (fun _ => True) (fun answer n =>
      k.batch.Hashed k.algorithm key slices k.initial (n.contents.buffer k.batch.output) ∧
      k.batch.Reported k.size k.initial.length slices device answer) m :=
  (flight.meets_waitAndThrow_drifts items keyed shared).mono fun _ n _ goal =>
    ⟨goal.1 n .refl, goal.2⟩

end Contract

/-! ## From end to end -/

/-- The slices of a batch. -/
def Batch.slices (b : Batch) (runners : List Runner) : List Slice :=
  Slice.partition (runners.map (·.weight)) b.count

/-- The name of the queue of a runner, by the number of the runner. -/
def Machine.runnerName (m : Machine) (runners : List Runner) (i : Nat) : String :=
  (runners[i]?.map fun r => m.queueName r.queue).getD ""

/-- The host holds the queues of runners by handles that no job carries, and no pending job writes
into the output. -/
structure Machine.Admits (m : Machine) (runners : List Runner) (output : BufferId) : Prop where
  held : ∀ r ∈ runners, 0 < m.handles r.queue
  kept : ∀ r ∈ runners, ∀ q, r.queue ∉ m.held q
  found : m.Holds (.buffer output)
  alone : ∀ q, ∀ job ∈ m.pending q, .buffer output ∉ job.work.writes

namespace Machine.Admits

variable {m : Machine} {runners : List Runner} {output : BufferId}

theorem serving {t : Trace} (run : Trace.Reaches .start t)
    (admits : t.machine.Admits runners output) :
    t.machine.Serving (runners.map (·.queue)) t.machine.queueName := by
  refine Trace.serving_of_held run ?_ ?_
  · simpa using admits.held
  · simpa using admits.kept

/-- The whole output stands untouched. -/
theorem stands {k : Contract} (admits : m.Admits runners k.batch.output)
    (initial : k.initial = m.contents.buffer k.batch.output) :
    m.Stands (.bytes k.batch.output fun _ => True) (k.Untouched fun _ => True) :=
  k.whole_of_alone admits.found admits.alone initial

end Machine.Admits

/-- A hasher is made only for what was accepted. -/
theorem Hasher.accepted_of_create {a : Algorithm} {runners : List Runner} {key : Bytes}
    {h : Hasher} {m made : Machine}
    (creation : Host.Reaches (Hasher.create a runners key, m) (.done (.ok h), made)) :
    a.checkKey key.length = .ok () := by
  have meets : (Hasher.create a runners key).Meets (fun _ => True)
      (fun r _ => ∀ h, r = .ok h → a.checkKey key.length = .ok ()) m := by
    unfold Hasher.create
    split
    · exact fun n _ => ⟨trivial, fun _ answer => nomatch answer⟩
    next accepted => exact (Host.meets_trivial _ m).mono fun _ _ _ _ _ _ => accepted
  exact meets.goal_of_reaches creation h rfl

/-- **What a batch comes to**, whatever the workers do meanwhile. -/
theorem Hasher.hash_joined {t : Trace} (run : Trace.Reaches .start t) {a : Algorithm}
    {runners : List Runner} {key : Bytes} {b : Batch} (admits : t.machine.Admits runners b.output)
    (size : b.count ≤ Size.largest) {h : Hasher} {made dispatched : Machine}
    (creation : Host.Reaches (Hasher.create a runners key, t.machine) (.done (.ok h), made))
    {handle : Handle}
    (hashing : Host.Reaches (h.hash b, made) (.done (.ok handle), dispatched)) :
    (∀ joined, Host.Reaches (handle.wait, dispatched) (.done (), joined) →
      b.Hashed a key (b.slices runners) (t.machine.contents.buffer b.output)
        (joined.contents.buffer b.output)) ∧
    ∀ answer joined, Host.Reaches (handle.waitAndThrow, dispatched) (.done answer, joined) →
      b.Hashed a key (b.slices runners) (t.machine.contents.buffer b.output)
        (joined.contents.buffer b.output) ∧
      b.Reported a.digestSize (t.machine.contents.buffer b.output).length (b.slices runners)
        (t.machine.runnerName runners) answer := by
  have accepted := Hasher.accepted_of_create creation
  obtain ⟨k, rfl, rfl, initial, device, staged, keyed⟩ := Contract.exists_of_accepted accepted b
    (t.machine.contents.buffer b.output) t.machine.queueName
  have mem : ∀ r ∈ runners, r.queue ∈ runners.map (·.queue) := fun r => List.mem_map_of_mem
  have serving : t.machine.Serving (runners.map (·.queue)) k.device := by
    rw [device]
    exact admits.serving run
  -- First the hasher: its stations serve the runners, in their order.
  obtain ⟨passes, algorithm, stations, ready⟩ :=
    (Contract.meets_create staged mem serving).goal_of_reaches creation h rfl
  have weights : h.stations.map (·.runner.weight) = runners.map (·.weight) := by
    rw [← stations, List.map_map]
    rfl
  have names : ∀ (i : Nat) station, h.stations[i]? = some station →
      k.device station.runner.queue = t.machine.runnerName runners i := by
    intro i station at'
    unfold Machine.runnerName
    rw [← stations, List.getElem?_map, at', device]
    rfl
  -- Then the batch: its shares are in flight, and nobody else writes into the output.
  have whole := (admits.stands initial).passes serving passes fun _ _ => id
  obtain ⟨all, items, shared, flight⟩ := (Contract.meets_hash (passes.serving serving) ready whole
    size names).goal_of_reaches hashing handle rfl
  rw [weights] at shared
  rw [← initial]
  -- And then either way to join.
  constructor
  · intro joined join
    exact (flight.meets_wait items keyed shared).goal_of_reaches join
  · intro answer joined join
    exact (flight.meets_waitAndThrow items keyed shared).goal_of_reaches join

/-! Two runners on one queue share two records, and the output has room for one digest. -/

private def evenRunners : List Runner :=
  [⟨⟨0⟩, 1⟩, ⟨⟨0⟩, 1⟩]

private def halfFitting : Batch :=
  ⟨[1, 2], 1, ⟨0⟩, 2⟩

private def oneOutput : Trace :=
  (Trace.start.call (.createQueue ⟨"left", .cpu, none⟩)).call (.createBuffer (Bytes.zeros 16))

/-- Whether the batch is hashed and joined when the workers go as far as they can at each wait. -/
private def hashesAndJoins : Bool :=
  match (Hasher.create .md5 evenRunners []).run oneOutput.machine with
  | some (.ok h, made) =>
    match (h.hash halfFitting).run made with
    | some (.ok handle, dispatched) => (handle.waitAndThrow.run dispatched).isSome
    | _ => false
  | _ => false

/-- The first record is hashed, and the join reports that the second one does not fit. -/
theorem Hasher.hash_joined_halves : ∃ h made handle dispatched answer joined,
    Host.Reaches (Hasher.create .md5 evenRunners [], oneOutput.machine) (.done (.ok h), made) ∧
    Host.Reaches (h.hash halfFitting, made) (.done (.ok handle), dispatched) ∧
    Host.Reaches (handle.waitAndThrow, dispatched) (.done answer, joined) ∧
    halfFitting.Hashed .md5 [] (halfFitting.slices evenRunners) (Bytes.zeros 16)
      (joined.contents.buffer ⟨0⟩) ∧
    halfFitting.Reported 16 16 (halfFitting.slices evenRunners)
      (oneOutput.machine.runnerName evenRunners) answer := by
  have run : Trace.Reaches .start oneOutput :=
    ((Trace.Reaches.refl _).step (.call _ (.createQueue _) trivial)).step
      (.call _ (.createBuffer _) trivial)
  have idle : ∀ q, oneOutput.machine.pending q = [] := by
    rintro ⟨_ | i⟩ <;> rfl
  have admits : oneOutput.machine.Admits evenRunners halfFitting.output := by
    refine ⟨?_, ?_, Nat.one_pos, ?_⟩
    · intro r mem
      rcases List.mem_cons.1 mem with rfl | mem
      · exact Nat.one_pos
      · rw [List.mem_singleton.1 mem]
        exact Nat.one_pos
    · rintro r _ ⟨_ | i⟩ <;> exact List.not_mem_nil
    · intro q job mem
      rw [idle] at mem
      cases mem
  have evaluated : hashesAndJoins = true := by decide +kernel
  unfold hashesAndJoins at evaluated
  split at evaluated
  next h made creation =>
    split at evaluated
    next handle dispatched hashing =>
      obtain ⟨⟨answer, joined⟩, joining⟩ := Option.isSome_iff_exists.1 evaluated
      have creation := Host.reaches_of_run creation
      have hashing := Host.reaches_of_run hashing
      have joining := Host.reaches_of_run joining
      have result := (Hasher.hash_joined run admits (by decide) creation hashing).2 _ _ joining
      exact ⟨h, made, handle, dispatched, answer, joined, creation, hashing, joining, result⟩
    next => cases evaluated
  next => cases evaluated

end BatchDigest
