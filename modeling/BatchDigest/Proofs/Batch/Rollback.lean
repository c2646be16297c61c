import BatchDigest.Proofs.Batch.Writers

/-!
# Batches that cannot be dispatched

A batch is dispatched share by share, and a share may find no room in its queue. Then the shares
before it are joined, their memory is given back, and the batch fails: it is out of memory at the
first demand that did not fit, ledgers have what they had, no job is left behind, and of the output
only the slices of the joined shares were written (`Desk.hash_rolls_back`).
-/

namespace BatchDigest

open Machine

/-- The same ledger after allocations that were all given back. -/
structure Ledger.Restored (l after : Ledger) : Prop where
  live : after.live = l.live
  used : after.used = l.used
  liveAllocations : after.stats.liveAllocations = l.stats.liveAllocations
  liveBytes : after.stats.liveBytes = l.stats.liveBytes
  turnover : ∃ more, after.stats.allocations = l.stats.allocations + more ∧
    after.stats.frees = l.stats.frees + more

/-- A balanced ledger is restored when its entries are the same again. -/
theorem Ledger.Balanced.restored {l after : Ledger} (balanced : l.Balanced)
    (balanced' : after.Balanced) (continues : l.Continues after) (live : after.live = l.live) :
    l.Restored after := by
  have nextId := continues.nextId
  rw [balanced.nextId, balanced'.nextId] at nextId
  have turnover := balanced.turnover
  have turnover' := balanced'.turnover
  rw [live] at turnover'
  refine ⟨live, ?_, ?_, ?_, after.stats.allocations - l.stats.allocations, by omega, by omega⟩
  · rw [balanced.used, balanced'.used, live]
  · rw [balanced.liveAllocations, balanced'.liveAllocations, live]
  · rw [balanced.liveBytes, balanced'.liveBytes, live]

/-- **A call that leaves the leases as they were restores all ledgers.** -/
theorem Machine.Leased.restored {m n : Machine} {leases : List Lease} (leased : m.Leased leases)
    (left : n.Leased leases) (stocked : m.Stocked) (keeps : Keeps Ledger.Continues m n)
    {q : QueueId} {l : Ledger} (found : m.ledger? q = some l) :
    ∃ l', n.ledger? q = some l' ∧ l.Restored l' := by
  obtain ⟨l', found', continues⟩ := keeps.ledger q l found
  have stocked' := keeps.stocked stocked
  have same : Keeps Ledger.Continues m m := (flow_sameBooks.refl m).keeps Ledger.course_continues
  have live := Leased.live_eq left leased stocked' stocked keeps same
    (fun lease mem id => leased.isSome_memory? mem) found' found
  exact ⟨l', found', (stocked.balanced q l found).restored (stocked'.balanced q l' found')
    continues live⟩

/-! ## Out of memory -/

/-- No share of a batch demands nothing. -/
theorem Batch.length_demands {b : Batch} {share : Station × Slice} (filled : 0 < share.2.count)
    (size : share.1.tables.algorithm.digestSize ≠ 0) {d : Demand} (mem : d ∈ b.demands share) :
    d.length ≠ 0 := by
  simp only [Batch.demands, List.mem_cons, List.not_mem_nil, or_false] at mem
  rcases mem with rfl | rfl
  · show max _ 1 ≠ 0
    exact Nat.pos_iff_ne_zero.1 (Nat.lt_of_lt_of_le Nat.one_pos (Nat.le_max_right _ 1))
  · have some : 0 < share.1.tables.algorithm.digestSize * share.2.count :=
      Nat.mul_pos (Nat.pos_of_ne_zero size) filled
    have word : 0 < Size.largest := by decide
    show min _ Size.largest ≠ 0
    exact Nat.pos_iff_ne_zero.1 (Nat.lt_min.2 ⟨some, word⟩)

/-- A batch is out of memory at the first demand that does not fit after those before it. -/
structure Batch.Lacks (b : Batch) (m : Machine) (done : List (Station × Slice))
    (next : Station × Slice) (before : List Demand) (d : Demand) (l : Ledger) (e : Error) :
    Prop where
  asked : ∃ after, b.demands next = before ++ d :: after
  found : m.ledger? next.1.runner.queue = some l
  affords : m.Affords (done.flatMap b.demands ++ before)
  misfit : ¬ l.FitsAfter
    (Demand.bytes (done.flatMap b.demands ++ before) next.1.runner.queue) d.length
  answer : e = .device (.outOfMemory (m.queueName next.1.runner.queue) d.length
    (l.limit - (l.used + Demand.bytes (done.flatMap b.demands ++ before) next.1.runner.queue)))

/-- **A hasher that is refused a demand is out of memory there.** -/
theorem Maker.Made.lacks {maker : Maker} {m : Machine} (made : maker.Made m)
    (labelled : m.Labelled) (words : ∀ q l, m.ledger? q = some l → l.limit ≤ Size.largest)
    {b : Batch} {done : List ((Station × Slice) × BatchItem)} {next : Station × Slice}
    (mem : next ∈ maker.hasher.shares b.count) {e : DeviceError}
    (refused : Hasher.Refused b m done next e) :
    ∃ before d l, b.Lacks m (done.map (·.1)) next before d l (.device e) := by
  have filled := (Contract.mem_shares.1 mem).1
  have station : next.1 ∈ maker.hasher.stations := (List.of_mem_zip (List.mem_filter.1 mem).1).1
  obtain ⟨l, found⟩ := Option.isSome_iff_exists.1 (made.ledgers _ station)
  obtain ⟨before, d, after, asked, affords, l', found', misfit, told⟩ :=
    refused ⟨l, found, words _ l found⟩
  have size : next.1.tables.algorithm.digestSize ≠ 0 := by
    rw [made.algorithm _ station]
    exact Algorithm.digestSize_ne_zero (Algorithm.accepted_of_checkKey made.accepted).1
  have inside : d ∈ b.demands next := by
    rw [asked]
    exact List.mem_append_right _ List.mem_cons_self
  have queue := Batch.queue_of_mem_demands inside
  have some := Batch.length_demands filled size inside
  rw [queue, found] at found'
  cases found'
  rw [queue] at misfit told
  rw [if_neg some, labelled _ l found] at told
  exact ⟨before, d, l, ⟨after, asked⟩, found, affords, misfit, congrArg Error.device told⟩

/-! ## Rolling back -/

namespace Desk

/-- What a batch comes to that fails at one of its shares. -/
structure RolledBack (s : Desk) (maker : Maker) (b : Batch) (done : List (Station × Slice))
    (next : Station × Slice) (e : Error) (n : Machine) : Prop where
  /-- The share did not get its memory. -/
  lacks : ∃ before d l, b.Lacks s.machine done next before d l e
  /-- What was allocated was given back. -/
  ledgers : ∀ q l, s.machine.ledger? q = some l → ∃ l', n.ledger? q = some l' ∧ l.Restored l'
  /-- The jobs that were put into queues are over, and so are all new events. -/
  jobs : ∀ q, ∀ job ∈ n.pending q, job ∈ s.machine.pending q
  events : ∀ event : EventId, s.machine.events.length ≤ event.index →
    event.index < n.events.length → n.isResolved event
  /-- The slices before it that fit are hashed, and nothing else was written. -/
  output : b.Hashed maker.algorithm maker.key (done.map (·.2))
    (s.machine.contents.buffer b.output) (n.contents.buffer b.output)

variable {s : Desk}

/-- **A batch that cannot be dispatched is rolled back**, whatever else is in flight, as long as
that writes elsewhere. -/
theorem hash_rolls_back {t : Trace} (run : Trace.Reaches .start t)
    (none : t.machine.memories = []) (carefree : t.machine.Carefree)
    (traffic : Traffic t.machine s)
    (words : ∀ q l, s.machine.ledger? q = some l → l.limit ≤ Size.largest) {maker : Maker}
    (mem : maker ∈ s.makers) {b : Batch} (found : s.machine.Holds (.buffer b.output))
    (size : b.count ≤ Size.largest)
    (idle : ∀ q, ∀ job ∈ t.machine.pending q, .buffer b.output ∉ job.work.writes)
    (apart : ∀ o ∈ s.orders, o.batch.output ≠ b.output) {e : Error} {n : Machine}
    (hashing : Host.Reaches (maker.hasher.hash b, s.machine) (.done (.error e), n)) :
    ∃ done next later, maker.hasher.shares b.count = done ++ next :: later ∧
      s.RolledBack maker b done next e n := by
  have serves := traffic.serves run carefree
  have made := traffic.orderly.made maker mem
  have leased := traffic.leased run none
  have stocked := traffic.stocked run none
  have failing : s.Step _ := .fail mem found size hashing
  have left : n.Leased s.leases := failing.leased leased
  have keeps : Keeps Ledger.Continues s.machine n := failing.keeps
  have titles := traffic.along taking_titles titles_addHandle titles_dropHandle titles_allocate
  have labelled := titles.labelled (Trace.labelled_of_reaches run)
  have alone := (traffic.authored run none carefree).alone idle apart
  obtain ⟨k, algorithm, rfl, initial, device, staged, keyed⟩ :=
    Contract.exists_of_accepted made.accepted b (s.machine.contents.buffer b.output)
      t.machine.queueName
  have serving := serves.serving mem
  rw [← device] at serving
  have ready := serves.ready maker mem k algorithm staged device
  have whole := k.whole_of_alone found alone initial
  -- The shares that were dispatched are the same ones in every respect.
  have carries := ((Hasher.carries_takes made.ledgers).and
    (Contract.carries_flight serving ready found size)).and
    (Hasher.carries_enlists (m := s.machine) k.batch _)
  obtain ⟨done, next, later, d, split, rfl, ⟨refused, -, resolved, flight⟩, entered⟩ :=
    (Hasher.meets_hash maker.hasher carries fun n first =>
      ⟨⟨⟨flow_takes.evolves first, nofun, rfl⟩, .of_evolves first, fun whole =>
        (Contract.Flight.of_whole serving whole).calm (.of_evolves first)⟩,
        flow_enlists.evolves first⟩).goal_of_reaches hashing
  refine ⟨done.map (·.1), next, later, split, ?lacks, fun q l => leased.restored left stocked keeps,
    fun q job => leased.mem_pending left entered,
    fun event => leased.isResolved_of_new left entered, ?output⟩
  case lacks =>
    refine made.lacks labelled words ?_ refused
    rw [split]
    exact List.mem_append_right _ List.mem_cons_self
  case output =>
    have flight := flight whole
    rw [← algorithm] at keyed
    have settled := (flight.settled fun share mem => by
      obtain ⟨pair, inside, rfl⟩ := List.mem_map.1 mem
      exact resolved pair inside).1
    have mine : ∀ share ∈ done.map Share.of, share.slice ∈ (done.map (·.1)).map (·.2) := by
      intro share mem
      obtain ⟨pair, inside, rfl⟩ := List.mem_map.1 mem
      exact List.mem_map_of_mem (List.mem_map_of_mem inside)
    have every : ∀ slice ∈ (done.map (·.1)).map (·.2), 0 < slice.count →
        ∃ share ∈ done.map Share.of, share.slice = slice := by
      intro slice mem _
      obtain ⟨_, inside, rfl⟩ := List.mem_map.1 mem
      obtain ⟨pair, there, rfl⟩ := List.mem_map.1 inside
      exact ⟨Share.of pair, List.mem_map_of_mem there, rfl⟩
    have hashed := Contract.hashed keyed mine every settled flight.rest.now
    rwa [initial, algorithm] at hashed

/-! Two runners on a small queue, on which another batch is in flight. -/

private def smallQueue : Trace :=
  ((Trace.start.call (.createQueue ⟨"left", .cpu, some 40⟩)).call
    (.createBuffer (Bytes.zeros 16))).call (.createBuffer (Bytes.zeros 32))

private def twoRunners : List Runner :=
  [⟨⟨0⟩, 1⟩, ⟨⟨0⟩, 1⟩]

private def firstBatch : Batch :=
  ⟨[1], 1, ⟨0⟩, 1⟩

private def secondBatch : Batch :=
  ⟨[1, 2], 1, ⟨1⟩, 2⟩

/-- Whether the second batch is refused the digests of its second share then. -/
private def refusesSecondShare : Bool :=
  match (Hasher.create .md5 twoRunners []).run smallQueue.machine with
  | some (.ok h, made) =>
    match (h.hash firstBatch).run made with
    | some (.ok _, busy) =>
      match (h.hash secondBatch).run busy with
      | some (.error (.device e), _) =>
        made.contents.buffers.length == 2 && busy.contents.buffers.length == 2 &&
          busy.queues.all (fun queue => decide (queue.ledger.limit ≤ Size.largest)) &&
          decide (e = .outOfMemory "left" 16 5)
      | _ => false
    | _ => false
  | _ => false

theorem hash_rolls_back_crowd : ∃ s maker e n done next later,
    Traffic smallQueue.machine s ∧ s.orders.length = 1 ∧
    Host.Reaches (maker.hasher.hash secondBatch, s.machine) (.done (.error e), n) ∧
    e = .device (.outOfMemory "left" 16 5) ∧
    maker.hasher.shares 2 = done ++ next :: later ∧
    s.RolledBack maker secondBatch done next e n := by
  have run : Trace.Reaches .start smallQueue :=
    (((Trace.Reaches.refl _).step (.call _ (.createQueue _) trivial)).step
      (.call _ (.createBuffer _) trivial)).step (.call _ (.createBuffer _) trivial)
  have evaluated : refusesSecondShare = true := by decide +kernel
  unfold refusesSecondShare at evaluated
  split at evaluated
  next h made creation =>
    split at evaluated
    next handle busy first =>
      split at evaluated
      next e after second =>
        simp only [Bool.and_eq_true, beq_iff_eq, decide_eq_true_eq, List.all_eq_true] at evaluated
        obtain ⟨⟨⟨before, later⟩, words⟩, rfl⟩ := evaluated
        have lent : ∀ r ∈ twoRunners, (opened smallQueue.machine).attached r.queue <
            smallQueue.machine.handles r.queue := by
          decide
        have found : made.Holds (.buffer firstBatch.output) := by
          show 0 < made.contents.buffers.length
          omega
        have found' : busy.Holds (.buffer secondBatch.output) := by
          show 1 < busy.contents.buffers.length
          omega
        have idle : ∀ q, smallQueue.machine.pending q = [] := by
          rintro ⟨_ | i⟩ <;> rfl
        have carefree : smallQueue.machine.Carefree := by
          rintro ⟨_ | i⟩ <;> rfl
        have alone : ∀ q, ∀ job ∈ smallQueue.machine.pending q,
            .buffer secondBatch.output ∉ job.work.writes := by
          intro q job mem
          rw [idle] at mem
          cases mem
        have words : ∀ q l, busy.ledger? q = some l → l.limit ≤ Size.largest := by
          intro q l here
          obtain ⟨queue, there, rfl⟩ := ledger?_eq_some_iff.1 here
          exact words queue (List.mem_of_getElem? there)
        have traffic := Traffic.opened (m := smallQueue.machine)
        have traffic := traffic.step (.create lent (Host.reaches_of_run creation))
        have traffic := traffic.step
          (.hash List.mem_cons_self found (by decide) (Host.reaches_of_run first))
        have apart : ∀ o ∈ [(⟨⟨.md5, twoRunners, [], h⟩, firstBatch, handle⟩ : Order)],
            o.batch.output ≠ secondBatch.output := by
          intro o flying
          rw [List.mem_singleton.1 flying]
          show firstBatch.output ≠ secondBatch.output
          decide
        have hashing := Host.reaches_of_run second
        obtain ⟨done, next, later, split, rolled⟩ := hash_rolls_back run rfl carefree traffic words
          List.mem_cons_self found' (by decide) alone apart hashing
        exact ⟨_, ⟨.md5, twoRunners, [], h⟩, _, after, done, next, later, traffic, rfl, hashing,
          rfl, split, rolled⟩
      next => cases evaluated
    next => cases evaluated
  next => cases evaluated

end Desk

end BatchDigest
