import BatchDigest.Proofs.Batch.Service
import BatchDigest.Proofs.Batch.Sizes
import BatchDigest.Proofs.Batch.Vetting

/-!
# A batch fails at its copies only

Whatever hashers, batches and joins there are, and whatever else was on the machine before, no
launch that a hasher asks for is refused by its kernel, and none fails. That holds at any moment, in
the middle of a call as well as between two (`Desk.Moment`). It comes down to two things: the sizes
are exact (`Slice.exact_of_mem_partition`), and the desk stays careful with every step
(`Desk.Careful.step`). So what is left to fail is the copy of the records and the copy of the
digests, and a join tells of nothing else (`Desk.only_copies_fail`).
-/

namespace BatchDigest

open Machine

variable {m n : Machine} {base : Nat} {name : QueueId → String}

/-- From some event on every launch fits and succeeds, and nothing but copies failed. -/
structure Machine.CopiesOnly (n : Machine) (base : Nat) : Prop where
  fits : ∀ q, ∀ job ∈ n.pending q, base ≤ job.event.index → ∀ l, job.work = .launch l →
    l.Fits n.contents
  succeeds : ∀ q job, n.activity q = .running job → base ≤ job.event.index →
    ∀ l, job.work = .launch l → l.Succeeds n.contents
  faults : ∀ e f, base ≤ e.index → n.status e = .failed f → f.IsCopy

/-- A launch of a vetted job is assured. -/
theorem Machine.Vetted.assured {job : Job} (h : n.Vetted base job) {l : Launch}
    (work : job.work = .launch l) : n.Assured job.deps l := by
  rcases h.work with copy | ⟨l', same, assured⟩
  · exact absurd work (copy.plain l)
  · rw [work] at same
    cases same
    exact assured

theorem Machine.Trusted.copiesOnly {queues : List QueueId} (h : n.Trusted base queues name) :
    n.CopiesOnly base := by
  refine ⟨fun q job mem new l work => ?_, fun q job running new l work => ?_, h.flawless.faults⟩
  · exact ((h.flawless.vetted q job mem new).assured work).fits
  · have mem := pending_of_running running
    refine ((h.flawless.vetted q job mem new).assured work).succeeds ?_
    exact h.serving.sound.started q job (by rw [running]; exact List.mem_singleton_self job)

/-- A join keeps the machine trusted at all times, whichever way it is made. -/
theorem Handle.Joins.trusted {h : Handle} {answer : Option (Except Error Unit)}
    (joins : h.Joins m answer n) (trusted : m.Trusted base [] name) : n.Trusted base [] name := by
  have steadfast := steadfast_trusted base name
  cases joins with
  | wait run => exact (steadfast.wait h m trusted).safe_of_reaches run
  | throw run => exact (steadfast.waitAndThrow h m trusted).safe_of_reaches run
  | drop run => exact (steadfast.wait h m trusted).safe_of_reaches run

/-- It tells of the fault of a copy, or of none. -/
theorem Handle.Joins.told {h : Handle} {answer : Option (Except Error Unit)}
    (joins : h.Joins m answer n) (trusted : m.Trusted base [] name)
    (late : ∀ item ∈ h.items, base ≤ item.event.index) {e : Error}
    (failed : answer = some (.error e)) : ∃ f : Fault, e = .device (.execution f) ∧ f.IsCopy := by
  have trusted' := joins.trusted trusted
  obtain ⟨fault?, ⟨-, -, first⟩, told⟩ := joins.of_join (h.meets_join trusted.serving)
  have told := told _ failed
  cases fault? with
  | none => cases told
  | some f =>
    cases told
    obtain ⟨d, mem, status⟩ := exists_failed_of_firstFault? first.symm
    obtain ⟨item, inside, rfl⟩ := List.mem_map.1 mem
    exact ⟨f, rfl, trusted'.flawless.faults _ f (late item inside) status⟩

namespace Desk

variable {s s' : Desk}

/-! ## Desks that are careful -/

/-- Nothing failed but copies since `base` events were on record, and all that hashers and batches
wait for came on record later. -/
structure Careful (s : Desk) (base : Nat) (name : QueueId → String) : Prop where
  trusted : s.machine.Trusted base [] name
  ready : ∀ maker ∈ s.makers, ∀ station ∈ maker.hasher.stations,
    base ≤ station.tables.ready.index
  late : ∀ o ∈ s.orders, ∀ item ∈ o.handle.items, base ≤ item.event.index
  told : ∀ pair ∈ s.joined, ∀ e, pair.2 = some (.error e) →
    ∃ f : Fault, e = .device (.execution f) ∧ f.IsCopy

namespace Careful

theorem create (h : s.Careful base name) (serves : s.Serves name) {runners : List Runner}
    (lent : ∀ r ∈ runners, s.attached r.queue < s.machine.handles r.queue) (a : Algorithm)
    (key : Bytes) :
    (Hasher.create a runners key).Meets (Trusted base [] name) (fun r _ => ∀ hasher,
      r = .ok hasher → ∀ station ∈ hasher.stations, base ≤ station.tables.ready.index)
      s.machine := by
  have trusted : s.machine.Trusted base (runners.map (·.queue)) name :=
    ⟨serves.serving_lent lent, h.trusted.since, h.trusted.flawless⟩
  exact trusted.meets_create a key runners fun r => List.mem_map_of_mem

theorem hash (h : s.Careful base name) (serves : s.Serves name) (orderly : s.Orderly)
    {maker : Maker} (mem : maker ∈ s.makers) {b : Batch}
    (found : s.machine.Holds (.buffer b.output)) :
    (maker.hasher.hash b).Meets (Trusted base [] name) (fun r _ => ∀ handle,
      r = .ok handle → ∀ item ∈ handle.items, base ≤ item.event.index) s.machine := by
  obtain ⟨k, algorithm, rfl, -, rfl, staged, -⟩ :=
    Contract.exists_of_accepted (orderly.made maker mem).accepted b [] name
  have trusted : s.machine.Trusted base (maker.runners.map (·.queue)) k.device :=
    ⟨serves.serving mem, h.trusted.since, h.trusted.flawless⟩
  exact trusted.meets_hash (fun station inside =>
    ⟨serves.ready maker mem k algorithm staged rfl station inside,
      h.ready maker mem station inside⟩)
    found

theorem step_trusted (h : s.Careful base name) (serves : s.Serves name) (orderly : s.Orderly)
    (step : s.Step s') : s'.machine.Trusted base [] name := by
  have steadfast := steadfast_trusted base name
  cases step with
  | worker step => exact h.trusted.advance step
  | create lent run | refuse lent run => exact (h.create serves lent _ _).safe_of_reaches run
  | hash mem found size run | fail mem found size run =>
    exact (h.hash serves orderly mem found).safe_of_reaches run
  | join flying joins => exact joins.trusted h.trusted
  | rejoin joins => exact joins.trusted h.trusted
  | part there run => exact (steadfast.dropHasher _ _ h.trusted).safe_of_reaches run
  | leave own run => exact (steadfast.dropQueue _ _ h.trusted).safe_of_reaches run
  | @allocate q kind length _ made =>
    exact h.trusted.quiet (s.machine.quiet_allocate q kind length h.trusted.serving.aligned)
      (s.machine.events_allocate q kind length)
  | release mine => exact h.trusted.quiet (quiet_release _ _) (events_release _ _)

/-- **Every step keeps a desk careful.** -/
theorem step (h : s.Careful base name) (serves : s.Serves name) (orderly : s.Orderly)
    (step : s.Step s') : s'.Careful base name := by
  refine ⟨h.step_trusted serves orderly step, fun maker mem => ?_, ?_, fun pair mem e failed => ?_⟩
  · rcases step.mem_makers mem with old | ⟨lent, run⟩
    · exact h.ready maker old
    · exact (h.create serves lent _ _).goal_of_reaches run _ rfl
  · cases step with
    | worker | create | refuse | fail | rejoin | part | leave | allocate | release => exact h.late
    | join flying =>
      intro o mem
      have old : o ∈ s.orders := by
        rw [flying]
        exact ((List.sublist_cons_self _ _).append_left _).subset mem
      exact h.late o old
    | hash mem found size run =>
      intro o inside
      rcases List.mem_append.1 inside with old | last
      · exact h.late o old
      · rw [List.mem_singleton.1 last]
        exact (h.hash serves orderly mem found).goal_of_reaches run _ rfl
  · rcases step.mem_joined mem with old | ⟨flying, joins⟩
    · exact h.told pair old e failed
    · exact joins.told h.trusted (h.late _ flying) failed

end Careful

/-- **A desk is careful at any moment of any traffic.** -/
theorem Traffic.careful {t : Trace} (run : Trace.Reaches .start t) (carefree : t.machine.Carefree)
    (traffic : Traffic t.machine s) :
    s.Careful t.machine.events.length t.machine.queueName := by
  induction traffic with
  | opened =>
    have serving := Trace.serving_of_reaches run t.machine.queueName
    exact ⟨⟨serving, Nat.le_refl _, .of_sound serving.sound⟩, List.forall_mem_nil _,
      List.forall_mem_nil _, List.forall_mem_nil _⟩
  | step traffic step ih => exact ih.step (traffic.serves run carefree) traffic.orderly step

/-! ## Moments -/

/-- What the machine goes through while the desk is open: it stands between two calls, or one of
them is under way. -/
inductive Moment (m : Machine) : Machine → Prop
  | between {s : Desk} (traffic : Traffic m s) : Moment m s.machine
  | creating {s : Desk} {a : Algorithm} {runners : List Runner} {key : Bytes}
      {rest : Host (Except Error Hasher)} {n : Machine} (traffic : Traffic m s)
      (lent : ∀ r ∈ runners, s.attached r.queue < s.machine.handles r.queue)
      (run : Host.Reaches (Hasher.create a runners key, s.machine) (rest, n)) : Moment m n
  | hashing {s : Desk} {maker : Maker} {b : Batch} {rest : Host (Except Error Handle)} {n : Machine}
      (traffic : Traffic m s) (mem : maker ∈ s.makers)
      (found : s.machine.Holds (.buffer b.output)) (size : b.count ≤ Size.largest)
      (run : Host.Reaches (maker.hasher.hash b, s.machine) (rest, n)) : Moment m n
  /-- A handle is waited for, or let go of. -/
  | waiting {s : Desk} {h : Handle} {rest : Host Unit} {n : Machine} (traffic : Traffic m s)
      (mine : h ∈ .empty :: s.orders.map (·.handle))
      (run : Host.Reaches (h.wait, s.machine) (rest, n)) : Moment m n
  | throwing {s : Desk} {h : Handle} {rest : Host (Except Error Unit)} {n : Machine}
      (traffic : Traffic m s) (mine : h ∈ .empty :: s.orders.map (·.handle))
      (run : Host.Reaches (h.waitAndThrow, s.machine) (rest, n)) : Moment m n
  | parting {s : Desk} {maker : Maker} {rest : Host Unit} {n : Machine} (traffic : Traffic m s)
      (mem : maker ∈ s.makers) (run : Host.Reaches (maker.hasher.drop, s.machine) (rest, n)) :
      Moment m n
  | leaving {s : Desk} {q : QueueId} {rest : Host Unit} {n : Machine} (traffic : Traffic m s)
      (own : s.attached q < s.machine.handles q)
      (run : Host.Reaches (Host.dropQueue q, s.machine) (rest, n)) : Moment m n

/-- A machine is trusted at any moment. -/
theorem Moment.trusted {t : Trace} (run : Trace.Reaches .start t) (carefree : t.machine.Carefree)
    (moment : Moment t.machine n) :
    n.Trusted t.machine.events.length [] t.machine.queueName := by
  have steadfast := steadfast_trusted t.machine.events.length t.machine.queueName
  have careful : ∀ {s : Desk}, Traffic t.machine s →
      s.Careful t.machine.events.length t.machine.queueName :=
    fun traffic => traffic.careful run carefree
  cases moment with
  | between traffic => exact (careful traffic).trusted
  | creating traffic lent steps =>
    exact ((careful traffic).create (traffic.serves run carefree) lent _ _).safe_of_reaches steps
  | hashing traffic mem found size steps =>
    exact ((careful traffic).hash (traffic.serves run carefree) traffic.orderly mem
      found).safe_of_reaches steps
  | waiting traffic mine steps =>
    exact (steadfast.wait _ _ (careful traffic).trusted).safe_of_reaches steps
  | throwing traffic mine steps =>
    exact (steadfast.waitAndThrow _ _ (careful traffic).trusted).safe_of_reaches steps
  | parting traffic mem steps =>
    exact (steadfast.dropHasher _ _ (careful traffic).trusted).safe_of_reaches steps
  | leaving traffic own steps =>
    exact (steadfast.dropQueue _ _ (careful traffic).trusted).safe_of_reaches steps

/-- **A batch fails at its copies only.** -/
theorem only_copies_fail {t : Trace} (run : Trace.Reaches .start t)
    (carefree : t.machine.Carefree) :
    (∀ a : Algorithm, a.isSupported → ∀ recordLength count : Nat, recordLength < 2 ^ 32 →
      count < 2 ^ 32 → ∀ (weights : List Float), ∀ slice ∈ Slice.partition weights count,
        slice.Exact recordLength a.digestSize) ∧
    (∀ n, Moment t.machine n → n.CopiesOnly t.machine.events.length) ∧
    ∀ s, Traffic t.machine s →
      (∀ o ∈ s.orders, ∀ item ∈ o.handle.items, ∀ f,
        s.machine.status item.event = .failed f → f.IsCopy) ∧
      ∀ o e, (o, some (.error e)) ∈ s.joined →
        ∃ f : Fault, e = .device (.execution f) ∧ f.IsCopy := by
  refine ⟨fun a supported recordLength count length batch weights slice mem =>
    Slice.exact_of_mem_partition supported length batch mem,
    fun n moment => (moment.trusted run carefree).copiesOnly, fun s traffic => ?_⟩
  have careful := traffic.careful run carefree
  refine ⟨fun o mem item inside f failed => ?_, fun o e mem => careful.told _ mem e rfl⟩
  exact careful.trusted.flawless.faults _ f (careful.late o mem item inside) failed

/-! Two runners on one queue share two records, and the output has room for one digest. -/

private def roomForOneDigest : Trace :=
  (Trace.start.call (.createQueue ⟨"left", .cpu, none⟩)).call (.createBuffer (Bytes.zeros 16))

private def sharingRunners : List Runner :=
  [⟨⟨0⟩, 1⟩, ⟨⟨0⟩, 1⟩]

private def twoRecords : Batch :=
  ⟨[1, 2], 1, ⟨0⟩, 2⟩

/-- Whether the fourth job is a launch, under way after seven steps of the worker, and the join
tells of a fault. -/
private def launchesThenCopyFails : Bool :=
  match (Hasher.create .md2 sharingRunners []).run roomForOneDigest.machine with
  | some (.ok h, made) =>
    match (h.hash twoRecords).run made with
    | some (.ok handle, dispatched) =>
      match (dispatched.settleFor 7).activity ⟨0⟩, handle.waitAndThrow.run dispatched with
      | .running ⟨_, _, _, .launch _⟩, some (.error _, _) => made.contents.buffers.length == 1
      | _, _ => false
    | _ => false
  | _ => false

/-- The sizes of the largest batch are exact. A launch succeeds while the batch is waited for, and
the copy of the second digest fails. -/
theorem only_copies_fail_partners :
    Slice.Exact ⟨0, 0, 4294967295⟩ 4294967295 64 ∧
    (∃ n job l, Moment roomForOneDigest.machine n ∧ n.activity ⟨0⟩ = .running job ∧
      job.work = .launch l ∧ l.Fits n.contents ∧ l.Succeeds n.contents) ∧
    ∃ s o, ∃ f : Fault, Traffic roomForOneDigest.machine s ∧
      (o, some (.error (.device (.execution f)))) ∈ s.joined ∧ f.IsCopy := by
  have run : Trace.Reaches .start roomForOneDigest :=
    ((Trace.Reaches.refl _).step (.call _ (.createQueue _) trivial)).step
      (.call _ (.createBuffer _) trivial)
  have idle : ∀ q, roomForOneDigest.machine.pending q = [] := by
    rintro ⟨_ | i⟩ <;> rfl
  have carefree : roomForOneDigest.machine.Carefree := by
    rintro ⟨_ | i⟩ <;> rfl
  obtain ⟨exact', copies, told⟩ := only_copies_fail run carefree
  refine ⟨exact' (.blake2b 512) rfl 4294967295 4294967295 (by decide) (by decide) [1] _
    (List.mem_singleton_self _), ?_⟩
  have evaluated : launchesThenCopyFails = true := by decide +kernel
  unfold launchesThenCopyFails at evaluated
  split at evaluated
  next h made creation =>
    split at evaluated
    next handle dispatched hashing =>
      split at evaluated
      next label deps event l e after running joining =>
        rw [beq_iff_eq] at evaluated
        have found : made.Holds (.buffer twoRecords.output) := by
          show 0 < made.contents.buffers.length
          rw [evaluated]
          exact Nat.one_pos
        have lent : ∀ r ∈ sharingRunners, (opened roomForOneDigest.machine).attached r.queue <
            roomForOneDigest.machine.handles r.queue := by
          intro r mem
          rcases List.mem_cons.1 mem with rfl | mem
          · exact Nat.one_pos
          · rw [List.mem_singleton.1 mem]
            exact Nat.one_pos
        have traffic := Traffic.opened (m := roomForOneDigest.machine)
        have traffic := traffic.step (.create lent (Host.reaches_of_run creation))
        have traffic := traffic.step
          (.hash List.mem_cons_self found (by decide) (Host.reaches_of_run hashing))
        have moment : Moment roomForOneDigest.machine (dispatched.settleFor 7) :=
          .throwing traffic (List.mem_cons_of_mem _ List.mem_cons_self)
            (Host.reaches_of_evolves (evolves_settleFor 7 dispatched))
        have here := copies _ moment
        have mem := pending_of_running running
        have flying : [(⟨⟨.md2, sharingRunners, [], h⟩, twoRecords, handle⟩ : Order)] =
          [] ++ ⟨⟨.md2, sharingRunners, [], h⟩, twoRecords, handle⟩ :: [] := rfl
        have joined := traffic.step (.join flying (.throw (Host.reaches_of_run joining)))
        obtain ⟨f, rfl, copy⟩ := (told _ joined).2 _ _ List.mem_cons_self
        refine ⟨⟨_, _, l, moment, running, rfl, ?_, ?_⟩, _, _, f, joined, List.mem_cons_self, copy⟩
        · exact here.fits _ _ mem (Nat.zero_le _) l rfl
        · exact here.succeeds _ _ running (Nat.zero_le _) l rfl
      next => cases evaluated
    next => cases evaluated
  next => cases evaluated

end Desk

end BatchDigest
