import BatchDigest.Proofs.Batch.Handling
import BatchDigest.Proofs.Batch.Hashers
import BatchDigest.Proofs.Batch.Roster
import BatchDigest.Proofs.Device.Inventory

/-!
# Traffic

Hashers and handles come and go in any order while the workers take their steps. A `Desk` is where
all of it happens: the machine, the hashers that there are, the batches in flight, the memory that
the caller keeps for itself, and what has become of the batches that are over. `Desk.Step` is a step
of a worker or one whole call, and `Desk.Traffic` any number of steps from a machine on. Hashers may
share queues, go before their batches, and fail at whatever they do.

The caller has a queue handle of its own for each runner that it asks a hasher for, and it lets go
of its own queue handles only. Outputs may be shared here; it takes a hypothesis that they are not.

Two lemmas serve all accounts of traffic: every step leads along a relation that has room for the
calls (`Desk.Step.along`), and the leases of what is on the desk cover the jobs
(`Desk.Step.leased`).
-/

namespace BatchDigest

open Machine

/-! ## Joins -/

/-- The ways to join a handle, with what they answer. -/
inductive Handle.Joins (h : Handle) (m : Machine) : Option (Except Error Unit) → Machine → Prop
  | wait {n : Machine} (run : Host.Reaches (h.wait, m) (.done (), n)) : Joins h m none n
  | throw {answer : Except Error Unit} {n : Machine}
      (run : Host.Reaches (h.waitAndThrow, m) (.done answer, n)) : Joins h m (some answer) n
  | drop {n : Machine} (run : Host.Reaches (h.drop, m) (.done (), n)) : Joins h m none n

namespace Handle.Joins

variable {h : Handle} {m n : Machine} {answer : Option (Except Error Unit)}

theorem along {R : Machine → Machine → Prop} (giving : Giving R) (joins : h.Joins m answer n) :
    R m n := by
  cases joins with
  | wait run => exact (h.always_wait giving).of_reaches run
  | throw run => exact (h.always_waitAndThrow giving).of_reaches run
  | drop run => exact (h.always_wait giving).of_reaches run

theorem leased {others : List Lease} (leased : m.Leased (h.leases ++ others))
    (joins : h.Joins m answer n) : n.Leased others := by
  cases joins with
  | wait run => exact (Leased.meets_wait h leased).goal_of_reaches run
  | throw run => exact (Leased.meets_waitAndThrow h leased).goal_of_reaches run
  | drop run => exact (Leased.meets_wait h leased).goal_of_reaches run

/-- **What a join meets, every way to join meets**, and the answer tells of the fault. -/
theorem of_join {goal : Option Fault → Machine → Prop}
    (join : h.join.Meets (fun _ => True) goal m) (joins : h.Joins m answer n) :
    ∃ fault?, goal fault? n ∧ ∀ told, answer = some told → told = match fault? with
      | some fault => .error (.device (.execution fault))
      | none => .ok () := by
  have wait : h.wait.Meets (fun _ => True) (fun _ n => ∃ fault?, goal fault? n) m :=
    Host.Meets.bind (join.lasting.mono fun fault? n _ goal k later =>
      ⟨trivial, fault?, goal k later⟩)
  cases joins with
  | wait run =>
    obtain ⟨fault?, goal⟩ := wait.goal_of_reaches run
    exact ⟨fault?, goal, nofun⟩
  | drop run =>
    obtain ⟨fault?, goal⟩ := wait.goal_of_reaches run
    exact ⟨fault?, goal, nofun⟩
  | throw run =>
    have throw : h.waitAndThrow.Meets (fun _ => True) (fun told n => ∃ fault?, goal fault? n ∧
        told = match fault? with
          | some fault => .error (.device (.execution fault))
          | none => .ok ()) m := by
      refine Host.Meets.bind (join.lasting.mono fun fault? n _ goal => ?_)
      cases fault? <;> exact fun k later => ⟨trivial, _, goal k later, rfl⟩
    obtain ⟨fault?, goal, same⟩ := throw.goal_of_reaches run
    exact ⟨fault?, goal, fun told answered => by cases answered; exact same⟩

/-- There is nothing to wait for and nothing to give back when a handle is joined again. -/
theorem of_empty (joins : Handle.empty.Joins m answer n) : m.Evolves n := by
  have join : Handle.empty.join.Meets (fun _ => True) (fun _ n => m.Evolves n) m :=
    fun n first => ⟨trivial, first⟩
  obtain ⟨fault?, evolves, -⟩ := joins.of_join join
  exact evolves

end Handle.Joins

/-! ## The desk -/

/-- A hasher, with what it was made for. -/
structure Maker where
  algorithm : Algorithm
  runners : List Runner
  key : Bytes
  hasher : Hasher

/-- A batch that was dispatched, with its hasher and its handle. -/
structure Order where
  maker : Maker
  batch : Batch
  handle : Handle

/-- Everything that there is between two calls. -/
structure Desk where
  machine : Machine
  /-- The hashers, in the order in which they were made. -/
  makers : List Maker
  /-- The batches in flight. -/
  orders : List Order
  /-- The memory that the caller allocated for itself. -/
  own : List Holding
  /-- The batches that were joined, with the answers of the joins that tell of faults. -/
  joined : List (Order × Option (Except Error Unit))
  /-- The outputs of the batches that could not be dispatched. -/
  failed : List BufferId

namespace Desk

/-- A machine on which nobody has done anything so far. -/
def opened (m : Machine) : Desk :=
  ⟨m, [], [], [], [], []⟩

/-- How many handles to a queue the hashers hold. -/
def attached (s : Desk) (q : QueueId) : Nat :=
  (s.makers.map fun maker => Runner.on maker.runners q).sum

/-- The outputs of all batches so far. -/
def outputs (s : Desk) : List BufferId :=
  s.orders.map (·.batch.output) ++ (s.joined.map (·.1.batch.output) ++ s.failed)

/-- A step of a worker, or a call from its beginning to its end. -/
inductive Step (s : Desk) : Desk → Prop
  | worker {q : QueueId} {after : Machine} (step : s.machine.advance? q = some after) :
      Step s { s with machine := after }
  | create {a : Algorithm} {runners : List Runner} {key : Bytes} {h : Hasher} {after : Machine}
      (lent : ∀ r ∈ runners, s.attached r.queue < s.machine.handles r.queue)
      (run : Host.Reaches (Hasher.create a runners key, s.machine) (.done (.ok h), after)) :
      Step s { s with machine := after, makers := s.makers ++ [⟨a, runners, key, h⟩] }
  /-- No hasher is made. -/
  | refuse {a : Algorithm} {runners : List Runner} {key : Bytes} {e : Error} {after : Machine}
      (lent : ∀ r ∈ runners, s.attached r.queue < s.machine.handles r.queue)
      (run : Host.Reaches (Hasher.create a runners key, s.machine) (.done (.error e), after)) :
      Step s { s with machine := after }
  | hash {maker : Maker} {b : Batch} {handle : Handle} {after : Machine}
      (mem : maker ∈ s.makers) (found : s.machine.Holds (.buffer b.output))
      (size : b.count ≤ Size.largest)
      (run : Host.Reaches (maker.hasher.hash b, s.machine) (.done (.ok handle), after)) :
      Step s { s with machine := after, orders := s.orders ++ [⟨maker, b, handle⟩] }
  /-- A batch cannot be dispatched. -/
  | fail {maker : Maker} {b : Batch} {e : Error} {after : Machine}
      (mem : maker ∈ s.makers) (found : s.machine.Holds (.buffer b.output))
      (size : b.count ≤ Size.largest)
      (run : Host.Reaches (maker.hasher.hash b, s.machine) (.done (.error e), after)) :
      Step s { s with machine := after, failed := s.failed ++ [b.output] }
  | join {before later : List Order} {o : Order} {answer : Option (Except Error Unit)}
      {after : Machine} (flying : s.orders = before ++ o :: later)
      (joins : o.handle.Joins s.machine answer after) :
      Step s { s with machine := after, orders := before ++ later,
                      joined := s.joined ++ [(o, answer)] }
  /-- A handle that was joined is joined again. -/
  | rejoin {answer : Option (Except Error Unit)} {after : Machine}
      (joins : Handle.empty.Joins s.machine answer after) : Step s { s with machine := after }
  /-- A hasher is let go of. -/
  | part {before later : List Maker} {maker : Maker} {after : Machine}
      (there : s.makers = before ++ maker :: later)
      (run : Host.Reaches (maker.hasher.drop, s.machine) (.done (), after)) :
      Step s { s with machine := after, makers := before ++ later }
  /-- The caller lets go of a queue handle of its own. -/
  | leave {q : QueueId} {after : Machine} (own : s.attached q < s.machine.handles q)
      (run : Host.Reaches (Host.dropQueue q, s.machine) (.done (), after)) :
      Step s { s with machine := after }
  | allocate {q : QueueId} {kind : MemoryKind} {length : Nat} {id : MemoryId}
      (made : (s.machine.allocate q kind length).1 = .ok id) :
      Step s { s with machine := (s.machine.allocate q kind length).2,
                      own := s.own ++ [⟨id, q, length⟩] }
  | release {before later : List Holding} {holding : Holding}
      (mine : s.own = before ++ holding :: later) :
      Step s { s with machine := s.machine.release holding.memory, own := before ++ later }

/-- Any number of steps. -/
inductive Traffic (m : Machine) : Desk → Prop
  | opened : Traffic m (opened m)
  | step {s s' : Desk} (traffic : Traffic m s) (step : s.Step s') : Traffic m s'

variable {s s' : Desk} {m : Machine}

/-! ## Where things come from -/

/-- A batch that is dispatched adds its output. -/
theorem outputs_hash (s : Desk) (o : Order) (after : Machine) :
    (outputs { s with machine := after, orders := s.orders ++ [o] }).Perm
      ([o.batch.output] ++ s.outputs) := by
  unfold outputs
  rw [List.map_append, List.append_assoc]
  exact List.perm_append_comm_assoc _ _ _

/-- A hasher was there, or it was made. -/
theorem Step.mem_makers (step : s.Step s') {maker : Maker} (mem : maker ∈ s'.makers) :
    maker ∈ s.makers ∨ (∀ r ∈ maker.runners, s.attached r.queue < s.machine.handles r.queue) ∧
      Host.Reaches (Hasher.create maker.algorithm maker.runners maker.key, s.machine)
        (.done (.ok maker.hasher), s'.machine) := by
  cases step with
  | worker | refuse | hash | fail | join | rejoin | leave | allocate | release => exact .inl mem
  | part there =>
    rw [there]
    exact .inl (((List.sublist_cons_self _ _).append_left _).subset mem)
  | create lent run =>
    refine (List.mem_append.1 mem).imp_right fun last => ?_
    rw [List.mem_singleton.1 last]
    exact ⟨lent, run⟩

/-- A batch was in flight, or it was dispatched. -/
theorem Step.mem_orders (step : s.Step s') {o : Order} (mem : o ∈ s'.orders) :
    o ∈ s.orders ∨ o.maker ∈ s.makers ∧ o.batch.count ≤ Size.largest ∧
      s'.outputs.Perm ([o.batch.output] ++ s.outputs) ∧
      Host.Reaches (o.maker.hasher.hash o.batch, s.machine)
        (.done (.ok o.handle), s'.machine) := by
  cases step with
  | worker | create | refuse | fail | rejoin | part | leave | allocate | release => exact .inl mem
  | join flying =>
    rw [flying]
    exact .inl (((List.sublist_cons_self _ _).append_left _).subset mem)
  | hash mem' _ size run =>
    refine (List.mem_append.1 mem).imp_right fun last => ?_
    rw [List.mem_singleton.1 last]
    exact ⟨mem', size, s.outputs_hash _ _, run⟩

/-- A batch was joined, or it was in flight and is joined. -/
theorem Step.mem_joined (step : s.Step s') {pair : Order × Option (Except Error Unit)}
    (mem : pair ∈ s'.joined) :
    pair ∈ s.joined ∨ pair.1 ∈ s.orders ∧ pair.1.handle.Joins s.machine pair.2 s'.machine := by
  cases step with
  | worker | create | refuse | hash | fail | rejoin | part | leave | allocate | release =>
    exact .inl mem
  | join flying joins =>
    refine (List.mem_append.1 mem).imp_right fun last => ?_
    rw [List.mem_singleton.1 last, flying]
    exact ⟨List.mem_append_right _ List.mem_cons_self, joins⟩

/-! ## What every step does -/

/-- **Every step leads along a relation that has room for the calls.** -/
theorem Step.along {R : Machine → Machine → Prop} (taking : Taking R)
    (addHandle : ∀ m q, 0 < s.machine.handles q → R m (m.addHandle q))
    (dropHandle : ∀ m q, R m (m.dropHandle q).2)
    (allocate : ∀ m q kind length, R m (m.allocate q kind length).2) (step : s.Step s') :
    R s.machine s'.machine := by
  have giving := taking.toGiving
  have create : ∀ {runners : List Runner},
      (∀ r ∈ runners, s.attached r.queue < s.machine.handles r.queue) →
      ∀ a key, (Hasher.create a runners key).Always R := fun lent a key =>
    Hasher.always_create giving (StagedTables.always_stage taking a key) _ fun m r mem =>
      addHandle m r.queue (Nat.lt_of_le_of_lt (Nat.zero_le _) (lent r mem))
  cases step with
  | worker step => exact taking.step step
  | create lent run => exact (create lent _ _).of_reaches run
  | refuse lent run => exact (create lent _ _).of_reaches run
  | hash _ _ _ run => exact (Hasher.always_hash taking _ _).of_reaches run
  | fail _ _ _ run => exact (Hasher.always_hash taking _ _).of_reaches run
  | join _ joins => exact joins.along giving
  | rejoin joins => exact joins.along giving
  | part _ run => exact (Hasher.always_drop giving dropHandle _).of_reaches run
  | leave _ run => exact (Host.always_dropQueue taking.toFlow dropHandle _).of_reaches run
  | allocate => exact allocate _ _ _ _
  | release => exact taking.release _ _

/-- So does any number of them. -/
theorem Traffic.along {R : Machine → Machine → Prop} (taking : Taking R)
    (addHandle : ∀ m q, R m (m.addHandle q)) (dropHandle : ∀ m q, R m (m.dropHandle q).2)
    (allocate : ∀ m q kind length, R m (m.allocate q kind length).2) (traffic : Traffic m s) :
    R m s.machine := by
  induction traffic with
  | opened => exact taking.refl m
  | step _ step ih =>
    have after := step.along taking (fun m q _ => addHandle m q) dropHandle allocate
    exact taking.trans ih after

/-- Memories stay where they are, and ledgers go on counting. -/
theorem Step.keeps (step : s.Step s') : Keeps Ledger.Continues s.machine s'.machine := by
  have keeps : ∀ {m n : Machine}, m.SameBooks n → Keeps Ledger.Continues m n := fun books =>
    books.keeps Ledger.course_continues
  exact step.along taking_keeps (fun m q _ => keeps (m.sameBooks_updateQueue q _ fun _ => rfl))
    (fun m q => keeps (m.sameBooks_updateQueue q _ fun _ => rfl))
    fun m q kind length => m.keeps_allocate q kind length

theorem Traffic.keeps (traffic : Traffic m s) : Keeps Ledger.Continues m s.machine := by
  induction traffic with
  | opened => exact taking_keeps.refl m
  | step _ step ih => exact ih.trans step.keeps Ledger.course_continues

/-- Queues that are held were held from the start. -/
theorem Traffic.held (traffic : Traffic m s) (carefree : m.Carefree) {q : QueueId}
    (now : 0 < s.machine.handles q) : 0 < m.handles q := by
  refine Nat.pos_of_ne_zero fun none => Nat.ne_of_gt now ?_
  have shuts : Shuts q m s.machine := by
    clear now
    induction traffic with
    | opened => exact (flow_shuts q).refl m
    | step _ step ih =>
      intro _
      have shut := (ih carefree).2 none
      have after := step.along (taking_shuts q) (fun m p held => m.shuts_addHandle ?_)
        (fun m p => m.shuts_dropHandle p) fun m p kind length => m.shuts_allocate p kind length
      · exact (flow_shuts q).trans ih after carefree
      · rintro rfl
        exact Nat.ne_of_gt held shut
  exact (shuts carefree).2 none

/-! ## Leases -/

/-- The leases of all that is on the desk. -/
def leases (s : Desk) : List Lease :=
  s.makers.flatMap (·.hasher.leases) ++
    (s.orders.flatMap (·.handle.leases) ++ s.own.map Holding.lease)

/-- What is taken out of the middle is put in front. -/
private theorem perm_middle {α : Type} (leases : α → List Lease) {before later : List α} {a : α}
    (front back : List Lease) :
    (front ++ ((before ++ a :: later).flatMap leases ++ back)).Perm
      (leases a ++ (front ++ ((before ++ later).flatMap leases ++ back))) := by
  have inner : ((before ++ a :: later).flatMap leases).Perm
      (leases a ++ (before ++ later).flatMap leases) := by
    simp only [List.flatMap_append, List.flatMap_cons]
    exact List.perm_append_comm_assoc _ _ _
  have whole := (inner.append_right back).append_left front
  rw [List.append_assoc] at whole
  exact whole.trans (List.perm_append_comm_assoc _ _ _)

/-- What is put last comes from the front. -/
private theorem perm_last {α : Type} (leases : α → List Lease) (all : List α) (a : α)
    (front back : List Lease) :
    (leases a ++ (front ++ (all.flatMap leases ++ back))).Perm
      (front ++ ((all ++ [a]).flatMap leases ++ back)) := by
  have whole := @perm_middle α leases all [] a front back
  rw [List.append_nil] at whole
  exact whole.symm

/-- **The leases of what is on the desk cover the jobs, and go on to.** -/
theorem Step.leased (step : s.Step s') (h : s.machine.Leased s.leases) :
    s'.machine.Leased s'.leases := by
  cases step with
  | worker step => exact h.evolves (.step .refl _ step)
  | create _ run =>
    refine ((h.meets_create _ _ _).goal_of_reaches run).perm ?_
    exact perm_last (fun maker : Maker => maker.hasher.leases) s.makers ⟨_, _, _, _⟩ [] _
  | refuse _ run => exact (h.meets_create _ _ _).goal_of_reaches run
  | hash mem _ _ run =>
    have own : ∀ l ∈ Hasher.leases _, l ∈ s.leases := fun l inside =>
      List.mem_append_left _ (List.mem_flatMap.2 ⟨_, mem, inside⟩)
    refine ((Leased.meets_hash _ h own _).goal_of_reaches run).perm ?_
    exact perm_last (fun o : Order => o.handle.leases) s.orders ⟨_, _, _⟩ _ _
  | fail mem _ _ run =>
    have own : ∀ l ∈ Hasher.leases _, l ∈ s.leases := fun l inside =>
      List.mem_append_left _ (List.mem_flatMap.2 ⟨_, mem, inside⟩)
    exact (Leased.meets_hash _ h own _).goal_of_reaches run
  | join flying joins =>
    unfold leases at h
    rw [flying] at h
    exact joins.leased (h.perm (perm_middle (fun o : Order => o.handle.leases) _ _))
  | rejoin joins => exact h.evolves joins.of_empty
  | part there run =>
    unfold leases at h
    rw [there] at h
    have h := h.perm (perm_middle (fun maker : Maker => maker.hasher.leases) [] _)
    exact (Leased.meets_dropHasher _ h).goal_of_reaches run
  | leave _ run => exact (h.meets_dropQueue _).goal_of_reaches run
  | allocate made =>
    refine (h.allocate made).1.perm ?_
    unfold leases
    simp only [List.map_append, List.map_cons, List.map_nil, ← List.append_assoc]
    exact (List.perm_append_singleton _ _).symm
  | release mine =>
    unfold leases at h
    rw [mine] at h
    simp only [List.map_append, List.map_cons, ← List.append_assoc] at h
    have h := h.perm List.perm_middle
    simp only [leases, List.map_append, ← List.append_assoc]
    exact h.release rfl fun e last => nomatch last

/-- Traffic that starts where no memory was ever allocated is covered by leases. -/
theorem Traffic.leased {t : Trace} (run : Trace.Reaches .start t)
    (none : t.machine.memories = []) (traffic : Traffic t.machine s) :
    s.machine.Leased s.leases := by
  induction traffic with
  | opened =>
    have serving := Trace.serving_of_reaches run t.machine.queueName
    have absent : ∀ id, t.machine.memory? id = Option.none := by
      intro id
      unfold memory?
      rw [none]
      rfl
    have audited := (Trace.audited_of_reaches run).stocked none
    show t.machine.Leased []
    refine ⟨⟨serving.sound, audited.booked, nofun, nofun, nofun, ?_⟩, fun id => ?_⟩
    · intro q job mem id touched
      have holds := serving.inside q job mem _ touched
      have lt : id.index < t.machine.memories.length := holds
      rw [none] at lt
      exact absurd lt (Nat.not_lt_zero _)
    · unfold owners
      rw [absent]
      rfl
  | step _ step ih => exact step.leased ih

end Desk

end BatchDigest
