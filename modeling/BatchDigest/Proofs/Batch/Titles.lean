import BatchDigest.Proofs.Batch.Handling

/-!
# Names of queues

A queue has a name, which its ledger knows as well (`Trace.labelled_of_reaches`). No call and no
step of a worker renames a queue (`Machine.Titles`).
-/

namespace BatchDigest

/-- The name of a queue, and the one that its ledger knows. -/
def Queue.label (queue : Queue) : String × String :=
  (queue.config.name, queue.ledger.device)

namespace Machine

variable {m n after : Machine} {q : QueueId}

/-- Queues and ledgers have the same names, and there are no others. -/
def Titles (m n : Machine) : Prop :=
  ∀ q, (n.queue? q).map Queue.label = (m.queue? q).map Queue.label

theorem Titles.queueName (titles : Titles m n) (q : QueueId) : n.queueName q = m.queueName q := by
  have names : ∀ k : Machine,
      k.queueName q = (((k.queue? q).map Queue.label).map Prod.fst).getD "" := by
    intro k
    unfold Machine.queueName
    rw [Option.map_map]
    rfl
  rw [names n, titles q, ← names m]

theorem Titles.named (titles : Titles m n) (runners : List Runner) :
    Runner.named n runners = Runner.named m runners := by
  unfold Runner.named
  exact List.map_congr_left fun r _ => by rw [titles.queueName]

theorem titles_of_queues (queues : n.queues = m.queues) : Titles m n := by
  intro q
  unfold queue?
  rw [queues]

theorem titles_updateQueue (m : Machine) (q : QueueId) (change : Queue → Queue)
    (keeps : ∀ queue, (change queue).label = queue.label) : Titles m (m.updateQueue q change) := by
  intro p
  rw [queue?_updateQueue]
  split
  · rw [Option.map_map]
    exact congrArg (fun f => (m.queue? p).map f) (funext keeps)
  · rfl

theorem Moved.titles {activity : Activity} {waiting : List Job} {events : List Status}
    {contents : Contents} (moved : m.Moved q activity waiting events contents after) :
    Titles m after := by
  intro p
  have config := moved.config p
  have ledger := moved.ledger p
  unfold ledger? at ledger
  cases before : m.queue? p <;> cases later : after.queue? p <;>
    simp_all [Queue.label]

theorem flow_titles : Flow Titles where
  refl _ _ := rfl
  trans first second q := (second q).trans (first q)
  step step := by
    obtain ⟨_, _, _, _, moved⟩ := (turn_of_advance? step).moved
    exact moved.titles

theorem titles_dropHandle (m : Machine) (q : QueueId) : Titles m (m.dropHandle q).2 :=
  m.titles_updateQueue q _ fun _ => rfl

theorem titles_giveBack (m : Machine) (id : MemoryId) : Titles m (m.giveBack id) := by
  unfold giveBack
  split
  · exact flow_titles.refl m
  · refine m.titles_updateQueue _ _ fun queue => ?_
    exact congrArg (Prod.mk _) (Ledger.returns_release queue.ledger _).device

theorem titles_submit (m : Machine) (q : QueueId) (label : String) (deps : List EventId)
    (work : Work) : Titles m (m.submit q label deps work).2 := by
  unfold submit
  split
  · exact titles_of_queues rfl
  · exact (m.addEvent .pending).2.titles_updateQueue q _ fun _ => rfl

theorem titles_allocate (m : Machine) (q : QueueId) (kind : MemoryKind) (length : Nat) :
    Titles m (m.allocate q kind length).2 := by
  intro p
  unfold allocate
  cases here : m.queue? q with
  | none => rfl
  | some queue =>
    have device : (queue.ledger.allocate kind length).2.device = queue.ledger.device := by
      rcases queue.ledger.allocate_cases kind length with ⟨made, -⟩ | ⟨e, refused⟩
      · rw [made]
        rfl
      · rw [refused]
    have entered : ((m.updateQueue q fun queue' =>
        { queue' with ledger := (queue.ledger.allocate kind length).2 }).queue? p).map Queue.label =
          (m.queue? p).map Queue.label := by
      rw [queue?_updateQueue]
      split
      next same =>
        rw [same, here]
        exact congrArg (fun name => some (queue.config.name, name)) device
      next => rfl
    dsimp only
    cases (queue.ledger.allocate kind length).1 <;> exact entered

theorem taking_titles : Taking Titles where
  toGiving := flow_titles.giving (fun _ _ => titles_of_queues rfl) titles_giveBack
  addOwner _ _ := titles_of_queues rfl
  addEvent _ _ _ := titles_of_queues rfl
  submit m q label deps work _ _ := m.titles_submit q label deps work
  allocate m q length := m.titles_allocate q .device length

theorem titles_addHandle (m : Machine) (q : QueueId) : Titles m (m.addHandle q) :=
  m.titles_updateQueue q _ fun _ => rfl

/-- The ledger of every queue knows the name of the queue. -/
def Labelled (m : Machine) : Prop :=
  ∀ q l, m.ledger? q = some l → l.device = m.queueName q

theorem Titles.labelled (titles : Titles m n) (labelled : m.Labelled) : n.Labelled := by
  intro q l found
  obtain ⟨queue, here, rfl⟩ := ledger?_eq_some_iff.1 found
  have same := titles q
  rw [here] at same
  obtain ⟨before, there, label⟩ := Option.map_eq_some_iff.1 same.symm
  have named := labelled q before.ledger (ledger?_eq_some_iff.2 ⟨before, there, rfl⟩)
  rw [titles.queueName q, ← named]
  exact (congrArg Prod.snd label).symm

theorem Labelled.addQueue (labelled : m.Labelled) (config : QueueConfig) :
    (m.addQueue config).2.Labelled := by
  intro q l found
  obtain ⟨queue, here, rfl⟩ := ledger?_eq_some_iff.1 found
  have at' : (m.queues ++ [Queue.fresh config])[q.index]? = some queue := here
  unfold queueName
  rw [here]
  rcases Nat.lt_or_ge q.index m.queues.length with old | new
  · rw [List.getElem?_append_left old] at at'
    have named := labelled q queue.ledger (ledger?_eq_some_iff.2 ⟨queue, at', rfl⟩)
    unfold queueName at named
    rw [show m.queue? q = some queue from at'] at named
    exact named
  · rw [List.getElem?_append_right new] at at'
    rw [List.mem_singleton.1 (List.mem_of_getElem? at')]
    rfl

end Machine

open Machine

/-- No call takes a name away, and a queue that is set up has one. -/
theorem Call.labelled {m : Machine} (c : Call) (labelled : m.Labelled) : (c.apply m).Labelled := by
  have plain : ∀ {n}, Titles m n → n.Labelled := fun titles => titles.labelled labelled
  cases c with
  | createQueue config => exact labelled.addQueue config
  | createEvent fault? =>
    refine plain ?_
    cases fault? <;> exact titles_of_queues rfl
  | submit queue label deps work => exact plain (m.titles_submit queue label deps work)
  | holdQueue queue | dropQueue queue =>
    refine plain ?_
    exact m.titles_updateQueue queue _ fun _ => rfl
  | createBuffer | writeBuffer | createGate | openGate | holdMemory | dropMemory =>
    refine plain ?_
    exact titles_of_queues rfl
  | allocate queue kind length => exact plain (m.titles_allocate queue kind length)
  | giveBack memory => exact plain (m.titles_giveBack memory)
  | release memory => exact plain (taking_titles.release m memory)
  | writeMemory memory offset data =>
    show (m.writeMemory memory offset data).2.Labelled
    unfold Machine.writeMemory
    split
    · exact labelled
    · split
      · refine plain ?_
        exact titles_of_queues rfl
      · exact labelled

/-- **Every ledger knows the name of its queue**, whatever calls were made. -/
theorem Trace.labelled_of_reaches {t : Trace} (run : Reaches .start t) : t.machine.Labelled := by
  induction run with
  | refl => exact fun _ _ found => nomatch found
  | step _ step ih =>
    cases step with
    | worker q after step => exact (flow_titles.step step).labelled ih
    | call c _ => exact c.labelled ih

end BatchDigest
