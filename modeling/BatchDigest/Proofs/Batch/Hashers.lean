import BatchDigest.Proofs.Batch.Custody

/-!
# Hashers and the memory they hold

A hasher is made of staged tables, hands out handles, and goes. All of it may fail half-way: a
device has no room for the tables of the third runner, or for the input of the second share. What
was taken until then is given back, after a wait for the work that uses it.
-/

namespace BatchDigest.Machine.Leased

variable {m n : Machine} {leases mine others : List Lease}

/-! ## Making and dropping -/

theorem meets_stageAll (algorithm : Algorithm) (key : Bytes) (runners : List Runner)
    (staged : List Station) (h : m.Leased (staged.map (·.tables.lease []) ++ others)) :
    (Hasher.stageAll algorithm key runners staged).Meets Safe (fun r n =>
      n.Leased (Lease.ofResult (List.map (·.tables.lease [])) r ++ others)) m := by
  induction runners generalizing m staged with
  | nil => exact h.meets_pure fun _ _ h => h
  | cons runner rest ih =>
    refine Host.Meets.bind ((h.meets_stage algorithm key runner.queue).mono fun r n _ h => ?_)
    cases r with
    | error e =>
      have h : n.Leased ((staged.map (·.tables)).map (·.lease []) ++ others) := by
        simpa [Function.comp_def] using h
      exact meets_bind_pure (meets_dropAll _ h) fun _ _ h => h
    | ok tables =>
      refine ih (staged ++ [⟨runner, tables⟩]) (h.perm ?_)
      simpa using (List.perm_middle (a := tables.lease [])).symm

theorem calm_addHandle (h : m.Leased leases) (q : QueueId) : (m.addHandle q).Leased leases :=
  h.calm (m.steady_updateQueue q _ fun _ => ⟨rfl, rfl, rfl⟩)
    (m.sameStore_updateQueue q _ fun _ => rfl) rfl

theorem calm_dropHandle (h : m.Leased leases) (q : QueueId) : (m.dropHandle q).2.Leased leases :=
  h.calm (m.steady_updateQueue q _ fun _ => ⟨rfl, rfl, rfl⟩)
    (m.sameStore_updateQueue q _ fun _ => rfl) rfl

theorem meets_holdQueues (runners : List Runner) (h : m.Leased leases) :
    (Hasher.holdQueues runners).Meets Safe (fun _ n => n.Leased leases) m := by
  induction runners generalizing m with
  | nil => exact h.meets_pure fun _ _ h => h
  | cons runner rest ih =>
    exact Host.meets_update_bind fun n first =>
      ⟨(h.evolves first).safe, ih ((h.evolves first).calm_addHandle runner.queue)⟩

/-- The wait for the last jobs of a queue. -/
theorem meets_dropQueue (queue : QueueId) (h : m.Leased leases) :
    (Host.dropQueue queue).Meets Safe (fun _ n => n.Leased leases) m := by
  refine h.meets_call_bind fun n _ h => ?_
  have h := h.calm_dropHandle queue
  split
  · exact fun n' first => ⟨(h.evolves first).safe,
      fun _ => (h.evolves first).meets_pure fun _ _ h => h⟩
  · exact h.meets_pure fun _ _ h => h

theorem meets_dropQueues (runners : List Runner) (h : m.Leased leases) :
    (Hasher.dropQueues runners).Meets Safe (fun _ n => n.Leased leases) m := by
  induction runners generalizing m with
  | nil => exact h.meets_pure fun _ _ h => h
  | cons runner rest ih =>
    exact Host.Meets.bind ((h.meets_dropQueue runner.queue).mono fun _ n _ h => ih h)

theorem meets_create (h : m.Leased others) (algorithm : Algorithm) (runners : List Runner)
    (key : Bytes) : (Hasher.create algorithm runners key).Meets Safe
      (fun r n => n.Leased (Lease.ofResult Hasher.leases r ++ others)) m := by
  unfold Hasher.create
  split
  · exact h.meets_pure fun _ _ h => h
  · refine Host.meets_ask_bind fun n first => ⟨(h.evolves first).safe, ?_⟩
    have h := h.evolves first
    split
    · exact h.meets_pure fun _ _ h => h
    · refine Host.Meets.bind ((meets_stageAll algorithm key runners [] h).mono fun r n _ h => ?_)
      cases r with
      | error e => exact h.meets_pure fun _ _ h => h
      | ok stations =>
        exact meets_bind_pure (h.meets_holdQueues runners) fun _ _ h => h

/-- A hasher may go while its batches are in flight: the tables have other owners then. -/
theorem meets_dropHasher (hasher : Hasher) (h : m.Leased (hasher.leases ++ others)) :
    hasher.drop.Meets Safe (fun _ n => n.Leased others) m := by
  refine Host.Meets.bind ((h.meets_dropQueues _).mono fun _ n _ h => meets_dropAll _ ?_)
  simpa [Hasher.leases, Function.comp_def] using h

/-! ## Hashing -/

theorem meets_dispatchAll (batch : Batch) (rest : List (Station × Slice)) (items : List BatchItem)
    (h : m.Leased (items.flatMap BatchItem.leases ++ leases))
    (mem : ∀ next ∈ rest, next.1.tables.lease [] ∈ leases) :
    (Hasher.dispatchAll batch rest items).Meets Safe
      (fun r n => n.Leased (Lease.ofResult Handle.leases r ++ leases)) m := by
  induction rest generalizing m items with
  | nil => exact h.meets_pure fun _ _ h => h
  | cons next rest ih =>
    rw [List.forall_mem_cons] at mem
    refine Host.Meets.bind ((h.meets_dispatch (List.mem_append_right _ mem.1) batch next.2
      next.1.runner.queue).mono fun r n _ h => ?_)
    cases r with
    | error e =>
      -- The shares that are in flight already are joined, and nothing is left behind.
      exact meets_bind_pure (meets_wait ⟨items⟩ h) fun _ _ h => h
    | ok item =>
      refine ih (items ++ [item]) (h.perm ?_) mem.2
      simpa using List.perm_append_comm_assoc _ _ _

theorem meets_hash (hasher : Hasher) (h : m.Leased leases)
    (mem : ∀ l ∈ hasher.leases, l ∈ leases) (batch : Batch) : (hasher.hash batch).Meets Safe
      (fun r n => n.Leased (Lease.ofResult Handle.leases r ++ leases)) m := by
  unfold Hasher.hash
  split
  · exact h.meets_pure fun _ _ h => h
  · refine meets_dispatchAll batch _ [] h fun next inside => mem _ ?_
    obtain ⟨station, slice⟩ := next
    exact List.mem_map_of_mem (List.of_mem_zip (List.mem_filter.1 inside).1).1

theorem meets_computeWith (hasher : Hasher) (h : m.Leased leases)
    (mem : ∀ l ∈ hasher.leases, l ∈ leases) (batch : Batch) :
    (hasher.compute batch).Meets Safe (fun _ n => n.Leased leases) m := by
  refine Host.Meets.bind ((meets_hash hasher h mem batch).mono fun r n _ h => ?_)
  cases r with
  | error e => exact h.meets_pure fun _ _ h => h
  | ok handle => exact meets_waitAndThrow handle h

/-! ## Hashing on one queue -/

theorem meets_compute (h : m.Leased leases) (queue : QueueId) (algorithm : Algorithm)
    (batch : Batch) (key : Bytes) :
    (compute queue algorithm batch key).Meets Safe (fun _ n => n.Leased leases) m := by
  refine Host.Meets.bind ((h.meets_create algorithm _ key).mono fun r n _ h => ?_)
  cases r with
  | error e => exact h.meets_pure fun _ _ h => h
  | ok hasher =>
    have own : ∀ l ∈ hasher.leases, l ∈ hasher.leases ++ leases := fun _ => List.mem_append_left _
    refine Host.Meets.bind ((meets_computeWith hasher h own batch).mono fun r n _ h => ?_)
    exact meets_bind_pure (meets_dropHasher hasher h) fun _ _ h => h

/-- The wait for the event of a submission ends what the owners lent their memory for. -/
theorem meets_joinThrow {event : EventId} (h : m.Leased (mine.map (·.upTo event) ++ others)) :
    (Host.joinThrow event).Meets Safe (fun _ n => n.Leased (mine ++ others)) m := by
  have calm := fun n later => (h.evolves (n := n) later).safe
  refine Host.meets_join_bind h.sound calm fun n first ended => ?_
  have h := (h.evolves first).of_upTo ended
  split <;> exact h.meets_pure fun _ _ h => h

/-- The caller keeps its memory until the launch is over, and the tables go after that. -/
theorem meets_computeOnDevice (h : m.Leased leases) (queue : QueueId) (algorithm : Algorithm)
    {input output : MemoryId} (owned : ∀ id ∈ [input, output], ∃ l ∈ leases, l.memory = some id)
    (recordLength count : Nat) (key : Bytes) :
    (computeOnDevice queue algorithm input recordLength output count key).Meets Safe
      (fun _ n => n.Leased leases) m := by
  unfold computeOnDevice
  split
  · exact h.meets_pure fun _ _ h => h
  split
  · exact h.meets_pure fun _ _ h => h
  refine Host.Meets.bind ((h.meets_stage algorithm key queue).mono fun r n _ h => ?_)
  cases r with
  | error e => exact h.meets_pure fun _ _ h => h
  | ok tables =>
    have h : n.Leased ((tables.lease [] :: leases) ++ []) := by simpa using h
    have ready : tables.ready.index < n.events.length :=
      h.covered.known (tables.lease []) (by simp) _ (by simp)
    -- The launch is done for the tables, and for everybody who could have lent the memory.
    have lent : ∀ id ∈ [input, output], ∃ l ∈ tables.lease [] :: leases, l.memory = some id := by
      intro id mem
      obtain ⟨l, leased, same⟩ := owned id mem
      exact ⟨l, List.mem_cons_of_mem _ leased, same⟩
    refine Host.Meets.bind ((meets_submit _ h (by simpa using ready) ?_).mono ?_)
    · intro id touched
      rcases touches_launch touched with rfl | rfl | here
      · exact lent _ (by simp)
      · exact lent _ (by simp)
      · exact ⟨_, List.mem_cons_self, here⟩
    rintro event n - ⟨h, -⟩
    refine Host.Meets.bind ((meets_joinThrow h).mono fun r n _ h => ?_)
    rw [List.append_nil] at h
    exact meets_bind_pure h.meets_drop fun _ _ h => h

end BatchDigest.Machine.Leased
