import BatchDigest.Batch.Compute
import BatchDigest.Proofs.Device.Lease

/-!
# Who holds device memory

Device memory has three kinds of owners here: a hasher owns its tables, a share in flight owns its
input and its output and is one more owner of the tables, and a caller owns what it allocated. Their
leases are read off the objects. Every operation is described by the leases that it takes and gives,
next to those of everybody else, which it leaves alone. So whatever the order in which objects are
made, joined and dropped, the leases of the objects that there are make up the invariant, and the
machine is safe between any two steps.
-/

namespace BatchDigest

open Machine

/-- The lease of an owner of tables. The upload is done for all owners. -/
def StagedTables.lease (tables : StagedTables) (lasts : List EventId) : Lease :=
  ⟨tables.memory, [tables.ready], lasts⟩

@[simp] theorem StagedTables.mem_events_lease {tables : StagedTables} {lasts : List EventId}
    {e : EventId} : e ∈ (tables.lease lasts).events ↔ e = tables.ready ∨ e ∈ lasts := by
  simp [lease, Lease.events]

/-- The leases of a share in flight, until its last event. -/
def BatchItem.leases (item : BatchItem) : List Lease :=
  [⟨some item.input, [], [item.event]⟩, ⟨some item.output, [], [item.event]⟩,
    item.tables.lease [item.event]]

def Handle.leases (h : Handle) : List Lease :=
  h.items.flatMap BatchItem.leases

/-- Every lease of a share waits for the last event of the share. -/
theorem Handle.ended_leases (h : Handle) {m : Machine}
    (resolved : ∀ e ∈ h.items.map (·.event), m.isResolved e) :
    ∀ l ∈ h.leases, ∀ e ∈ l.lasts, m.isResolved e := by
  intro l mem e last
  obtain ⟨item, inside, mem⟩ := List.mem_flatMap.1 mem
  have event : e = item.event := by
    simp only [BatchItem.leases, List.mem_cons, List.not_mem_nil, or_false] at mem
    rcases mem with rfl | rfl | rfl <;> exact List.mem_singleton.1 last
  rw [event]
  exact resolved _ (List.mem_map_of_mem inside)

/-- A hasher has no work of its own but the upload of the tables. -/
def Hasher.leases (h : Hasher) : List Lease :=
  h.stations.map (·.tables.lease [])

/-- The leases that come with a result, if there is one. -/
def Lease.ofResult {ε α : Type} (leases : α → List Lease) : Except ε α → List Lease
  | .ok a => leases a
  | .error _ => []

@[simp] theorem Lease.ofResult_ok {ε α : Type} (leases : α → List Lease) (a : α) :
    Lease.ofResult (ε := ε) leases (.ok a) = leases a := rfl

@[simp] theorem Lease.ofResult_error {ε α : Type} (leases : α → List Lease) (e : ε) :
    Lease.ofResult leases (.error e) = [] := rfl

namespace Machine.Leased

variable {m n : Machine} {leases mine others : List Lease} {α β : Type}
  {goal : β → Machine → Prop}

/-! ## Steps of programs under leases -/

theorem meets_pure {value : β} (h : m.Leased leases)
    (ends : ∀ n, m.Evolves n → n.Leased leases → goal value n) :
    (pure value : Host β).Meets Safe goal m :=
  Host.meets_pure fun n first => ⟨(h.evolves first).safe, ends n first (h.evolves first)⟩

/-- A program that is over after an operation, with a value of its own. -/
theorem meets_bind_pure {operation : Host α} {after : α → List Lease} {value : α → β}
    (h : operation.Meets Safe (fun a n => n.Leased (after a)) m)
    (ends : ∀ a n, n.Leased (after a) → goal (value a) n) :
    (operation >>= fun a => pure (value a)).Meets Safe goal m :=
  Host.Meets.bind (h.mono fun a _ _ h => h.meets_pure fun n _ h => ends a n h)

theorem meets_call_bind {f : Machine → α × Machine} {next : α → Host β} (h : m.Leased leases)
    (step : ∀ n, m.Evolves n → n.Leased leases → (next (f n).1).Meets Safe goal (f n).2) :
    (Host.call f >>= next).Meets Safe goal m :=
  Host.meets_call_bind fun n first => ⟨(h.evolves first).safe, step n first (h.evolves first)⟩

/-- The last call of a program. -/
theorem meets_call {f : Machine → β × Machine} (after : β → List Lease) (h : m.Leased leases)
    (step : ∀ n, m.Evolves n → n.Leased leases → (f n).2.Leased (after (f n).1) ∧
      ∀ n', (f n).2.Evolves n' → n'.Leased (after (f n).1) → goal (f n).1 n') :
    (Host.call f).Meets Safe goal m := by
  intro n first
  obtain ⟨h', ends⟩ := step n first (h.evolves first)
  exact ⟨(h.evolves first).safe, h'.meets_pure ends⟩

theorem meets_update {f : Machine → Machine} {goal : Unit → Machine → Prop} (after : List Lease)
    (h : m.Leased leases) (step : ∀ n, m.Evolves n → n.Leased leases → (f n).Leased after ∧
      ∀ n', (f n).Evolves n' → n'.Leased after → goal () n') :
    (Host.update f).Meets Safe goal m := by
  intro n first
  obtain ⟨h', ends⟩ := step n first (h.evolves first)
  exact ⟨(h.evolves first).safe, h'.meets_pure ends⟩

theorem addEvent (h : m.Leased leases) {s : Status} (resolved : s ≠ .pending) :
    (m.addEvent s).2.Leased leases :=
  h.calm (m.steady_addEvent resolved) (sameStore_of_queues rfl rfl) rfl

/-- Work is put into a queue on behalf of some owners. Its event outlasts all that is there. -/
theorem meets_submit (mine : List Lease) (h : m.Leased (mine ++ others)) {queue : QueueId}
    {label : String} {deps : List EventId} {work : Work}
    (known : ∀ d ∈ deps, d.index < m.events.length)
    (touched : ∀ id, .memory id ∈ work.touches → ∃ l ∈ mine, l.memory = some id) :
    (Host.call (·.submit queue label deps work)).Meets Safe
      (fun e n => n.Leased (mine.map (·.upTo e) ++ others) ∧ n.IsOn queue e ∧
        ∀ d, m.IsOn queue d → n.IsOn queue d ∧ n.Outlasts e d) m := by
  refine h.meets_call (fun e => mine.map (·.upTo e) ++ others) fun n first h' => ?_
  rw [← first.length_events h.sound] at known
  have submitted := h'.submit (q := queue) mine label known touched
  refine ⟨submitted, fun n' later h'' => ⟨h'', ?_, fun d on => ?_⟩⟩
  · exact (isOn_submit queue label deps work h'.sound).evolves submitted.sound later
  · have on := on.evolves h.sound first
    exact ⟨(on.submit queue label deps work).evolves submitted.sound later,
      (outlasts_submit label deps work on).evolves submitted.sound later⟩

/-! ## Tables -/

theorem meets_stage (h : m.Leased others) (algorithm : Algorithm) (key : Bytes)
    (queue : QueueId) : (StagedTables.stage algorithm key queue).Meets Safe
      (fun r n => n.Leased (Lease.ofResult (fun tables => [tables.lease []]) r ++ others)) m := by
  unfold StagedTables.stage
  split
  next => exact h.meets_pure fun _ _ h => h
  next =>
    -- An algorithm without tables has a lease on nothing.
    refine Host.Meets.bind (h.meets_call_bind fun n _ h => ?_)
    have h := h.addEvent Status.complete_ne_pending
    have h := h.cons_none (l := ⟨none, [⟨n.events.length⟩], []⟩) rfl
      (by simp [Lease.events, length_events_addEvent])
    exact h.meets_pure fun n _ h => h.meets_pure fun _ _ h => h
  next blob _ _ =>
    refine h.meets_call_bind fun n _ h => ?_
    cases made : (n.allocate queue .device blob.length).1 with
    | error e => exact (h.allocate_error made).meets_pure fun _ _ h => h
    | ok memory =>
      -- The upload is done by the first owner on behalf of all who will join it.
      obtain ⟨h, alone⟩ := h.allocate made
      refine Host.Meets.bind ((meets_submit [⟨some memory, [], []⟩] h (List.forall_mem_nil _)
        ?_).mono fun ready n _ goal => ?_)
      · simp [Work.touches, Work.reads, Work.writes]
      · exact (goal.1.share alone).meets_pure fun _ _ h => h

/-- A new owner of tables that somebody owns. -/
theorem meets_share {tables : StagedTables} (lasts : List EventId) (h : m.Leased leases)
    (mem : tables.lease lasts ∈ leases) : tables.share.Meets Safe
      (fun _ n => n.Leased (tables.lease [] :: leases) ∧
        ∀ e d, m.Outlasts e d → n.Outlasts e d) m := by
  have known : tables.ready.index < m.events.length ∧ ∀ e ∈ lasts, e.index < m.events.length := by
    simpa using h.covered.known _ mem
  unfold StagedTables.share
  split
  next nothing =>
    have h := h.cons_none (l := tables.lease []) nothing (by simpa using known.1)
    exact h.meets_pure fun n first h' => ⟨h', fun e d before => before.evolves h.sound first⟩
  next memory here =>
    have lease : tables.lease [] = ⟨some memory, [tables.ready], []⟩ := by
      rw [StagedTables.lease, here]
    refine h.meets_update _ fun n first h' => ⟨h'.addOwner mem here, fun n' second joined => ?_⟩
    constructor
    · rw [lease]
      exact joined
    · intro e d before
      have steady : n.Steady (n.addOwner memory) := steady_of_queues rfl rfl
      have sound := steady.sound h'.sound
      exact ((before.evolves h.sound first).steady steady).evolves sound second

/-- An owner of tables goes, whose own work is over. The last one waits for the upload. -/
theorem meets_drop {tables : StagedTables} (h : m.Leased (tables.lease [] :: others)) :
    tables.drop.Meets Safe (fun _ n => n.Leased others) m := by
  unfold StagedTables.drop
  split
  next nothing => exact (h.drop_none nothing).meets_pure fun _ _ h => h
  next memory here =>
    refine h.meets_call_bind fun n _ h => ?_
    obtain ⟨covered, owned⟩ := h.dropOwner here
    have owners := n.owners_dropOwner memory memory
    rw [if_pos rfl] at owners
    split
    next last =>
      -- The last owner waits for the upload. While it does, its lease still covers the upload.
      have one := (n.dropOwner_last memory).1 last
      refine Host.meets_join_bind covered.sound (fun _ later => (covered.evolves later).safe) ?_
      intro n' second ready k third
      have later := second.trans third
      have covered' := covered.evolves later
      have memories := later.memories covered.sound
      have ended := third.isResolved (second.sound covered.sound) ready
      have left : (k.giveBack memory).Leased others := by
        refine covered'.giveBack (owned.of_memories memories) ?_ (by simpa using ended)
        rw [owners_of_memories memories]
        omega
      exact ⟨covered'.safe, left.meets_pure fun _ _ h => h⟩
    next more =>
      have pos := h.owned.pos List.mem_cons_self here
      have ne : n.owners memory ≠ 1 := fun one => more ((n.dropOwner_last memory).2 one)
      exact (covered.leave owned here (by omega) nofun).meets_pure fun _ _ h => h

theorem meets_dropAll (all : List StagedTables) (h : m.Leased (all.map (·.lease []) ++ others)) :
    (StagedTables.dropAll all).Meets Safe (fun _ n => n.Leased others) m := by
  induction all generalizing m with
  | nil => exact h.meets_pure fun _ _ h => h
  | cons tables rest ih => exact Host.Meets.bind (h.meets_drop.mono fun _ n _ h => ih h)

/-! ## Shares -/

theorem meets_releaseItem (item : BatchItem)
    (h : m.Leased (item.leases.map Lease.settled ++ others)) :
    item.release.Meets Safe (fun _ n => n.Leased others) m := by
  refine Host.meets_update_bind fun n first => ⟨(h.evolves first).safe, ?_⟩
  have h := (h.evolves first).release rfl nofun
  refine Host.meets_update_bind fun n second => ⟨(h.evolves second).safe, ?_⟩
  exact ((h.evolves second).release rfl nofun).meets_drop

theorem meets_releaseAll (items : List BatchItem)
    (h : m.Leased ((items.flatMap BatchItem.leases).map Lease.settled ++ others)) :
    (BatchItem.releaseAll items).Meets Safe (fun _ n => n.Leased others) m := by
  induction items generalizing m with
  | nil => exact h.meets_pure fun _ _ h => h
  | cons item rest ih =>
    rw [List.flatMap_cons, List.map_append, List.append_assoc] at h
    exact Host.Meets.bind ((meets_releaseItem item h).mono fun _ n _ h => ih h)

/-- A join waits until the work of the shares is over before it gives anything back. -/
theorem meets_join (handle : Handle) (h : m.Leased (handle.leases ++ others)) :
    handle.join.Meets Safe (fun _ n => n.Leased others) m := by
  have calm := fun n later => (h.evolves (n := n) later).safe
  refine Host.Meets.bind ((Host.meets_joinAll _ h.sound calm).mono ?_)
  rintro fault? n - ⟨first, resolved, -⟩
  have h := (h.evolves first).settle (handle.ended_leases resolved)
  exact meets_bind_pure (meets_releaseAll _ h) fun _ _ h => h

theorem meets_wait (handle : Handle) (h : m.Leased (handle.leases ++ others)) :
    handle.wait.Meets Safe (fun _ n => n.Leased others) m :=
  meets_bind_pure (meets_join handle h) fun _ _ h => h

theorem meets_waitAndThrow (handle : Handle) (h : m.Leased (handle.leases ++ others)) :
    handle.waitAndThrow.Meets Safe (fun _ n => n.Leased others) m := by
  refine Host.Meets.bind ((meets_join handle h).mono fun fault? n _ h => ?_)
  cases fault? <;> exact h.meets_pure fun _ _ h => h

/-! ## Dispatching -/

/-- An event that is resolved from the start may stand for a step that is left out. -/
theorem meets_addEvent {memory : MemoryId} (h : m.Leased (⟨some memory, [], []⟩ :: others))
    (queue : QueueId) {s : Status} (resolved : s ≠ .pending) :
    (Host.call (·.addEvent s)).Meets Safe
      (fun e n => n.Leased (⟨some memory, [], [e]⟩ :: others) ∧ n.IsOn queue e) m := by
  refine h.meets_call (fun e => ⟨some memory, [], [e]⟩ :: others) fun n _ h => ?_
  have h := h.addEvent resolved
  have ended := n.isResolved_addEvent resolved
  refine ⟨h.upTo (known_of_isResolved ended), fun n' later h' => ⟨h', ?_⟩⟩
  exact isOn_of_isResolved h'.sound (later.isResolved h.sound ended) queue

/-- The copy of the records, or what stands for it. -/
theorem meets_copyIn {memory : MemoryId} (h : m.Leased (⟨some memory, [], []⟩ :: others))
    (batch : Batch) (slice : Slice) (queue : QueueId) :
    (batch.copyIn slice queue memory).Meets Safe
      (fun e n => n.Leased (⟨some memory, [], [e]⟩ :: others) ∧ n.IsOn queue e) m := by
  unfold Batch.copyIn
  dsimp only
  split
  · exact h.meets_addEvent queue Status.complete_ne_pending
  · split
    · refine (meets_submit [⟨some memory, [], []⟩] h (List.forall_mem_nil _) ?_).mono ?_
      · simp [Work.touches, Work.reads, Work.writes]
      · exact fun e n _ goal => ⟨goal.1, goal.2.1⟩
    · exact Host.meets_ask_bind fun n first =>
        ⟨(h.evolves first).safe,
          (h.evolves first).meets_addEvent queue (Status.failed_ne_pending _)⟩

/-- Once the last step is in its queue and the share owns its tables, the last event is enough. -/
theorem settle_share (item : BatchItem) {copied computed : EventId}
    (h : m.Leased (item.tables.lease [] :: ([⟨some item.input, [], [item.event, computed, copied]⟩,
      ⟨some item.output, [], [item.event, computed]⟩,
      item.tables.lease [item.event, computed]] ++ others)))
    (outlasts : ∀ d ∈ [computed, copied], m.Outlasts item.event d) :
    m.Leased (item.leases ++ (item.tables.lease [] :: others)) := by
  have last : ∀ d ∈ [item.event, computed, copied], m.Outlasts item.event d :=
    List.forall_mem_cons.2 ⟨.refl m _, outlasts⟩
  have known := h.covered.known
  simp only [List.cons_append, List.nil_append, List.forall_mem_cons] at known
  have event : item.event.index < m.events.length := known.2.1 _ (by simp [Lease.events])
  have ready : item.tables.ready.index < m.events.length := known.1 _ (by simp)
  have h := h.renew (_ :: [_, _, _]) (item.leases ++ [item.tables.lease []])
    (@List.perm_middle _ _ [_, _] [_]) ?_ ?_ ?_
  · rwa [List.append_assoc] at h
  · simp [BatchItem.leases, Lease.events, StagedTables.lease, event, ready]
  · simp [BatchItem.leases, StagedTables.lease]
  · -- Each former lease has a renewed one on its memory; the upload is part of it, and the rest
    -- is over with the last event.
    simp only [List.forall_mem_cons]
    refine ⟨?_, ?_, ?_, ?_, List.forall_mem_nil _⟩
    · exact fun id on d mem => .inr ⟨item.tables.lease [], by simp, on, d, mem, .refl m d⟩
    · intro id on d mem
      exact .inr ⟨⟨some item.input, [], [item.event]⟩, by simp [BatchItem.leases], on, item.event,
        List.mem_singleton.2 rfl, last d mem⟩
    · intro id on d mem
      exact .inr ⟨⟨some item.output, [], [item.event]⟩, by simp [BatchItem.leases], on, item.event,
        List.mem_singleton.2 rfl, last d (List.mem_append_left [copied] mem)⟩
    · intro id on d mem
      refine .inr ⟨item.tables.lease [item.event], by simp [BatchItem.leases], on, ?_⟩
      rcases StagedTables.mem_events_lease.1 mem with rfl | mem
      · exact ⟨_, by simp, .refl m _⟩
      · exact ⟨item.event, by simp, last d (List.mem_append_left [copied] mem)⟩

theorem touches_launch {l : Launch} {id : MemoryId} (h : .memory id ∈ (Work.launch l).touches) :
    id = l.input ∨ id = l.output ∨ l.tables = some id := by
  simp only [Work.touches, Work.reads, Work.writes, List.mem_append, List.mem_cons, List.mem_map,
    Option.mem_toList, Region.memory.injEq, List.not_mem_nil, or_false] at h
  rcases h with (rfl | ⟨other, here, rfl⟩) | rfl
  · exact .inl rfl
  · exact .inr (.inr here)
  · exact .inr (.inl rfl)

/-- The three steps of a share, all of them over with the last one. -/
theorem meets_enqueue {input output : MemoryId} {tables : StagedTables}
    (h : m.Leased (⟨some input, [], []⟩ :: ⟨some output, [], []⟩ :: leases))
    (mem : tables.lease [] ∈ leases) (batch : Batch) (slice : Slice) (queue : QueueId) :
    (batch.enqueue slice queue tables input output).Meets Safe
      (fun item n => n.Leased (item.leases ++ leases)) m := by
  obtain ⟨before, behind, rfl⟩ := List.append_of_mem mem
  have front : (before ++ tables.lease [] :: behind).Perm (tables.lease [] :: (before ++ behind)) :=
    List.perm_middle
  unfold Batch.enqueue
  -- The records are copied on behalf of the input alone.
  refine Host.Meets.bind ((h.meets_copyIn batch slice queue).mono ?_)
  rintro copied n - ⟨h, onCopied⟩
  have h := h.perm ((front.cons _).cons _)
  have ready : tables.ready.index < n.events.length :=
    h.covered.known (tables.lease []) (by simp) _ (by simp)
  -- The launch needs all three memories. The tables are still those of the hasher.
  refine Host.Meets.bind ((meets_submit [⟨some input, [], [copied]⟩,
    ⟨some output, [], []⟩, tables.lease []] h ?_ ?_).mono ?_)
  · simp [onCopied.known, ready]
  · intro id touched
    rcases touches_launch touched with rfl | rfl | here
    · exact ⟨_, List.mem_cons_self, rfl⟩
    · exact ⟨_, List.mem_cons_of_mem _ List.mem_cons_self, rfl⟩
    · exact ⟨tables.lease [], by simp, here⟩
  rintro computed n - ⟨h, onComputed, onto⟩
  have onCopied := (onto copied onCopied).1
  -- The copy of the digests only reads the output, but its event stands for all of the share.
  refine Host.Meets.bind ((meets_submit [⟨some input, [], [computed, copied]⟩,
    ⟨some output, [], [computed]⟩, tables.lease [computed]] h ?_ ?_).mono ?_)
  · simp [onComputed.known]
  · intro id touched
    simp_all [Work.touches, Work.reads, Work.writes]
  rintro event n - ⟨h, -, later⟩
  -- From now on the share owns its tables, whatever becomes of the hasher.
  refine Host.Meets.bind ((h.meets_share [event, computed] ?_).mono ?_)
  · simp [Lease.upTo, StagedTables.lease]
  rintro - n' - ⟨h, kept⟩
  have h := h.settle_share ⟨input, output, event, tables⟩ ?_
  · exact (h.perm (front.symm.append_left _)).meets_pure fun _ _ h => h
  · simp only [List.forall_mem_cons]
    exact ⟨kept _ _ (later _ onComputed).2, kept _ _ (later _ onCopied).2, List.forall_mem_nil _⟩

/-- A share that cannot allocate its memory gives back what it got. -/
theorem meets_dispatch {tables : StagedTables} (h : m.Leased leases)
    (mem : tables.lease [] ∈ leases) (batch : Batch) (slice : Slice) (queue : QueueId) :
    (batch.dispatch slice queue tables).Meets Safe
      (fun r n => n.Leased (Lease.ofResult BatchItem.leases r ++ leases)) m := by
  refine h.meets_call_bind fun n _ h => ?_
  split
  next e failed => exact (h.allocate_error failed).meets_pure fun _ _ h => h
  next input made =>
    refine (h.allocate made).1.meets_call_bind fun n _ h => ?_
    split
    next e failed =>
      -- There is an input, but no room for an output.
      refine Host.meets_update_bind fun n' first => ?_
      have h := (h.allocate_error failed).evolves first
      exact ⟨h.safe, (h.release rfl nofun).meets_pure fun _ _ h => h⟩
    next output made =>
      have h := (h.allocate made).1.perm (.swap _ _ _)
      exact meets_bind_pure (h.meets_enqueue mem batch slice queue) fun _ _ h => h

end Machine.Leased

end BatchDigest
