import BatchDigest.Batch.Hasher
import BatchDigest.Proofs.Batch.Partition
import BatchDigest.Proofs.Device.Stock

/-!
# What hashers and handles do to a machine

Joining gives memory back and nothing else. The steps of a share are submitted and its tables
shared, and nothing is allocated meanwhile. Making a hasher and hashing a batch do all of this and
allocate besides. `Machine.Giving`, `Machine.Sharing` and `Machine.Taking` say of a relation that it
has room for that, and every operation leads along it then, whatever it answers.

What a batch answers depends on how far its shares get. `Hasher.meets_hash` is the rule for that: it
asks for an invariant that each share carries on, and for what a join leaves when one fails.
-/

namespace BatchDigest

namespace Machine

/-- Memory that is given back leads along the relation, also when the last owner lets time go by
before it does. -/
structure Giving (R : Machine → Machine → Prop) : Prop extends Flow R where
  release : ∀ m id, R m (m.release id)
  leave : ∀ {m n id}, (m.dropOwner id).1 = true → (m.dropOwner id).2.Evolves n →
    R m (n.giveBack id)

/-- A release is an owner that goes, and after the last one the memory. -/
theorem Flow.giving {R : Machine → Machine → Prop} (flow : Flow R)
    (dropOwner : ∀ m id, R m (m.dropOwner id).2) (giveBack : ∀ m id, R m (m.giveBack id)) :
    Giving R where
  toFlow := flow
  release m id := by
    unfold release
    dsimp only
    split
    · exact flow.trans (dropOwner m id) (giveBack _ id)
    · exact dropOwner m id
  leave {m n id} _ later :=
    flow.trans (flow.trans (dropOwner m id) (flow.evolves later)) (giveBack n id)

/-- Work that is submitted and memory that is shared lead along the relation. -/
structure Sharing (R : Machine → Machine → Prop) : Prop extends Flow R where
  addOwner : ∀ m id, R m (m.addOwner id)
  addEvent : ∀ m {s : Status}, s ≠ .pending → R m (m.addEvent s).2
  submit : ∀ m q label deps {work : Work}, work.held = [] → (∀ gate, work ≠ .gate gate) →
    R m (m.submit q label deps work).2

/-- All that it takes to stage tables and to hash batches leads along the relation. -/
structure Taking (R : Machine → Machine → Prop) : Prop extends Giving R, Sharing R where
  allocate : ∀ m q length, R m (m.allocate q .device length).2

theorem giving_keeps {G : Ledger → Ledger → Prop} (course : Ledger.Course G) : Giving (Keeps G) :=
  ⟨flow_keeps course, keeps_release course, keeps_leave course⟩

theorem sharing_keeps {G : Ledger → Ledger → Prop} (course : Ledger.Course G) :
    Sharing (Keeps G) where
  toFlow := flow_keeps course
  addOwner := keeps_addOwner course
  addEvent m s _ := by
    have books : m.SameBooks (m.addEvent s).2 := sameBooks_of_queues rfl rfl
    exact books.keeps course
  submit m q label deps work _ _ := (m.sameBooks_submit q label deps work).keeps course

theorem taking_keeps : Taking (Keeps Ledger.Continues) where
  __ := giving_keeps Ledger.course_continues
  __ := sharing_keeps Ledger.course_continues
  allocate m q length := m.keeps_allocate q .device length

end Machine

open Machine

variable {R : Machine → Machine → Prop}

/-- The host lets go of a queue handle, and waits for the queue if it was the last one. -/
theorem Host.always_dropQueue (flow : Flow R) (dropHandle : ∀ m q, R m (m.dropHandle q).2)
    (q : QueueId) : (Host.dropQueue q).Always R := by
  refine flow.bind (flow.call fun m => dropHandle m q) fun last => ?_
  cases last
  · exact flow.pure ()
  · exact flow.await (flow.pure ())

section Giving

variable (giving : Giving R)

include giving

theorem StagedTables.always_drop (tables : StagedTables) : tables.drop.Always R := by
  have flow := giving.toFlow
  unfold StagedTables.drop
  split
  · exact flow.pure ()
  next memory _ =>
    intro m
    refine Host.meets_call_bind fun n first => ⟨trivial, ?_⟩
    have before := flow.evolves first
    split
    next last =>
      intro k second
      refine ⟨trivial, fun _ l third => ⟨trivial, fun l' fourth => ⟨trivial, fun k' fifth => ?_⟩⟩⟩
      have left := giving.leave last ((second.trans third).trans fourth)
      exact ⟨trivial, flow.trans (flow.trans before left) (flow.evolves fifth)⟩
    next more =>
      intro k second
      have left := giving.release n memory
      unfold release at left
      dsimp only at left
      rw [if_neg more] at left
      exact ⟨trivial, flow.trans (flow.trans before left) (flow.evolves second)⟩

theorem StagedTables.always_dropAll (all : List StagedTables) :
    (StagedTables.dropAll all).Always R := by
  induction all with
  | nil => exact giving.toFlow.pure ()
  | cons tables rest ih => exact giving.toFlow.bind (tables.always_drop giving) fun _ => ih

theorem BatchItem.always_release (item : BatchItem) : item.release.Always R :=
  giving.toFlow.bind (giving.toFlow.update fun m => giving.release m _) fun _ =>
    giving.toFlow.bind (giving.toFlow.update fun m => giving.release m _) fun _ =>
      item.tables.always_drop giving

theorem BatchItem.always_releaseAll (items : List BatchItem) :
    (BatchItem.releaseAll items).Always R := by
  induction items with
  | nil => exact giving.toFlow.pure ()
  | cons item rest ih => exact giving.toFlow.bind (item.always_release giving) fun _ => ih

theorem Handle.always_join (h : Handle) : h.join.Always R :=
  giving.toFlow.bind (giving.toFlow.joinAll _) fun _ =>
    giving.toFlow.bind (BatchItem.always_releaseAll giving _) fun _ => giving.toFlow.pure _

theorem Handle.always_wait (h : Handle) : h.wait.Always R :=
  giving.toFlow.bind (h.always_join giving) fun _ => giving.toFlow.pure ()

theorem Handle.always_waitAndThrow (h : Handle) : h.waitAndThrow.Always R := by
  refine giving.toFlow.bind (h.always_join giving) fun fault? => ?_
  cases fault? <;> exact giving.toFlow.pure _

theorem Hasher.always_dropQueues (dropHandle : ∀ m q, R m (m.dropHandle q).2)
    (runners : List Runner) : (Hasher.dropQueues runners).Always R := by
  have flow := giving.toFlow
  induction runners with
  | nil => exact flow.pure ()
  | cons runner rest ih => exact flow.bind (Host.always_dropQueue flow dropHandle _) fun _ => ih

/-- Where a queue handle can go as well, so can a hasher. -/
theorem Hasher.always_drop (dropHandle : ∀ m q, R m (m.dropHandle q).2) (h : Hasher) :
    h.drop.Always R :=
  giving.toFlow.bind (always_dropQueues giving dropHandle _) fun _ =>
    StagedTables.always_dropAll giving _

end Giving

section Sharing

variable (sharing : Sharing R)

include sharing

theorem StagedTables.always_share (tables : StagedTables) : tables.share.Always R := by
  unfold StagedTables.share
  split
  · exact sharing.toFlow.pure ()
  · exact sharing.toFlow.update fun m => sharing.addOwner m _

theorem Batch.always_copyIn (batch : Batch) (slice : Slice) (queue : QueueId) (memory : MemoryId) :
    (batch.copyIn slice queue memory).Always R := by
  have flow := sharing.toFlow
  unfold Batch.copyIn
  dsimp only
  split
  · exact flow.call fun m => sharing.addEvent m Status.complete_ne_pending
  · split
    · exact flow.call fun m => sharing.submit m _ _ _ rfl nofun
    · exact flow.bind (flow.ask _) fun _ =>
        flow.call fun m => sharing.addEvent m (Status.failed_ne_pending _)

theorem Batch.always_enqueue (batch : Batch) (slice : Slice) (queue : QueueId)
    (tables : StagedTables) (input output : MemoryId) :
    (batch.enqueue slice queue tables input output).Always R := by
  have flow := sharing.toFlow
  unfold Batch.enqueue StagedTables.launch
  refine flow.bind (batch.always_copyIn sharing slice queue input) fun _ => ?_
  refine flow.bind (flow.call fun m => sharing.submit m _ _ _ rfl nofun) fun _ => ?_
  refine flow.bind (flow.call fun m => sharing.submit m _ _ _ rfl nofun) fun _ => ?_
  exact flow.bind (tables.always_share sharing) fun _ => flow.pure _

end Sharing

section Taking

variable (taking : Taking R)

include taking

theorem StagedTables.always_stage (algorithm : Algorithm) (key : Bytes) (queue : QueueId) :
    (StagedTables.stage algorithm key queue).Always R := by
  have flow := taking.toFlow
  unfold StagedTables.stage
  split
  · exact flow.pure _
  · have none : (StagedTables.none algorithm).Always R :=
      flow.bind (flow.call fun m => taking.addEvent m Status.complete_ne_pending) fun _ =>
        flow.pure _
    exact flow.map none _
  · refine flow.bind (flow.call fun m => taking.allocate m _ _) fun r => ?_
    cases r with
    | error e => exact flow.pure _
    | ok memory =>
      exact flow.bind (flow.call fun m => taking.submit m _ _ _ rfl nofun) fun _ => flow.pure _

theorem Batch.always_dispatch (batch : Batch) (slice : Slice) (queue : QueueId)
    (tables : StagedTables) : (batch.dispatch slice queue tables).Always R := by
  have flow := taking.toFlow
  refine flow.bind (flow.call fun m => taking.allocate m _ _) fun r => ?_
  cases r with
  | error e => exact flow.pure _
  | ok input =>
    refine flow.bind (flow.call fun m => taking.allocate m _ _) fun r => ?_
    cases r with
    | error e =>
      exact flow.bind (flow.update fun m => taking.release m _) fun _ => flow.pure _
    | ok output => exact flow.map (batch.always_enqueue taking.toSharing _ _ _ _ _) _

theorem Hasher.always_dispatchAll (batch : Batch) (rest : List (Station × Slice))
    (items : List BatchItem) : (Hasher.dispatchAll batch rest items).Always R := by
  have flow := taking.toFlow
  induction rest generalizing items with
  | nil => exact flow.pure _
  | cons next rest ih =>
    refine flow.bind (batch.always_dispatch taking _ _ _) fun r => ?_
    cases r with
    | error e => exact flow.bind (Handle.always_wait taking.toGiving _) fun _ => flow.pure _
    | ok item => exact ih _

theorem Hasher.always_hash (h : Hasher) (batch : Batch) : (h.hash batch).Always R := by
  unfold Hasher.hash
  split
  · exact taking.toFlow.pure _
  · exact Hasher.always_dispatchAll taking batch _ _

end Taking

/-! ## Making a hasher -/

section Making

variable {algorithm : Algorithm} {key : Bytes}

theorem Hasher.always_stageAll (giving : Giving R)
    (stage : ∀ q, (StagedTables.stage algorithm key q).Always R) (runners : List Runner)
    (staged : List Station) : (Hasher.stageAll algorithm key runners staged).Always R := by
  have flow := giving.toFlow
  induction runners generalizing staged with
  | nil => exact flow.pure _
  | cons runner rest ih =>
    refine flow.bind (stage _) fun r => ?_
    cases r with
    | error e => exact flow.bind (StagedTables.always_dropAll giving _) fun _ => flow.pure _
    | ok tables => exact ih _

theorem Hasher.always_holdQueues (flow : Flow R) (runners : List Runner)
    (addHandle : ∀ m, ∀ r ∈ runners, R m (m.addHandle r.queue)) :
    (Hasher.holdQueues runners).Always R := by
  induction runners with
  | nil => exact flow.pure ()
  | cons runner rest ih =>
    exact flow.bind (flow.update fun m => addHandle m runner List.mem_cons_self) fun _ =>
      ih fun m r mem => addHandle m r (List.mem_cons_of_mem _ mem)

/-- A hasher is made along a relation that tables are staged along. -/
theorem Hasher.always_create (giving : Giving R)
    (stage : ∀ q, (StagedTables.stage algorithm key q).Always R) (runners : List Runner)
    (addHandle : ∀ m, ∀ r ∈ runners, R m (m.addHandle r.queue)) :
    (Hasher.create algorithm runners key).Always R := by
  have flow := giving.toFlow
  unfold Hasher.create
  split
  · exact flow.pure _
  · refine flow.bind (flow.ask _) fun named => ?_
    split
    · exact flow.pure _
    · refine flow.bind (Hasher.always_stageAll giving stage _ _) fun r => ?_
      cases r with
      | error e => exact flow.pure _
      | ok stations =>
        exact flow.bind (Hasher.always_holdQueues flow runners addHandle) fun _ => flow.pure _

end Making

/-! ## Going through the shares of a batch -/

/-- A batch without records has no shares. -/
theorem Hasher.shares_zero (h : Hasher) : h.shares 0 = [] := by
  refine List.eq_nil_iff_forall_not_mem.2 fun next mem => ?_
  obtain ⟨inside, filled⟩ := List.mem_filter.1 mem
  have bounds := (Slice.bounds_of_mem_cutFrom (Nat.zero_le _) _ (Nat.le_refl 0)
    (List.of_mem_zip inside).2).2
  have none : next.2.count = 0 := by
    unfold Slice.stop at bounds
    omega
  simp [Slice.isEmpty, none] at filled

section Rule

variable {b : Batch} {I : List ((Station × Slice) × BatchItem) → Machine → Prop}
  {G : List ((Station × Slice) × BatchItem) → Station × Slice → DeviceError → Machine → Prop}
  {shares : List (Station × Slice)}

/-- What a batch comes to: all shares are in flight, or one of them could not be dispatched and
those before it are joined. -/
def Hasher.Outcome (I : List ((Station × Slice) × BatchItem) → Machine → Prop)
    (G : List ((Station × Slice) × BatchItem) → Station × Slice → DeviceError → Machine → Prop)
    (shares : List (Station × Slice)) : Except Error Handle → Machine → Prop
  | .ok handle, n => ∃ all, handle.items = all.map (·.2) ∧ all.map (·.1) = shares ∧ I all n
  | .error e, n => ∃ done next later d, shares = done.map (·.1) ++ next :: later ∧
      e = .device d ∧ G done next d n

/-- Each share carries an invariant on, and a join of those before it leaves something known when it
fails. -/
def Hasher.Carries (b : Batch) (I : List ((Station × Slice) × BatchItem) → Machine → Prop)
    (G : List ((Station × Slice) × BatchItem) → Station × Slice → DeviceError → Machine → Prop)
    (shares : List (Station × Slice)) : Prop :=
  ∀ done next later m, shares = done.map (·.1) ++ next :: later → I done m →
    (b.dispatch next.2 next.1.runner.queue next.1.tables).Meets (fun _ => True) (fun r n =>
      (∀ item, r = .ok item → I (done ++ [(next, item)]) n) ∧
      ∀ e, r = .error e → (Handle.wait ⟨done.map (·.2)⟩).Meets (fun _ => True)
        (fun _ k => G done next e k) n) m

/-- Two invariants are carried on together. -/
theorem Hasher.Carries.and {I' : List ((Station × Slice) × BatchItem) → Machine → Prop}
    {G' : List ((Station × Slice) × BatchItem) → Station × Slice → DeviceError → Machine → Prop}
    (h : Hasher.Carries b I G shares) (h' : Hasher.Carries b I' G' shares) :
    Hasher.Carries b (fun done n => I done n ∧ I' done n)
      (fun done next e n => G done next e n ∧ G' done next e n) shares := by
  intro done next later m split both
  refine ((h done next later m split both.1).and (h' done next later m split both.2)).mono ?_
  rintro r n - ⟨first, second⟩
  exact ⟨fun item answer => ⟨first.1 item answer, second.1 item answer⟩,
    fun e answer => (first.2 e answer).and (second.2 e answer)⟩

theorem Hasher.meets_dispatchAll (carries : Hasher.Carries b I G shares)
    (rest : List (Station × Slice)) (done : List ((Station × Slice) × BatchItem))
    (split : shares = done.map (·.1) ++ rest) {m : Machine} (start : ∀ n, m.Evolves n → I done n) :
    (Hasher.dispatchAll b rest (done.map (·.2))).Meets (fun _ => True)
      (Hasher.Outcome I G shares) m := by
  induction rest generalizing m done with
  | nil =>
    rw [List.append_nil] at split
    exact fun n first => ⟨trivial, done, rfl, split.symm, start n first⟩
  | cons next rest ih =>
    refine Host.Meets.bind ((carries done next rest m split (start m .refl)).lasting.mono ?_)
    intro r n _ goal
    cases r with
    | error e =>
      refine Host.Meets.bind (((goal n .refl).2 e rfl).lasting.mono fun _ n' _ failed => ?_)
      exact fun k later => ⟨trivial, done, next, rest, e, split, rfl, failed k later⟩
    | ok item =>
      have goal := ih (done ++ [(next, item)]) (by simpa using split)
        fun k later => (goal k later).1 item rfl
      simpa using goal

/-- **The rule for hashing a batch.** -/
theorem Hasher.meets_hash (h : Hasher) (carries : Hasher.Carries b I G (h.shares b.count))
    {m : Machine} (start : ∀ n, m.Evolves n → I [] n) :
    (h.hash b).Meets (fun _ => True) (Hasher.Outcome I G (h.shares b.count)) m := by
  unfold Hasher.hash
  split
  next empty =>
    refine fun n first => ⟨trivial, [], rfl, ?_, start n first⟩
    rw [empty, h.shares_zero]
    rfl
  next => exact Hasher.meets_dispatchAll carries _ [] rfl start

end Rule

end BatchDigest
