import BatchDigest.Proofs.Batch.Joining

/-!
# What programs keep at all times

`Host.Always` relates the machine before a program to the machine after it. For what must not fail
even for a moment that is not enough: a program that waits may not come to its end. So here an
invariant is kept at every step (`Host.Maintains`). Where workers keep it, and calls that leave jobs
and events alone (`Machine.Steadfast`), so does everything that gives memory, tables and queue
handles back.
-/

namespace BatchDigest

open Machine

/-- Steps of workers keep the invariant, and calls that concern no job and make no event. -/
structure Machine.Steadfast (I : Machine → Prop) : Prop where
  step : ∀ {m q after}, I m → m.advance? q = some after → I after
  still : ∀ {m after}, I m → m.Still after → after.events = m.events → I after

/-- Whenever the workers take their steps, the program keeps the invariant at all times. -/
def Host.Maintains {α : Type} (I : Machine → Prop) (p : Host α) : Prop :=
  ∀ m, I m → p.Meets I (fun _ n => I n) m

theorem Machine.events_release (m : Machine) (id : MemoryId) :
    (m.release id).events = m.events := by
  unfold release dropOwner giveBack
  dsimp only
  split
  · split <;> rfl
  · rfl

theorem Machine.events_giveBack (m : Machine) (id : MemoryId) :
    (m.giveBack id).events = m.events := by
  unfold giveBack
  split <;> rfl

namespace Machine.Steadfast

variable {I : Machine → Prop} {m n : Machine} {α β : Type} (steadfast : Steadfast I)

include steadfast

theorem evolves (h : I m) (evolves : m.Evolves n) : I n := by
  induction evolves with
  | refl => exact h
  | step _ q step ih => exact steadfast.step ih step

/-! ## Programs from their parts -/

theorem pure (value : α) : (Pure.pure value : Host α).Maintains I :=
  fun _ h _ later => ⟨steadfast.evolves h later, steadfast.evolves h later⟩

omit steadfast in
theorem bind {p : Host α} {next : α → Host β} (first : p.Maintains I)
    (second : ∀ a, (next a).Maintains I) : (p >>= next).Maintains I :=
  fun m h => Host.Meets.bind ((first m h).mono fun a n _ h => second a n h)

theorem call {f : Machine → α × Machine} (still : ∀ m : Machine, m.Still (f m).2)
    (events : ∀ m, (f m).2.events = m.events) : (Host.call f).Maintains I := fun _ h n first =>
  have h := steadfast.evolves h first
  ⟨h, steadfast.pure (f n).1 _ (steadfast.still h (still n) (events n))⟩

theorem update {f : Machine → Machine} (still : ∀ m : Machine, m.Still (f m))
    (events : ∀ m, (f m).events = m.events) : (Host.update f).Maintains I := fun _ h n first =>
  have h := steadfast.evolves h first
  ⟨h, steadfast.pure () _ (steadfast.still h (still n) (events n))⟩

theorem await {wait : Wait} {p : Host α} (next : p.Maintains I) :
    (Host.await wait p).Maintains I := fun _ h n first =>
  have h := steadfast.evolves h first
  ⟨h, fun _ => next n h⟩

theorem join (e : EventId) : (Host.join e).Maintains I :=
  steadfast.await fun _ h n first =>
    have h := steadfast.evolves h first
    ⟨h, steadfast.pure _ n h⟩

theorem joinAll (events : List EventId) : (Host.joinAll events).Maintains I := by
  induction events with
  | nil => exact steadfast.pure none
  | cons e rest ih => exact bind (steadfast.join e) fun _ => bind ih fun _ => steadfast.pure _

/-! ## Giving back -/

theorem dropQueue (q : QueueId) : (Host.dropQueue q).Maintains I := by
  refine bind (steadfast.call (fun m => m.still_dropHandle q) fun _ => rfl) fun last => ?_
  cases last
  · exact steadfast.pure ()
  · exact steadfast.await (steadfast.pure ())

theorem release (id : MemoryId) : (Host.update (·.release id)).Maintains I :=
  steadfast.update (fun m => (m.quiet_release id).toStill) fun m => m.events_release id

theorem dropTables (tables : StagedTables) : tables.drop.Maintains I := by
  unfold StagedTables.drop
  split
  · exact steadfast.pure ()
  next memory _ =>
    refine bind (steadfast.call (fun m => (m.quiet_dropOwner memory).toStill) fun _ => rfl)
      fun last => ?_
    cases last
    · exact steadfast.pure ()
    · exact bind (steadfast.join _) fun _ => steadfast.update
        (fun m => (m.quiet_giveBack memory).toStill) fun m => m.events_giveBack memory

theorem dropAllTables (all : List StagedTables) : (StagedTables.dropAll all).Maintains I := by
  induction all with
  | nil => exact steadfast.pure ()
  | cons tables rest ih => exact bind (steadfast.dropTables tables) fun _ => ih

theorem releaseAll (items : List BatchItem) : (BatchItem.releaseAll items).Maintains I := by
  induction items with
  | nil => exact steadfast.pure ()
  | cons item rest ih =>
    refine bind ?_ fun _ => ih
    exact bind (steadfast.release _) fun _ => bind (steadfast.release _) fun _ =>
      steadfast.dropTables _

theorem joinHandle (h : Handle) : h.join.Maintains I :=
  bind (steadfast.joinAll _) fun _ => bind (steadfast.releaseAll _) fun _ => steadfast.pure _

theorem wait (h : Handle) : h.wait.Maintains I :=
  bind (steadfast.joinHandle h) fun _ => steadfast.pure ()

theorem waitAndThrow (h : Handle) : h.waitAndThrow.Maintains I := by
  refine bind (steadfast.joinHandle h) fun fault? => ?_
  cases fault? <;> exact steadfast.pure _

theorem dropQueues (runners : List Runner) : (Hasher.dropQueues runners).Maintains I := by
  induction runners with
  | nil => exact steadfast.pure ()
  | cons runner rest ih => exact bind (steadfast.dropQueue _) fun _ => ih

theorem dropHasher (h : Hasher) : h.drop.Maintains I :=
  bind (steadfast.dropQueues _) fun _ => steadfast.dropAllTables _

/-! ## Holding on -/

theorem share (tables : StagedTables) : tables.share.Maintains I := by
  unfold StagedTables.share
  split
  · exact steadfast.pure ()
  · exact steadfast.update (fun m => (m.quiet_addOwner _).toStill) fun _ => rfl

theorem holdQueues (runners : List Runner) : (Hasher.holdQueues runners).Maintains I := by
  induction runners with
  | nil => exact steadfast.pure ()
  | cons runner rest ih =>
    exact bind (steadfast.update (fun m => (m.quiet_addHandle runner.queue).toStill) fun _ => rfl)
      fun _ => ih

end Machine.Steadfast

end BatchDigest
