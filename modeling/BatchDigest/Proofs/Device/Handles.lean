import BatchDigest.Proofs.Device.Quiet

/-!
# Queues that nobody holds

A queue is gone for its callers with the last handle to it, and it stays gone: no worker makes a
handle, and a caller makes one only of one that it holds (`Call.gone`, `Gone.advance`). A worker
waits for a queue only after that queue is gone (`gone_of_advance?`).
-/

namespace BatchDigest

namespace Machine

variable {m after : Machine} {q p target : QueueId}

theorem Gone.of_queue? (gone : m.Gone q) (same : after.queue? q = m.queue? q) : after.Gone q := by
  refine ⟨same ▸ gone.known, ?_⟩
  unfold Machine.handles
  rw [same]
  exact gone.handles

/-- A queue stays gone where no handle is made. -/
theorem Gone.of_le (gone : m.Gone q) (known : (after.queue? q).isSome)
    (less : after.handles q ≤ m.handles q) : after.Gone q :=
  ⟨known, Nat.le_zero.1 (gone.handles ▸ less)⟩

theorem Gone.updateQueue {change : Queue → Queue} (gone : m.Gone q)
    (less : ∀ queue, (change queue).handles ≤ queue.handles) :
    (m.updateQueue p change).Gone q := by
  refine gone.of_le ?_ (m.handles_updateQueue_le p change less q)
  rw [queue?_updateQueue]
  split
  · rw [Option.isSome_map]
    exact gone.known
  · exact gone.known

theorem Gone.allocate (gone : m.Gone q) (kind : MemoryKind) (length : Nat) :
    (m.allocate p kind length).2.Gone q := by
  unfold Machine.allocate
  split
  · exact gone
  next old _ =>
    have booked : (m.updateQueue p fun queue =>
        { queue with ledger := (old.ledger.allocate kind length).2 }).Gone q :=
      gone.updateQueue fun _ => Nat.le_refl _
    dsimp only
    split
    · exact booked
    · exact booked.of_queue? rfl

theorem Gone.giveBack (gone : m.Gone q) (id : MemoryId) : (m.giveBack id).Gone q := by
  unfold Machine.giveBack
  split
  · exact gone
  · exact gone.updateQueue fun _ => Nat.le_refl _

theorem Gone.release (gone : m.Gone q) (id : MemoryId) : (m.release id).Gone q := by
  have dropped : (m.dropOwner id).2.Gone q := gone.of_queue? rfl
  unfold Machine.release
  dsimp only
  split
  · exact dropped.giveBack id
  · exact dropped

/-! ## Workers -/

/-- **A queue that is gone stays so**, whatever a worker does. -/
theorem Gone.advance (gone : m.Gone p) (step : m.advance? q = some after) : after.Gone p := by
  have turn := turn_of_advance? step
  obtain ⟨_, _, _, _, moved⟩ := turn.moved
  refine gone.of_le ?_ (turn.handles_le p)
  rw [moved.base.isSome_queue?]
  exact gone.known

/-- **A worker comes to wait for a queue only after the last handle to it is gone.** -/
theorem gone_of_advance? {left : List QueueId} {due? : Option Due}
    (step : m.advance? q = some after) (closing : after.activity q = .closing target left due?) :
    after.Gone target := by
  obtain ⟨_, _, heldUp⟩ := (turn_of_advance? step).heldUp closing
  exact heldUp.gone

end Machine

open Machine

/-- **A caller cannot bring a queue back that is gone.** -/
theorem Call.gone {m : Machine} {c : Call} {q : QueueId} (allowed : c.Allowed m)
    (gone : m.Gone q) : (c.apply m).Gone q := by
  cases c with
  | createQueue config =>
    obtain ⟨queue, found⟩ := Option.isSome_iff_exists.1 gone.known
    exact gone.of_queue? (List.getElem?_append_left (List.getElem?_eq_some_iff.1 found).1)
  | holdQueue queue =>
    have other : q ≠ queue := by
      rintro rfl
      exact absurd gone.handles (Nat.ne_of_gt allowed)
    refine gone.of_queue? ?_
    show (m.addHandle queue).queue? q = m.queue? q
    unfold addHandle
    rw [queue?_updateQueue, if_neg other]
  | dropQueue queue => exact gone.updateQueue fun _ => Nat.sub_le _ _
  | submit queue label deps work =>
    have submitted := submitted_submit label deps work (isClosed_of_handles allowed.1)
    refine ⟨?_, (submitted.handles q).trans gone.handles⟩
    rw [Call.apply, submitted.base.isSome_queue?]
    exact gone.known
  | createEvent fault? => cases fault? <;> exact gone.of_queue? rfl
  | createBuffer | writeBuffer | createGate | openGate | holdMemory | dropMemory =>
    exact gone.of_queue? rfl
  | allocate queue kind length => exact gone.allocate kind length
  | giveBack memory => exact gone.giveBack memory
  | release memory => exact gone.release memory
  | writeMemory memory offset data =>
    show (m.writeMemory memory offset data).2.Gone q
    unfold Machine.writeMemory
    split
    · exact gone
    · split <;> exact gone.of_queue? rfl

end BatchDigest
