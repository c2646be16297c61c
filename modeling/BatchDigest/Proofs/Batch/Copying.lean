import BatchDigest.Batch.Compute
import BatchDigest.Proofs.Batch.Results
import BatchDigest.Proofs.Batch.Room
import BatchDigest.Proofs.Kernel.Encoding

/-!
# Hashing from and to the host

The whole of a batch is one slice when it is hashed on one queue. A run of `compute` makes a hasher,
dispatches the slice, joins it and lets go of the hasher (`compute_steps`). What the join left in the
output stays when the hasher goes (`compute_joined`), and the hasher and the slice get their memory
when there is room for both (`compute_granted`).
-/

namespace BatchDigest

open Machine

variable {m n : Machine} {queue : QueueId} {a : Algorithm} {b : Batch} {key : Bytes}

/-- A single queue is always fit for hashing. -/
theorem Runner.check_single (name : String) : check [(name, 1)] = .ok () := by
  have fit : isFitWeight 1 = true := by decide +kernel
  have total : (decide (Slice.totalWeight [1] ≤ 0) || !(Slice.totalWeight [1]).isFinite) = false := by
    decide +kernel
  unfold check checkWeights checkWeights
  simp [fit, total, bind, Except.bind, pure, Except.pure]

/-- The slice of a batch on a single queue. -/
def Batch.whole (b : Batch) : Slice :=
  ⟨0, 0, b.count⟩

/-- The steps of a run: it ends at the first one that fails. -/
theorem compute_steps {r : Except Error Unit}
    (run : Host.Reaches (compute queue a b key, m) (.done r, n)) :
    ∃ creation made, Host.Reaches (Hasher.create a [⟨queue, 1⟩] key, m) (.done creation, made) ∧
      (∀ e, creation = .error e → r = .error e) ∧
      ∀ h, creation = .ok h → ∃ hashing dispatched,
        Host.Reaches (h.hash b, made) (.done hashing, dispatched) ∧
        (∀ e, hashing = .error e → r = .error e) ∧
        ∀ handle, hashing = .ok handle → ∃ joined,
          Host.Reaches (handle.waitAndThrow, dispatched) (.done r, joined) ∧
          Host.Reaches (h.drop, joined) (.done (), n) := by
  obtain ⟨creation, made, creating, rest⟩ := Host.exists_of_reaches_bind run
  refine ⟨creation, made, creating, ?_, ?_⟩
  · intro e failed
    subst failed
    exact (Host.of_reaches_done rest).1
  intro h ok
  subst ok
  obtain ⟨answer, joined, computing, rest⟩ := Host.exists_of_reaches_bind rest
  obtain ⟨_, dropped, dropping, rest⟩ := Host.exists_of_reaches_bind rest
  obtain ⟨same, later⟩ := Host.of_reaches_done rest
  subst same
  obtain ⟨hashing, dispatched, hashes, joins⟩ := Host.exists_of_reaches_bind computing
  refine ⟨hashing, dispatched, hashes, ?_, ?_⟩
  · intro e failed
    subst failed
    exact (Host.of_reaches_done joins).1
  · intro handle ok
    subst ok
    exact ⟨joined, joins, dropping.trans (Host.reaches_of_evolves later)⟩

/-! ## What a run comes to -/

/-- The host holds the queue by a handle that no job carries, and no pending job writes into the
output. -/
structure Machine.Offers (m : Machine) (queue : QueueId) (output : BufferId) : Prop where
  held : m.carried queue < m.handles queue
  found : m.Holds (.buffer output)
  alone : ∀ q, ∀ job ∈ m.pending q, .buffer output ∉ job.work.writes

section

variable {t : Trace} (run : Trace.Reaches .start t)
  (offers : t.machine.Offers queue b.output) (size : b.count ≤ Size.largest)
include run offers size

/-- A batch that is joined has left its digests when the hasher is gone, if it fits, and it fails
if it does not. -/
theorem compute_joined {h : Hasher} {handle : Handle} {answer : Except Error Unit}
    {made dispatched joined : Machine}
    (creation : Host.Reaches (Hasher.create a [⟨queue, 1⟩] key, t.machine) (.done (.ok h), made))
    (hashing : Host.Reaches (h.hash b, made) (.done (.ok handle), dispatched))
    (joining : Host.Reaches (handle.waitAndThrow, dispatched) (.done answer, joined))
    (dropping : Host.Reaches (h.drop, joined) (.done (), n)) :
    b.Hashed a key [b.whole] (t.machine.contents.buffer b.output) (n.contents.buffer b.output) ∧
      b.Reported a.digestSize (t.machine.contents.buffer b.output).length [b.whole]
        (t.machine.runnerName [⟨queue, 1⟩]) answer := by
  obtain ⟨k, rfl, rfl, initial, device, staged, keyed⟩ := Contract.exists_of_accepted
    (Hasher.accepted_of_create creation) b (t.machine.contents.buffer b.output) t.machine.queueName
  have serving : t.machine.Serving [queue] k.device := by
    rw [device]
    exact Trace.serving_of_carried run (by simpa using offers.held)
  have served : ∀ r ∈ [(⟨queue, 1⟩ : Runner)], r.queue ∈ [queue] := by simp
  obtain ⟨passes, -, stations, ready⟩ :=
    (Contract.meets_create staged served serving).goal_of_reaches creation h rfl
  have whole := (k.whole_of_alone offers.found offers.alone initial).passes serving passes
    fun _ _ => id
  have names : ∀ (i : Nat) station, h.stations[i]? = some station →
      k.device station.runner.queue = t.machine.runnerName [⟨queue, 1⟩] i := by
    intro i station found
    unfold Machine.runnerName
    rw [← stations, List.getElem?_map, found, device]
    rfl
  obtain ⟨all, items, shared, flight⟩ := (Contract.meets_hash (passes.serving serving) ready whole
    size names).goal_of_reaches hashing handle rfl
  rw [Hasher.weights_eq stations] at shared
  obtain ⟨hashed, reported⟩ :=
    (flight.meets_waitAndThrow_drifts items keyed shared).goal_of_reaches joining
  rw [← initial]
  exact ⟨hashed n (h.always_drop_drifts.of_reaches dropping), reported⟩

/-- **What a run leaves that succeeds**: the digests of all records, if they fit. -/
theorem compute_hashed
    (computing : Host.Reaches (compute queue a b key, t.machine) (.done (.ok ()), n)) :
    b.Hashed a key [b.whole] (t.machine.contents.buffer b.output) (n.contents.buffer b.output) := by
  obtain ⟨creation, made, creating, refused, rest⟩ := compute_steps computing
  cases creation with
  | error e => cases refused e rfl
  | ok h =>
    obtain ⟨hashing, dispatched, hashes, refused, rest⟩ := rest h rfl
    cases hashing with
    | error e => cases refused e rfl
    | ok handle =>
      obtain ⟨joined, joining, dropping⟩ := rest handle rfl
      exact (compute_joined run offers size creating hashes joining dropping).1

/-- **A batch that fits is hashed when there is room for it.** -/
theorem compute_granted (accepted : a.checkKey key.length = .ok ())
    (counts : t.machine.Counts queue)
    (affords : t.machine.Affords
      (StagedTables.demands queue (a.blobLength key) ++ b.needs a [⟨queue, 1⟩]))
    (fits : b.Fits b.whole a.digestSize (t.machine.contents.buffer b.output).length)
    {r : Except Error Unit}
    (computing : Host.Reaches (compute queue a b key, t.machine) (.done r, n)) : r = .ok () := by
  -- What there is room for does not depend on the hasher and the handle.
  let order : Order := ⟨⟨a, [⟨queue, 1⟩], key, ⟨a, []⟩⟩, b, .empty⟩
  have demands : order.maker.demands = StagedTables.demands queue (a.blobLength key) := by
    obtain ⟨blob, staged, length⟩ :=
      a.exists_tableBlob (Algorithm.accepted_of_checkKey accepted).2
    unfold Maker.demands Maker.tablesLength Hasher.tableDemands
    simp [order, staged, length, Except.toOption]
  have affordable : order.Affordable t.machine := by
    refine ⟨⟨accepted, Runner.check_single _, ?_⟩, by rwa [demands]⟩
    rw [demands]
    intro before d after split
    refine affords before d (after ++ b.needs a [⟨queue, 1⟩]) ?_
    rw [split, List.append_assoc, List.cons_append]
  have granted := affordable.granted (by simpa [order] using counts)
  obtain ⟨creation, made, creating, -, rest⟩ := compute_steps computing
  obtain ⟨h, rfl, dispatches⟩ := granted creation made creating
  obtain ⟨hashing, dispatched, hashes, -, rest⟩ := rest h rfl
  obtain ⟨handle, rfl⟩ := dispatches hashing dispatched hashes
  obtain ⟨joined, joining, dropping⟩ := rest handle rfl
  have reported := (compute_joined run offers size creating hashes joining dropping).2
  refine reported.ok.2 fun s mem _ => ?_
  rwa [List.mem_singleton.1 mem]

end

end BatchDigest
