import BatchDigest.Proofs.Batch.Handling
import BatchDigest.Proofs.Device.Quiet

/-!
# Joining

A join waits for the shares of a batch and gives their memory back. Neither submits work nor changes
any bytes, so that whatever was planned goes on as planned, and the shares that the join waited for
are over when it ends. The same can be said when tables and queue handles are let go of.
-/

namespace BatchDigest

open Machine

variable {m n : Machine}

theorem Machine.giving_passes : Giving (Passes .nothing) where
  refl _ := .refl
  trans first second := first.trans second
  step step := .worker .refl step
  release m id := .quiet .refl (m.quiet_release id)
  leave {m n id} _ later :=
    (Passes.refl.quiet (m.quiet_dropOwner id)).evolves later |>.quiet (n.quiet_giveBack id)

theorem Machine.giving_drifts : Giving (Drifts .nothing) where
  refl _ := .refl
  trans first second := first.trans second
  step step := .worker .refl (turn_of_advance? step)
  release m id := (giving_passes.release m id).drifts
  leave last later := (giving_passes.leave last later).drifts

/-- A queue handle that goes takes nothing along. -/
theorem Machine.still_dropHandle (m : Machine) (q : QueueId) : m.Still (m.dropHandle q).2 :=
  ⟨m.steady_updateQueue q _ fun _ => ⟨rfl, rfl, rfl⟩, fun _ => id, fun _ _ => .refl _ _, id⟩

theorem Hasher.always_drop_drifts (h : Hasher) : h.drop.Always (Drifts .nothing) :=
  h.always_drop giving_drifts fun m q => .still .refl (m.still_dropHandle q)

/-- A join waits for every share, gives all memory back and tells the first fault. -/
theorem Handle.meets_join {queues : List QueueId} {name : QueueId → String} (h : Handle)
    (serving : m.Serving queues name) :
    h.join.Meets (fun _ => True) (fun fault? n => m.Passes .nothing n ∧
      (∀ item ∈ h.items, n.isResolved item.event) ∧
      fault? = n.firstFault? (h.items.map (·.event))) m := by
  refine Host.Meets.bind ((Host.meets_joinAll _ serving.sound fun _ _ => trivial).mono ?_)
  rintro fault? n - ⟨first, resolved, rfl⟩
  refine Host.Meets.bind ((BatchItem.always_releaseAll giving_passes h.items n).mono ?_)
  rintro - n' - released n'' second
  have passes := released.evolves second
  have serving := serving.evolves first
  refine ⟨trivial, (Passes.of_evolves first).trans passes, fun item mem => ?_, ?_⟩
  · exact passes.drifts.isResolved serving (resolved _ (List.mem_map_of_mem mem))
  · exact (firstFault?_congr fun e mem => passes.drifts.status serving (resolved e mem)).symm

end BatchDigest
