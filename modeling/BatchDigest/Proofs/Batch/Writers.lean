import BatchDigest.Proofs.Batch.Service

/-!
# Who writes into buffers

Hashers put jobs into queues that write into buffers of the host. At any moment of any traffic such
a job was there at the start, or it is the last step of a share in flight, which writes into the
output of its batch (`Desk.Authored`): a batch that could not be dispatched leaves no job behind
(`Machine.Leased.mem_pending`), and neither does one that was joined (`Handle.Joins.resolved`). So a
buffer that is no output of a batch in flight stays as it is, also when it was one before.
-/

namespace BatchDigest

open Machine

namespace Machine.Leased

variable {m n : Machine} {leases : List Lease} {writers : List (BufferId × EventId)} {q : QueueId}
  {job : Job}

/-- **A call after which no more is leased than before has left no job behind**, if its jobs used
new memory. -/
theorem mem_pending (leased : m.Leased leases) (left : n.Leased leases)
    (entered : Enlists writers m n) (mem : job ∈ n.pending q) : job ∈ m.pending q := by
  rcases entered.jobs q job mem with old | ⟨⟨id, touched, new⟩, -⟩
  · exact old
  · -- The memory of a new job would be leased, and it was not there before.
    obtain ⟨lease, inside, same, -⟩ := left.covered.covered q job mem id touched
    obtain ⟨memory, found⟩ := Option.isSome_iff_exists.1 (leased.isSome_memory? inside same)
    exact absurd (List.getElem?_eq_some_iff.1 found).1 (Nat.not_lt.2 new)

/-- All events of such a call are resolved. -/
theorem isResolved_of_new (leased : m.Leased leases) (left : n.Leased leases)
    (entered : Enlists writers m n) {e : EventId} (new : m.events.length ≤ e.index)
    (known : e.index < n.events.length) : n.isResolved e := by
  refine isResolved_iff.2 fun due => ?_
  obtain ⟨q, job, mem, rfl⟩ := left.sound.owed e known due
  have old := leased.mem_pending left entered mem
  exact Nat.not_lt.2 new (leased.sound.known q job old)

end Machine.Leased

/-- However a handle is joined, its shares are over then. -/
theorem Handle.Joins.resolved {h : Handle} {m n : Machine} {answer : Option (Except Error Unit)}
    {queues : List QueueId} {name : QueueId → String} (joins : h.Joins m answer n)
    (serving : m.Serving queues name) : ∀ item ∈ h.items, n.isResolved item.event := by
  obtain ⟨fault?, ⟨-, resolved, -⟩, -⟩ := joins.of_join (h.meets_join serving)
  exact resolved

namespace Desk

variable {s s' : Desk} {m : Machine} {name : QueueId → String}

/-- What writes into a buffer was there at the start, or is the last step of a share in flight. -/
def Authored (m : Machine) (s : Desk) : Prop :=
  ∀ q, ∀ job ∈ s.machine.pending q, ∀ buffer, .buffer buffer ∈ job.work.writes →
    job ∈ m.pending q ∨
      ∃ o ∈ s.orders, (buffer, job.event) ∈ o.batch.writers o.handle.items

namespace Authored

/-- Nothing is written on behalf of a call that puts no writer into a queue. -/
theorem enlists (h : s.Authored m) (entered : Enlists [] s.machine s'.machine)
    (same : s'.orders = s.orders) : s'.Authored m := by
  intro q job mem buffer writes
  rw [same]
  rcases entered.jobs q job mem with old | ⟨-, listed⟩
  · exact h q job old buffer writes
  · exact nomatch listed buffer writes

/-- **Every step leaves each writer accounted for.** -/
theorem step (h : s.Authored m) (serves : s.Serves name) (leased : s.machine.Leased s.leases)
    (step : s.Step s') : s'.Authored m := by
  have giving := giving_enlists
  have left := step.leased leased
  cases step with
  | worker step => exact h.enlists (giving.step step) rfl
  | create _ run | refuse _ run =>
    exact h.enlists ((Hasher.always_create_enlists _ _ _).of_reaches run) rfl
  | @hash maker b handle after mem found size run =>
    obtain ⟨all, items, -, entered⟩ := (maker.hasher.meets_hash_enlists b).goal_of_reaches run
    intro q job mem buffer writes
    rcases entered.jobs q job mem with old | ⟨-, listed⟩
    · refine (h q job old buffer writes).imp_right fun ⟨o, flying, mem⟩ => ?_
      exact ⟨o, List.mem_append_left _ flying, mem⟩
    · refine .inr ⟨_, List.mem_append_right _ List.mem_cons_self, ?_⟩
      rw [show handle.items = _ from items]
      exact listed buffer writes
  | @fail maker b e after mem found size run =>
    obtain ⟨done, next, later, d, -, -, entered⟩ :=
      (maker.hasher.meets_hash_enlists b).goal_of_reaches run
    exact fun q job mem => h q job (leased.mem_pending left entered mem)
  | @join before later o answer after flying joins =>
    have entered := joins.along giving
    have ended := joins.resolved serves.base
    intro q job mem buffer writes
    rcases entered.jobs q job mem with old | ⟨-, listed⟩
    · refine (h q job old buffer writes).imp_right fun ⟨other, there, mine⟩ => ?_
      rw [flying] at there
      rcases List.mem_append.1 there with inside | inside
      · exact ⟨other, List.mem_append_left _ inside, mine⟩
      rcases List.mem_cons.1 inside with rfl | inside
      · -- The shares that were joined are over, and the job is not.
        obtain ⟨item, mem', same⟩ := List.mem_map.1 mine
        have resolved := ended item mem'
        rw [(Prod.mk.inj same).2] at resolved
        exact absurd (left.sound.due q job mem) (isResolved_iff.1 resolved)
      · exact ⟨other, List.mem_append_right _ inside, mine⟩
    · exact nomatch listed buffer writes
  | rejoin joins => exact h.enlists (joins.along giving) rfl
  | part there run =>
    exact h.enlists ((Hasher.always_drop giving enlists_dropHandle _).of_reaches run) rfl
  | leave own run =>
    exact h.enlists ((Host.always_dropQueue giving.toFlow enlists_dropHandle _).of_reaches run) rfl
  | @allocate q kind length _ made =>
    exact h.enlists (s.machine.enlists_allocate q kind length).1 rfl
  | release mine => exact h.enlists (giving.release _ _) rfl

end Authored

/-- **Writers are accounted for at any moment of any traffic.** -/
theorem Traffic.authored {t : Trace} (run : Trace.Reaches .start t)
    (none : t.machine.memories = []) (carefree : t.machine.Carefree)
    (traffic : Traffic t.machine s) : s.Authored t.machine := by
  induction traffic with
  | opened => exact fun _ _ mem _ _ => .inl mem
  | step traffic step ih =>
    exact ih.step (traffic.serves run carefree) (traffic.leased run none) step

/-- Nobody writes into a buffer that is no output of a batch in flight. -/
theorem Authored.alone (h : s.Authored m) {buffer : BufferId}
    (idle : ∀ q, ∀ job ∈ m.pending q, .buffer buffer ∉ job.work.writes)
    (apart : ∀ o ∈ s.orders, o.batch.output ≠ buffer) :
    ∀ q, ∀ job ∈ s.machine.pending q, .buffer buffer ∉ job.work.writes := by
  intro q job mem writes
  rcases h q job mem buffer writes with old | ⟨o, flying, mine⟩
  · exact idle q job old writes
  · obtain ⟨item, -, same⟩ := List.mem_map.1 mine
    exact apart o flying (Prod.mk.inj same).1

end Desk

end BatchDigest
