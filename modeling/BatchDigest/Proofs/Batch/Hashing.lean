import BatchDigest.Proofs.Batch.Flight
import BatchDigest.Proofs.Batch.Partition

/-!
# What a batch comes to

A batch is hashed from end to end: a hasher is made, the batch is dispatched, and its handle is
joined, while the workers take their steps in any order. A slice fits when the input holds its
records and the output has room for its digests. After the join the digests of every slice that fits
stand in the output, every other byte is as it was (`Batch.Hashed`), and the fault that the join
tells is that of the first slice that does not fit (`Batch.Reported`).
-/

namespace BatchDigest

open Machine

variable {m n : Machine}

/-- Every share that has ended has settled, and the first fault is that of the first slice that does
not fit. -/
theorem Contract.Flight.settled {k : Contract} {queues : List QueueId} {shares : List Share}
    (h : k.Flight queues m shares) (resolved : ∀ share ∈ shares, m.isResolved share.item.event) :
    (∀ share ∈ shares, k.Settled share.slice m.contents) ∧
      m.firstFault? (shares.map (·.item.event)) = shares.findSome? fun share =>
        k.batch.fault? share.slice k.size k.initial.length (k.device share.queue) := by
  have ended : ∀ share ∈ shares, m.status share.item.event = .ofFault?
      (k.batch.fault? share.slice k.size k.initial.length (k.device share.queue)) ∧
        k.Settled share.slice m.contents := by
    intro share mem
    obtain ⟨_, _, copied, computed, all⟩ := h.inFlight share mem
    exact (all _ List.mem_cons_self).of_resolved (resolved share mem)
  refine ⟨fun share mem => (ended share mem).2, ?_⟩
  unfold firstFault?
  rw [List.findSome?_map]
  refine findSome?_congr fun share mem => ?_
  show (m.status share.item.event).fault? = _
  rw [(ended share mem).1, Status.fault?_ofFault?]

/-! ## Results -/

namespace Batch

/-- What a joined batch leaves of its output: the digests of the records of every slice that fits,
and every other byte as it was. -/
structure Hashed (b : Batch) (a : Algorithm) (key : Bytes) (slices : List Slice)
    (before after : Bytes) : Prop where
  length : after.length = before.length
  digests : ∀ s ∈ slices, b.Fits s a.digestSize before.length → ∀ i, s.offset ≤ i → i < s.stop →
    a.digest key (b.record i) = .ok ((after.drop (i * a.digestSize)).take a.digestSize)
  others : ∀ j, (∀ s ∈ slices, b.Fits s a.digestSize before.length →
    ¬ (s.offset * a.digestSize ≤ j ∧ j < s.stop * a.digestSize)) → after[j]? = before[j]?

/-- What the join of a batch answers: nothing when every slice with records fits, and otherwise the
fault of the first one that does not. -/
structure Reported (b : Batch) (size room : Nat) (slices : List Slice) (device : Nat → String)
    (answer : Except Error Unit) : Prop where
  ok : answer = .ok () ↔ ∀ s ∈ slices, 0 < s.count → b.Fits s size room
  error : ∀ s ∈ slices, 0 < s.count → ¬ b.Fits s size room →
    (∀ other ∈ slices, 0 < other.count → other.runner < s.runner → b.Fits other size room) →
    ∃ fault, b.fault? s size room (device s.runner) = some fault ∧
      answer = .error (.device (.execution fault))

end Batch

/-- The shares of a batch in flight: one for each slice with records, in order. -/
structure Shared (slices : List Slice) (device : Nat → String) (name : QueueId → String)
    (shares : List Share) : Prop where
  mine : ∀ share ∈ shares, share.slice ∈ slices ∧ 0 < share.slice.count ∧
    name share.queue = device share.slice.runner
  every : ∀ s ∈ slices, 0 < s.count → ∃ share ∈ shares, share.slice = s
  ordered : shares.Pairwise fun a b => a.slice.runner < b.slice.runner

namespace Contract

variable {k : Contract} {key : Bytes} {slices : List Slice} {device : Nat → String}
  {shares : List Share}

/-- A position of a digest in a slice. -/
theorem written_digest {s : Slice} {i : Nat} (first : s.offset ≤ i) (last : i < s.stop) :
    ((k.written s).drop ((i - s.offset) * k.size)).take k.size = k.digest (k.batch.record i) :=
  Bytes.read_flatMap k.sizes (k.batch.getElem?_records s first last)

/-- Shares that have settled leave a hashed output. -/
theorem hashed (keyed : ∀ record, k.algorithm.digest key record = .ok (k.digest record))
    (mine : ∀ share ∈ shares, share.slice ∈ slices)
    (every : ∀ s ∈ slices, 0 < s.count → ∃ share ∈ shares, share.slice = s) {c : Contents}
    (settled : ∀ share ∈ shares, k.Settled share.slice c)
    (rest : k.Untouched (fun i => ∀ share ∈ shares, ¬ k.Covers share.slice i) c) :
    k.batch.Hashed k.algorithm key slices k.initial (c.buffer k.batch.output) := by
  refine ⟨rest.1, ?_, ?_⟩
  · intro s mem (fits : k.batch.Fits s k.size k.initial.length) i first last
    show _ = Except.ok (((c.buffer k.batch.output).drop (i * k.size)).take k.size)
    have filled : 0 < s.count := by
      unfold Slice.stop at last
      omega
    obtain ⟨share, flying, rfl⟩ := every s mem filled
    have bytes := (settled share flying).2
    -- Byte by byte: the digest stands in the output where it stands in what its share wrote.
    rw [keyed, ← written_digest first last]
    congr 1
    apply List.ext_getElem?
    intro r
    rw [List.getElem?_take, List.getElem?_take]
    split
    next inside =>
      have start : share.slice.offset * k.size ≤ i * k.size := Nat.mul_le_mul_right _ first
      have next : (i + 1) * k.size ≤ share.slice.stop * k.size := Nat.mul_le_mul_right _ last
      rw [Nat.succ_mul] at next
      have position : i * k.size + r - share.slice.offset * k.size =
          (i - share.slice.offset) * k.size + r := by
        rw [Nat.sub_mul]
        omega
      rw [List.getElem?_drop, List.getElem?_drop, ← position]
      have byte := bytes (i * k.size + r) ⟨by omega, by omega⟩
      rw [if_pos fits] at byte
      exact byte.symm
    next => rfl
  · intro j outside
    -- A byte of a slice that does not fit is in the range of a share, which left it alone.
    by_cases covered : ∃ share ∈ shares, k.Covers share.slice j
    · obtain ⟨share, flying, covers⟩ := covered
      rw [(settled share flying).2 j covers, if_neg]
      exact fun fits => outside _ (mine share flying) fits covers
    · exact rest.2 j fun share flying covers => covered ⟨share, flying, covers⟩

/-- The first fault of the shares is that of the first slice that does not fit. -/
theorem reported (shared : Shared slices device k.device shares) {answer : Except Error Unit}
    (told : answer = match shares.findSome? fun share =>
        k.batch.fault? share.slice k.size k.initial.length (k.device share.queue) with
      | some fault => .error (.device (.execution fault))
      | none => .ok ()) :
    k.batch.Reported k.size k.initial.length slices device answer := by
  subst told
  constructor
  · constructor
    · intro ok s mem filled
      obtain ⟨share, flying, rfl⟩ := shared.every s mem filled
      split at ok
      · cases ok
      next none =>
        have calm := List.findSome?_eq_none_iff.1 none share flying
        exact (k.batch.fault?_eq_none _ _ _).1 calm
    · intro fits
      have none : (shares.findSome? fun share =>
          k.batch.fault? share.slice k.size k.initial.length (k.device share.queue)) = none := by
        refine List.findSome?_eq_none_iff.2 fun share flying => ?_
        obtain ⟨mem, filled, _⟩ := shared.mine share flying
        exact (k.batch.fault?_eq_none _ _ _).2 (fits _ mem filled)
      rw [none]
  · intro s mem filled misfit before
    obtain ⟨share, flying, rfl⟩ := shared.every s mem filled
    rw [← (shared.mine share flying).2.2]
    cases fault : k.batch.fault? share.slice k.size k.initial.length (k.device share.queue) with
    | none => exact absurd ((k.batch.fault?_eq_none _ _ _).1 fault) misfit
    | some f =>
      refine ⟨f, rfl, ?_⟩
      -- The shares before this one are of lower slices, all of which fit.
      obtain ⟨earlier, later, rfl⟩ := List.append_of_mem flying
      have none : (earlier.findSome? fun share =>
          k.batch.fault? share.slice k.size k.initial.length (k.device share.queue)) = none := by
        refine List.findSome?_eq_none_iff.2 fun other flown => ?_
        obtain ⟨mem', filled', _⟩ := shared.mine other (List.mem_append_left _ flown)
        have ordered := (List.pairwise_append.1 shared.ordered).2.2
        have lower := ordered other flown share List.mem_cons_self
        exact (k.batch.fault?_eq_none _ _ _).2 (before _ mem' filled' lower)
      rw [List.findSome?_append, none, List.findSome?_cons, fault]
      rfl

end Contract

end BatchDigest
