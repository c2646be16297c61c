import BatchDigest.Proofs.Device.Call
import Mathlib.Algebra.GroupWithZero.Nat

/-!
# Sums over the queues

A number that a queue has by what its worker is at and by what waits can be added up over the
machine (`Machine.total`). A step of a worker and a submission change the sum as they change the
number of their queue, and a call that leaves the jobs alone does not change it.
-/

namespace BatchDigest.Machine

variable {m after : Machine} {q : QueueId}

/-- The sum of what the queues have by their jobs. -/
def total (m : Machine) (share : Activity → List Job → Nat) : Nat :=
  (m.queues.map fun queue => share queue.activity queue.waiting).sum

/-- The sums of two lists of numbers that differ in one place differ as the numbers there do. Behind
a list are zeros. -/
private theorem sum_add_getD (n : Nat) (a b : List Nat) (k : Nat) (first : a.length ≤ n)
    (second : b.length ≤ n) (others : ∀ i, i ≠ k → a[i]?.getD 0 = b[i]?.getD 0) :
    a.sum + b[k]?.getD 0 = b.sum + a[k]?.getD 0 := by
  induction n generalizing a b k with
  | zero =>
    rw [List.length_eq_zero_iff.1 (Nat.le_zero.1 first),
      List.length_eq_zero_iff.1 (Nat.le_zero.1 second)]
  | succ n ih =>
    have split : ∀ l : List Nat, l.sum = l[0]?.getD 0 + l.tail.sum := by
      intro l
      cases l <;> simp
    have tails : ∀ (l : List Nat) (i : Nat), l.tail[i]? = l[i + 1]? := by
      intro l i
      cases l <;> simp
    have short : ∀ l : List Nat, l.length ≤ n + 1 → l.tail.length ≤ n := by
      intro l le
      rw [List.length_tail]
      omega
    cases k with
    | zero =>
      -- The tails are equal in all places, also in one behind both.
      have rest := ih a.tail b.tail n (short a first) (short b second) fun i _ => by
        rw [tails, tails, others (i + 1) (Nat.succ_ne_zero i)]
      rw [List.getElem?_eq_none (short a first), List.getElem?_eq_none (short b second)] at rest
      rw [split a, split b]
      simp only [Option.getD_none, Nat.add_zero] at rest
      omega
    | succ k =>
      have heads := others 0 (Nat.succ_ne_zero k).symm
      have rest := ih a.tail b.tail k (short a first) (short b second) fun i ne => by
        rw [tails, tails, others (i + 1) fun same => ne (Nat.succ.inj same)]
      rw [tails, tails] at rest
      rw [split a, split b]
      omega

/-- When one queue changes, the sum changes as what that queue has. -/
theorem total_add_eq (share : Activity → List Job → Nat) (none : share .idle [] = 0)
    (others : ∀ other, other ≠ q →
      after.activity other = m.activity other ∧ after.waiting other = m.waiting other) :
    after.total share + share (m.activity q) (m.waiting q) =
      m.total share + share (after.activity q) (after.waiting q) := by
  have here : ∀ (m : Machine) (q : QueueId),
      (m.queues.map fun queue => share queue.activity queue.waiting)[q.index]?.getD 0 =
        share (m.activity q) (m.waiting q) := by
    intro m q
    unfold activity waiting queue?
    rw [List.getElem?_map]
    cases m.queues[q.index]? with
    | none => exact none.symm
    | some queue => rfl
  rw [← here m q, ← here after q]
  refine sum_add_getD _ _ _ q.index (Nat.le_max_left _ _) (Nat.le_max_right _ _) fun i ne => ?_
  have other := others ⟨i⟩ fun same => ne (congrArg QueueId.index same)
  exact (here after ⟨i⟩).trans (by rw [other.1, other.2]; exact (here m ⟨i⟩).symm)

/-- Where no queue has anything the sum is zero. -/
theorem total_eq_zero (share : Activity → List Job → Nat)
    (nothing : ∀ q, share (m.activity q) (m.waiting q) = 0) : m.total share = 0 := by
  refine List.sum_eq_zero_iff_forall_eq_nat.2 fun k mem => ?_
  obtain ⟨queue, inside, rfl⟩ := List.mem_map.1 mem
  obtain ⟨i, lt, at'⟩ := List.getElem_of_mem inside
  have found : m.queue? ⟨i⟩ = some queue := List.getElem?_eq_some_iff.2 ⟨lt, at'⟩
  have here := nothing ⟨i⟩
  unfold activity waiting at here
  rwa [found] at here

theorem Moved.total {a : Activity} {w : List Job} {e : List Status} {c : Contents}
    (h : m.Moved q a w e c after) (share : Activity → List Job → Nat)
    (none : share .idle [] = 0) :
    after.total share + share (m.activity q) (m.waiting q) = m.total share + share a w := by
  have change := total_add_eq share none h.others
  rwa [h.activity, h.waiting] at change

theorem Submitted.total {job : Job} (h : m.Submitted q job after)
    (share : Activity → List Job → Nat) (none : share .idle [] = 0) :
    after.total share + share (m.activity q) (m.waiting q) =
      m.total share + share (m.activity q) (m.waiting q ++ [job]) := by
  have change := total_add_eq share none fun other ne => ⟨h.activity other, h.others other ne⟩
  rwa [h.activity, h.waiting] at change

theorem Steady.total (h : m.Steady after) (share : Activity → List Job → Nat)
    (none : share .idle [] = 0) : after.total share = m.total share := by
  have change := total_add_eq (q := ⟨0⟩) share none fun other _ =>
    ⟨h.activity other, h.waiting other⟩
  rw [h.activity, h.waiting] at change
  exact Nat.add_right_cancel change

end BatchDigest.Machine
