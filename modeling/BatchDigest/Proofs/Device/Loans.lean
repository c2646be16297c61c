import BatchDigest.Proofs.Device.Books

/-!
# Loans

A program allocates memories and gives them back again, on queues that others allocate on as well.
`Machine.Lends` tells exactly what it has at any time: which memories are still out (its loans), how
often it allocated on each queue, and that every ledger is that of the machine before, with the
entries of the loans behind its own. Nothing is asked of that machine but that its books can be
audited: whatever is live there already stays as it is. So when all loans are back, ledgers have what
they had, and each counts as many more frees as allocations (`Ledger.Lends.tallies`).
-/

namespace BatchDigest

/-- A memory that is out. -/
structure Loan where
  id : MemoryId
  memory : Memory

namespace Loan

/-- The entries of loans on a queue. -/
def entries (loans : List Loan) (q : QueueId) : List Allotment :=
  (loans.filter (·.memory.queue = q)).map (·.memory.allotment)

@[simp] theorem entries_nil (q : QueueId) : entries [] q = [] := rfl

theorem entries_append (first second : List Loan) (q : QueueId) :
    entries (first ++ second) q = entries first q ++ entries second q := by
  unfold entries
  rw [List.filter_append, List.map_append]

theorem entries_cons (loan : Loan) (rest : List Loan) (q : QueueId) :
    entries (loan :: rest) q =
      if loan.memory.queue = q then loan.memory.allotment :: entries rest q
      else entries rest q := by
  unfold entries
  by_cases here : loan.memory.queue = q <;> simp [here]

end Loan

/-! ## Ledgers -/

/-- The same ledger after some allocations, of which the given ones are still live. -/
structure Ledger.Lends (l : Ledger) (made : Nat) (out : List Allotment) (after : Ledger) :
    Prop where
  device : after.device = l.device
  capacity : after.capacity = l.capacity
  nextId : after.nextId = l.nextId + made
  live : after.live = l.live ++ out

/-- What a ledger counts after some allocations, of which the given ones are still live. -/
structure Ledger.Tallies (l : Ledger) (made : Nat) (out : List Allotment) (after : Ledger) :
    Prop where
  live : after.live = l.live ++ out
  used : after.used = l.used + bytes out
  liveAllocations : after.stats.liveAllocations = l.stats.liveAllocations + out.length
  liveBytes : after.stats.liveBytes = l.stats.liveBytes + bytes out
  allocations : after.stats.allocations = l.stats.allocations + made
  frees : after.stats.frees + out.length = l.stats.frees + made

namespace Ledger

variable {l after : Ledger} {made : Nat} {out : List Allotment} {entry : Allotment}

theorem Lends.limit (h : l.Lends made out after) : after.limit = l.limit := by
  unfold Ledger.limit
  rw [h.capacity]

theorem lends_refl (l : Ledger) : l.Lends 0 [] l :=
  ⟨rfl, rfl, rfl, (List.append_nil _).symm⟩

theorem Lends.grown (h : l.Lends made out after) (kind : MemoryKind) (length : Nat) :
    l.Lends (made + 1) (out ++ [⟨after.nextId, kind, length⟩]) (after.grown kind length) := by
  refine ⟨h.device, h.capacity, ?_, ?_⟩
  · show after.nextId + 1 = _
    rw [h.nextId, Nat.add_assoc]
  · rw [live_grown, h.live, List.append_assoc]

/-- The first of the entries that are out is taken off, and no other. -/
theorem Lends.release (h : l.Lends made (entry :: out) after) (balanced : after.Balanced) :
    l.Lends made out (after.release entry.id) := by
  have mem : entry ∈ after.live := by
    rw [h.live]
    exact List.mem_append_right _ List.mem_cons_self
  rw [balanced.release_eq mem]
  refine ⟨h.device, h.capacity, h.nextId, ?_⟩
  show after.live.filter (·.id != entry.id) = _
  have ordered := balanced.ordered
  rw [h.live] at ordered ⊢
  obtain ⟨-, rest, before⟩ := List.pairwise_append.1 ordered
  obtain ⟨behind, -⟩ := List.pairwise_cons.1 rest
  -- Identifiers go up along a ledger, so this one is on it only once.
  have own : l.live.filter (·.id != entry.id) = l.live :=
    List.filter_eq_self.2 fun other inside => by
      simpa using Nat.ne_of_lt (before other inside entry List.mem_cons_self)
  have later : out.filter (·.id != entry.id) = out :=
    List.filter_eq_self.2 fun other inside => by
      simpa using Nat.ne_of_gt (behind other inside)
  rw [List.filter_append, own, List.filter_cons_of_neg (by simp), later]

/-- **What a ledger counts** beyond the one before. -/
theorem Lends.tallies (h : l.Lends made out after) (balanced : l.Balanced)
    (balanced' : after.Balanced) : l.Tallies made out after := by
  have nextId := h.nextId
  have turnover := balanced.turnover
  have turnover' := balanced'.turnover
  rw [balanced.nextId, balanced'.nextId] at nextId
  rw [h.live, List.length_append] at turnover'
  refine ⟨h.live, ?_, ?_, ?_, by omega, by omega⟩
  · rw [balanced.used, balanced'.used, h.live, bytes_append]
  · rw [balanced.liveAllocations, balanced'.liveAllocations, h.live, List.length_append]
  · rw [balanced.liveBytes, balanced'.liveBytes, h.live, bytes_append]

end Ledger

/-! ## Machines -/

namespace Machine

variable {base m n : Machine} {made : List QueueId} {loans : List Loan} {loan : Loan}
  {q : QueueId} {id : MemoryId}

/-- What a program has of the memory of a machine: it allocated on the queues of a list, and some of
these memories are still out. -/
structure Lends (base : Machine) (made : List QueueId) (loans : List Loan) (m : Machine) :
    Prop where
  audited : m.Audited
  memory : ∀ loan ∈ loans, m.memory? loan.id = some loan.memory
  distinct : (loans.map (·.id)).Nodup
  ledger : ∀ q l, base.ledger? q = some l →
    ∃ l', m.ledger? q = some l' ∧ l.Lends (made.count q) (Loan.entries loans q) l'

theorem Audited.lends (audited : m.Audited) : m.Lends [] [] m :=
  ⟨audited, nofun, List.nodup_nil, fun _ l found => ⟨l, found, l.lends_refl⟩⟩

/-- The ledgers of a machine with loans. -/
theorem Lends.tallies (h : base.Lends made loans m) (audited : base.Audited) {l : Ledger}
    (found : base.ledger? q = some l) :
    ∃ l', m.ledger? q = some l' ∧ l.Tallies (made.count q) (Loan.entries loans q) l' := by
  obtain ⟨l', found', lends⟩ := h.ledger q l found
  exact ⟨l', found',
    lends.tallies (audited.balanced q l found) (h.audited.balanced q l' found')⟩

/-- What leaves the books alone leaves the loans alone. -/
theorem Lends.sameBooks (h : base.Lends made loans m) (books : m.SameBooks n) :
    base.Lends made loans n := by
  refine ⟨books.audited h.audited, ?_, h.distinct, ?_⟩
  · intro loan mem
    rw [books.memory?]
    exact h.memory loan mem
  · intro q l found
    rw [books.ledger]
    exact h.ledger q l found

theorem Lends.evolves (h : base.Lends made loans m) (later : m.Evolves n) :
    base.Lends made loans n :=
  h.sameBooks (flow_sameBooks.evolves later)

theorem Lends.submit (h : base.Lends made loans m) (q : QueueId) (label : String)
    (deps : List EventId) (work : Work) : base.Lends made loans (m.submit q label deps work).2 :=
  h.sameBooks (m.sameBooks_submit q label deps work)

/-- A request is granted when it fits behind what is out, and is a loan then. Otherwise nothing
happens. -/
theorem Lends.allocate (h : base.Lends made loans m) {l : Ledger} (balanced : l.Balanced)
    (found : base.ledger? q = some l) (word : l.limit ≤ Size.largest) (kind : MemoryKind)
    {length : Nat} (filled : length ≠ 0) :
    (∀ id, (m.allocate q kind length).1 = .ok id →
      l.used + Ledger.bytes (Loan.entries loans q) + length ≤ l.limit ∧
      ∃ allocation, base.Lends (made ++ [q])
        (loans ++ [⟨id, ⟨q, allocation, kind, length, 1⟩⟩]) (m.allocate q kind length).2) ∧
    ∀ e, (m.allocate q kind length).1 = .error e →
      ¬ (Ledger.isBackable length ∧
        l.used + Ledger.bytes (Loan.entries loans q) + length ≤ l.limit) ∧
      e = .outOfMemory l.device length
        (l.limit - (l.used + Ledger.bytes (Loan.entries loans q))) ∧
      (m.allocate q kind length).2 = m := by
  obtain ⟨l', found', lends⟩ := h.ledger q l found
  have word' : l'.limit ≤ Size.largest := lends.limit ▸ word
  have used := (lends.tallies balanced (h.audited.balanced q l' found')).used
  by_cases fits : l'.Fits length
  · obtain ⟨granted, ledger, memory⟩ := allocate_granted found' word' kind fits
    refine ⟨fun id answer => ⟨?_, l'.nextId, ?_⟩, fun e answer => ?_⟩
    · rw [← used, ← lends.limit]
      exact fits.2.2
    · rw [granted] at answer
      cases answer
      -- The loans are older memories, so the new one is none of them.
      have older : ∀ loan ∈ loans, loan.id ≠ ⟨m.memories.length⟩ := by
        intro loan mem same
        have there := h.memory loan mem
        rw [same] at there
        unfold memory? at there
        rw [List.getElem?_eq_none (Nat.le_refl _)] at there
        cases there
      refine ⟨h.audited.allocate q kind length, ?_, ?_, ?_⟩
      · intro loan mem
        rw [memory]
        rcases List.mem_append.1 mem with old | new
        · rw [if_neg (older loan old)]
          exact h.memory loan old
        · rw [List.mem_singleton.1 new, if_pos rfl]
      · rw [List.map_append]
        refine List.nodup_append.2 ⟨h.distinct, List.nodup_singleton _, ?_⟩
        rintro a mem b new rfl
        obtain ⟨loan, inside, rfl⟩ := List.mem_map.1 mem
        exact older loan inside (List.mem_singleton.1 new)
      · intro p k here
        rw [ledger, List.count_append, Loan.entries_append, Loan.entries_cons]
        by_cases same : p = q
        · subst same
          rw [found] at here
          cases here
          rw [if_pos rfl, if_pos rfl, List.count_singleton_self]
          exact ⟨_, rfl, lends.grown kind length⟩
        · have other : ¬ q = p := fun eq => same eq.symm
          rw [if_neg same, if_neg other, List.count_singleton]
          simpa [other] using h.ledger p k here
    · rw [granted] at answer
      cases answer
  · rw [allocate_refused found' word' fits]
    refine ⟨nofun, ?_⟩
    rintro e ⟨⟩
    refine ⟨?_, ?_, rfl⟩
    · rintro ⟨backed, room⟩
      rw [← used, ← lends.limit] at room
      exact fits ⟨Nat.pos_of_ne_zero filled, backed, room⟩
    · unfold Ledger.refusal Ledger.available
      rw [if_neg filled, lends.device, lends.limit, used]

/-- The only owner of a loan goes. -/
theorem Lends.dropOwner (h : base.Lends made (loan :: loans) m) (alone : loan.memory.owners = 1) :
    (m.dropOwner loan.id).1 = true ∧
      base.Lends made (⟨loan.id, { loan.memory with owners := 0 }⟩ :: loans)
        (m.dropOwner loan.id).2 := by
  have found := h.memory loan List.mem_cons_self
  obtain ⟨fresh, distinct⟩ := List.nodup_cons.1 h.distinct
  refine ⟨?_, h.audited.updateMemory _ _ fun _ => ⟨rfl, rfl⟩, ?_, h.distinct, ?_⟩
  · show (m.memory? loan.id).any (·.owners == 1) = true
    rw [found]
    simp [alone]
  · intro other mem
    show (m.updateMemory loan.id _).memory? other.id = _
    rw [memory?_updateMemory]
    rcases List.mem_cons.1 mem with rfl | old
    · rw [if_pos rfl, found, Option.map_some, alone]
    · have apart : other.id ≠ loan.id := fun same =>
        fresh (List.mem_map.2 ⟨other, old, same⟩)
      rw [if_neg apart]
      exact h.memory other (List.mem_cons_of_mem _ old)
  · intro q l here
    have same := h.ledger q l here
    rw [Loan.entries_cons] at same ⊢
    exact same

/-- A loan is back. -/
theorem Lends.giveBack (h : base.Lends made (loan :: loans) m) :
    base.Lends made loans (m.giveBack loan.id) := by
  have found := h.memory loan List.mem_cons_self
  have place : m.place? loan.id = some (loan.memory.queue, loan.memory.allocation) := by
    unfold place?
    rw [found]
    rfl
  refine ⟨h.audited.giveBack _, ?_, (List.nodup_cons.1 h.distinct).2, ?_⟩
  · intro other mem
    unfold memory?
    rw [memories_giveBack]
    exact h.memory other (List.mem_cons_of_mem _ mem)
  · intro q l here
    obtain ⟨l', found', lends⟩ := h.ledger q l here
    rw [Loan.entries_cons] at lends
    rw [ledger?_giveBack place]
    by_cases same : q = loan.memory.queue
    · rw [if_pos same, found']
      rw [if_pos same.symm] at lends
      exact ⟨_, rfl, lends.release (h.audited.balanced q l' found')⟩
    · rw [if_neg same]
      rw [if_neg fun eq => same eq.symm] at lends
      exact ⟨l', found', lends⟩

end Machine

end BatchDigest
