import BatchDigest.Proofs.Device.Stock

/-!
# Demands for memory

A program asks for several memories in a row. Whether each request fits depends on those before it,
and on nothing else that the program does meanwhile. `Machine.Takes` says that all demands of a list
were met, one after the other: the memories are the next ones, of the lengths asked for, and each
ledger has as many more bytes in use as were asked for there. Demands that were met fitted
(`Machine.Affords`), and one that is refused did not (`Machine.Refuses`).
-/

namespace BatchDigest

/-- A request for device memory. -/
structure Demand where
  queue : QueueId
  length : Nat
deriving DecidableEq

namespace Demand

/-- The bytes that are asked for on a queue. -/
def bytes (demands : List Demand) (q : QueueId) : Nat :=
  ((demands.filter (·.queue = q)).map (·.length)).sum

@[simp] theorem bytes_nil (q : QueueId) : bytes [] q = 0 := rfl

@[simp] theorem bytes_append (first second : List Demand) (q : QueueId) :
    bytes (first ++ second) q = bytes first q + bytes second q := by
  simp [bytes]

@[simp] theorem bytes_singleton (d : Demand) (q : QueueId) :
    bytes [d] q = if d.queue = q then d.length else 0 := by
  by_cases h : d.queue = q <;> simp [bytes, h]

end Demand

/-- Whether a request fits once some bytes more are in use. -/
def Ledger.FitsAfter (l : Ledger) (taken length : Nat) : Prop :=
  0 < length ∧ Ledger.isBackable length ∧ l.used + taken + length ≤ l.limit

namespace Machine

variable {m n k : Machine} {q : QueueId} {id : MemoryId} {d : Demand}
  {demands first second before : List Demand} {l : Ledger}

/-- A memory is what was asked for. -/
def Stores (m : Machine) (id : MemoryId) (d : Demand) : Prop :=
  ∃ memory, m.memory? id = some memory ∧ memory.queue = d.queue ∧ memory.length = d.length

theorem Keeps.stores {G : Ledger → Ledger → Prop} (keeps : Keeps G m n) (stores : m.Stores id d) :
    n.Stores id d := by
  obtain ⟨memory, found, rest⟩ := stores
  obtain ⟨owners, found⟩ := keeps.memory id memory found
  exact ⟨_, found, rest⟩

/-- Each demand fits after those before it. -/
def Affords (m : Machine) (demands : List Demand) : Prop :=
  ∀ before d after, demands = before ++ d :: after → ∀ l, m.ledger? d.queue = some l →
    l.FitsAfter (Demand.bytes before d.queue) d.length

/-- A demand does not fit after others that were met, and the error tells what was left. -/
def Refuses (m : Machine) (before : List Demand) (d : Demand) (e : DeviceError) : Prop :=
  ∃ l, m.ledger? d.queue = some l ∧ ¬ l.FitsAfter (Demand.bytes before d.queue) d.length ∧
    e = if d.length = 0 then .misuse .emptyAllocation
      else .outOfMemory l.device d.length (l.limit - (l.used + Demand.bytes before d.queue))

/-- Demands were met one after the other. -/
structure Takes (demands : List Demand) (m n : Machine) : Prop where
  keeps : Keeps Ledger.Continues m n
  length : n.memories.length = m.memories.length + demands.length
  stores : ∀ i d, demands[i]? = some d → n.Stores ⟨m.memories.length + i⟩ d
  used : ∀ q l l', m.ledger? q = some l → n.ledger? q = some l' →
    l'.used = l.used + Demand.bytes demands q
  affords : m.Affords demands

/-- A refused demand is one that cannot be afforded. -/
theorem Refuses.not_affords {e : DeviceError} (h : m.Refuses before d e) (after : List Demand) :
    ¬ m.Affords (before ++ d :: after) := by
  obtain ⟨l, found, misfit, -⟩ := h
  exact fun affords => misfit (affords before d after rfl l found)

/-- A queue has a ledger, whose limit is a size. -/
def Counts (m : Machine) (q : QueueId) : Prop :=
  ∃ l, m.ledger? q = some l ∧ l.limit ≤ Size.largest

/-- A queue that is held has a ledger. -/
theorem exists_ledger_of_handles (held : 0 < m.handles q) : ∃ l, m.ledger? q = some l := by
  unfold handles at held
  unfold ledger?
  cases here : m.queue? q with
  | none => simp [here] at held
  | some queue => exact ⟨_, rfl⟩

theorem Counts.keeps (h : m.Counts q) (keeps : Keeps Ledger.Continues m n) : n.Counts q := by
  obtain ⟨l, found, word⟩ := h
  obtain ⟨l', found', continues⟩ := keeps.ledger q l found
  refine ⟨l', found', ?_⟩
  unfold Ledger.limit
  rw [continues.capacity]
  exact word

theorem affords_nil (m : Machine) : m.Affords [] := by
  intro before d after split
  cases before <;> cases split

theorem SameBooks.takes (h : m.SameBooks n) : Takes [] m n := by
  refine ⟨h.keeps Ledger.course_continues, by rw [h.memories]; rfl, nofun, ?_, affords_nil m⟩
  intro q l l' found found'
  rw [h.ledger, found] at found'
  cases found'
  rfl

/-- What is left after some demands were met. -/
theorem Takes.fitsAfter_iff (h : Takes first m n) {l' : Ledger} (found : m.ledger? q = some l)
    (found' : n.ledger? q = some l') (taken length : Nat) :
    l'.FitsAfter taken length ↔ l.FitsAfter (Demand.bytes first q + taken) length := by
  have used := h.used q l l' found found'
  obtain ⟨_, found'', continues⟩ := h.keeps.ledger q l found
  rw [found'] at found''
  cases found''
  have limit : l'.limit = l.limit := by
    unfold Ledger.limit
    rw [continues.capacity]
  unfold Ledger.FitsAfter
  rw [limit, used, Nat.add_assoc l.used]

theorem Takes.affords_append (h : Takes first m n) (affords : n.Affords second) :
    m.Affords (first ++ second) := by
  intro before d after split l found
  -- The demand is one of the first ones or one of the second.
  rcases List.append_eq_append_iff.1 split with ⟨middle, rfl, rest⟩ | ⟨middle, rfl, rest⟩
  · obtain ⟨l', found', -⟩ := h.keeps.ledger _ l found
    rw [Demand.bytes_append, ← h.fitsAfter_iff found found']
    exact affords middle d after rest l' found'
  · cases middle with
    | nil =>
      obtain ⟨l', found', -⟩ := h.keeps.ledger _ l found
      have fits := affords [] d after rest.symm l' found'
      rw [h.fitsAfter_iff found found'] at fits
      simpa using fits
    | cons _ middle =>
      obtain ⟨rfl, -⟩ := List.cons.inj rest
      exact h.affords before d middle rfl l found

theorem Takes.trans (h : Takes first m n) (h' : Takes second n k) : Takes (first ++ second) m k := by
  refine ⟨h.keeps.trans h'.keeps Ledger.course_continues, ?_, ?_, ?_, h.affords_append h'.affords⟩
  · rw [h'.length, h.length, List.length_append, Nat.add_assoc]
  · intro i d found
    rw [List.getElem?_append] at found
    split at found
    · exact h'.keeps.stores (h.stores i d found)
    next beyond =>
      have stores := h'.stores _ d found
      rw [h.length] at stores
      have index : m.memories.length + first.length + (i - first.length) =
          m.memories.length + i := by omega
      rwa [index] at stores
  · intro q l l'' found found''
    obtain ⟨l', found', -⟩ := h.keeps.ledger q l found
    rw [h'.used q l' l'' found' found'', h.used q l l' found found', Demand.bytes_append,
      Nat.add_assoc]

theorem takes_addOwner (m : Machine) (id : MemoryId) : Takes [] m (m.addOwner id) := by
  refine ⟨keeps_addOwner Ledger.course_continues m id, ?_, nofun, ?_, affords_nil m⟩
  · unfold addOwner updateMemory
    simp
  · intro q l l' found found'
    have found' : m.ledger? q = some l' := found'
    rw [found] at found'
    cases found'
    rfl

theorem flow_takes : Flow (Takes []) where
  refl m := (flow_sameBooks.refl m).takes
  trans first second := first.trans second
  step step := (turn_of_advance? step).books.takes

/-- An allocation meets one demand. -/
theorem takes_allocate {length : Nat} (made : (m.allocate q .device length).1 = .ok id) :
    id = ⟨m.memories.length⟩ ∧ Takes [⟨q, length⟩] m (m.allocate q .device length).2 := by
  obtain ⟨e, failed, -⟩ | ⟨l, found, fits, made', memories, ledger⟩ :=
    m.allocate_books q .device length
  · rw [failed] at made
    cases made
  · rw [made'] at made
    cases made
    refine ⟨rfl, m.keeps_allocate q .device length, ?_, ?_, ?_, ?_⟩
    · rw [memories, List.length_append]
      rfl
    · intro i d here
      cases i with
      | zero =>
        cases here
        exact ⟨_, (memory?_of_append memories).1, rfl, rfl⟩
      | succ i => cases here
    · intro p l' l'' found' found''
      rw [ledger] at found''
      rw [Demand.bytes_singleton]
      split at found''
      next same =>
        rw [same, found] at found'
        cases found'
        cases found''
        rw [if_pos same.symm]
        rfl
      next ne =>
        rw [found'] at found''
        cases found''
        rw [if_neg fun same => ne same.symm, Nat.add_zero]
    · intro before d after split l' found'
      cases before with
      | nil =>
        obtain ⟨rfl, -⟩ := List.cons.inj split
        rw [found] at found'
        cases found'
        exact ⟨fits.1, fits.2.1, fits.2.2⟩
      | cons _ before =>
        obtain ⟨-, none⟩ := List.cons.inj split
        cases before <;> cases none

/-- An allocation that fails refuses its demand. -/
theorem refuses_allocate (found : m.ledger? q = some l) (word : l.limit ≤ Size.largest)
    {length : Nat} {e : DeviceError} (failed : (m.allocate q .device length).1 = .error e) :
    m.Refuses [] ⟨q, length⟩ e := by
  obtain ⟨granted, refused⟩ := allocate_outcome found word .device length
  refine ⟨l, found, ?_, (refused e failed).2⟩
  intro fits
  obtain ⟨id, made⟩ := granted.2 ⟨fits.1, fits.2.1, fits.2.2⟩
  rw [made] at failed
  cases failed

theorem Takes.refuses (h : Takes first m n) {e : DeviceError} (found : m.ledger? d.queue = some l)
    (refuses : n.Refuses before d e) : m.Refuses (first ++ before) d e := by
  obtain ⟨l', found', misfit, rfl⟩ := refuses
  have used := h.used _ l l' found found'
  obtain ⟨_, found'', continues⟩ := h.keeps.ledger _ l found
  rw [found'] at found''
  cases found''
  refine ⟨l, found, ?_, ?_⟩
  · rw [Demand.bytes_append, ← h.fitsAfter_iff found found']
    exact misfit
  · unfold Ledger.limit
    rw [continues.device, continues.capacity, used, Demand.bytes_append, Nat.add_assoc l.used]

end Machine

end BatchDigest
