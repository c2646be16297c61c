import BatchDigest.Proofs.Device.Call

/-!
# Live memories

A device memory is live while its allocation is on the ledger of its queue. Two facts about ledgers
carry this over every call: identifiers only count up, so that a new allocation is told apart from
all before it, and a release takes off one identifier and no other. `Machine.Booked` says of a
machine that its memories are entered that way.
-/

namespace BatchDigest

theorem MemoryId.eq_of_index {a b : MemoryId} (h : a.index = b.index) : a = b := by
  cases a
  cases b
  cases h
  rfl

namespace Ledger

variable {l : Ledger}

theorem isLive_release (l : Ledger) (id other : Nat) :
    (l.release id).isLive other = (l.isLive other && other != id) := by
  unfold release isLive
  split
  next absent =>
    -- What is not on the ledger is not taken off, so the second condition asks for nothing.
    have none : ∀ entry ∈ l.live, entry.id ≠ id := by simpa using absent
    by_cases same : other = id
    · subst same
      simpa using none
    · simp [same]
  next =>
    rw [Bool.eq_iff_iff]
    simp only [List.any_filter, List.any_eq_true, Bool.and_eq_true, bne_iff_ne, beq_iff_eq]
    constructor
    · rintro ⟨entry, mem, ne, rfl⟩
      exact ⟨⟨entry, mem, rfl⟩, ne⟩
    · rintro ⟨⟨entry, mem, rfl⟩, ne⟩
      exact ⟨entry, mem, ne, rfl⟩

theorem nextId_release (l : Ledger) (id : Nat) : (l.release id).nextId = l.nextId := by
  unfold release
  split <;> rfl

/-- Identifiers are not given out again, and live allocations stay on the ledger. -/
structure Extends (l after : Ledger) : Prop where
  nextId : l.nextId ≤ after.nextId
  isLive : ∀ id, l.isLive id → after.isLive id

theorem Extends.refl (l : Ledger) : l.Extends l :=
  ⟨Nat.le_refl _, fun _ => id⟩

theorem extends_of_live {after : Ledger} (nextId : after.nextId = l.nextId)
    (live : after.live = l.live) : l.Extends after := by
  refine ⟨Nat.le_of_eq nextId.symm, fun id listed => ?_⟩
  unfold isLive at listed ⊢
  rw [live]
  exact listed

/-- An allocation that succeeds enters the next identifier. One that fails enters nothing. -/
theorem allocate_extends (l : Ledger) (kind : MemoryKind) (length : Nat) :
    l.Extends (l.allocate kind length).2 ∧
      ∀ id, (l.allocate kind length).1 = .ok id → id = l.nextId ∧
        (l.allocate kind length).2.nextId = l.nextId + 1 ∧
        (l.allocate kind length).2.isLive id := by
  unfold allocate
  split
  · exact ⟨.refl l, nofun⟩
  · cases reserved : l.reserve? length with
    | none => exact ⟨.refl l, nofun⟩
    | some reserve =>
      obtain ⟨used, _, rfl⟩ := Option.map_eq_some_iff.1 reserved
      dsimp only
      split
      · refine ⟨⟨Nat.le_succ _, fun id listed => ?_⟩, ?_⟩
        · simp_all [isLive, enter]
        · rintro _ ⟨⟩
          simp [isLive, enter]
      · exact ⟨extends_of_live rfl rfl, nofun⟩

end Ledger

namespace Machine

variable {m after : Machine} {q : QueueId} {id other : MemoryId}

/-- Where a memory is entered: the queue of its ledger, and the identifier there. -/
def place? (m : Machine) (id : MemoryId) : Option (QueueId × Nat) :=
  (m.memory? id).map fun memory => (memory.queue, memory.allocation)

/-- Whether the allocation of a memory is on its ledger, not given back so far. -/
def isLive (m : Machine) (id : MemoryId) : Bool :=
  (m.place? id).any fun entry => (m.ledger? entry.1).any (·.isLive entry.2)

/-- How many owners a memory has. -/
def owners (m : Machine) (id : MemoryId) : Nat :=
  ((m.memory? id).map (·.owners)).getD 0

theorem isLive_iff : m.isLive id ↔ ∃ entry ledger, m.place? id = some entry ∧
    m.ledger? entry.1 = some ledger ∧ ledger.isLive entry.2 := by
  simp [isLive, Option.any_eq_true]

/-- Memories are entered on ledgers that exist, under identifiers that were given out, no two of
them under the same one. -/
structure Booked (m : Machine) : Prop where
  entered : ∀ id entry, m.place? id = some entry →
    ∃ ledger, m.ledger? entry.1 = some ledger ∧ entry.2 < ledger.nextId
  apart : ∀ id other entry, m.place? id = some entry → m.place? other = some entry → id = other

theorem booked_empty : Booked empty := by
  constructor <;> intros <;> simp_all [place?, memory?, empty]

/-! ## Calls that leave memories where they are -/

/-- The ledgers have the entries that they had. -/
def LedgersExtend (m after : Machine) : Prop :=
  ∀ q ledger, m.ledger? q = some ledger →
    ∃ next, after.ledger? q = some next ∧ ledger.Extends next

theorem LedgersExtend.isLive (h : m.LedgersExtend after) (entry : after.place? id = m.place? id)
    (live : m.isLive id) : after.isLive id := by
  obtain ⟨place, ledger, entered, found, listed⟩ := isLive_iff.1 live
  obtain ⟨next, found', extends'⟩ := h _ ledger found
  exact isLive_iff.2 ⟨place, next, by rw [entry, entered], found', extends'.isLive _ listed⟩

/-- Memories are entered where they were, on ledgers that have the entries that they had. -/
structure SameStore (m after : Machine) : Prop where
  entry : ∀ id, after.place? id = m.place? id
  ledgers : m.LedgersExtend after

theorem SameStore.isLive (h : m.SameStore after) (live : m.isLive id) : after.isLive id :=
  h.ledgers.isLive (h.entry id) live

theorem SameStore.booked (h : m.SameStore after) (booked : m.Booked) : after.Booked := by
  constructor
  · intro id entry entered
    rw [h.entry] at entered
    obtain ⟨ledger, found, lt⟩ := booked.entered id entry entered
    obtain ⟨next, found', extends'⟩ := h.ledgers _ ledger found
    exact ⟨next, found', Nat.lt_of_lt_of_le lt extends'.nextId⟩
  · intro id other entry first second
    rw [h.entry] at first second
    exact booked.apart id other entry first second

theorem place?_of_memories (memories : after.memories = m.memories) (id : MemoryId) :
    after.place? id = m.place? id := by
  unfold place? memory?
  rw [memories]

theorem owners_of_memories (memories : after.memories = m.memories) (id : MemoryId) :
    after.owners id = m.owners id := by
  unfold owners memory?
  rw [memories]

/-- Ledgers that are the same have the entries that they had. -/
theorem ledgersExtend_of_eq
    (same : ∀ q ledger, m.ledger? q = some ledger → after.ledger? q = some ledger) :
    m.LedgersExtend after :=
  fun q ledger found => ⟨ledger, same q ledger found, .refl ledger⟩

theorem SameBase.store (h : m.SameBase after) : m.SameStore after :=
  ⟨place?_of_memories h.memories, ledgersExtend_of_eq fun q ledger found => by rw [h.ledger, found]⟩

/-- A machine with the queues and memories of another one. -/
theorem sameStore_of_queues (queues : after.queues = m.queues)
    (memories : after.memories = m.memories) : m.SameStore after := by
  refine ⟨place?_of_memories memories, ledgersExtend_of_eq fun q ledger found => ?_⟩
  unfold ledger? queue? at found ⊢
  rw [queues, found]

/-- A change of a queue that leaves its ledger alone. -/
theorem sameStore_updateQueue (m : Machine) (q : QueueId) (change : Queue → Queue)
    (keeps : ∀ queue, (change queue).ledger = queue.ledger) :
    m.SameStore (m.updateQueue q change) := by
  refine ⟨place?_of_memories rfl, ledgersExtend_of_eq fun other ledger found => ?_⟩
  unfold ledger? at found ⊢
  rw [queue?_updateQueue]
  split
  · cases queue : m.queue? other <;> simp_all
  · exact found

theorem sameStore_addQueue (m : Machine) (config : QueueConfig) :
    m.SameStore (m.addQueue config).2 := by
  refine ⟨place?_of_memories rfl, ledgersExtend_of_eq fun q ledger found => ?_⟩
  obtain ⟨queue, at', rfl⟩ := Option.map_eq_some_iff.1 found
  have inside : q.index < m.queues.length := (List.getElem?_eq_some_iff.1 at').1
  have kept : (m.addQueue config).2.queue? q = some queue :=
    (List.getElem?_append_left inside).trans at'
  unfold ledger?
  rw [kept]
  rfl

/-- A submission takes no memory, whether the queue takes work or not. -/
theorem sameStore_submit (m : Machine) (q : QueueId) (label : String) (deps : List EventId)
    (work : Work) : m.SameStore (m.submit q label deps work).2 := by
  cases taken : m.isClosed q with
  | false => exact (submitted_submit label deps work taken).base.store
  | true =>
    unfold submit
    rw [if_pos taken]
    exact sameStore_of_queues rfl rfl

theorem memories_submit (m : Machine) (q : QueueId) (label : String) (deps : List EventId)
    (work : Work) : (m.submit q label deps work).2.memories = m.memories := by
  unfold submit
  split <;> rfl

/-! ## Owners -/

@[simp] theorem memory?_updateMemory (m : Machine) (id other : MemoryId)
    (change : Memory → Memory) : (m.updateMemory id change).memory? other =
      if other = id then (m.memory? other).map change else m.memory? other := by
  unfold updateMemory memory?
  rw [List.getElem?_modify]
  by_cases h : other = id
  · subst h
    simp
  · have hi : id.index ≠ other.index := fun i => h (MemoryId.eq_of_index i.symm)
    simp [h, hi]

/-- A change of the owners of a memory moves no memory. -/
theorem sameStore_updateMemory (m : Machine) (id : MemoryId) (change : Memory → Memory)
    (keeps : ∀ memory, (change memory).queue = memory.queue ∧
      (change memory).allocation = memory.allocation) : m.SameStore (m.updateMemory id change) := by
  refine ⟨fun other => ?_, ledgersExtend_of_eq fun _ _ found => found⟩
  unfold place?
  rw [memory?_updateMemory]
  split
  · cases m.memory? other <;> simp [keeps]
  · rfl

theorem owners_addOwner (m : Machine) (id other : MemoryId) (held : 0 < m.owners id) :
    (m.addOwner id).owners other = if other = id then m.owners other + 1 else m.owners other := by
  unfold addOwner owners at *
  rw [memory?_updateMemory]
  split
  next same =>
    subst same
    cases found : m.memory? other with
    | none => simp [found] at held
    | some memory => rfl
  next => rfl

theorem owners_dropOwner (m : Machine) (id other : MemoryId) :
    (m.dropOwner id).2.owners other =
      if other = id then m.owners other - 1 else m.owners other := by
  unfold dropOwner owners
  dsimp only
  rw [memory?_updateMemory]
  split
  · cases m.memory? other <;> rfl
  · rfl

/-- The owner that goes is told whether it was the last one. -/
theorem dropOwner_last (m : Machine) (id : MemoryId) :
    (m.dropOwner id).1 = true ↔ m.owners id = 1 := by
  unfold dropOwner owners
  cases m.memory? id <;> simp

/-! ## Allocations given back -/

theorem giveBack_eq (m : Machine) (id : MemoryId) : m.giveBack id =
    match m.place? id with
    | none => m
    | some entry => m.updateQueue entry.1 fun queue =>
        { queue with ledger := queue.ledger.release entry.2 } := by
  unfold giveBack place?
  cases m.memory? id <;> rfl

theorem memories_giveBack (m : Machine) (id : MemoryId) :
    (m.giveBack id).memories = m.memories := by
  unfold giveBack
  split <;> rfl

theorem ledger?_giveBack {entry : QueueId × Nat} (entered : m.place? id = some entry)
    (p : QueueId) : (m.giveBack id).ledger? p =
      if p = entry.1 then (m.ledger? p).map (·.release entry.2) else m.ledger? p := by
  rw [giveBack_eq, entered]
  unfold ledger?
  dsimp only
  rw [queue?_updateQueue]
  split
  · cases m.queue? p <;> rfl
  · rfl

/-- Only the memory itself stops being live. -/
theorem isLive_giveBack (booked : m.Booked) (ne : other ≠ id) (live : m.isLive other) :
    (m.giveBack id).isLive other := by
  obtain ⟨entry, ledger, entered, found, listed⟩ := isLive_iff.1 live
  cases given : m.place? id with
  | none =>
    rw [giveBack_eq, given]
    exact live
  | some gone =>
    have apart : gone ≠ entry := by
      rintro rfl
      exact ne (booked.apart other id gone entered given)
    have entered' : (m.giveBack id).place? other = some entry := by
      rw [place?_of_memories (m.memories_giveBack id), entered]
    have found' := ledger?_giveBack given entry.1
    split at found'
    next same =>
      -- One ledger with two entries: their identifiers differ.
      have differ : entry.2 ≠ gone.2 := fun eq => apart (Prod.ext same.symm eq.symm)
      rw [found] at found'
      refine isLive_iff.2 ⟨entry, _, entered', found', ?_⟩
      simp [Ledger.isLive_release, listed, differ]
    next => exact isLive_iff.2 ⟨entry, ledger, entered', found'.trans found, listed⟩

theorem Booked.giveBack (booked : m.Booked) (id : MemoryId) : (m.giveBack id).Booked := by
  have entries := place?_of_memories (m.memories_giveBack id)
  cases given : m.place? id with
  | none =>
    rw [giveBack_eq, given]
    exact booked
  | some gone =>
    constructor
    · intro other entry entered
      rw [entries] at entered
      obtain ⟨ledger, found, lt⟩ := booked.entered other entry entered
      rw [ledger?_giveBack given]
      split
      · exact ⟨_, by rw [found]; rfl, by rw [Ledger.nextId_release]; exact lt⟩
      · exact ⟨ledger, found, lt⟩
    · intro a b entry first second
      rw [entries] at first second
      exact booked.apart a b entry first second

/-! ## Allocations made -/

/-- The ledgers after an allocation, whatever came of it. -/
theorem ledger?_allocate {queue : Queue} (found : m.queue? q = some queue) (kind : MemoryKind)
    (length : Nat) (p : QueueId) : (m.allocate q kind length).2.ledger? p =
      if p = q then some (queue.ledger.allocate kind length).2 else m.ledger? p := by
  have changed : ∀ change : Queue → Queue, ((m.updateQueue q change).queue? p).map (·.ledger) =
      if p = q then some (change queue).ledger else m.ledger? p := by
    intro change
    unfold ledger?
    rw [queue?_updateQueue]
    split
    next same => rw [same, found]; rfl
    next => rfl
  unfold allocate ledger?
  rw [found]
  dsimp only
  split <;> exact changed _

theorem ledgersExtend_allocate (m : Machine) (q : QueueId) (kind : MemoryKind) (length : Nat) :
    m.LedgersExtend (m.allocate q kind length).2 := by
  intro p ledger found
  cases at' : m.queue? q with
  | none =>
    unfold allocate
    rw [at']
    exact ⟨ledger, found, .refl ledger⟩
  | some queue =>
    rw [ledger?_allocate at']
    split
    next same =>
      subst same
      unfold ledger? at found
      rw [at'] at found
      cases found
      exact ⟨_, rfl, (queue.ledger.allocate_extends kind length).1⟩
    next => exact ⟨ledger, found, .refl ledger⟩

/-- What an allocation that succeeds does to memories and ledgers: there is a new memory, live and
with one owner, and the others are as they were. -/
structure Enters (m : Machine) (id : MemoryId) (after : Machine) : Prop where
  booked : after.Booked
  live : after.isLive id
  keeps : ∀ other, m.isLive other → after.isLive other
  unowned : m.owners id = 0
  owners : ∀ other, after.owners other = if other = id then 1 else m.owners other

/-- The memory that an allocation makes. -/
theorem memory?_allocate {queue : Queue} (found : m.queue? q = some queue) {kind : MemoryKind}
    {length : Nat} (h : (m.allocate q kind length).1 = .ok id) :
    m.memory? id = none ∧ ∃ allocation,
      (queue.ledger.allocate kind length).1 = .ok allocation ∧
      ∀ other, (m.allocate q kind length).2.memory? other =
        if other = id then some ⟨q, allocation, kind, length, 1⟩ else m.memory? other := by
  unfold allocate at h ⊢
  rw [found] at h ⊢
  dsimp only at h ⊢
  split at h
  next => cases h
  next allocation given =>
    cases h
    refine ⟨List.getElem?_eq_none (Nat.le_refl _), allocation, given, fun other => ?_⟩
    unfold memory?
    dsimp only
    rw [memories_updateQueue, List.getElem?_append]
    split
    next old => rw [if_neg (by rintro rfl; exact Nat.lt_irrefl _ old)]
    next new =>
      split
      next same => rw [same]; simp
      next ne =>
        have beyond : other.index ≠ m.memories.length :=
          fun eq => ne (by cases other; cases eq; rfl)
        rw [List.getElem?_eq_none (by simp; omega), List.getElem?_eq_none (by omega)]

/-- Where memories are entered after an allocation. -/
theorem place?_allocate {queue : Queue} (found : m.queue? q = some queue) {kind : MemoryKind}
    {length : Nat} (h : (m.allocate q kind length).1 = .ok id) (other : MemoryId) :
    (m.allocate q kind length).2.place? other =
      if other = id then some (q, queue.ledger.nextId) else m.place? other := by
  obtain ⟨_, allocation, given, memory⟩ := memory?_allocate found h
  obtain ⟨rfl, -⟩ := (queue.ledger.allocate_extends kind length).2 _ given
  unfold place?
  rw [memory]
  split <;> rfl

/-- A new entry is told apart from the old ones: on its ledger they have lower identifiers. -/
theorem Booked.place?_ne (booked : m.Booked) {queue : Queue} (found : m.queue? q = some queue)
    {entry : QueueId × Nat} (entered : m.place? id = some entry) :
    entry ≠ (q, queue.ledger.nextId) := by
  rintro rfl
  obtain ⟨old, listed, lt⟩ := booked.entered id _ entered
  unfold ledger? at listed
  rw [found] at listed
  cases listed
  exact Nat.lt_irrefl _ lt

/-- **An allocation enters a new memory and keeps all others.** -/
theorem enters_allocate {kind : MemoryKind} {length : Nat}
    (h : (m.allocate q kind length).1 = .ok id) (booked : m.Booked) :
    m.Enters id (m.allocate q kind length).2 := by
  cases at' : m.queue? q with
  | none =>
    unfold allocate at h
    rw [at'] at h
    cases h
  | some queue =>
    obtain ⟨absent, allocation, given, memory⟩ := memory?_allocate at' h
    obtain ⟨rfl, nextId, listed⟩ := (queue.ledger.allocate_extends kind length).2 _ given
    have ledgers := m.ledgersExtend_allocate q kind length
    have ledger := ledger?_allocate at' kind length q
    rw [if_pos rfl] at ledger
    have entry := place?_allocate at' h
    have old : ∀ other, m.isLive other → other ≠ id := by
      rintro other live rfl
      obtain ⟨place, _, entered, _⟩ := isLive_iff.1 live
      unfold place? at entered
      rw [absent] at entered
      cases entered
    refine ⟨⟨?entered, ?apart⟩, ?live, ?keeps, ?unowned, ?owners⟩
    case entered =>
      intro other place entered
      rw [entry] at entered
      split at entered
      next =>
        cases entered
        exact ⟨_, ledger, by omega⟩
      next =>
        obtain ⟨before, found, lt⟩ := booked.entered other place entered
        obtain ⟨next, found', extends'⟩ := ledgers _ before found
        exact ⟨next, found', Nat.lt_of_lt_of_le lt extends'.nextId⟩
    case apart =>
      intro a b place first second
      rw [entry] at first second
      split at first <;> split at second
      next sameA sameB => rw [sameA, sameB]
      next => exact absurd (Option.some.inj first).symm (booked.place?_ne at' second)
      next => exact absurd (Option.some.inj second).symm (booked.place?_ne at' first)
      next => exact booked.apart a b place first second
    case live =>
      exact isLive_iff.2 ⟨_, _, (entry id).trans (if_pos rfl), ledger, listed⟩
    case keeps =>
      intro other live
      exact ledgers.isLive ((entry other).trans (if_neg (old other live))) live
    case unowned =>
      unfold owners
      rw [absent]
      rfl
    case owners =>
      intro other
      unfold owners
      rw [memory]
      split <;> rfl

end Machine

end BatchDigest
