import BatchDigest.Proofs.Device.Account
import BatchDigest.Proofs.Device.Flow
import BatchDigest.Proofs.Device.History

/-!
# Books

The books of a machine are its ledgers and what it knows of its memories. Workers never touch them
(`Turn.books`). They are audited when every ledger is balanced and every live entry belongs to a
memory on that queue, and in stock when besides that nothing is live that nobody owns. An audit can
be made in any machine that calls lead to; being in stock is what programs keep that give a memory
back with its last owner (`Keeps`).
-/

namespace BatchDigest

namespace Machine

variable {m n after : Machine} {q : QueueId} {id : MemoryId}

/-- Memories and ledgers are the same. -/
structure SameBooks (m n : Machine) : Prop where
  memories : n.memories = m.memories
  ledger : ∀ q, n.ledger? q = m.ledger? q

theorem SameBooks.memory? (h : m.SameBooks n) (id : MemoryId) : n.memory? id = m.memory? id := by
  unfold Machine.memory?
  rw [h.memories]

theorem sameBooks_of_queues (queues : n.queues = m.queues) (memories : n.memories = m.memories) :
    m.SameBooks n := by
  refine ⟨memories, fun q => ?_⟩
  unfold ledger? queue?
  rw [queues]

/-- A change of a queue that leaves its ledger alone. -/
theorem sameBooks_updateQueue (m : Machine) (q : QueueId) (change : Queue → Queue)
    (keeps : ∀ queue, (change queue).ledger = queue.ledger) :
    m.SameBooks (m.updateQueue q change) := by
  refine ⟨rfl, fun p => ?_⟩
  unfold ledger?
  rw [queue?_updateQueue]
  split
  · cases m.queue? p <;> simp [keeps]
  · rfl

theorem sameBooks_submit (m : Machine) (q : QueueId) (label : String) (deps : List EventId)
    (work : Work) : m.SameBooks (m.submit q label deps work).2 := by
  unfold submit
  split
  · exact sameBooks_of_queues rfl rfl
  · have entered := sameBooks_updateQueue (m.addEvent .pending).2 q
      (fun queue => { queue with
        waiting := queue.waiting ++ [⟨label, deps, ⟨m.events.length⟩, work⟩] }) fun _ => rfl
    exact ⟨entered.memories, entered.ledger⟩

/-- No worker makes an entry. -/
theorem Turn.books (turn : m.Turn q after) : m.SameBooks after := by
  obtain ⟨_, _, _, _, moved⟩ := turn.moved
  exact ⟨moved.memories, moved.ledger⟩

theorem flow_sameBooks : Flow SameBooks where
  refl _ := ⟨rfl, fun _ => rfl⟩
  trans first second := ⟨second.memories.trans first.memories,
    fun q => (second.ledger q).trans (first.ledger q)⟩
  step step := (turn_of_advance? step).books

end Machine

/-- The entry of a memory on its ledger. -/
def Memory.allotment (memory : Memory) : Allotment :=
  ⟨memory.allocation, memory.kind, memory.length⟩

namespace Machine

variable {m n after : Machine} {q : QueueId} {id : MemoryId} {memory : Memory} {l : Ledger}

/-- Ledgers are balanced, and what is live belongs to memories. -/
structure Audited (m : Machine) : Prop where
  balanced : ∀ q l, m.ledger? q = some l → l.Balanced
  listed : ∀ q l, m.ledger? q = some l → ∀ entry ∈ l.live,
    ∃ id memory, m.memory? id = some memory ∧ memory.queue = q ∧ memory.allotment = entry

theorem SameBooks.audited (h : m.SameBooks n) (audited : m.Audited) : n.Audited := by
  constructor
  · intro q l found
    rw [h.ledger] at found
    exact audited.balanced q l found
  · intro q l found
    rw [h.ledger] at found
    simpa only [h.memory?] using audited.listed q l found

/-- The entries of a memory do not depend on its owners. -/
theorem Audited.updateMemory (audited : m.Audited) (id : MemoryId) (change : Memory → Memory)
    (keeps : ∀ memory, (change memory).queue = memory.queue ∧
      (change memory).allotment = memory.allotment) : (m.updateMemory id change).Audited := by
  refine ⟨audited.balanced, fun q l found entry mem => ?_⟩
  obtain ⟨other, memory, listed, rfl, rfl⟩ := audited.listed q l found entry mem
  by_cases same : other = id
  · subst same
    refine ⟨other, change memory, ?_, (keeps memory).1, (keeps memory).2⟩
    rw [memory?_updateMemory, if_pos rfl, listed]
    rfl
  · exact ⟨other, memory, by rw [memory?_updateMemory, if_neg same, listed], rfl, rfl⟩

theorem Audited.giveBack (audited : m.Audited) (id : MemoryId) : (m.giveBack id).Audited := by
  cases found : m.memory? id with
  | none =>
    unfold Machine.giveBack
    rw [found]
    exact audited
  | some memory =>
    have entry : m.place? id = some (memory.queue, memory.allocation) := by
      unfold place?
      rw [found]
      rfl
    have memories : ∀ other, (m.giveBack id).memory? other = m.memory? other := by
      intro other
      unfold memory?
      rw [memories_giveBack]
    constructor
    · intro p l found'
      rw [ledger?_giveBack entry] at found'
      split at found'
      · obtain ⟨l', here, rfl⟩ := Option.map_eq_some_iff.1 found'
        exact (audited.balanced p l' here).release _
      · exact audited.balanced p l found'
    · intro p l found'
      rw [ledger?_giveBack entry] at found'
      simp only [memories]
      split at found'
      · obtain ⟨l', here, rfl⟩ := Option.map_eq_some_iff.1 found'
        exact fun e mem => audited.listed p l' here e (Ledger.live_release_subset l' _ mem)
      · exact audited.listed p l found'

theorem Audited.release (audited : m.Audited) (id : MemoryId) : (m.release id).Audited := by
  have left := audited.updateMemory id (fun memory => { memory with owners := memory.owners - 1 })
    fun _ => ⟨rfl, rfl⟩
  unfold Machine.release
  dsimp only
  split
  · exact left.giveBack id
  · exact left

/-- What an allocation does to the books, whatever comes of it. -/
theorem allocate_books (m : Machine) (q : QueueId) (kind : MemoryKind) (length : Nat) :
    (∃ e, (m.allocate q kind length).1 = .error e ∧ (m.allocate q kind length).2 = m) ∨
      ∃ l, m.ledger? q = some l ∧ l.Fits length ∧
        (m.allocate q kind length).1 = .ok ⟨m.memories.length⟩ ∧
        (m.allocate q kind length).2.memories =
          m.memories ++ [⟨q, l.nextId, kind, length, 1⟩] ∧
        ∀ p, (m.allocate q kind length).2.ledger? p =
          if p = q then some (l.grown kind length) else m.ledger? p := by
  unfold allocate
  cases here : m.queue? q with
  | none => exact .inl ⟨_, rfl, rfl⟩
  | some queue =>
    dsimp only
    rcases queue.ledger.allocate_cases kind length with ⟨made, fits⟩ | ⟨e, refused⟩
    · have found : m.ledger? q = some queue.ledger := by
        unfold ledger?
        rw [here]
        rfl
      rw [made]
      refine .inr ⟨queue.ledger, found, fits, rfl, rfl, fun p => ?_⟩
      show ((m.updateQueue q _).queue? p).map (·.ledger) = _
      unfold ledger?
      rw [queue?_updateQueue]
      split
      next same =>
        rw [same, here]
        rfl
      next => rfl
    · rw [refused]
      exact .inl ⟨e, rfl, updateQueue_eq_self here rfl⟩

theorem memory?_of_append {new : Memory} (memories : n.memories = m.memories ++ [new]) :
    n.memory? ⟨m.memories.length⟩ = some new ∧
      ∀ id memory, m.memory? id = some memory → n.memory? id = some memory := by
  unfold memory?
  rw [memories]
  refine ⟨by simp, fun id memory found => ?_⟩
  rw [List.getElem?_append_left (List.getElem?_eq_some_iff.1 found).1]
  exact found

theorem Audited.allocate (audited : m.Audited) (q : QueueId) (kind : MemoryKind) (length : Nat) :
    (m.allocate q kind length).2.Audited := by
  obtain ⟨e, -, same⟩ | ⟨l, found, fits, -, memories, ledger⟩ := m.allocate_books q kind length
  · rw [same]
    exact audited
  · obtain ⟨new, old⟩ := memory?_of_append memories
    constructor
    · intro p l' found'
      rw [ledger] at found'
      split at found'
      · cases found'
        exact (audited.balanced q l found).grown kind fits.2.2
      · exact audited.balanced p l' found'
    · intro p l' found' entry mem
      rw [ledger] at found'
      split at found'
      next same =>
        subst same
        cases found'
        rcases List.mem_append.1 mem with mem | mem
        · obtain ⟨id, memory, listed, rest⟩ := audited.listed p l found entry mem
          exact ⟨id, memory, old id memory listed, rest⟩
        · exact ⟨_, _, new, rfl, (List.mem_singleton.1 mem).symm⟩
      next =>
        obtain ⟨id, memory, listed, rest⟩ := audited.listed p l' found' entry mem
        exact ⟨id, memory, old id memory listed, rest⟩

theorem Audited.addQueue (audited : m.Audited) (config : QueueConfig) :
    (m.addQueue config).2.Audited := by
  have ledger : ∀ p l, (m.addQueue config).2.ledger? p = some l →
      m.ledger? p = some l ∨ l = .empty config.name config.capacity := by
    intro p l found
    obtain ⟨queue, here, rfl⟩ := ledger?_eq_some_iff.1 found
    have here : (m.queues ++ [Queue.fresh config])[p.index]? = some queue := here
    rcases Nat.lt_or_ge p.index m.queues.length with old | new
    · rw [List.getElem?_append_left old] at here
      exact .inl (ledger?_eq_some_iff.2 ⟨queue, here, rfl⟩)
    · rw [List.getElem?_append_right new] at here
      rw [List.mem_singleton.1 (List.mem_of_getElem? here)]
      exact .inr rfl
  constructor
  · intro p l found
    rcases ledger p l found with old | rfl
    · exact audited.balanced p l old
    · exact Ledger.balanced_empty _ _
  · intro p l found entry mem
    rcases ledger p l found with old | rfl
    · exact audited.listed p l old entry mem
    · cases mem

end Machine

/-- No call spoils the books. -/
theorem Call.audited {m : Machine} (c : Call) (audited : m.Audited) : (c.apply m).Audited := by
  -- Most calls make no entry.
  have plain : ∀ {n}, m.SameBooks n → n.Audited := fun books => books.audited audited
  cases c with
  | createQueue config => exact audited.addQueue config
  | createEvent fault? =>
    refine plain ?_
    cases fault? <;> exact Machine.sameBooks_of_queues rfl rfl
  | submit queue label deps work => exact plain (m.sameBooks_submit queue label deps work)
  | holdQueue queue | dropQueue queue =>
    refine plain ?_
    exact m.sameBooks_updateQueue queue _ fun _ => rfl
  | createBuffer | writeBuffer | createGate | openGate =>
    refine plain ?_
    exact Machine.sameBooks_of_queues rfl rfl
  | allocate queue kind length => exact audited.allocate queue kind length
  | holdMemory memory | dropMemory memory => exact audited.updateMemory memory _ fun _ => ⟨rfl, rfl⟩
  | giveBack memory => exact audited.giveBack memory
  | release memory => exact audited.release memory
  | writeMemory memory offset data =>
    show (m.writeMemory memory offset data).2.Audited
    unfold Machine.writeMemory
    split
    · exact audited
    · split
      · refine plain ?_
        exact Machine.sameBooks_of_queues rfl rfl
      · exact audited

/-- **Books can be audited at any time**, whatever calls were made. -/
theorem Trace.audited_of_reaches {t : Trace} (run : Reaches .start t) : t.machine.Audited := by
  induction run with
  | refl =>
    constructor
    · exact fun _ _ found => nomatch found
    · exact fun _ _ found => nomatch found
  | step _ step ih =>
    cases step with
    | worker q after step => exact (Machine.turn_of_advance? step).books.audited ih
    | call c _ => exact c.audited ih

end BatchDigest
