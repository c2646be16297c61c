import BatchDigest.Proofs.Device.Books

/-!
# Memories in stock

A machine is in stock when its books can be audited and whatever is live has an owner. Calls that
take owners and allocations apart can break that, but a release does both at once. `Keeps` is what a
program does to the books that only allocates, shares and releases: it stays in stock, memories keep
their place, kind and length, and ledgers go on in a given way. For any program they go on counting
(`Ledger.Continues`); for one that only releases they keep their history (`Ledger.Returns`).
-/

namespace BatchDigest

/-! ## Ledgers over time -/

namespace Ledger

/-- The same ledger later. -/
structure Continues (l after : Ledger) : Prop where
  device : after.device = l.device
  capacity : after.capacity = l.capacity
  nextId : l.nextId ≤ after.nextId
  peak : l.stats.peakBytes ≤ after.stats.peakBytes

/-- The same ledger after releases. -/
structure Returns (l after : Ledger) : Prop where
  device : after.device = l.device
  capacity : after.capacity = l.capacity
  nextId : after.nextId = l.nextId
  peak : after.stats.peakBytes = l.stats.peakBytes

theorem returns_release (l : Ledger) (id : Nat) : l.Returns (l.release id) := by
  unfold release
  split <;> exact ⟨rfl, rfl, rfl, rfl⟩

theorem Returns.symm {l after : Ledger} (h : l.Returns after) : after.Returns l :=
  ⟨h.device.symm, h.capacity.symm, h.nextId.symm, h.peak.symm⟩

theorem Returns.continues {l after : Ledger} (h : l.Returns after) : l.Continues after :=
  ⟨h.device, h.capacity, Nat.le_of_eq h.nextId.symm, Nat.le_of_eq h.peak.symm⟩

theorem continues_grown (l : Ledger) (kind : MemoryKind) (length : Nat) :
    l.Continues (l.grown kind length) :=
  ⟨rfl, rfl, Nat.le_succ _, Nat.le_max_left _ _⟩

/-- A way for ledgers to go on that has room for releases. -/
structure Course (G : Ledger → Ledger → Prop) : Prop where
  refl : ∀ l, G l l
  trans : ∀ {l mid after}, G l mid → G mid after → G l after
  release : ∀ l id, G l (l.release id)

theorem course_returns : Course Returns where
  refl _ := ⟨rfl, rfl, rfl, rfl⟩
  trans first second := ⟨second.device.trans first.device, second.capacity.trans first.capacity,
    second.nextId.trans first.nextId, second.peak.trans first.peak⟩
  release := returns_release

theorem course_continues : Course Continues where
  refl _ := ⟨rfl, rfl, Nat.le_refl _, Nat.le_refl _⟩
  trans first second := ⟨second.device.trans first.device, second.capacity.trans first.capacity,
    Nat.le_trans first.nextId second.nextId, Nat.le_trans first.peak second.peak⟩
  release l id := (returns_release l id).continues

/-- A balanced ledger is told by its entries and its history. -/
theorem Balanced.eq_of_live {l l' : Ledger} (balanced : l.Balanced) (balanced' : l'.Balanced)
    (history : l.Returns l') (live : l'.live = l.live) : l' = l := by
  have nextId := history.nextId
  have first := balanced.nextId
  have second := balanced'.nextId
  have turnover := balanced.turnover
  have turnover' := balanced'.turnover
  rw [live] at turnover'
  have allocations : l'.stats.allocations = l.stats.allocations := by omega
  have frees : l'.stats.frees = l.stats.frees := by omega
  have used : l'.used = l.used := by rw [balanced.used, balanced'.used, live]
  have bytes : l'.stats.liveBytes = l.stats.liveBytes := by
    rw [balanced.liveBytes, balanced'.liveBytes, live]
  have number : l'.stats.liveAllocations = l.stats.liveAllocations := by
    rw [balanced.liveAllocations, balanced'.liveAllocations, live]
  have limit : l'.stats.capacity = l.stats.capacity := by
    rw [balanced.capacity, balanced'.capacity, history.capacity]
  obtain ⟨device, capacity, -, peak⟩ := history
  obtain ⟨_, _, _, _, _, _, _, _, _, _, _⟩ := l
  obtain ⟨_, _, _, _, _, _, _, _, _, _, _⟩ := l'
  simp_all

end Ledger

namespace Machine

variable {m n k after : Machine} {q : QueueId} {id : MemoryId} {memory : Memory} {l : Ledger}

/-! ## Stock -/

/-- The books can be audited, and whatever is live has an owner. -/
structure Stocked (m : Machine) : Prop extends Audited m where
  booked : m.Booked
  owned : ∀ id memory l, m.memory? id = some memory → m.ledger? memory.queue = some l →
    l.isLive memory.allocation → 0 < memory.owners

theorem SameBooks.store (h : m.SameBooks n) : m.SameStore n :=
  ⟨place?_of_memories h.memories, ledgersExtend_of_eq fun q l found => by rw [h.ledger, found]⟩

theorem SameBooks.stocked (h : m.SameBooks n) (stocked : m.Stocked) : n.Stocked := by
  refine ⟨h.audited stocked.toAudited, h.store.booked stocked.booked, ?_⟩
  intro id memory l found listed
  rw [h.memory?] at found
  rw [h.ledger] at listed
  exact stocked.owned id memory l found listed

/-- Where nothing was ever allocated, nothing is live. -/
theorem Audited.stocked (audited : m.Audited) (none : m.memories = []) : m.Stocked := by
  have absent : ∀ id, m.memory? id = Option.none := by
    intro id
    unfold memory?
    rw [none]
    rfl
  refine ⟨audited, ⟨?_, ?_⟩, ?_⟩
  · intro id entry found
    unfold place? at found
    rw [absent] at found
    cases found
  · intro id _ entry found
    unfold place? at found
    rw [absent] at found
    cases found
  · intro id memory l found
    rw [absent] at found
    cases found

theorem Stocked.addOwner (stocked : m.Stocked) (id : MemoryId) : (m.addOwner id).Stocked := by
  have store : m.SameStore (m.addOwner id) := m.sameStore_updateMemory id _ fun _ => ⟨rfl, rfl⟩
  refine ⟨stocked.toAudited.updateMemory id _ fun _ => ⟨rfl, rfl⟩, store.booked stocked.booked, ?_⟩
  intro other memory l found listed live
  have found : (m.updateMemory id _).memory? other = some memory := found
  rw [memory?_updateMemory] at found
  split at found
  · obtain ⟨old, -, rfl⟩ := Option.map_eq_some_iff.1 found
    exact Nat.succ_pos _
  · exact stocked.owned other memory l found listed live

/-- The last owner takes the allocation along, and any other leaves an owner behind. -/
theorem Stocked.release (stocked : m.Stocked) (id : MemoryId) : (m.release id).Stocked := by
  have booked : (m.release id).Booked := by
    have store : m.SameStore (m.dropOwner id).2 :=
      m.sameStore_updateMemory id _ fun _ => ⟨rfl, rfl⟩
    unfold Machine.release
    dsimp only
    split
    · exact (store.booked stocked.booked).giveBack id
    · exact store.booked stocked.booked
  cases here : m.memory? id with
  | none =>
    rw [release_eq_self (by simp [owners, here])]
    exact stocked
  | some gone =>
    refine ⟨stocked.toAudited.release id, booked, ?_⟩
    intro other memory l found listed live
    have found' := found
    rw [memory?_release] at found
    by_cases same : other = id
    · subst same
      rw [if_pos rfl, here] at found
      cases found
      rw [ledger?_release here] at listed
      split at listed
      next last =>
        obtain ⟨old, found, rfl⟩ := Option.map_eq_some_iff.1 listed
        simp [Ledger.isLive_release] at live
      next more =>
        have pos := stocked.owned other gone l here listed live
        have one : gone.owners ≠ 1 := fun one => more ⟨one, rfl⟩
        show 0 < gone.owners - 1
        omega
    · rw [if_neg same] at found
      rw [ledger?_release here] at listed
      split at listed
      · obtain ⟨old, there, rfl⟩ := Option.map_eq_some_iff.1 listed
        rw [Ledger.isLive_release, Bool.and_eq_true] at live
        exact stocked.owned other memory old found there live.1
      · exact stocked.owned other memory l found listed live

theorem Stocked.allocate (stocked : m.Stocked) (q : QueueId) (kind : MemoryKind) (length : Nat) :
    (m.allocate q kind length).2.Stocked := by
  have audited := stocked.toAudited.allocate q kind length
  obtain ⟨e, -, same⟩ | ⟨l, found, -, made, memories, ledger⟩ := m.allocate_books q kind length
  · rw [same]
    exact stocked
  · refine ⟨audited, (enters_allocate made stocked.booked).booked, ?_⟩
    intro id memory l' listed found' live
    unfold memory? at listed
    rw [memories, List.getElem?_append] at listed
    split at listed
    · -- An old memory has an old identifier, which is not that of the new entry.
      have old : m.memory? id = some memory := listed
      rw [ledger] at found'
      split at found'
      next same =>
        cases found'
        obtain ⟨l'', here, lt⟩ := stocked.booked.entered id (memory.queue, memory.allocation) (by
          unfold place?
          rw [old]
          rfl)
        rw [same, found] at here
        cases here
        have ne : l.nextId ≠ memory.allocation := Nat.ne_of_gt lt
        have still : l.isLive memory.allocation := by
          simpa [Ledger.isLive, Ledger.live_grown, ne] using live
        exact stocked.owned id memory l old (same ▸ found) still
      next => exact stocked.owned id memory l' old found' live
    · rw [List.mem_singleton.1 (List.mem_of_getElem? listed)]
      exact Nat.one_pos

/-! ## What programs do to the books -/

/-- The machine stays in stock, memories only change owners, and ledgers go on in a given way. -/
structure Keeps (G : Ledger → Ledger → Prop) (m n : Machine) : Prop where
  stocked : m.Stocked → n.Stocked
  memory : ∀ id memory, m.memory? id = some memory →
    ∃ owners, n.memory? id = some { memory with owners }
  ledger : ∀ q l, m.ledger? q = some l → ∃ l', n.ledger? q = some l' ∧ G l l'

variable {G : Ledger → Ledger → Prop}

theorem SameBooks.keeps (h : m.SameBooks n) (course : Ledger.Course G) : Keeps G m n :=
  ⟨h.stocked, fun id memory found => ⟨memory.owners, by rw [h.memory?, found]⟩,
    fun q l found => ⟨l, by rw [h.ledger, found], course.refl l⟩⟩

theorem Keeps.trans (first : Keeps G m n) (second : Keeps G n k) (course : Ledger.Course G) :
    Keeps G m k := by
  refine ⟨fun stocked => second.stocked (first.stocked stocked), ?_, ?_⟩
  · intro id memory found
    obtain ⟨_, between⟩ := first.memory id memory found
    obtain ⟨owners, found⟩ := second.memory id _ between
    exact ⟨owners, found⟩
  · intro q l found
    obtain ⟨l', found, before⟩ := first.ledger q l found
    obtain ⟨l'', found, after⟩ := second.ledger q l' found
    exact ⟨l'', found, course.trans before after⟩

theorem flow_keeps (course : Ledger.Course G) : Flow (Keeps G) where
  refl m := (flow_sameBooks.refl m).keeps course
  trans first second := first.trans second course
  step step := (turn_of_advance? step).books.keeps course

theorem keeps_release (course : Ledger.Course G) (m : Machine) (id : MemoryId) :
    Keeps G m (m.release id) := by
  refine ⟨fun stocked => stocked.release id, ?_, ?_⟩
  · intro other memory found
    rw [memory?_release]
    split
    · exact ⟨memory.owners - 1, by rw [found]; rfl⟩
    · exact ⟨memory.owners, found⟩
  · intro q l found
    cases here : m.memory? id with
    | none =>
      rw [release_eq_self (by simp [owners, here])]
      exact ⟨l, found, course.refl l⟩
    | some memory =>
      rw [ledger?_release here]
      split
      · exact ⟨_, by rw [found]; rfl, course.release l _⟩
      · exact ⟨l, found, course.refl l⟩

theorem SameBooks.giveBack (h : m.SameBooks n) (id : MemoryId) :
    (m.giveBack id).SameBooks (n.giveBack id) := by
  have place : n.place? id = m.place? id := place?_of_memories h.memories id
  refine ⟨by rw [memories_giveBack, memories_giveBack, h.memories], fun q => ?_⟩
  cases entry : m.place? id with
  | none =>
    rw [giveBack_eq, giveBack_eq, place, entry]
    exact h.ledger q
  | some entry' =>
    rw [ledger?_giveBack entry, ledger?_giveBack (place.trans entry), h.ledger]

/-- The last owner of a memory may let time go by before it gives the allocation back. -/
theorem keeps_leave (course : Ledger.Course G) (last : (m.dropOwner id).1 = true)
    (later : (m.dropOwner id).2.Evolves n) : Keeps G m (n.giveBack id) := by
  have books := (flow_sameBooks.evolves later).giveBack id
  have released : m.release id = (m.dropOwner id).2.giveBack id := by
    unfold Machine.release
    dsimp only
    rw [if_pos last]
  rw [← released] at books
  exact (keeps_release course m id).trans (books.keeps course) course

theorem keeps_allocate (m : Machine) (q : QueueId) (kind : MemoryKind) (length : Nat) :
    Keeps Ledger.Continues m (m.allocate q kind length).2 := by
  refine ⟨fun stocked => stocked.allocate q kind length, ?_, ?_⟩
  · exact fun id memory found =>
      ⟨memory.owners, memory?_allocate_of_some found q kind length⟩
  · intro p l found
    obtain ⟨e, -, same⟩ | ⟨l', found', -, -, -, ledger⟩ := m.allocate_books q kind length
    · rw [same]
      exact ⟨l, found, Ledger.course_continues.refl l⟩
    · rw [ledger]
      split
      next same =>
        rw [same, found'] at found
        cases found
        exact ⟨_, rfl, Ledger.continues_grown _ _ _⟩
      next => exact ⟨l, found, Ledger.course_continues.refl l⟩

theorem keeps_addOwner (course : Ledger.Course G) (m : Machine) (id : MemoryId) :
    Keeps G m (m.addOwner id) := by
  refine ⟨fun stocked => stocked.addOwner id, ?_, fun q l found => ⟨l, found, course.refl l⟩⟩
  intro other memory found
  unfold addOwner
  rw [memory?_updateMemory]
  split
  · exact ⟨memory.owners + 1, by rw [found]; rfl⟩
  · exact ⟨memory.owners, found⟩

end Machine

end BatchDigest
