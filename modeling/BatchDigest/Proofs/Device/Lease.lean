import BatchDigest.Proofs.Device.Live
import BatchDigest.Proofs.Device.Outlast

/-!
# Leases of device memory

Nothing in the machine stops the host from giving a memory back that queued work still uses: work
keeps the bytes, not the allocation. What stops it is a discipline of owners, and a *lease* is what
the discipline knows of one owner: the memory, if there is one, and the last events of the work that
uses the memory on the owner's behalf. An event is enough for a whole chain of jobs, because a queue
resolves its events in order (`Machine.Outlasts`). Some work is done for all owners, such as the
upload of tables; its events are part of every lease, and only the last owner has to wait for them.

`Machine.Leased` is the invariant. The leases count the owners of every memory, leased memories are
live, and whatever memory a pending job touches is leased until an event that outlasts the job. So
nothing is freed under queued work (`Machine.Safe`), and an owner may go when its events are
resolved.
-/

namespace BatchDigest

/-- What one owner of a memory holds. -/
structure Lease where
  memory : Option MemoryId
  /-- The last events of the work that is done for all owners. -/
  shared : List EventId
  /-- The last events of the work that is done for this owner. -/
  lasts : List EventId
deriving Repr, DecidableEq

namespace Lease

/-- The events of the work that uses the memory. -/
def events (l : Lease) : List EventId :=
  l.shared ++ l.lasts

/-- The lease with one more event to wait for. -/
def upTo (l : Lease) (e : EventId) : Lease :=
  ⟨l.memory, l.shared, e :: l.lasts⟩

/-- The lease once the owner's own work is over. -/
def settled (l : Lease) : Lease :=
  ⟨l.memory, l.shared, []⟩

theorem mem_events_upTo {l : Lease} {e d : EventId} :
    d ∈ (l.upTo e).events ↔ d = e ∨ d ∈ l.events := by
  simp only [events, upTo, List.mem_append, List.mem_cons]
  exact or_left_comm

/-- Leases of one memory share the same events. -/
def Agree (l l' : Lease) : Prop :=
  ∀ id, l.memory = some id → l'.memory = some id → l.shared = l'.shared

theorem agree_cons {l : Lease} {leases : List Lease} (first : ∀ l' ∈ leases, l.Agree l')
    (rest : ∀ l ∈ leases, ∀ l' ∈ leases, l.Agree l') :
    ∀ a ∈ l :: leases, ∀ b ∈ l :: leases, a.Agree b := by
  intro a memA b memB
  -- Either lease may be the first one.
  rcases List.mem_cons.1 memA with rfl | inA <;> rcases List.mem_cons.1 memB with rfl | inB
  · exact fun _ _ _ => rfl
  · exact first b inB
  · exact fun id on on' => (first a inA id on' on).symm
  · exact rest a inA b inB

end Lease

namespace Machine

variable {m n after : Machine} {q : QueueId}

/-- No pending job touches a memory that was given back. -/
def Safe (m : Machine) : Prop :=
  ∀ q, ∀ job ∈ m.pending q, ∀ id, .memory id ∈ job.work.touches → m.isLive id

/-! ## The invariant -/

/-- Leased memories are live, and so is all that pending jobs touch: it is leased until an event
that outlasts the job. -/
structure Covered (m : Machine) (leases : List Lease) : Prop where
  sound : m.Sound
  booked : m.Booked
  known : ∀ l ∈ leases, ∀ e ∈ l.events, e.index < m.events.length
  agree : ∀ l ∈ leases, ∀ l' ∈ leases, l.Agree l'
  live : ∀ l ∈ leases, ∀ id, l.memory = some id → m.isLive id
  covered : ∀ q, ∀ job ∈ m.pending q, ∀ id, .memory id ∈ job.work.touches →
    ∃ l ∈ leases, l.memory = some id ∧ ∃ e ∈ l.events, m.Outlasts e job.event

/-- The leases count the owners of every memory. -/
def Owned (m : Machine) (leases : List Lease) : Prop :=
  ∀ id, m.owners id = (leases.map (·.memory)).count (some id)

/-- Each owner has its lease, and the leases cover the pending jobs. -/
structure Leased (m : Machine) (leases : List Lease) : Prop where
  covered : m.Covered leases
  owned : m.Owned leases

variable {l : Lease} {leases mine others : List Lease} {id : MemoryId}

/-- **Under leases no pending job touches a memory that was given back.** -/
theorem Covered.safe (h : m.Covered leases) : m.Safe := by
  intro q job mem id touched
  obtain ⟨l, leased, same, _⟩ := h.covered q job mem id touched
  exact h.live l leased id same

namespace Covered

theorem turn (h : m.Covered leases) (turn : m.Turn q after) : after.Covered leases := by
  have sound := h.sound
  have store := (turn.base sound).store
  refine ⟨turn.sound sound, store.booked h.booked, ?_, h.agree, ?_, ?_⟩
  · rw [turn.length_events sound]
    exact h.known
  · exact fun l mem id same => store.isLive (h.live l mem id same)
  · intro p job mem id touched
    obtain ⟨l, leased, same, e, last, outlasts⟩ :=
      h.covered p job (turn.mem_pending mem) id touched
    exact ⟨l, leased, same, e, last, outlasts.turn sound turn⟩

theorem evolves (h : m.Covered leases) (evolves : m.Evolves n) : n.Covered leases :=
  evolves.keeps (p := fun k => k.Covered leases) (fun _ _ _ h turn => h.turn turn) h

/-- Fewer leases that cover the jobs all the same. -/
theorem of_subset (h : m.Covered leases) (subset : ∀ l ∈ others, l ∈ leases)
    (covered : ∀ q, ∀ job ∈ m.pending q, ∀ id, .memory id ∈ job.work.touches →
      ∃ l ∈ others, l.memory = some id ∧ ∃ e ∈ l.events, m.Outlasts e job.event) :
    m.Covered others :=
  ⟨h.sound, h.booked, fun l mem => h.known l (subset l mem),
    fun l mem l' mem' => h.agree l (subset l mem) l' (subset l' mem'),
    fun l mem => h.live l (subset l mem), covered⟩

theorem perm (h : m.Covered leases) (same : leases.Perm others) : m.Covered others := by
  refine h.of_subset (fun l => same.mem_iff.2) fun q job mem id touched => ?_
  obtain ⟨l, leased, rest⟩ := h.covered q job mem id touched
  exact ⟨l, same.mem_iff.1 leased, rest⟩

/-- A call that concerns no job and takes no allocation off its ledger. -/
theorem calm (h : m.Covered leases) (steady : m.Steady after) (booked : after.Booked)
    (live : ∀ id, m.isLive id → after.isLive id) : after.Covered leases := by
  refine ⟨steady.sound h.sound, booked, ?_, h.agree, ?_, ?_⟩
  · exact fun l mem e last => Nat.lt_of_lt_of_le (h.known l mem e last) steady.length_events
  · exact fun l mem id same => live id (h.live l mem id same)
  · intro q job mem id touched
    rw [steady.pending] at mem
    obtain ⟨l, leased, same, e, last, outlasts⟩ := h.covered q job mem id touched
    exact ⟨l, leased, same, e, last, outlasts.steady steady⟩

/-- One more lease on a live memory. -/
theorem cons (h : m.Covered leases) (live : ∀ id, l.memory = some id → m.isLive id)
    (known : ∀ e ∈ l.events, e.index < m.events.length) (agree : ∀ l' ∈ leases, l.Agree l') :
    m.Covered (l :: leases) := by
  refine ⟨h.sound, h.booked, ?_, Lease.agree_cons agree h.agree, ?_, ?_⟩
  · exact List.forall_mem_cons.2 ⟨known, h.known⟩
  · exact List.forall_mem_cons.2 ⟨live, h.live⟩
  · intro q job mem id touched
    obtain ⟨l, leased, rest⟩ := h.covered q job mem id touched
    exact ⟨l, List.mem_cons_of_mem _ leased, rest⟩

/-- A lease can go when its own events are resolved, and so are the shared ones, if no other lease
of the memory takes them over. -/
theorem drop (h : m.Covered (l :: leases)) (ended : ∀ e ∈ l.lasts, m.isResolved e)
    (shared : (∀ e ∈ l.shared, m.isResolved e) ∨ ∃ heir ∈ leases, heir.memory = l.memory) :
    m.Covered leases := by
  refine h.of_subset (fun _ => List.mem_cons_of_mem _) fun q job mem id touched => ?_
  obtain ⟨l', leased, same, e, last, outlasts⟩ := h.covered q job mem id touched
  rcases List.mem_cons.1 leased with rfl | leased
  · have due : ¬ m.isResolved e := fun ended' => outlasts.not_pending h.sound ended' mem rfl
    -- Only a shared event can be due, and an heir waits for the same ones.
    rcases List.mem_append.1 last with last | last
    · rcases shared with ended' | ⟨heir, mem', same'⟩
      · exact absurd (ended' e last) due
      · have agree := h.agree l' List.mem_cons_self heir (List.mem_cons_of_mem _ mem') id same
          (same'.trans same)
        rw [agree] at last
        exact ⟨heir, mem', same'.trans same, e, List.mem_append_left _ last, outlasts⟩
    · exact absurd (ended e last) due
  · exact ⟨l', leased, same, e, last, outlasts⟩

/-- Work is put into a queue on behalf of owners of the memories that it touches. -/
theorem submit (h : m.Covered (mine ++ others)) (label : String) {deps : List EventId}
    {work : Work} (known : ∀ d ∈ deps, d.index < m.events.length)
    (touched : ∀ id, .memory id ∈ work.touches → ∃ l ∈ mine, l.memory = some id) :
    (m.submit q label deps work).2.Covered
      (mine.map (·.upTo (m.submit q label deps work).1) ++ others) := by
  have sound := h.sound
  have store := m.sameStore_submit q label deps work
  have lasts : ∀ l ∈ mine.map (·.upTo (m.submit q label deps work).1) ++ others,
      ∃ l' ∈ mine ++ others, l.memory = l'.memory ∧ l.shared = l'.shared ∧
        ∀ e ∈ l.events, e = (m.submit q label deps work).1 ∨ e ∈ l'.events := by
    intro l mem
    rcases List.mem_append.1 mem with mem | mem
    · obtain ⟨l', mem', rfl⟩ := List.mem_map.1 mem
      exact ⟨l', List.mem_append_left _ mem', rfl, rfl, fun e => Lease.mem_events_upTo.1⟩
    · exact ⟨l, List.mem_append_right _ mem, rfl, rfl, fun e => .inr⟩
  -- A job that was covered before is covered by the same lease, until the new event or without.
  have old : ∀ p, ∀ job ∈ m.pending p, ∀ id, .memory id ∈ job.work.touches →
      ∃ l ∈ mine.map (·.upTo (m.submit q label deps work).1) ++ others, l.memory = some id ∧
        ∃ e ∈ l.events, (m.submit q label deps work).2.Outlasts e job.event := by
    intro p job mem id uses
    obtain ⟨l, leased, same, e, last, outlasts⟩ := h.covered p job mem id uses
    have outlasts := outlasts.submit q label deps work (sound.known p job mem)
    rcases List.mem_append.1 leased with leased | leased
    · exact ⟨_, List.mem_append_left _ (List.mem_map_of_mem leased), same, e,
        Lease.mem_events_upTo.2 (.inr last), outlasts⟩
    · exact ⟨l, List.mem_append_right _ leased, same, e, last, outlasts⟩
  -- A queue that is closed takes no job: its event fails at once.
  refine ⟨?sound, store.booked h.booked, ?known, ?agree, ?live, ?covered⟩
  case sound =>
    cases taken : m.isClosed q with
    | true => exact (steady_submit label deps work taken).sound sound
    | false => exact (submitted_submit label deps work taken).sound sound known
  case known =>
    intro l mem e last
    obtain ⟨l', mem', _, _, split⟩ := lasts l mem
    rw [length_events_submit]
    rcases split e last with rfl | last
    · rw [event_submit]
      exact Nat.lt_succ_self _
    · exact Nat.lt_succ_of_lt (h.known l' mem' e last)
  case agree =>
    intro a memA b memB id first second
    obtain ⟨a', memA', sameA, sharedA, _⟩ := lasts a memA
    obtain ⟨b', memB', sameB, sharedB, _⟩ := lasts b memB
    rw [sharedA, sharedB]
    exact h.agree a' memA' b' memB' id (sameA ▸ first) (sameB ▸ second)
  case live =>
    intro l mem id same
    obtain ⟨l', mem', same', _⟩ := lasts l mem
    exact store.isLive (h.live l' mem' id (same'.symm.trans same))
  case covered =>
    intro p job mem id uses
    cases taken : m.isClosed q with
    | true =>
      rw [(steady_submit label deps work taken).pending] at mem
      exact old p job mem id uses
    | false =>
      rcases (submitted_submit label deps work taken).mem_pending.1 mem with mem | ⟨_, rfl⟩
      · exact old p job mem id uses
      · obtain ⟨l, leased, same⟩ := touched id uses
        refine ⟨_, List.mem_append_left _ (List.mem_map_of_mem leased), same, _,
          Lease.mem_events_upTo.2 (.inl rfl), ?_⟩
        rw [event_submit]
        exact .refl _ _

end Covered

theorem Owned.of_memories (h : m.Owned leases) (memories : after.memories = m.memories) :
    after.Owned leases := by
  intro id
  rw [owners_of_memories memories]
  exact h id

/-- Workers own nothing and let nothing go. -/
theorem Evolves.memories (evolves : m.Evolves n) (sound : m.Sound) : n.memories = m.memories :=
  evolves.keeps_sound (p := fun k => k.memories = m.memories) sound
    (fun _ _ _ sound same turn => (turn.base sound).memories.trans same) rfl

/-- A memory with a lease has an owner. -/
theorem Owned.pos (h : m.Owned leases) (mem : l ∈ leases) (same : l.memory = some id) :
    0 < m.owners id := by
  rw [h id]
  exact List.count_pos_iff.2 (List.mem_map.2 ⟨l, mem, same⟩)

/-- A memory without owners has no lease. -/
theorem Owned.unleased (h : m.Owned leases) (none : m.owners id = 0) (mem : l ∈ leases) :
    l.memory ≠ some id := by
  intro same
  have pos := h.pos mem same
  omega

namespace Leased

theorem safe (h : m.Leased leases) : m.Safe :=
  h.covered.safe

theorem sound (h : m.Leased leases) : m.Sound :=
  h.covered.sound

theorem evolves (h : m.Leased leases) (evolves : m.Evolves n) : n.Leased leases :=
  ⟨h.covered.evolves evolves, h.owned.of_memories (evolves.memories h.sound)⟩

theorem perm (h : m.Leased leases) (same : leases.Perm others) : m.Leased others := by
  refine ⟨h.covered.perm same, fun id => ?_⟩
  rw [h.owned id]
  exact (same.map _).count_eq _

/-- A call that concerns neither jobs nor memories. -/
theorem calm (h : m.Leased leases) (steady : m.Steady after) (store : m.SameStore after)
    (memories : after.memories = m.memories) : after.Leased leases :=
  ⟨h.covered.calm steady (store.booked h.covered.booked) fun _ => store.isLive,
    h.owned.of_memories memories⟩

theorem submit (mine : List Lease) (h : m.Leased (mine ++ others)) (label : String)
    {deps : List EventId} {work : Work} (known : ∀ d ∈ deps, d.index < m.events.length)
    (touched : ∀ id, .memory id ∈ work.touches → ∃ l ∈ mine, l.memory = some id) :
    (m.submit q label deps work).2.Leased
      (mine.map (·.upTo (m.submit q label deps work).1) ++ others) := by
  refine ⟨h.covered.submit label known touched, fun id => ?_⟩
  rw [owners_of_memories (m.memories_submit q label deps work), h.owned id]
  simp [Function.comp_def, Lease.upTo]

/-- Leases may be settled anew: on the same memories, until events that outlast those of the former
ones that are not resolved. -/
theorem renew (mine renewed : List Lease) (h : m.Leased (mine ++ others))
    (same : (renewed.map (·.memory)).Perm (mine.map (·.memory)))
    (known : ∀ l ∈ renewed, ∀ e ∈ l.events, e.index < m.events.length)
    (agree : ∀ l ∈ renewed, ∃ l' ∈ mine, l'.memory = l.memory ∧ l'.shared = l.shared)
    (outlasts : ∀ l ∈ mine, ∀ id, l.memory = some id → ∀ d ∈ l.events, m.isResolved d ∨
      ∃ l' ∈ renewed, l'.memory = some id ∧ ∃ e ∈ l'.events, m.Outlasts e d) :
    m.Leased (renewed ++ others) := by
  have former : ∀ l ∈ renewed ++ others, ∃ l' ∈ mine ++ others,
      l'.memory = l.memory ∧ l'.shared = l.shared := by
    intro l mem
    rcases List.mem_append.1 mem with mem | mem
    · obtain ⟨l', mem', rest⟩ := agree l mem
      exact ⟨l', List.mem_append_left _ mem', rest⟩
    · exact ⟨l, List.mem_append_right _ mem, rfl, rfl⟩
  refine ⟨⟨h.sound, h.covered.booked, ?known, ?agree, ?live, ?covered⟩, fun id => ?owned⟩
  case known =>
    intro l mem
    rcases List.mem_append.1 mem with mem | mem
    · exact known l mem
    · exact h.covered.known l (List.mem_append_right _ mem)
  case agree =>
    intro a memA b memB id first second
    obtain ⟨a', memA', sameA, sharedA⟩ := former a memA
    obtain ⟨b', memB', sameB, sharedB⟩ := former b memB
    rw [← sharedA, ← sharedB]
    exact h.covered.agree a' memA' b' memB' id (sameA.trans first) (sameB.trans second)
  case live =>
    intro l mem id on
    obtain ⟨l', mem', same', _⟩ := former l mem
    exact h.covered.live l' mem' id (same'.trans on)
  case covered =>
    intro q job mem id uses
    obtain ⟨l, leased, on, d, last, covers⟩ := h.covered.covered q job mem id uses
    rcases List.mem_append.1 leased with leased | leased
    · rcases outlasts l leased id on d last with ended | ⟨l', leased', on', e, last', later⟩
      · exact absurd rfl (covers.not_pending h.sound ended mem)
      · exact ⟨l', List.mem_append_left _ leased', on', e, last', later.trans covers⟩
    · exact ⟨l, List.mem_append_right _ leased, on, d, last, covers⟩
  case owned =>
    rw [h.owned id, List.map_append, List.map_append, List.count_append, List.count_append,
      same.count_eq]

/-- A lease may last longer. -/
theorem upTo (h : m.Leased (l :: others)) {e : EventId} (known : e.index < m.events.length) :
    m.Leased (l.upTo e :: others) := by
  refine h.renew [l] [l.upTo e] (.refl _) ?_ ?_ ?_
  · simp only [List.forall_mem_singleton, Lease.mem_events_upTo]
    rintro d (rfl | last)
    · exact known
    · exact h.covered.known l List.mem_cons_self d last
  · simp [Lease.upTo]
  · simp only [List.forall_mem_singleton]
    exact fun id on d last => .inr ⟨_, List.mem_singleton.2 rfl, on, d,
      Lease.mem_events_upTo.2 (.inr last), .refl m d⟩

/-- Leases end as before once the event that they waited for is resolved. -/
theorem of_upTo {e : EventId} (h : m.Leased (mine.map (·.upTo e) ++ others))
    (ended : m.isResolved e) : m.Leased (mine ++ others) := by
  refine h.renew _ _ (by simp [Function.comp_def, Lease.upTo]) ?_ ?_ ?_
  · exact fun l mem d last => h.covered.known _ (List.mem_append_left _ (List.mem_map_of_mem mem)) d
      (Lease.mem_events_upTo.2 (.inr last))
  · exact fun l mem => ⟨_, List.mem_map_of_mem mem, rfl, rfl⟩
  · intro l mem id on d last
    obtain ⟨l', mem', rfl⟩ := List.mem_map.1 mem
    rcases Lease.mem_events_upTo.1 last with rfl | last
    · exact .inl ended
    · exact .inr ⟨l', mem', on, d, last, .refl m d⟩

/-- The work of owners is over once their events are resolved. -/
theorem settle (h : m.Leased (mine ++ others)) (ended : ∀ l ∈ mine, ∀ e ∈ l.lasts, m.isResolved e) :
    m.Leased (mine.map Lease.settled ++ others) := by
  refine h.renew _ _ (by simp [Function.comp_def, Lease.settled]) ?_ ?_ ?_
  · intro l mem e last
    obtain ⟨l', mem', rfl⟩ := List.mem_map.1 mem
    refine h.covered.known l' (List.mem_append_left _ mem') e (List.mem_append_left _ ?_)
    simpa [Lease.events, Lease.settled] using last
  · intro l mem
    obtain ⟨l', mem', rfl⟩ := List.mem_map.1 mem
    exact ⟨l', mem', rfl, rfl⟩
  · intro l mem id on d last
    rcases List.mem_append.1 last with shared | last
    · exact .inr ⟨_, List.mem_map_of_mem mem, on, d, List.mem_append_left _ shared, .refl m d⟩
    · exact .inl (ended l mem d last)

/-! ## Owners that come and go -/

/-- An allocation makes a memory with one owner, and no job uses it. No lease was on it before. -/
theorem allocate (h : m.Leased leases) {kind : MemoryKind} {length : Nat}
    (made : (m.allocate q kind length).1 = .ok id) :
    (m.allocate q kind length).2.Leased (⟨some id, [], []⟩ :: leases) ∧
      ∀ l ∈ leases, l.memory ≠ some id := by
  have enters := enters_allocate made h.covered.booked
  have unleased : ∀ l ∈ leases, l.memory ≠ some id :=
    fun l => h.owned.unleased enters.unowned
  have covered := h.covered.calm (m.steady_allocate q kind length) enters.booked enters.keeps
  refine ⟨⟨covered.cons ?_ nofun ?_, fun other => ?_⟩, unleased⟩
  · rintro _ ⟨⟩
    exact enters.live
  · rintro l mem _ ⟨⟩ same
    exact absurd same (unleased l mem)
  -- The new memory is counted once, and every other as before.
  · rw [enters.owners, List.map_cons, List.count_cons, ← h.owned other]
    split
    next same => rw [same, enters.unowned]; simp
    next ne => simp [Ne.symm ne]

/-- An allocation that fails makes no memory. -/
theorem allocate_error (h : m.Leased leases) {kind : MemoryKind} {length : Nat} {e : DeviceError}
    (failed : (m.allocate q kind length).1 = .error e) :
    (m.allocate q kind length).2.Leased leases :=
  have memories := (Machine.allocate_error failed).1
  h.calm (m.steady_allocate q kind length)
    ⟨place?_of_memories memories, m.ledgersExtend_allocate q kind length⟩ memories

/-- What a lone owner has done is from now on done for all who join it. -/
theorem share {lasts : List EventId} (h : m.Leased (⟨some id, [], lasts⟩ :: others))
    (alone : ∀ l ∈ others, l.memory ≠ some id) : m.Leased (⟨some id, lasts, []⟩ :: others) := by
  have covered := h.covered
  have left : ∀ l ∈ others, Lease.Agree ⟨some id, lasts, []⟩ l := by
    rintro l mem _ ⟨⟩ same
    exact absurd same (alone l mem)
  have rest := (List.forall_mem_cons.1 covered.agree).2
  refine ⟨⟨h.sound, covered.booked, ?_, Lease.agree_cons left fun l mem => ?_, ?_, ?_⟩, h.owned⟩
  · have known := List.forall_mem_cons.1 covered.known
    exact List.forall_mem_cons.2 ⟨by simpa [Lease.events] using known.1, known.2⟩
  · exact (List.forall_mem_cons.1 (rest l mem)).2
  · exact List.forall_mem_cons.2 (List.forall_mem_cons.1 covered.live)
  · intro q job mem id uses
    obtain ⟨l, leased, same, e, last, outlasts⟩ := covered.covered q job mem id uses
    rcases List.mem_cons.1 leased with rfl | leased
    · exact ⟨_, List.mem_cons_self, same, e, by simpa [Lease.events] using last, outlasts⟩
    · exact ⟨l, List.mem_cons_of_mem _ leased, same, e, last, outlasts⟩

/-- One more owner of a memory that has one. -/
theorem addOwner (h : m.Leased leases) (mem : l ∈ leases) (same : l.memory = some id) :
    (m.addOwner id).Leased (⟨some id, l.shared, []⟩ :: leases) := by
  have store : m.SameStore (m.addOwner id) := m.sameStore_updateMemory id _ fun _ => ⟨rfl, rfl⟩
  have steady : m.Steady (m.addOwner id) := steady_of_queues rfl rfl
  have covered := h.covered.calm steady (store.booked h.covered.booked) fun _ => store.isLive
  refine ⟨covered.cons ?_ ?_ ?_, fun other => ?_⟩
  · rintro _ ⟨⟩
    exact covered.live l mem id same
  · intro e shared
    rw [Lease.events, List.append_nil] at shared
    exact covered.known l mem e (List.mem_append_left _ shared)
  · rintro l' mem' _ ⟨⟩ same'
    exact covered.agree l mem l' mem' id same same'
  -- The memory is counted once more, and every other as before.
  · rw [m.owners_addOwner id other (h.owned.pos mem same), List.map_cons, List.count_cons,
      ← h.owned other]
    split
    next same => simp [same]
    next ne => simp [Ne.symm ne]

/-- An owner goes. Its lease still covers the jobs, but no longer counts. -/
theorem dropOwner (h : m.Leased (l :: others)) (on : l.memory = some id) :
    (m.dropOwner id).2.Covered (l :: others) ∧ (m.dropOwner id).2.Owned others := by
  have store : m.SameStore (m.dropOwner id).2 :=
    m.sameStore_updateMemory id _ fun _ => ⟨rfl, rfl⟩
  have steady : m.Steady (m.dropOwner id).2 := steady_of_queues rfl rfl
  refine ⟨h.covered.calm steady (store.booked h.covered.booked) fun _ => store.isLive,
    fun other => ?_⟩
  -- The count of all leases has one more for the memory, which is the owner that goes.
  have count := h.owned other
  rw [List.map_cons, List.count_cons, on] at count
  rw [owners_dropOwner]
  split
  next same =>
    subst same
    simp only [beq_self_eq_true, if_true] at count
    omega
  next ne =>
    rw [count]
    simp [Ne.symm ne]

/-- A lease on nothing. -/
theorem cons_none {l : Lease} (h : m.Leased leases) (on : l.memory = none)
    (known : ∀ e ∈ l.events, e.index < m.events.length) : m.Leased (l :: leases) := by
  refine ⟨h.covered.cons ?_ known ?_, fun id => ?_⟩
  · intro id same
    rw [on] at same
    cases same
  · intro _ _ id same
    rw [on] at same
    cases same
  · rw [h.owned id, List.map_cons, on]
    simp

theorem drop_none {l : Lease} (h : m.Leased (l :: others)) (on : l.memory = none) :
    m.Leased others := by
  refine ⟨h.covered.of_subset (fun _ => List.mem_cons_of_mem _) ?_, fun id => ?_⟩
  · intro q job mem id uses
    obtain ⟨l', leased, same, rest⟩ := h.covered.covered q job mem id uses
    rcases List.mem_cons.1 leased with rfl | leased
    · rw [on] at same
      cases same
    · exact ⟨l', leased, same, rest⟩
  · rw [h.owned id, List.map_cons, on]
    simp

end Leased

/-- After the last owner the allocation is given back. No job touches it any more, since the events
of the last lease are resolved and there is no other lease. -/
theorem Covered.giveBack (h : m.Covered (l :: others)) (owned : m.Owned others)
    (last : m.owners id = 0) (ended : ∀ e ∈ l.events, m.isResolved e) :
    (m.giveBack id).Leased others := by
  have left := h.drop (fun e mem => ended e (List.mem_append_right _ mem))
    (.inl fun e mem => ended e (List.mem_append_left _ mem))
  have steady := m.steady_giveBack id
  refine ⟨⟨steady.sound h.sound, h.booked.giveBack id, ?_, left.agree, ?_, ?_⟩,
    owned.of_memories (m.memories_giveBack id)⟩
  · exact fun l mem e last => Nat.lt_of_lt_of_le (left.known l mem e last) steady.length_events
  · intro l mem other same
    refine isLive_giveBack h.booked ?_ (left.live l mem other same)
    rintro rfl
    exact owned.unleased last mem same
  · intro q job mem other touched
    rw [steady.pending] at mem
    obtain ⟨l, leased, same, e, last, outlasts⟩ := left.covered q job mem other touched
    exact ⟨l, leased, same, e, last, outlasts.steady steady⟩

/-- Where another owner stays, it takes the shared events over. -/
theorem Covered.leave (h : m.Covered (l :: others)) (owned : m.Owned others)
    (on : l.memory = some id) (more : m.owners id ≠ 0) (ended : ∀ e ∈ l.lasts, m.isResolved e) :
    m.Leased others := by
  rw [owned id] at more
  obtain ⟨heir, mem, same⟩ := List.mem_map.1 (List.count_pos_iff.1 (Nat.pos_of_ne_zero more))
  exact ⟨h.drop ended (.inr ⟨heir, mem, same.trans on.symm⟩), owned⟩

/-- An owner goes whose events are resolved, and the allocation with it if it was the last one. -/
theorem Leased.release (h : m.Leased (l :: others)) (on : l.memory = some id)
    (ended : ∀ e ∈ l.events, m.isResolved e) : (m.release id).Leased others := by
  obtain ⟨covered, owned⟩ := h.dropOwner on
  unfold Machine.release
  dsimp only
  split
  next last =>
    have one := (m.dropOwner_last id).1 last
    refine covered.giveBack owned ?_ ended
    rw [owners_dropOwner, if_pos rfl, one]
  next =>
    have left := covered.drop (fun e mem => ended e (List.mem_append_right _ mem))
      (.inl fun e mem => ended e (List.mem_append_left _ mem))
    exact ⟨left, owned⟩

end Machine

end BatchDigest
