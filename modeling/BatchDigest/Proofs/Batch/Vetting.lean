import BatchDigest.Proofs.Batch.Flawless
import BatchDigest.Proofs.Batch.Flight
import BatchDigest.Proofs.Batch.Upkeep

/-!
# What the host submits is vetted

Staging, dispatching and everything that gives something back keep a machine trusted at all times.
Most of it makes no job. The one job that could fail by itself is the launch, and it is assured
before it is submitted: the allocations gave two fresh memories of the lengths that were asked for,
which are the products that the kernel computes, since a length at which a product stops cannot be
had (`poised_of_allocates`). The results are `Trusted.meets_create` and `Trusted.meets_hash`.
-/

namespace BatchDigest

namespace Machine

variable {m n after : Machine} {q queue : QueueId} {base : Nat} {queues : List QueueId}
  {name : QueueId → String} {α β : Type} {goal : β → Machine → Prop}

theorem events_allocate (m : Machine) (q : QueueId) (kind : MemoryKind) (length : Nat) :
    (m.allocate q kind length).2.events = m.events := by
  unfold allocate
  split
  · rfl
  · dsimp only
    split <;> rfl

theorem steadfast_trusted (base : Nat) (name : QueueId → String) :
    Steadfast (Trusted base [] name) where
  step h step := h.advance step
  still h still events := h.still still events

namespace Trusted

/-! ## Steps of programs on machines that are trusted -/

theorem meets_pure (h : m.Trusted base queues name) {value : β}
    (ends : ∀ n, m.Evolves n → n.Trusted base queues name → goal value n) :
    (pure value : Host β).Meets (Trusted base [] name) goal m :=
  Host.meets_pure fun n first => ⟨(h.evolves first).weaken, ends n first (h.evolves first)⟩

theorem meets_call_bind (h : m.Trusted base queues name) {f : Machine → α × Machine}
    {next : α → Host β} (step : ∀ n, m.Evolves n → n.Trusted base queues name →
      (next (f n).1).Meets (Trusted base [] name) goal (f n).2) :
    (Host.call f >>= next).Meets (Trusted base [] name) goal m :=
  Host.meets_call_bind fun n first => ⟨(h.evolves first).weaken, step n first (h.evolves first)⟩

/-- The last call of a program. -/
theorem meets_call (h : m.Trusted base queues name) {f : Machine → β × Machine}
    (step : ∀ n, m.Evolves n → n.Trusted base queues name →
      (f n).2.Trusted base queues name ∧
        ∀ k, (f n).2.Evolves k → k.Trusted base queues name → goal (f n).1 k) :
    (Host.call f).Meets (Trusted base [] name) goal m := by
  intro n first
  obtain ⟨h', ends⟩ := step n first (h.evolves first)
  exact ⟨(h.evolves first).weaken, h'.meets_pure ends⟩

/-- An allocation, and what follows: it fails, or there is a new memory. -/
theorem meets_allocate_bind (h : m.Trusted base queues name) {kind : MemoryKind} {length : Nat}
    {next : Except DeviceError MemoryId → Host β}
    (failed : ∀ e after, after.Trusted base queues name →
      (next (.error e)).Meets (Trusted base [] name) goal after)
    (made : ∀ id n after, m.Evolves n → n.Allocates length id after → n.Quiet after →
      n.Trusted base queues name → after.Trusted base queues name →
      (next (.ok id)).Meets (Trusted base [] name) goal after) :
    (Host.call (·.allocate q kind length) >>= next).Meets (Trusted base [] name) goal m := by
  refine h.meets_call_bind fun n first h => ?_
  have quiet := n.quiet_allocate q kind length h.serving.aligned
  have h' := h.quiet quiet (n.events_allocate q kind length)
  cases outcome : (n.allocate q kind length).1 with
  | error e => exact failed e _ h'
  | ok id => exact made id n _ first (allocate_ok kind outcome) quiet h h'

/-! ## Making a hasher -/

/-- The upload of tables is a copy, and its event is a late one. -/
theorem meets_stage (h : m.Trusted base queues name) (mem : queue ∈ queues) (a : Algorithm)
    (key : Bytes) :
    (StagedTables.stage a key queue).Meets (Trusted base [] name) (fun r n =>
      n.Trusted base queues name ∧ ∀ tables, r = .ok tables → base ≤ tables.ready.index) m := by
  unfold StagedTables.stage
  split
  · exact h.meets_pure fun n _ h => ⟨h, nofun⟩
  · refine Host.Meets.bind (h.meets_call_bind fun n _ h => ?_)
    have h' := h.addEvent Status.complete_ne_pending nofun
    refine h'.meets_pure fun _ _ h' => h'.meets_pure fun _ _ h' => ⟨h', fun tables answer => ?_⟩
    cases answer
    exact h.since
  next blob _ _ =>
    refine h.meets_allocate_bind (fun e after h => h.meets_pure fun n _ h => ⟨h, nofun⟩)
      fun memory n₁ a₁ first made quiet h₁ h₂ => ?_
    refine h₂.meets_call_bind fun n second h => ?_
    have stands := (made.stands h₁.serving quiet).evolves h₂.serving.sound second
    have fresh := (made.fresh h₁.serving quiet).evolves second
    rw [event_submit]
    have submitted : (n.submit queue "memcpy:h2d" [] (.copyIn memory 0 blob)).2.Trusted base queues
        name := by
      refine h.submit mem nofun ?_ rfl ?_ ⟨nofun, .inl ⟨isCopyName_in, nofun⟩⟩
      · intro r touched
        rw [List.mem_singleton.1 touched]
        exact stands.holds
      · intro id writes
        cases List.mem_singleton.1 writes
        exact fresh
    refine submitted.meets_pure fun k _ h' => ⟨h', fun tables answer => ?_⟩
    cases answer
    exact h.since

theorem meets_stageAll (h : m.Trusted base queues name) (a : Algorithm) (key : Bytes)
    (runners : List Runner) (mem : ∀ r ∈ runners, r.queue ∈ queues) (staged : List Station)
    (late : ∀ station ∈ staged, base ≤ station.tables.ready.index) :
    (Hasher.stageAll a key runners staged).Meets (Trusted base [] name) (fun r _ =>
      ∀ all, r = .ok all → ∀ station ∈ all, base ≤ station.tables.ready.index) m := by
  induction runners generalizing m staged with
  | nil =>
    refine h.meets_pure fun n _ _ all answer => ?_
    cases answer
    exact late
  | cons runner rest ih =>
    rw [List.forall_mem_cons] at mem
    refine Host.Meets.bind ((h.meets_stage mem.1 a key).mono fun r n _ goal => ?_)
    obtain ⟨h, ready⟩ := goal
    cases r with
    | error e =>
      refine Host.Meets.bind (((steadfast_trusted base name).dropAllTables _ n h.weaken).mono ?_)
      exact fun _ _ _ h => h.meets_pure fun _ _ _ => nofun
    | ok tables =>
      refine ih h mem.2 _ fun station inside => ?_
      rcases List.mem_append.1 inside with old | last
      · exact late station old
      · rw [List.mem_singleton.1 last]
        exact ready tables rfl

/-- A hasher is made, and the events of its uploads are late ones. -/
theorem meets_create (h : m.Trusted base queues name) (a : Algorithm) (key : Bytes)
    (runners : List Runner) (mem : ∀ r ∈ runners, r.queue ∈ queues) :
    (Hasher.create a runners key).Meets (Trusted base [] name) (fun r _ =>
      ∀ hasher, r = .ok hasher → ∀ station ∈ hasher.stations, base ≤ station.tables.ready.index)
      m := by
  unfold Hasher.create
  split
  · exact h.meets_pure fun _ _ _ => nofun
  · refine Host.meets_ask_bind fun n first => ⟨(h.evolves first).weaken, ?_⟩
    have h := h.evolves first
    split
    · exact h.meets_pure fun _ _ _ => nofun
    · refine Host.Meets.bind ((h.meets_stageAll a key runners mem [] nofun).mono ?_)
      intro r k h late
      cases r with
      | error e => exact h.meets_pure fun _ _ _ => nofun
      | ok stations =>
        refine Host.Meets.bind (((steadfast_trusted base name).holdQueues runners k h).mono ?_)
        refine fun _ l _ h => h.meets_pure fun _ _ _ hasher answer => ?_
        cases answer
        exact late stations rfl

end Trusted

/-! ## Dispatching a share -/

/-- Before a launch is put into its queue: it is assured, its output is fresh, and the buffer is
there into which the digests go. -/
structure Poised (m : Machine) (deps : List EventId) (l : Launch) (buffer : BufferId) : Prop where
  assured : m.Assured deps l
  fresh : m.Fresh l.output
  found : m.Holds (.buffer buffer)

namespace Poised

variable {deps : List EventId} {l : Launch} {buffer : BufferId}

theorem turn (h : m.Poised deps l buffer) (sound : m.Sound) (turn : m.Turn q after) :
    after.Poised deps l buffer :=
  ⟨h.assured.turn sound turn, h.fresh.turn turn, (turn.holds sound _).2 h.found⟩

theorem evolves (h : m.Poised deps l buffer) (sound : m.Sound) (evolves : m.Evolves n) :
    n.Poised deps l buffer :=
  evolves.keeps_sound (p := (·.Poised deps l buffer)) sound
    (fun _ _ _ sound h turn => h.turn sound turn) h

theorem still (h : m.Poised deps l buffer) (still : m.Still after) : after.Poised deps l buffer :=
  ⟨h.assured.still still, h.fresh.still still, still.holds _ h.found⟩

/-- The copy of the records goes into the input, and nothing else comes of it. -/
theorem copyIn (h : m.Poised deps l buffer) {label : String} {before : List EventId} {e : EventId}
    {records : Bytes}
    (submitted : m.Submitted q ⟨label, before, e, .copyIn l.input 0 records⟩ after) :
    after.Poised deps l buffer := by
  refine ⟨h.assured.submit submitted fun id tables writes => ?_, h.fresh.submit submitted ?_,
    (submitted.holds _).2 h.found⟩
  · cases List.mem_singleton.1 writes
    exact (h.assured.away _ tables).1 rfl
  · intro touched
    have same := Region.memory.inj (List.mem_singleton.1 touched)
    exact h.assured.fits.apart same.symm

end Poised

namespace Trusted

/-- The records are copied in one of three ways, and whatever fails of it fails as a copy. -/
theorem meets_copyIn (h : m.Trusted base queues name) (mem : queue ∈ queues)
    {deps : List EventId} {l : Launch} {b : Batch} (poised : m.Poised deps l b.output)
    (fresh : m.Fresh l.input) (slice : Slice) :
    (b.copyIn slice queue l.input).Meets (Trusted base [] name) (fun copied n =>
      n.Trusted base queues name ∧ n.Poised deps l b.output ∧ base ≤ copied.index ∧
        copied.index < n.events.length) m := by
  -- Whichever it is, an event is put on record, and the launch stays poised.
  have recorded : ∀ {n after : Machine}, n.Trusted base queues name →
      after.events.length = n.events.length + 1 → after.Trusted base queues name →
      after.Poised deps l b.output → after.Trusted base queues name ∧
        ∀ k, after.Evolves k → k.Trusted base queues name →
          k.Trusted base queues name ∧ k.Poised deps l b.output ∧ base ≤ n.events.length ∧
            n.events.length < k.events.length := by
    intro n after h length h' poised
    refine ⟨h', fun k later h'' => ⟨h'', poised.evolves h'.serving.sound later, h.since, ?_⟩⟩
    rw [later.length_events h'.serving.sound, length]
    exact Nat.lt_succ_self _
  have settled : ∀ {n : Machine} {s : Status}, m.Evolves n → n.Trusted base queues name →
      s ≠ .pending → (∀ f, s = .failed f → f.IsCopy) →
      (n.addEvent s).2.Trusted base queues name ∧
        ∀ k, (n.addEvent s).2.Evolves k → k.Trusted base queues name →
          k.Trusted base queues name ∧ k.Poised deps l b.output ∧ base ≤ n.events.length ∧
            n.events.length < k.events.length :=
    fun first h' resolved copy => recorded h' (length_events_addEvent _ _)
      (h'.addEvent resolved copy)
      ((poised.evolves h.serving.sound first).still (quiet_addEvent _ resolved).toStill)
  unfold Batch.copyIn
  dsimp only
  split
  next =>
    exact h.meets_call fun n first h' => settled first h' Status.complete_ne_pending nofun
  split
  next =>
    refine h.meets_call fun n first h' => ?_
    have poised := poised.evolves h.serving.sound first
    have fresh := fresh.evolves first
    rw [event_submit]
    have submitted := h'.serving.submitted mem "memcpy:h2d" []
      (.copyIn l.input 0 ((b.input.drop (slice.offset * b.recordLength)).take
        (slice.stop * b.recordLength - slice.offset * b.recordLength)))
    refine recorded h' (by rw [submitted.events, List.length_append, List.length_singleton]) ?_
      (poised.copyIn submitted)
    refine h'.submit mem nofun ?_ rfl ?_ ⟨nofun, .inl ⟨isCopyName_in, nofun⟩⟩
    · intro r touched
      rw [List.mem_singleton.1 touched]
      exact poised.assured.held.1
    · intro id writes
      cases List.mem_singleton.1 writes
      exact fresh
  next =>
    refine Host.meets_ask_bind fun n first => ⟨(h.evolves first).weaken, ?_⟩
    refine (h.evolves first).meets_call fun k later h' => ?_
    refine settled (first.trans later) h' (Status.failed_ne_pending _) fun f same => ?_
    cases same
    exact isCopyName_in

/-- The three steps of a share are put into a queue. -/
theorem meets_enqueue (h : m.Trusted base queues name) (mem : queue ∈ queues) {b : Batch}
    {slice : Slice} {tables : StagedTables} {input output : MemoryId}
    (poised : m.Poised [tables.ready]
      ⟨tables.algorithm, input, output, tables.memory, b.recordLength, slice.count⟩ b.output)
    (fresh : m.Fresh input) (ready : base ≤ tables.ready.index) :
    (b.enqueue slice queue tables input output).Meets (Trusted base [] name)
      (fun item _ => base ≤ item.event.index) m := by
  unfold Batch.enqueue StagedTables.launch
  dsimp only
  -- First the records.
  refine Host.Meets.bind ((h.meets_copyIn mem poised fresh slice).mono ?_)
  rintro copied n - ⟨h, poised, late, known⟩
  -- Then the launch.
  refine h.meets_call_bind fun n₁ first h₁ => ?_
  have poised := poised.evolves h.serving.sound first
  have recorded : copied.index < n₁.events.length := by
    rw [first.length_events h.serving.sound]
    exact known
  rw [event_submit]
  have launched := h₁.serving.submitted mem ("kernel:" ++ tables.algorithm.name)
    ([copied] ++ [tables.ready])
    (.launch ⟨tables.algorithm, input, output, tables.memory, b.recordLength, slice.count⟩)
  have h₂ : (n₁.submit queue ("kernel:" ++ tables.algorithm.name) ([copied] ++ [tables.ready])
      (.launch ⟨tables.algorithm, input, output, tables.memory, b.recordLength,
        slice.count⟩)).2.Trusted base queues name := by
    refine h₁.submit mem ?_ poised.assured.holds rfl ?_ ⟨?_, .inr ⟨_, rfl, ?_⟩⟩
    · obtain ⟨d, same, staged⟩ := poised.assured.known
      rw [List.mem_singleton.1 same] at staged
      simpa using ⟨recorded, staged⟩
    · intro id writes
      cases List.mem_singleton.1 writes
      exact poised.fresh
    · simpa using ⟨late, ready⟩
    · exact poised.assured.mono fun d mem => List.mem_append_right _ mem
  -- And then the digests.
  refine h₂.meets_call_bind fun n₃ second h₃ => ?_
  have there : ∀ r, n₁.Holds r → n₃.Holds r := fun r held =>
    (Passes.of_evolves (e := .nothing) second).drifts.holds h₂.serving ((launched.holds r).2 held)
  rw [event_submit]
  have h₄ : (n₃.submit queue "memcpy:d2h" [⟨n₁.events.length⟩]
      (.copyOut b.output (slice.offset * tables.algorithm.digestSize) output
        (tables.algorithm.digestSize * slice.count))).2.Trusted base queues name := by
    refine h₃.submit mem ?_ ?_ rfl ?_ ⟨?_, .inl ⟨isCopyName_out, nofun⟩⟩
    · intro d mem
      rw [List.mem_singleton.1 mem, second.length_events h₂.serving.sound, launched.events,
        List.length_append]
      exact Nat.lt_succ_self _
    · intro r touched
      simp only [Work.touches, Work.reads, Work.writes, List.cons_append, List.nil_append,
        List.mem_cons, List.not_mem_nil, or_false] at touched
      rcases touched with rfl | rfl
      · exact there _ poised.assured.held.2
      · exact there _ poised.found
    · intro id writes
      cases List.mem_singleton.1 writes
    · intro d mem
      rw [List.mem_singleton.1 mem]
      exact h₁.since
  refine Host.Meets.bind (((steadfast_trusted base name).share tables _ h₄.weaken).mono ?_)
  exact fun _ _ _ h => h.meets_pure fun _ _ _ => h₃.since

end Trusted

/-- **What could be allocated is what the launch will ask for**: two memories of their own, whose
lengths are the products and not where a product stops. -/
theorem poised_of_allocates {k : Contract} {tables : StagedTables} {recordLength count : Nat}
    {buffer : BufferId} {input output : MemoryId} {n₁ a₁ n₂ a₂ : Machine}
    (serving : m.Serving queues name) (algorithm : tables.algorithm = k.algorithm)
    (follows : m.Follows (k.tablesPlan queue tables)) (filled : 0 < count)
    (found : m.Holds (.buffer buffer)) (first : m.Evolves n₁)
    (made₁ : n₁.Allocates (max (Size.mulSaturating recordLength count) 1) input a₁)
    (quiet₁ : n₁.Quiet a₁) (second : a₁.Evolves n₂)
    (made₂ : n₂.Allocates (Size.mulSaturating tables.algorithm.digestSize count) output a₂)
    (quiet₂ : n₂.Quiet a₂) :
    a₂.Poised [tables.ready] ⟨tables.algorithm, input, output, tables.memory, recordLength, count⟩
      buffer ∧ a₂.Fresh input := by
  have serving₁ := serving.evolves first
  have serving₁' := serving₁.quiet quiet₁
  have serving₂ := serving₁'.evolves second
  have passes₁ : m.Passes .nothing a₁ := (Passes.of_evolves first).quiet quiet₁
  have passes₂ : a₁.Passes .nothing a₂ := (Passes.of_evolves second).quiet quiet₂
  have passes := passes₁.trans passes₂
  have input₂ := (made₁.stands serving₁ quiet₁).passes serving₁' passes₂ (Place.outside_nothing _)
  have output₂ := made₂.stands serving₂ quiet₂
  have fresh₁ := made₁.fresh serving₁ quiet₁
  -- Both memories are new, and so they are neither the tables nor each other.
  have firstNew := made₁.new first serving
  have secondNew := made₁.newer second serving₁' made₂
  have old : ∀ id, tables.memory = some id → id.index < m.memories.length :=
    fun id staged => Contract.tables_held follows staged
  -- What could be allocated was not a saturated size.
  have inputBackable := made₁.backable
  have outputBackable := made₂.backable
  have inputExact := Contract.mulSaturating_of_backable (Nat.le_max_left _ 1) inputBackable
  have outputExact := Contract.mulSaturating_of_backable (Nat.le_refl _) outputBackable
  have size := tables.algorithm.digestSize_kernel
  have bound : Size.largest = 18446744073709551615 := rfl
  have inputLength : (a₂.contents.memory input).length = max _ 1 := input₂.now
  have outputLength : (a₂.contents.memory output).length = _ := output₂.now
  rw [inputExact] at inputLength inputBackable
  rw [outputExact] at outputLength outputBackable
  refine ⟨⟨⟨⟨filled, ?_, inputLength, ?_, ?_, ?_⟩, ⟨input₂.holds, output₂.holds⟩, ?_, ?_⟩,
    made₂.fresh serving₂ quiet₂, passes.drifts.holds serving found⟩,
    (fresh₁.evolves second).still quiet₂.toStill⟩
  · intro same
    rw [show input = output from same] at secondNew
    exact Nat.lt_irrefl _ secondNew
  · show _ = tables.algorithm.kernel.digestSize * count
    rw [size]
    exact outputLength
  · show recordLength * count ≤ _
    omega
  · show tables.algorithm.kernel.digestSize * count ≤ _
    rw [size]
    omega
  · intro id staged
    have before := old id staged
    constructor <;> rintro rfl <;> omega
  · exact ⟨k, queue, tables, algorithm.symm, rfl, List.mem_singleton_self _,
      Contract.tables_passes follows (serving.base k.device) passes (Place.outside_nothing _)⟩

namespace Trusted

/-- A share is dispatched, and the event that stands for it is a late one. -/
theorem meets_dispatch (h : m.Trusted base queues name) (mem : queue ∈ queues) {k : Contract}
    {b : Batch} {slice : Slice} {tables : StagedTables} (algorithm : tables.algorithm = k.algorithm)
    (follows : m.Follows (k.tablesPlan queue tables)) (ready : base ≤ tables.ready.index)
    (filled : 0 < slice.count) (found : m.Holds (.buffer b.output)) :
    (b.dispatch slice queue tables).Meets (Trusted base [] name)
      (fun r _ => ∀ item, r = .ok item → base ≤ item.event.index) m := by
  unfold Batch.dispatch
  dsimp only
  refine h.meets_allocate_bind (fun e after h => h.meets_pure fun _ _ _ => nofun)
    fun input n₁ a₁ first made₁ quiet₁ h₁ h₁' => ?_
  refine h₁'.meets_allocate_bind ?_ fun output n₂ a₂ second made₂ quiet₂ h₂ h₂' => ?_
  · intro e after h
    refine Host.Meets.bind (((steadfast_trusted base name).release input after h.weaken).mono ?_)
    exact fun _ _ _ h => h.meets_pure fun _ _ _ => nofun
  obtain ⟨poised, fresh⟩ := poised_of_allocates h.serving algorithm follows filled found first made₁
    quiet₁ second made₂ quiet₂
  refine Host.Meets.bind ((h₂'.meets_enqueue mem poised fresh ready).mono ?_)
  refine fun item _ h late => h.meets_pure fun _ _ _ item answer => ?_
  cases answer
  exact late

/-- All shares are dispatched, or those before the one that failed are joined. -/
theorem meets_dispatchAll {k : Contract} (h : m.Trusted base queues k.device)
    (rest : List (Station × Slice)) (stations : ∀ share ∈ rest, k.Stationed queues m share.1 ∧
      base ≤ share.1.tables.ready.index ∧ 0 < share.2.count)
    (found : m.Holds (.buffer k.batch.output)) (items : List BatchItem)
    (late : ∀ item ∈ items, base ≤ item.event.index) :
    (Hasher.dispatchAll k.batch rest items).Meets (Trusted base [] k.device) (fun r _ =>
      ∀ handle, r = .ok handle → ∀ item ∈ handle.items, base ≤ item.event.index) m := by
  induction rest generalizing m items with
  | nil =>
    refine h.meets_pure fun _ _ _ handle answer => ?_
    cases answer
    exact late
  | cons share rest ih =>
    obtain ⟨⟨here, ready, filled⟩, later⟩ := List.forall_mem_cons.1 stations
    have dispatch := (h.meets_dispatch here.mem here.algorithm here.tables ready filled found).and
      (Contract.meets_dispatch h.serving here.mem here.algorithm here.tables found)
    refine Host.Meets.bind (dispatch.mono ?_)
    rintro r n h' ⟨new, -, started⟩
    cases r with
    | error e =>
      refine Host.Meets.bind (((steadfast_trusted base k.device).wait _ n h').mono ?_)
      exact fun _ _ _ h => h.meets_pure fun _ _ _ => nofun
    | ok item =>
      obtain ⟨passes, -⟩ := started item rfl
      have trusted : n.Trusted base queues k.device :=
        ⟨passes.serving h.serving, h'.since, h'.flawless⟩
      refine ih trusted (fun share mem => ?_) (passes.drifts.holds h.serving found) _ ?_
      · obtain ⟨station, others⟩ := later share mem
        exact ⟨station.passes h.serving passes fun _ => id, others⟩
      · intro other mem
        rcases List.mem_append.1 mem with old | last
        · exact late other old
        · rw [List.mem_singleton.1 last]
          exact new item rfl

/-- **A batch keeps the machine trusted at all times**, and the events that stand for its shares are
late ones. -/
theorem meets_hash {k : Contract} (h : m.Trusted base queues k.device) {hasher : Hasher}
    (stations : ∀ station ∈ hasher.stations, k.Stationed queues m station ∧
      base ≤ station.tables.ready.index) (found : m.Holds (.buffer k.batch.output)) :
    (hasher.hash k.batch).Meets (Trusted base [] k.device) (fun r _ =>
      ∀ handle, r = .ok handle → ∀ item ∈ handle.items, base ≤ item.event.index) m := by
  unfold Hasher.hash
  split
  · refine h.meets_pure fun _ _ _ handle answer => ?_
    cases answer
    exact nofun
  · refine h.meets_dispatchAll _ (fun share mem => ?_) found [] nofun
    obtain ⟨filled, i, station, -⟩ := Contract.mem_shares.1 mem
    obtain ⟨stationed, ready⟩ := stations _ (List.mem_of_getElem? station)
    exact ⟨stationed, ready, filled⟩

end Trusted

end Machine

end BatchDigest
