import BatchDigest.Proofs.Batch.Handling
import BatchDigest.Proofs.Batch.Dispatch
import BatchDigest.Proofs.Batch.Titles
import BatchDigest.Proofs.Device.Demand

/-!
# What hashers demand

Each share of a batch demands two memories on its queue, for its records and its digests, and tables
that are not empty demand one. So the demands of a batch are known beforehand, in their order, and
so are those of a hasher. A batch that is dispatched met all its demands (`Hasher.meets_hash_takes`),
and its shares are placed in memories of just the size that they need; a batch that is not was
refused at one of them. The tables of a hasher are placed as well (`Hasher.meets_create_takes`).
-/

namespace BatchDigest

open Machine

variable {m n : Machine}

theorem Machine.sharing_takes : Sharing (Takes []) where
  toFlow := flow_takes
  addOwner := takes_addOwner
  addEvent m s _ := by
    have books : m.SameBooks (m.addEvent s).2 := sameBooks_of_queues rfl rfl
    exact books.takes
  submit m q label deps work _ _ := (m.sameBooks_submit q label deps work).takes

/-- Identifiers that are given out in a row. -/
def MemoryId.row (start length : Nat) : List MemoryId :=
  (List.range' start length).map MemoryId.mk

theorem MemoryId.mem_row {id : MemoryId} {start length : Nat} :
    id ∈ row start length ↔ start ≤ id.index ∧ id.index < start + length := by
  unfold row
  rw [List.mem_map]
  constructor
  · rintro ⟨i, mem, rfl⟩
    exact List.mem_range'_1.1 mem
  · exact fun inside => ⟨id.index, List.mem_range'_1.2 inside, rfl⟩

theorem MemoryId.nodup_row (start length : Nat) : (row start length).Nodup :=
  List.Nodup.map (fun _ _ same => congrArg MemoryId.index same) List.nodup_range'

theorem MemoryId.row_append (start length more : Nat) :
    row start length ++ row (start + length) more = row start (length + more) := by
  unfold row
  rw [← List.map_append, List.range'_append_1]

/-! ## Shares -/

/-- What a share demands. -/
def Batch.demands (b : Batch) (share : Station × Slice) : List Demand :=
  [⟨share.1.runner.queue, max (Size.mulSaturating b.recordLength share.2.count) 1⟩,
    ⟨share.1.runner.queue, Size.mulSaturating share.1.tables.algorithm.digestSize share.2.count⟩]

/-- A share demands memory of its queue. -/
theorem Batch.queue_of_mem_demands {b : Batch} {share : Station × Slice} {d : Demand}
    (mem : d ∈ b.demands share) : d.queue = share.1.runner.queue := by
  simp only [demands, List.mem_cons, List.not_mem_nil, or_false] at mem
  rcases mem with rfl | rfl <;> rfl

/-- The memories that nobody but a share uses. -/
def BatchItem.own (item : BatchItem) : List MemoryId :=
  [item.input, item.output]

/-- The memory of a share is what its slice needs: there is room for the records, of which there may
be no bytes, and for the digests. -/
structure Batch.Placed (b : Batch) (m : Machine) (pair : (Station × Slice) × BatchItem) :
    Prop where
  tables : pair.2.tables = pair.1.1.tables
  input : m.Stores pair.2.input ⟨pair.1.1.runner.queue, max 1 (b.recordLength * pair.1.2.count)⟩
  output : m.Stores pair.2.output
    ⟨pair.1.1.runner.queue, pair.1.1.tables.algorithm.digestSize * pair.1.2.count⟩

theorem Batch.Placed.keeps {b : Batch} {pair : (Station × Slice) × BatchItem}
    {G : Ledger → Ledger → Prop} (h : b.Placed m pair) (keeps : Keeps G m n) : b.Placed n pair :=
  ⟨h.tables, keeps.stores h.input, keeps.stores h.output⟩

/-- Demands that were met were not of a saturated size. -/
theorem Batch.placed_of_takes {b : Batch} {share : Station × Slice} {item : BatchItem}
    (taken : Takes (b.demands share) m n) (tables : item.tables = share.1.tables)
    (own : item.own = MemoryId.row m.memories.length 2)
    (found : ∃ l, m.ledger? share.1.runner.queue = some l) : b.Placed n (share, item) := by
  obtain ⟨l, found⟩ := found
  obtain ⟨input, rest⟩ := List.cons.inj own
  obtain ⟨output, -⟩ := List.cons.inj rest
  have first := (taken.affords [] _ _ rfl l found).2.1
  have second := (taken.affords [_] _ [] rfl l found).2.1
  simp only [Ledger.isBackable, decide_eq_true_eq] at first second
  refine ⟨tables, ?_, ?_⟩
  · have stores := taken.stores 0 _ rfl
    have exact' := Contract.mulSaturating_of_backable (Nat.le_max_left _ 1) first
    rw [exact', Nat.max_comm] at stores
    rw [input]
    exact stores
  · have stores := taken.stores 1 _ rfl
    have exact' := Contract.mulSaturating_of_backable (Nat.le_refl _) second
    rw [exact'] at stores
    rw [output]
    exact stores

namespace Batch

/-- A share in its queue is of the memory and the tables that it was given. -/
theorem meets_enqueue_item (b : Batch) (slice : Slice) (queue : QueueId) (tables : StagedTables)
    (input output : MemoryId) : (b.enqueue slice queue tables input output).Meets (fun _ => True)
      (fun item _ => item.own = [input, output] ∧ item.tables = tables) m := by
  refine Host.Meets.bind ((Host.meets_trivial _ m).mono fun copied n _ _ => ?_)
  refine Host.Meets.bind ((Host.meets_trivial _ n).mono fun computed n _ _ => ?_)
  refine Host.Meets.bind ((Host.meets_trivial _ n).mono fun event n _ _ => ?_)
  refine Host.Meets.bind ((Host.meets_trivial _ n).mono fun _ n _ _ => ?_)
  exact fun _ _ => ⟨trivial, rfl, rfl⟩

/-- **A share takes what it demands, or the first demand that does not fit is refused.** -/
theorem meets_dispatch_takes (b : Batch) (share : Station × Slice) :
    (b.dispatch share.2 share.1.runner.queue share.1.tables).Meets (fun _ => True) (fun r n =>
      (∀ item, r = .ok item → Takes (b.demands share) m n ∧ item.tables = share.1.tables ∧
        item.own = MemoryId.row m.memories.length 2) ∧
      ∀ e, r = .error e → m.Counts share.1.runner.queue → ∃ before d after,
        b.demands share = before ++ d :: after ∧ m.Affords before ∧ m.Refuses before d e) m := by
  obtain ⟨station, slice⟩ := share
  unfold Batch.dispatch
  dsimp only
  refine Host.meets_call_bind fun n first => ⟨trivial, ?_⟩
  have opening := flow_takes.evolves first
  cases made : (n.allocate station.runner.queue .device
    (max (Size.mulSaturating b.recordLength slice.count) 1)).1
  case error e =>
    refine fun _ _ => ⟨trivial, nofun, fun _ answer ⟨l, found, word⟩ => ?_⟩
    obtain rfl := Except.error.inj answer
    refine ⟨[], _, _, rfl, affords_nil m, ?_⟩
    have found' := (flow_sameBooks.evolves first).ledger station.runner.queue
    exact opening.refuses found (refuses_allocate (found'.trans found) word made)
  case ok input =>
    obtain ⟨rfl, taken⟩ := takes_allocate made
    have taken := opening.trans taken
    generalize (n.allocate station.runner.queue .device _).2 = k at taken
    refine Host.meets_call_bind fun n' second => ⟨trivial, ?_⟩
    have taken := taken.trans (flow_takes.evolves second)
    cases made' : (n'.allocate station.runner.queue .device
      (Size.mulSaturating station.tables.algorithm.digestSize slice.count)).1
    case error e =>
      refine Host.meets_update_bind fun _ _ => ⟨trivial, fun _ _ =>
        ⟨trivial, nofun, fun _ answer counts => ?_⟩⟩
      obtain rfl := Except.error.inj answer
      obtain ⟨l', found', word'⟩ := counts.keeps taken.keeps
      obtain ⟨l, found, -⟩ := counts
      refine ⟨[_], _, [], rfl, taken.affords, ?_⟩
      exact taken.refuses found (refuses_allocate found' word' made')
    case ok output =>
      obtain ⟨rfl, taken'⟩ := takes_allocate made'
      have next := taken.length
      have taken := taken.trans taken'
      have same := (flow_sameBooks.evolves first).memories
      generalize (n'.allocate station.runner.queue .device _).2 = k' at taken
      refine Host.Meets.bind (((b.always_enqueue sharing_takes _ _ _ _ _ k').and
        (meets_enqueue_item b slice station.runner.queue station.tables _ _)).mono ?_)
      rintro item n'' - ⟨rest, own, tables⟩ l later
      refine ⟨trivial, fun _ answer => ?_, nofun⟩
      obtain rfl := Except.ok.inj answer
      refine ⟨taken.trans (rest.trans (flow_takes.evolves later)), tables, ?_⟩
      rw [own, same, next]
      rfl

end Batch

/-! ## Batches -/

namespace Hasher

variable {h : Hasher} {b : Batch}

/-- What is known of the shares that were dispatched: their demands were met, one after the other,
in memories that are the next ones. -/
structure Dispatched (b : Batch) (m : Machine) (done : List ((Station × Slice) × BatchItem))
    (n : Machine) : Prop where
  takes : Takes ((done.map (·.1)).flatMap b.demands) m n
  placed : ∀ pair ∈ done, b.Placed n pair
  own : (done.map (·.2)).flatMap BatchItem.own = MemoryId.row m.memories.length (2 * done.length)

/-- A share that could not be dispatched was refused one of its demands, after all demands before
it were met. -/
def Refused (b : Batch) (m : Machine) (done : List ((Station × Slice) × BatchItem))
    (next : Station × Slice) (e : DeviceError) : Prop :=
  m.Counts next.1.runner.queue → ∃ before d after, b.demands next = before ++ d :: after ∧
    m.Affords ((done.map (·.1)).flatMap b.demands ++ before) ∧
    m.Refuses ((done.map (·.1)).flatMap b.demands ++ before) d e

/-- Each share meets its demands after those before it, or is refused one. -/
theorem carries_takes
    (ledgers : ∀ station ∈ h.stations, (m.ledger? station.runner.queue).isSome) :
    Hasher.Carries b (Dispatched b m) (fun done next e _ => Refused b m done next e)
      (h.shares b.count) := by
  rintro done next later n split ⟨takes, placed, own⟩
  have mem : next ∈ h.shares b.count := by
    rw [split]
    exact List.mem_append_right _ List.mem_cons_self
  obtain ⟨l, found⟩ := Option.isSome_iff_exists.1
    (ledgers next.1 (List.of_mem_zip (List.mem_filter.1 mem).1).1)
  obtain ⟨l', found', continues⟩ := takes.keeps.ledger _ l found
  have demands : ∀ pair : (Station × Slice) × BatchItem,
      ((done ++ [pair]).map (·.1)).flatMap b.demands =
        (done.map (·.1)).flatMap b.demands ++ b.demands pair.1 := by
    intro pair
    simp
  have length : ∀ shares : List (Station × Slice),
      (shares.flatMap b.demands).length = 2 * shares.length := by
    intro shares
    simp [Batch.demands, Nat.mul_comm]
  refine (b.meets_dispatch_takes next).mono fun r n' _ goal => ⟨?_, ?_⟩
  · rintro item rfl
    obtain ⟨taken, tables, row⟩ := goal.1 item rfl
    refine ⟨?_, ?_, ?_⟩
    · rw [demands]
      exact takes.trans taken
    · intro pair mem
      rcases List.mem_append.1 mem with old | last
      · exact (placed pair old).keeps taken.keeps
      · rw [List.mem_singleton.1 last]
        exact Batch.placed_of_takes taken tables row ⟨l', found'⟩
    · have before := takes.length
      rw [length, List.length_map] at before
      rw [List.map_append, List.flatMap_append, own]
      simp only [List.map_cons, List.map_nil, List.flatMap_cons, List.flatMap_nil, List.append_nil]
      rw [row, before, MemoryId.row_append, List.length_append, List.length_singleton]
      congr 1
  · rintro e rfl
    refine (Host.meets_trivial _ n').mono fun _ k _ _ counts => ?_
    obtain ⟨before, d, after, asked, affords, refuses⟩ := goal.2 e rfl (counts.keeps takes.keeps)
    have same : d.queue = next.1.runner.queue := by
      refine Batch.queue_of_mem_demands (b := b) ?_
      rw [asked]
      exact List.mem_append_right _ List.mem_cons_self
    refine ⟨before, d, after, asked, takes.affords_append affords, ?_⟩
    exact takes.refuses (same ▸ found) refuses

/-- **A batch meets its demands one after the other, or is refused at the first that does not
fit.** -/
theorem meets_hash_takes
    (ledgers : ∀ station ∈ h.stations, (m.ledger? station.runner.queue).isSome) :
    (h.hash b).Meets (fun _ => True) (Hasher.Outcome (Dispatched b m)
      (fun done next e _ => Refused b m done next e) (h.shares b.count)) m :=
  Hasher.meets_hash h (carries_takes ledgers) fun _ first => ⟨flow_takes.evolves first, nofun, rfl⟩

end Hasher

/-! ## Hashers -/

/-- The tables of a station are where its queue is, and as long as the blob; no tables are
nowhere. -/
structure Station.Supplied (length : Nat) (m : Machine) (station : Station) : Prop where
  stores : ∀ id ∈ station.tables.memory, m.Stores id ⟨station.runner.queue, length⟩
  none : station.tables.memory = none ↔ length = 0

theorem Station.Supplied.keeps {length : Nat} {station : Station} {G : Ledger → Ledger → Prop}
    (h : station.Supplied length m) (keeps : Keeps G m n) : station.Supplied length n :=
  ⟨fun id mem => keeps.stores (h.stores id mem), h.none⟩

/-- What tables of a length demand. -/
def StagedTables.demands (queue : QueueId) (length : Nat) : List Demand :=
  if length = 0 then [] else [⟨queue, length⟩]

/-- Staged tables took what they demand, or it was refused. -/
theorem StagedTables.meets_stage_takes (a : Algorithm) (key : Bytes) (queue : QueueId) :
    (StagedTables.stage a key queue).Meets (fun _ => True) (fun r n =>
      (∀ tables, r = .ok tables → ∃ blob, a.tableBlob key = .ok blob ∧ tables.algorithm = a ∧
        Takes (StagedTables.demands queue blob.length) m n ∧
        tables.memory = if blob.length = 0 then .none else some ⟨m.memories.length⟩) ∧
      ∀ e, r = .error e → ∀ blob, a.tableBlob key = .ok blob → m.Counts queue →
        ∃ d e', StagedTables.demands queue blob.length = [d] ∧ m.Refuses [] d e') m := by
  unfold StagedTables.stage
  split
  next crash crashed =>
    refine fun n _ => ⟨trivial, nofun, fun _ _ blob staged => ?_⟩
    rw [crashed] at staged
    cases staged
  next staged =>
    intro n first
    refine ⟨trivial, fun n' second => ⟨trivial, fun tables answer => ?_, nofun⟩⟩
    obtain rfl := Except.ok.inj answer
    have adds := sharing_takes.addEvent n Status.complete_ne_pending
    exact ⟨[], staged, rfl,
      (flow_takes.evolves first).trans (adds.trans (flow_takes.evolves second)), rfl⟩
  next blob filled staged =>
    have some : blob.length ≠ 0 := fun none => filled (List.length_eq_zero_iff.1 none)
    refine Host.meets_call_bind fun n first => ⟨trivial, ?_⟩
    cases made : (n.allocate queue .device blob.length).1 with
    | error e =>
      refine fun _ _ => ⟨trivial, nofun, fun _ _ blob' staged' counts => ?_⟩
      cases staged.symm.trans staged'
      obtain ⟨l, found, word⟩ := counts
      have found' := ((flow_sameBooks.evolves first).ledger queue).trans found
      refine ⟨_, e, if_neg some, ?_⟩
      exact (flow_takes.evolves first).refuses found (refuses_allocate found' word made)
    | ok memory =>
      obtain ⟨rfl, taken⟩ := takes_allocate made
      have taken := (flow_takes.evolves first).trans taken
      have same := (flow_sameBooks.evolves first).memories
      generalize (n.allocate queue .device blob.length).2 = k at taken
      refine Host.meets_call_bind fun n' second => ⟨trivial, fun n'' third =>
        ⟨trivial, fun tables answer => ?_, nofun⟩⟩
      obtain rfl := Except.ok.inj answer
      have submits : Takes [] n'
          (n'.submit queue "memcpy:h2d" [] (.copyIn ⟨n.memories.length⟩ 0 blob)).2 :=
        sharing_takes.submit n' queue "memcpy:h2d" [] rfl nofun
      refine ⟨blob, staged, rfl, ?_, ?_⟩
      · unfold StagedTables.demands
        rw [if_neg some]
        exact taken.trans ((flow_takes.evolves second).trans
          (submits.trans (flow_takes.evolves third)))
      · rw [if_neg some, same]

namespace Hasher

/-- What the tables of all runners demand. -/
def tableDemands (runners : List Runner) (length : Nat) : List Demand :=
  runners.flatMap fun r => StagedTables.demands r.queue length

/-- What is known of stations that were made: their demands were met, one after the other, in
memories that are the next ones. -/
structure Supplied (a : Algorithm) (key : Bytes) (m : Machine) (runners : List Runner)
    (stations : List Station) (n : Machine) : Prop where
  made : stations.map (·.runner) = runners
  algorithm : ∀ station ∈ stations, station.tables.algorithm = a
  takes : ∀ blob, a.tableBlob key = .ok blob →
    Takes (tableDemands runners blob.length) m n
  supplied : ∀ blob, a.tableBlob key = .ok blob → ∀ station ∈ stations,
    station.Supplied blob.length n
  own : ∃ count, n.memories.length = m.memories.length + count ∧
    stations.filterMap (·.tables.memory) = MemoryId.row m.memories.length count

theorem Supplied.then {a : Algorithm} {key : Bytes} {k : Machine} {runners : List Runner}
    {stations : List Station} (h : Supplied a key m runners stations n) (taken : Takes [] n k) :
    Supplied a key m runners stations k := by
  refine ⟨h.made, h.algorithm, ?_, ?_, ?_⟩
  · intro blob staged
    have both := (h.takes blob staged).trans taken
    rwa [List.append_nil] at both
  · exact fun blob staged station mem => (h.supplied blob staged station mem).keeps taken.keeps
  · obtain ⟨count, length, own⟩ := h.own
    exact ⟨count, taken.length.trans length, own⟩

/-- One more station is made. -/
theorem Supplied.add {a : Algorithm} {key : Bytes} {k : Machine} {runners : List Runner}
    {stations : List Station} (h : Supplied a key m runners stations n) {runner : Runner}
    {tables : StagedTables} {blob : Bytes} (staged : a.tableBlob key = .ok blob)
    (algorithm : tables.algorithm = a)
    (taken : Takes (StagedTables.demands runner.queue blob.length) n k)
    (memory : tables.memory = if blob.length = 0 then .none else some ⟨n.memories.length⟩) :
    Supplied a key m (runners ++ [runner]) (stations ++ [⟨runner, tables⟩]) k := by
  have new : (⟨runner, tables⟩ : Station).Supplied blob.length k := by
    unfold StagedTables.demands at taken
    constructor
    · intro id mem
      split at memory
      · rw [memory] at mem
        cases mem
      next some =>
        rw [memory] at mem
        cases mem
        rw [if_neg some] at taken
        exact taken.stores 0 _ rfl
    · rw [memory]
      split <;> simp_all
  refine ⟨by simp [h.made], ?_, ?_, ?_, ?_⟩
  · intro station mem
    rcases List.mem_append.1 mem with old | last
    · exact h.algorithm station old
    · rw [List.mem_singleton.1 last]
      exact algorithm
  · intro blob' staged'
    cases staged.symm.trans staged'
    simpa [tableDemands] using (h.takes blob staged).trans taken
  · intro blob' staged' station mem
    cases staged.symm.trans staged'
    rcases List.mem_append.1 mem with old | last
    · exact (h.supplied blob staged station old).keeps taken.keeps
    · rw [List.mem_singleton.1 last]
      exact new
  · obtain ⟨count, length, own⟩ := h.own
    have more := taken.length
    unfold StagedTables.demands at more
    split at memory
    next none =>
      rw [if_pos none] at more
      exact ⟨count, more.trans length, by simp [own, memory]⟩
    next some =>
      rw [if_neg some] at more
      refine ⟨count + 1, by rw [more, length]; rfl, ?_⟩
      rw [List.filterMap_append, own, ← MemoryId.row_append, ← length]
      simp [memory, MemoryId.row]

/-- Tables of a hasher could not be staged because one of their demands was refused. -/
def Wanting (a : Algorithm) (key : Bytes) (m : Machine) (runners : List Runner) : Prop :=
  ∀ blob, a.tableBlob key = .ok blob → (∀ r ∈ runners, m.Counts r.queue) →
    ∃ before d after e, tableDemands runners blob.length = before ++ d :: after ∧
      m.Refuses before d e

theorem meets_stageAll_takes {a : Algorithm} {key : Bytes} {rest done : List Runner}
    {stations : List Station} {base : Machine}
    (start : Supplied a key base done stations m) :
    (Hasher.stageAll a key rest stations).Meets (fun _ => True) (fun r n =>
      (∀ all, r = .ok all → Supplied a key base (done ++ rest) all n) ∧
      ∀ e, r = .error e → Wanting a key base (done ++ rest)) m := by
  induction rest generalizing m done stations with
  | nil =>
    refine fun n first => ⟨trivial, fun all answer => ?_, nofun⟩
    obtain rfl := Except.ok.inj answer
    rw [List.append_nil]
    exact start.then (flow_takes.evolves first)
  | cons runner rest ih =>
    refine Host.Meets.bind ((StagedTables.meets_stage_takes a key runner.queue).mono ?_)
    intro r n _ goal
    cases r with
    | error e =>
      refine Host.Meets.bind ((Host.meets_trivial _ n).mono fun _ _ _ _ _ _ =>
        ⟨trivial, nofun, fun _ _ blob staged counts => ?_⟩)
      have counts := counts runner (List.mem_append_right _ List.mem_cons_self)
      have taken := start.takes blob staged
      obtain ⟨d, e', asked, refuses⟩ := goal.2 e rfl blob staged (counts.keeps taken.keeps)
      obtain ⟨l, found, -⟩ := counts
      have queue : d.queue = runner.queue := by
        unfold StagedTables.demands at asked
        split at asked
        · cases asked
        · cases asked
          rfl
      refine ⟨_, d, tableDemands rest blob.length, e', ?_, taken.refuses (queue ▸ found) refuses⟩
      simp [tableDemands, asked]
    | ok tables =>
      obtain ⟨blob, staged, algorithm, taken, memory⟩ := goal.1 tables rfl
      simpa using ih (start.add staged algorithm taken memory)

/-- **A hasher that is made took what its tables demand**, and one that was accepted but is not made
was refused a demand. -/
theorem meets_create_takes (a : Algorithm) (runners : List Runner) (key : Bytes) :
    (Hasher.create a runners key).Meets (fun _ => True) (fun r n =>
      (∀ h, r = .ok h → h.algorithm = a ∧ Supplied a key m runners h.stations n ∧
        Runner.check (Runner.named m runners) = .ok ()) ∧
      ∀ e, r = .error e → a.checkKey key.length = .ok () →
        Runner.check (Runner.named m runners) = .ok () → Wanting a key m runners) m := by
  unfold Hasher.create
  split
  next refused =>
    refine fun n _ => ⟨trivial, nofun, fun _ _ accepted => ?_⟩
    rw [refused] at accepted
    cases accepted
  refine Host.meets_ask_bind fun n first => ⟨trivial, ?_⟩
  rw [(flow_titles.evolves first).named]
  split
  next refused =>
    refine fun n _ => ⟨trivial, nofun, fun _ _ _ accepted => ?_⟩
    rw [refused] at accepted
    cases accepted
  next accepted =>
  have opening := flow_takes.evolves first
  have start : Supplied a key m [] [] n :=
    ⟨rfl, nofun, fun _ _ => opening, nofun, 0, opening.length, rfl⟩
  refine Host.Meets.bind ((meets_stageAll_takes start).mono fun r n' _ goal => ?_)
  cases r with
  | error e => exact fun n _ => ⟨trivial, nofun, fun _ _ _ _ => goal.2 e rfl⟩
  | ok stations =>
    have held := Hasher.always_holdQueues flow_takes runners fun k r _ => by
      have books : k.SameBooks (k.addHandle r.queue) := k.sameBooks_updateQueue _ _ fun _ => rfl
      exact books.takes
    refine Host.Meets.bind ((held n').mono ?_)
    rintro - l - held l' later
    refine ⟨trivial, fun h answer => ?_, nofun⟩
    obtain rfl := Except.ok.inj answer
    exact ⟨rfl, (goal.1 stations rfl).then (held.trans (flow_takes.evolves later)), accepted⟩

end Hasher

end BatchDigest
