import BatchDigest.Proofs.Batch.Dispatch
import BatchDigest.Proofs.Batch.Joining

/-!
# Batches in flight

A batch is dispatched share by share. At any moment some shares are in flight and the bytes of the
output that belong to no share in flight stand as they were (`Contract.Flight`). Shares do not get
in each other's way: each allocates its memory anew, and the slices do not overlap. Whatever happens
to other memory and other buffers meanwhile, handles that go included, they stay in flight. When a
share cannot be dispatched, those before it are joined at once.
-/

namespace BatchDigest

open Machine

namespace Contract

variable {k : Contract} {queues : List QueueId} {m n : Machine}

/-- Shares in flight, and the rest of the output as it was. -/
structure Flight (k : Contract) (queues : List QueueId) (m : Machine) (shares : List Share) :
    Prop where
  base : m.Serving [] k.device
  named : m.Named queues k.device
  inFlight : ∀ share ∈ shares, k.InFlight queues m share
  rest : m.Stands (.bytes k.batch.output fun i => ∀ share ∈ shares, ¬ k.Covers share.slice i)
    (k.Untouched fun i => ∀ share ∈ shares, ¬ k.Covers share.slice i)

/-- The output stands as it was. -/
def Whole (k : Contract) (m : Machine) : Prop :=
  m.Stands (.bytes k.batch.output fun _ => True) (k.Untouched fun _ => True)

/-- It stands when nobody writes into it. -/
theorem whole_of_alone (found : m.Holds (.buffer k.batch.output))
    (alone : ∀ q, ∀ job ∈ m.pending q, .buffer k.batch.output ∉ job.work.writes)
    (initial : k.initial = m.contents.buffer k.batch.output) : k.Whole m := by
  refine ⟨found, ?_, k.untouched_decides _, by rw [initial], fun i _ => by rw [initial]⟩
  exact fun q job pending => Work.spares_of_not_mem (alone q job pending)

theorem InFlight.drifts {share : Share} (h : k.InFlight queues m share)
    (serving : m.Serving [] k.device) (named : m.Named queues k.device) {e : Extent}
    (drifts : m.Drifts e n) (new : ∀ id, e.memories id → m.memories.length ≤ id.index)
    (apart : ∀ i, k.Covers share.slice i → ¬ e.bytes k.batch.output i) :
    k.InFlight queues n share := by
  obtain ⟨mem, ne, copied, computed, all⟩ := h
  have chain : Chain queues k.device (k.plans share.site copied computed share.item.event) :=
    chain_result mem ne copied computed share.item.event
  refine ⟨mem, ne, copied, computed, chain.drifts all serving named drifts ?_⟩
  have held := all
  simp only [Contract.plans, List.forall_mem_cons] at held ⊢
  obtain ⟨result, launch, copy, tables, -⟩ := held
  exact ⟨apart, outside_of_holds launch.holds new nofun, outside_of_holds copy.holds new nofun,
    tables_outside tables new, List.forall_mem_nil _⟩

namespace Flight

variable {shares : List Share}

/-- Nothing is in flight yet. -/
theorem of_whole (serving : m.Serving queues k.device) (whole : k.Whole m) :
    k.Flight queues m [] := by
  refine ⟨serving.base k.device, serving.isNamed, nofun, ?_⟩
  refine whole.bytes (fun _ _ => trivial) (k.untouched_decides _) fun c untouched => ?_
  exact ⟨untouched.1, fun i _ => untouched.2 i trivial⟩

/-- **Shares stay in flight** while nothing but new memories and other bytes is touched. -/
theorem drifts (h : k.Flight queues m shares) {e : Extent} (drifts : m.Drifts e n)
    (new : ∀ id, e.memories id → m.memories.length ≤ id.index)
    (apart : ∀ i, ¬ e.bytes k.batch.output i) : k.Flight queues n shares :=
  ⟨drifts.serving h.base, h.named.drifts h.base drifts,
    fun share mem => (h.inFlight share mem).drifts h.base h.named drifts new fun i _ => apart i,
    h.rest.drifts h.base drifts fun i _ => apart i⟩

theorem calm (h : k.Flight queues m shares) (passes : m.Passes .nothing n) :
    k.Flight queues n shares :=
  h.drifts passes.drifts nofun fun _ => id

/-- One more share, on bytes that belong to none of the others. -/
theorem add (h : k.Flight queues m shares) {share : Share}
    (passes : m.Passes (k.extent m.memories.length share.slice) n)
    (new : k.InFlight queues n share)
    (apart : ∀ other ∈ shares, ∀ i, k.Covers other.slice i → ¬ k.Covers share.slice i) :
    k.Flight queues n (shares ++ [share]) := by
  have drifts := passes.drifts
  refine ⟨drifts.serving h.base, h.named.drifts h.base drifts, ?_, ?_⟩
  · intro other mem
    rcases List.mem_append.1 mem with old | last
    · refine (h.inFlight other old).drifts h.base h.named drifts (fun _ => id) ?_
      exact fun i covered within => apart other old i covered within.2
    · rw [List.mem_singleton.1 last]
      exact new
  · have fewer : ∀ i, (∀ other ∈ shares ++ [share], ¬ k.Covers other.slice i) →
        ∀ other ∈ shares, ¬ k.Covers other.slice i :=
      fun i none other mem => none other (List.mem_append_left _ mem)
    have rest := h.rest.bytes fewer (k.untouched_decides _)
      fun c untouched => ⟨untouched.1, fun i hi => untouched.2 i (fewer i hi)⟩
    refine rest.drifts h.base drifts fun i none within => ?_
    exact none share (by simp) within.2

/-- The bytes of a share that is about to be dispatched. -/
theorem clean (h : k.Flight queues m shares) {s : Slice}
    (apart : ∀ other ∈ shares, ∀ i, k.Covers other.slice i → ¬ k.Covers s i) : k.Clean m s := by
  have within : ∀ i, k.Covers s i → ∀ other ∈ shares, ¬ k.Covers other.slice i :=
    fun i covered other mem covered' => apart other mem i covered' covered
  exact h.rest.bytes within (k.untouched_decides _)
    fun c untouched => ⟨untouched.1, fun i hi => untouched.2 i (within i hi)⟩

end Flight

/-! ## Stations -/

/-- A station on a queue that serves, with tables on their way. -/
structure Stationed (k : Contract) (queues : List QueueId) (m : Machine) (station : Station) :
    Prop where
  mem : station.runner.queue ∈ queues
  algorithm : station.tables.algorithm = k.algorithm
  tables : m.Follows (k.tablesPlan station.runner.queue station.tables)

theorem Stationed.drifts {station : Station} (h : k.Stationed queues m station)
    (serving : m.Serving [] k.device) (named : m.Named queues k.device) {e : Extent}
    (drifts : m.Drifts e n) (new : ∀ id, e.memories id → m.memories.length ≤ id.index) :
    k.Stationed queues n station := by
  have chain : Chain queues k.device _ := k.chain_tables station.runner.queue station.tables
  refine ⟨h.mem, h.algorithm, chain.drifts ?_ serving named drifts ?_ _ List.mem_cons_self⟩
  · simpa using h.tables
  · simpa using tables_outside h.tables new

theorem Stationed.passes {station : Station} (h : k.Stationed queues m station)
    (serving : m.Serving queues k.device) {e : Extent} (passes : m.Passes e n)
    (new : ∀ id, e.memories id → m.memories.length ≤ id.index) :
    k.Stationed queues n station :=
  h.drifts (serving.base k.device) serving.isNamed passes.drifts new

/-- Nothing but new memories is touched when the tables of all runners are staged, and all uploads
are planned. -/
theorem meets_stageAll {key : Bytes} (staged : k.algorithm.tableBlob key = .ok k.blob)
    (runners : List Runner) (mem : ∀ r ∈ runners, r.queue ∈ queues) {m : Machine}
    (serving : m.Serving queues k.device) (stations : List Station)
    (ready : ∀ station ∈ stations, k.Stationed queues m station) :
    (Hasher.stageAll k.algorithm key runners stations).Meets (fun _ => True)
      (fun r n => m.Passes (.new m) n ∧ ∀ all, r = .ok all →
        all.map (·.runner) = stations.map (·.runner) ++ runners ∧
        ∀ station ∈ all, k.Stationed queues n station) m := by
  induction runners generalizing m stations with
  | nil =>
    intro n first
    refine ⟨trivial, .of_evolves first, fun all answer => ?_⟩
    obtain rfl := Except.ok.inj answer
    refine ⟨(List.append_nil _).symm, fun station mem => ?_⟩
    exact (ready station mem).passes serving (Passes.of_evolves (e := .nothing) first) nofun
  | cons runner rest ih =>
    rw [List.forall_mem_cons] at mem
    unfold Hasher.stageAll
    refine Host.Meets.bind ((meets_stage staged serving mem.1).mono ?_)
    rintro r n - ⟨passes, done'⟩
    cases r with
    | error e =>
      refine Host.Meets.bind ((StagedTables.always_dropAll giving_passes _ n).mono ?_)
      rintro - n' - dropped n'' later
      have closing : n.Passes (.new m) n' := dropped.mono nofun nofun
      exact ⟨trivial, (passes.trans closing).evolves later, nofun⟩
    | ok tables =>
      -- Tables that were staged before are not among the memories of this upload.
      obtain ⟨algorithm, follows⟩ := done' tables rfl
      have serving' := passes.serving serving
      have ready' : ∀ station ∈ stations ++ [⟨runner, tables⟩], k.Stationed queues n station := by
        intro station mem'
        rcases List.mem_append.1 mem' with old | last
        · exact (ready station old).passes serving passes fun _ => id
        · rw [List.mem_singleton.1 last]
          exact ⟨mem.1, algorithm, follows⟩
      refine (ih mem.2 serving' _ ready').mono ?_
      rintro r n' - ⟨later, goal⟩
      have more := passes.drifts.length_memories serving
      refine ⟨passes.trans (later.mono (fun _ new => Nat.le_trans more new) nofun), ?_⟩
      rintro all rfl
      obtain ⟨runners, stationed⟩ := goal all rfl
      refine ⟨?_, stationed⟩
      rw [runners, List.map_append, List.append_assoc]
      rfl

theorem meets_holdQueues (runners : List Runner) {m : Machine} :
    (Hasher.holdQueues runners).Meets (fun _ => True) (fun _ n => m.Passes .nothing n) m := by
  induction runners generalizing m with
  | nil => exact fun n first => ⟨trivial, .of_evolves first⟩
  | cons runner rest ih =>
    refine Host.meets_update_bind fun n first => ⟨trivial, ih.mono ?_⟩
    exact fun _ n' _ later => ((Passes.of_evolves first).quiet (n.quiet_addHandle _)).trans later

/-! ## Dispatching a batch -/

theorem mem_shares {h : Hasher} {count : Nat} {next : Station × Slice} :
    next ∈ h.shares count ↔ 0 < next.2.count ∧ ∃ i : Nat, h.stations[i]? = some next.1 ∧
      (Slice.partition (h.stations.map (·.runner.weight)) count)[i]? = some next.2 := by
  have filled : (!next.2.isEmpty) = true ↔ 0 < next.2.count := by
    simp [Slice.isEmpty, Nat.pos_iff_ne_zero]
  unfold Hasher.shares
  rw [List.mem_filter, filled, List.mem_iff_getElem?, and_comm]
  simp only [List.getElem?_zip_eq_some]

theorem sublist_shares (h : Hasher) (count : Nat) :
    ((h.shares count).map (·.2)).Sublist
      (Slice.partition (h.stations.map (·.runner.weight)) count) := by
  have lengths : (Slice.partition (h.stations.map (·.runner.weight)) count).length =
      h.stations.length := by
    rw [Slice.length_partition, List.length_map]
  have all := List.map_snd_zip (Nat.le_of_eq lengths)
  have kept := (List.filter_sublist (p := fun share : Station × Slice => !share.2.isEmpty)
    (l := h.stations.zip (Slice.partition (h.stations.map (·.runner.weight)) count))).map (·.2)
  rw [show (fun share : Station × Slice => share.2) = Prod.snd from rfl, all] at kept
  exact kept

end Contract

/-- A share that was dispatched, with its item. -/
def Share.of (pair : (Station × Slice) × BatchItem) : Share :=
  ⟨pair.1.2, pair.1.1.runner.queue, pair.2⟩

/-- The extent of a batch: the memories from `base` on and its output. -/
def Batch.extent (b : Batch) (base : Nat) : Extent :=
  ⟨fun id => base ≤ id.index, fun buffer _ => buffer = b.output⟩

namespace Contract

variable {k : Contract} {queues : List QueueId} {m n : Machine}

/-- Each share touches new memories and its range of the output. When the output stood as it was,
it is in flight then, and when it fails those before it are over. -/
theorem carries_flight {h : Hasher} (serving : m.Serving queues k.device)
    (ready : ∀ station ∈ h.stations, k.Stationed queues m station)
    (found : m.Holds (.buffer k.batch.output)) (size : k.batch.count ≤ Size.largest) :
    Hasher.Carries k.batch
      (fun done n => m.Passes (k.batch.extent m.memories.length) n ∧
        (k.Whole m → k.Flight queues n (done.map Share.of)))
      (fun done _ _ n => m.Passes (k.batch.extent m.memories.length) n ∧
        (∀ pair ∈ done, n.isResolved pair.2.event) ∧
        (k.Whole m → k.Flight queues n (done.map Share.of))) (h.shares k.batch.count) := by
  have apart := (Slice.pairwise_partition (h.stations.map (·.runner.weight)) size).sublist
    (sublist_shares h k.batch.count)
  rintro done next later n split ⟨passes, flight⟩
  have servingN := passes.serving serving
  have here : k.Stationed queues n next.1 := by
    have mem : next ∈ h.shares k.batch.count := by
      rw [split]
      exact List.mem_append_right _ List.mem_cons_self
    obtain ⟨_, i, station, _⟩ := mem_shares.1 mem
    exact (ready _ (List.mem_of_getElem? station)).passes serving passes fun _ => id
  have others : ∀ other ∈ done.map Share.of, ∀ i, k.Covers other.slice i → ¬ k.Covers next.2 i := by
    intro other mem i covered covered'
    obtain ⟨pair, inside, rfl⟩ := List.mem_map.1 mem
    rw [split, List.map_append, List.pairwise_append] at apart
    have before : pair.1.2.stop ≤ next.2.offset :=
      apart.2.2 _ (List.mem_map_of_mem (List.mem_map_of_mem inside)) _ (by simp)
    have le := Nat.mul_le_mul_right k.size before
    have last : _ < pair.1.2.stop * k.size := covered.2
    have first := covered'.1
    omega
  refine (meets_dispatch servingN here.mem here.algorithm here.tables
    (passes.drifts.holds serving found)).mono ?_
  rintro r n' - ⟨failed, started⟩
  constructor
  · rintro item rfl
    obtain ⟨passes', inFlight⟩ := started item rfl
    have more := passes.drifts.length_memories serving
    have both : m.Passes (k.batch.extent m.memories.length) n' :=
      passes.trans (passes'.mono (fun _ new => Nat.le_trans more new) fun _ _ => And.left)
    refine ⟨both, fun whole => ?_⟩
    have new : k.InFlight queues n' (Share.of (next, item)) :=
      inFlight ((flight whole).clean others)
    simpa using (flight whole).add passes' new others
  · rintro e rfl
    have servingN' := (failed e rfl).serving servingN
    refine Host.Meets.bind ((Handle.meets_join ⟨done.map (·.2)⟩ servingN').mono ?_)
    rintro - l - ⟨joined, resolved, -⟩ l' third
    have closing := ((failed e rfl).trans joined).evolves third
    have servingL := joined.serving servingN'
    refine ⟨trivial, passes.trans (closing.mono nofun nofun), fun pair mem => ?_,
      fun whole => (flight whole).calm closing⟩
    exact third.isResolved servingL.sound (resolved pair.2 (List.mem_map_of_mem mem))

/-- **A batch touches nothing but new memories and its output**, whatever comes of it. When the
output stood as it was, all shares are in flight then, or those before the one that failed are over.
-/
theorem meets_hash_flight {h : Hasher} (serving : m.Serving queues k.device)
    (ready : ∀ station ∈ h.stations, k.Stationed queues m station)
    (found : m.Holds (.buffer k.batch.output)) (size : k.batch.count ≤ Size.largest) :
    (h.hash k.batch).Meets (fun _ => True) (Hasher.Outcome
      (fun done n => m.Passes (k.batch.extent m.memories.length) n ∧
        (k.Whole m → k.Flight queues n (done.map Share.of)))
      (fun done _ _ n => m.Passes (k.batch.extent m.memories.length) n ∧
        (∀ pair ∈ done, n.isResolved pair.2.event) ∧
        (k.Whole m → k.Flight queues n (done.map Share.of))) (h.shares k.batch.count)) m :=
  Hasher.meets_hash h (carries_flight serving ready found size) fun _ first =>
    ⟨.of_evolves first, fun whole => (Flight.of_whole serving whole).calm (.of_evolves first)⟩

end Contract

end BatchDigest
