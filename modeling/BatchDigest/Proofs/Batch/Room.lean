import BatchDigest.Proofs.Batch.Conservation
import BatchDigest.Proofs.Batch.Titles
import Mathlib.Algebra.Order.BigOperators.Group.List
import Mathlib.Algebra.Order.Group.Nat

/-!
# Room for a batch that is alone

A batch that was dispatched among others fitted into what those left. Nobody but the hasher and the
batch itself takes memory when the batch is alone, so that there is room for it as well: neither the
hasher nor the batch is refused then (`Order.Affordable.granted`). What has to be afforded is told
by the runners, the key and the batch, and does not depend on the traffic.
-/

namespace BatchDigest

open Machine

namespace Machine

variable {m n : Machine} {q : QueueId} {l : Ledger} {extra demands : List Demand}

/-- Where nothing was ever allocated, nothing is in use. -/
theorem Audited.unused (audited : m.Audited) (none : m.memories = [])
    (found : m.ledger? q = some l) : l.used = 0 := by
  have live : l.live = [] := by
    refine List.eq_nil_iff_forall_not_mem.2 fun entry mem => ?_
    obtain ⟨id, memory, here, -⟩ := audited.listed q l found entry mem
    unfold memory? at here
    rw [none] at here
    cases here
  rw [(audited.balanced q l found).used, live]
  rfl

/-- What can be afforded later, when more is in use, can be afforded before, and some demands
besides that are in use by then. -/
theorem Affords.before (affords : n.Affords demands) (first : m.Affords extra)
    (keeps : Keeps Ledger.Continues m n)
    (less : ∀ q l l', m.ledger? q = some l → n.ledger? q = some l' →
      l.used + Demand.bytes extra q ≤ l'.used) : m.Affords (extra ++ demands) := by
  have later : ∀ middle d after, demands = middle ++ d :: after → ∀ l, m.ledger? d.queue = some l →
      l.FitsAfter (Demand.bytes (extra ++ middle) d.queue) d.length := by
    intro middle d after split l found
    obtain ⟨l', found', continues⟩ := keeps.ledger _ l found
    obtain ⟨some, backable, fits⟩ := affords middle d after split l' found'
    have more := less _ l l' found found'
    have limit : l'.limit = l.limit := by
      unfold Ledger.limit
      rw [continues.capacity]
    refine ⟨some, backable, ?_⟩
    rw [Demand.bytes_append]
    omega
  intro before d after split
  rcases List.append_eq_append_iff.1 split with ⟨middle, rfl, rest⟩ | ⟨middle, rfl, rest⟩
  · exact later middle d after rest
  · cases middle with
    | nil => simpa using later [] d after rest.symm
    | cons _ middle =>
      obtain ⟨rfl, -⟩ := List.cons.inj rest
      exact first before d middle rfl

end Machine

/-! ## What hashers and batches need -/

/-- What the tables of a hasher demand. -/
def Maker.demands (maker : Maker) : List Demand :=
  Hasher.tableDemands maker.runners maker.tablesLength

/-- What a batch demands of the runners of a hasher. -/
def Batch.needs (b : Batch) (a : Algorithm) (runners : List Runner) : List Demand :=
  ((runners.zip (b.slices runners)).filter fun share => !share.2.isEmpty).flatMap fun share =>
    [⟨share.1.queue, max (Size.mulSaturating b.recordLength share.2.count) 1⟩,
      ⟨share.1.queue, Size.mulSaturating a.digestSize share.2.count⟩]

/-- A hasher splits batches by the weights of its runners. -/
theorem Hasher.weights_eq {h : Hasher} {runners : List Runner}
    (made : h.stations.map (·.runner) = runners) :
    h.stations.map (·.runner.weight) = runners.map (·.weight) := by
  rw [← made, List.map_map]
  rfl

/-- The demands of a batch do not depend on where the tables of its hasher are. -/
theorem Hasher.demands_shares {h : Hasher} {a : Algorithm} {runners : List Runner}
    (made : h.stations.map (·.runner) = runners)
    (algorithm : ∀ station ∈ h.stations, station.tables.algorithm = a) (b : Batch) :
    (h.shares b.count).flatMap b.demands = b.needs a runners := by
  unfold shares Batch.needs Batch.slices
  rw [weights_eq made, ← made, List.zip_map_left, List.filter_map, List.flatMap_map]
  refine List.flatMap_congr fun share mem => ?_
  have station := (List.of_mem_zip (List.mem_filter.1 mem).1).1
  unfold Batch.demands
  rw [algorithm _ station]
  rfl

namespace Maker.Made

variable {maker : Maker} {m : Machine}

/-- The tables of a hasher are what it demanded. -/
theorem demands_eq (made : maker.Made m) :
    (maker.hasher.stations.filterMap maker.holding?).map (·.demand) = maker.demands := by
  have each : ∀ stations : List Station,
      (∀ station ∈ stations, station.Supplied maker.tablesLength m) →
      (stations.filterMap maker.holding?).map (·.demand) =
        Hasher.tableDemands (stations.map (·.runner)) maker.tablesLength := by
    intro stations supplied
    induction stations with
    | nil => rfl
    | cons station rest ih =>
      rw [List.forall_mem_cons] at supplied
      have rest := ih supplied.2
      have absent := supplied.1.none
      unfold Hasher.tableDemands StagedTables.demands at rest ⊢
      rw [List.map_cons, List.flatMap_cons, ← rest]
      cases here : station.tables.memory with
      | none =>
        have nowhere : maker.holding? station = none := by
          unfold holding?
          rw [here]
          rfl
        rw [List.filterMap_cons_none nowhere, if_pos (absent.1 here)]
        rfl
      | some id =>
        have there : maker.holding? station =
            some ⟨id, station.runner.queue, maker.tablesLength⟩ := by
          unfold holding?
          rw [here]
          rfl
        rw [List.filterMap_cons_some there, if_neg fun none => nomatch here ▸ absent.2 none]
        rfl
  rw [each _ made.supplied, made.runners]
  rfl

/-- The tables of a hasher are different memories. -/
theorem nodup_holdings (made : maker.Made m) :
    (maker.hasher.stations.filterMap maker.holding?).Nodup := by
  have ids : (maker.hasher.stations.filterMap maker.holding?).map (·.memory) =
      maker.hasher.stations.filterMap (·.tables.memory) := by
    rw [List.map_filterMap]
    refine List.filterMap_congr fun station _ => ?_
    unfold holding?
    cases station.tables.memory <;> rfl
  refine List.Nodup.of_map (·.memory) ?_
  rw [ids]
  exact made.distinct

end Maker.Made

/-- The tables of a hasher on the desk are in use. -/
theorem Desk.Orderly.demands_le {s : Desk} (orderly : s.Orderly)
    (leased : s.machine.Leased s.leases) (stocked : s.machine.Stocked) {maker : Maker}
    (mem : maker ∈ s.makers) {q : QueueId} {l : Ledger} (found : s.machine.ledger? q = some l) :
    Demand.bytes maker.demands q ≤ l.used := by
  have made := orderly.made maker mem
  have held : (maker.hasher.stations.filterMap maker.holding?) ⊆ s.holdings := by
    intro holding inside
    refine List.mem_append_right _ (List.mem_append_left _ (List.mem_dedup.2 ?_))
    exact List.mem_append_left _ (List.mem_flatMap.2 ⟨maker, mem, inside⟩)
  have balanced := stocked.balanced q l found
  have all := orderly.inventory.liveBytes_eq leased stocked found
  rw [balanced.liveBytes, ← balanced.used] at all
  obtain ⟨same, perm, sub⟩ := List.subperm_of_subset made.nodup_holdings held
  have le := (((sub.filter (·.demand.queue = q)).map (·.demand.length)).sum_le_sum
    fun _ _ => Nat.zero_le _)
  rw [((perm.filter (·.demand.queue = q)).map (·.demand.length)).sum_eq] at le
  rw [all, ← made.demands_eq]
  unfold Demand.bytes
  rw [List.filter_map, List.map_map]
  exact le

/-! ## Room from the start -/

/-- A hasher can be made on a machine: it is accepted, and its tables can be afforded. -/
structure Maker.Affordable (maker : Maker) (m : Machine) : Prop where
  accepted : maker.algorithm.checkKey maker.key.length = .ok ()
  named : Runner.check (Runner.named m maker.runners) = .ok ()
  affords : m.Affords maker.demands

/-- A batch can be dispatched on a machine by a hasher that is made for it. -/
structure Order.Affordable (o : Order) (m : Machine) : Prop where
  maker : o.maker.Affordable m
  affords : m.Affords (o.maker.demands ++ o.batch.needs o.maker.algorithm o.maker.runners)

/-- Whatever the workers do, a hasher is made for the batch and the batch is dispatched. -/
def Order.Granted (o : Order) (m : Machine) : Prop :=
  ∀ r made, Host.Reaches (Hasher.create o.maker.algorithm o.maker.runners o.maker.key, m)
    (.done r, made) → ∃ hasher, r = .ok hasher ∧
      ∀ r' n, Host.Reaches (hasher.hash o.batch, made) (.done r', n) → ∃ handle, r' = .ok handle

/-- **A batch that is alone is dispatched** when there is room for its hasher and itself. -/
theorem Order.Affordable.granted {o : Order} {m : Machine} (h : o.Affordable m)
    (counts : ∀ r ∈ o.maker.runners, m.Counts r.queue) : o.Granted m := by
  intro r made creation
  obtain ⟨k, algorithm, -, -, -, staged, -⟩ :=
    Contract.exists_of_accepted h.maker.accepted o.batch [] m.queueName
  have length : o.maker.tablesLength = k.blob.length := by
    unfold Maker.tablesLength
    rw [staged]
    rfl
  have goal := (Hasher.meets_create_takes _ _ _).goal_of_reaches creation
  cases r with
  | error e =>
    obtain ⟨before, d, after, e', asked, refuses⟩ :=
      goal.2 e rfl h.maker.accepted h.maker.named k.blob staged counts
    have affords := h.maker.affords
    unfold Maker.demands at affords
    rw [length, asked] at affords
    exact absurd affords (refuses.not_affords after)
  | ok hasher =>
    refine ⟨hasher, rfl, fun r' n hashing => ?_⟩
    obtain ⟨-, supplied, -⟩ := goal.1 hasher rfl
    have taken := supplied.takes k.blob staged
    have runner : ∀ station ∈ hasher.stations, station.runner ∈ o.maker.runners := by
      intro station mem
      rw [← supplied.made]
      exact List.mem_map_of_mem mem
    have ledgers : ∀ station ∈ hasher.stations, made.Counts station.runner.queue :=
      fun station mem => (counts _ (runner station mem)).keeps taken.keeps
    have outcome := (Hasher.meets_hash_takes (b := o.batch) fun station mem => by
      obtain ⟨l, found, -⟩ := ledgers station mem
      rw [found]
      rfl).goal_of_reaches hashing
    cases r' with
    | ok handle => exact ⟨handle, rfl⟩
    | error e =>
      -- The demand that was refused can be afforded after all those before it.
      obtain ⟨done, next, later, d', split, rfl, refused⟩ := outcome
      have station : next.1 ∈ hasher.stations := by
        have mem : next ∈ hasher.shares o.batch.count := by
          rw [split]
          exact List.mem_append_right _ List.mem_cons_self
        exact (List.of_mem_zip (List.mem_filter.1 mem).1).1
      obtain ⟨before, d, after, asked, -, refuses⟩ := refused (ledgers _ station)
      have queue : d.queue = next.1.runner.queue := by
        refine Batch.queue_of_mem_demands (b := o.batch) ?_
        rw [asked]
        exact List.mem_append_right _ List.mem_cons_self
      obtain ⟨l, found, -⟩ := counts _ (runner _ station)
      have demands := Hasher.demands_shares supplied.made supplied.algorithm o.batch
      rw [split, List.flatMap_append, List.flatMap_cons, asked] at demands
      have refuses := (taken.refuses (queue ▸ found) refuses).not_affords
        (after ++ later.flatMap o.batch.demands)
      refine absurd ?_ refuses
      have affords := h.affords
      unfold Maker.demands at affords
      rw [length, ← demands] at affords
      simpa using affords

namespace Desk

variable {s s' : Desk} {m : Machine}

/-- Everything on the desk could have been made at the start. -/
structure Afforded (m : Machine) (s : Desk) : Prop where
  makers : ∀ maker ∈ s.makers, maker.Affordable m
  orders : ∀ o ∈ s.orders, o.Affordable m
  joined : ∀ pair ∈ s.joined, pair.1.Affordable m

/-- A hasher that was made could have been made at the start. -/
theorem affordable_of_create (titles : Titles m s.machine)
    (keeps : Keeps Ledger.Continues m s.machine)
    (unused : ∀ q l, m.ledger? q = some l → l.used = 0) {a : Algorithm} {runners : List Runner}
    {key : Bytes} {h : Hasher} {after : Machine}
    (run : Host.Reaches (Hasher.create a runners key, s.machine) (.done (.ok h), after)) :
    Maker.Affordable ⟨a, runners, key, h⟩ m := by
  have accepted := Hasher.accepted_of_create run
  obtain ⟨k, rfl, -, -, -, staged, -⟩ :=
    Contract.exists_of_accepted accepted ⟨[], 0, ⟨0⟩, 0⟩ [] m.queueName
  obtain ⟨-, supplied, named⟩ := ((Hasher.meets_create_takes _ _ _).goal_of_reaches run).1 h rfl
  have length : Maker.tablesLength ⟨k.algorithm, runners, key, h⟩ = k.blob.length := by
    unfold Maker.tablesLength
    rw [staged]
    rfl
  refine ⟨accepted, titles.named runners ▸ named, ?_⟩
  unfold Maker.demands
  rw [length]
  refine (supplied.takes _ staged).affords.before (affords_nil m) keeps fun q l l' found _ => ?_
  rw [unused q l found]
  exact Nat.zero_le _

/-- **Every step keeps to what could have been afforded at the start.** -/
theorem Afforded.step (h : s.Afforded m) (orderly : s.Orderly) (leased : s.machine.Leased s.leases)
    (stocked : s.machine.Stocked) (titles : Titles m s.machine)
    (keeps : Keeps Ledger.Continues m s.machine)
    (unused : ∀ q l, m.ledger? q = some l → l.used = 0) (step : s.Step s') : s'.Afforded m := by
  refine ⟨fun maker mem => ?_, fun o mem => ?_, fun pair mem => ?_⟩
  · rcases step.mem_makers mem with old | ⟨-, run⟩
    · exact h.makers maker old
    · exact affordable_of_create titles keeps unused run
  · rcases step.mem_orders mem with old | ⟨mem, -, -, run⟩
    · exact h.orders o old
    · have made := orderly.made o.maker mem
      obtain ⟨all, -, shares, dispatched⟩ :=
        (Hasher.meets_hash_takes made.ledgers).goal_of_reaches run
      have affords := dispatched.takes.affords
      rw [shares, Hasher.demands_shares made.runners made.algorithm] at affords
      refine ⟨h.makers _ mem, affords.before (h.makers _ mem).affords keeps ?_⟩
      intro q l l' found found'
      rw [unused q l found, Nat.zero_add]
      exact orderly.demands_le leased stocked mem found'
  · rcases step.mem_joined mem with old | ⟨mem, -⟩
    · exact h.joined pair old
    · exact h.orders _ mem

/-- **Whatever was made in traffic could have been made at the start**, when nothing was in use. -/
theorem Traffic.afforded {t : Trace} (run : Trace.Reaches .start t)
    (none : t.machine.memories = []) (traffic : Traffic t.machine s) : s.Afforded t.machine := by
  have audited := Trace.audited_of_reaches run
  induction traffic with
  | opened => exact ⟨List.forall_mem_nil _, List.forall_mem_nil _, List.forall_mem_nil _⟩
  | step traffic step ih =>
    exact ih.step traffic.orderly (traffic.leased run none) (traffic.stocked run none)
      (traffic.along taking_titles titles_addHandle titles_dropHandle titles_allocate) traffic.keeps
      (fun q l => audited.unused none) step

end Desk

end BatchDigest
