import BatchDigest.Proofs.Batch.Demands
import BatchDigest.Proofs.Batch.Results
import BatchDigest.Proofs.Batch.Traffic
import Mathlib.Data.List.Dedup
import Mathlib.Data.List.Flatten

/-!
# Conservation

At any moment of any traffic the ledgers hold what is on the desk: two memories for each share in
flight, the tables of each hasher once, for as long as the hasher or one of its shares is there, and
what the caller allocated for itself. Nothing is lost in a failed call, in a join or with a hasher,
in whatever order they come (`Desk.resources_conserved`).
-/

namespace BatchDigest

open Machine

/-! ## What is held -/

namespace Maker

/-- The length of the tables that a hasher stages on the queue of each runner. -/
def tablesLength (maker : Maker) : Nat :=
  ((maker.algorithm.tableBlob maker.key).toOption.getD []).length

/-- The tables of a station, if there are any. -/
def holding? (maker : Maker) (station : Station) : Option Holding :=
  station.tables.memory.map fun id => ⟨id, station.runner.queue, maker.tablesLength⟩

/-- A hasher is as it was made. -/
structure Made (maker : Maker) (m : Machine) : Prop where
  accepted : maker.algorithm.checkKey maker.key.length = .ok ()
  runners : maker.hasher.stations.map (·.runner) = maker.runners
  ledgers : ∀ station ∈ maker.hasher.stations, (m.ledger? station.runner.queue).isSome
  algorithm : ∀ station ∈ maker.hasher.stations, station.tables.algorithm = maker.algorithm
  supplied : ∀ station ∈ maker.hasher.stations, station.Supplied maker.tablesLength m
  distinct : (maker.hasher.stations.filterMap (·.tables.memory)).Nodup

theorem Made.keeps {maker : Maker} {m n : Machine} {G : Ledger → Ledger → Prop}
    (made : maker.Made m) (keeps : Keeps G m n) : maker.Made n := by
  refine ⟨made.accepted, made.runners, fun station mem => ?_, made.algorithm,
    fun station mem => (made.supplied station mem).keeps keeps, made.distinct⟩
  obtain ⟨l, found⟩ := Option.isSome_iff_exists.1 (made.ledgers station mem)
  obtain ⟨l', found', -⟩ := keeps.ledger _ l found
  rw [found']
  rfl

/-- What a call answers with is a hasher as it was made. -/
theorem made_of_create {a : Algorithm} {runners : List Runner} {key : Bytes} {h : Hasher}
    {m n : Machine} (held : ∀ r ∈ runners, 0 < m.handles r.queue)
    (run : Host.Reaches (Hasher.create a runners key, m) (.done (.ok h), n)) :
    Made ⟨a, runners, key, h⟩ n ∧ ∀ station ∈ h.stations, ∀ id,
      station.tables.memory = some id → m.memories.length ≤ id.index := by
  obtain ⟨-, supplied, -⟩ :=
    ((Hasher.meets_create_takes a runners key).goal_of_reaches run).1 h rfl
  have accepted := Hasher.accepted_of_create run
  obtain ⟨k, rfl, -, -, -, staged, -⟩ := Contract.exists_of_accepted accepted ⟨[], 0, ⟨0⟩, 0⟩ []
    m.queueName
  have length : tablesLength ⟨k.algorithm, runners, key, h⟩ = k.blob.length := by
    unfold tablesLength
    rw [staged]
    rfl
  obtain ⟨count, -, row⟩ := supplied.own
  refine ⟨⟨accepted, supplied.made, ?_, supplied.algorithm, ?_, ?_⟩, ?_⟩
  · intro station mem
    have inside : station.runner ∈ runners := by
      rw [← supplied.made]
      exact List.mem_map_of_mem mem
    obtain ⟨l, found⟩ := exists_ledger_of_handles (held _ inside)
    obtain ⟨l', found', -⟩ := (supplied.takes _ staged).keeps.ledger _ l found
    rw [found']
    rfl
  · rw [length]
    exact supplied.supplied _ staged
  · show (h.stations.filterMap (·.tables.memory)).Nodup
    rw [row]
    exact MemoryId.nodup_row _ _
  · intro station mem id here
    have inside : id ∈ h.stations.filterMap (·.tables.memory) :=
      List.mem_filterMap.2 ⟨station, mem, here⟩
    rw [row, MemoryId.mem_row] at inside
    exact inside.1

end Maker

namespace Order

/-- The shares of a batch, each with its item. -/
def pairs (o : Order) : List ((Station × Slice) × BatchItem) :=
  (o.maker.hasher.shares o.batch.count).zip o.handle.items

/-- The shares of a batch on a queue. -/
def pairsOn (o : Order) (q : QueueId) : List ((Station × Slice) × BatchItem) :=
  o.pairs.filter (·.1.1.runner.queue = q)

/-- The bytes that a share of so many records takes, for the records and for the digests. An input
of no bytes still takes one. -/
def shareBytes (o : Order) (count : Nat) : Nat :=
  max 1 (o.batch.recordLength * count) + o.maker.algorithm.digestSize * count

/-- The memories of a share. -/
def holdings (o : Order) (pair : (Station × Slice) × BatchItem) : List Holding :=
  [⟨pair.2.input, pair.1.1.runner.queue, max 1 (o.batch.recordLength * pair.1.2.count)⟩,
    ⟨pair.2.output, pair.1.1.runner.queue, o.maker.algorithm.digestSize * pair.1.2.count⟩]

/-- The tables that the shares of a batch still use. -/
def tables (o : Order) : List Holding :=
  o.pairs.filterMap fun pair => o.maker.holding? ⟨pair.1.1.runner, pair.2.tables⟩

/-- A batch is in flight as it was dispatched. -/
structure Filled (o : Order) (m : Machine) : Prop where
  made : o.maker.Made m
  length : o.handle.items.length = (o.maker.hasher.shares o.batch.count).length
  placed : ∀ pair ∈ o.pairs, o.batch.Placed m pair

theorem Filled.shares {o : Order} {m : Machine} (filled : o.Filled m) :
    o.pairs.map (·.1) = o.maker.hasher.shares o.batch.count :=
  List.map_fst_zip (Nat.le_of_eq filled.length.symm)

theorem Filled.items {o : Order} {m : Machine} (filled : o.Filled m) :
    o.pairs.map (·.2) = o.handle.items :=
  List.map_snd_zip (Nat.le_of_eq filled.length)

/-- Each share is of a station of its hasher. -/
theorem Filled.station {o : Order} {m : Machine} (filled : o.Filled m)
    {pair : (Station × Slice) × BatchItem} (mem : pair ∈ o.pairs) :
    pair.1.1 ∈ o.maker.hasher.stations := by
  have inside := List.mem_map_of_mem (f := fun pair => pair.1) mem
  rw [filled.shares] at inside
  exact (List.of_mem_zip (List.mem_filter.1 inside).1).1

theorem Filled.keeps {o : Order} {m n : Machine} {G : Ledger → Ledger → Prop} (filled : o.Filled m)
    (keeps : Keeps G m n) : o.Filled n :=
  ⟨filled.made.keeps keeps, filled.length,
    fun pair mem => (filled.placed pair mem).keeps keeps⟩

end Order

namespace Desk

/-- The tables that are staged, once each: those of the hashers and those of the shares in
flight. -/
def tables (s : Desk) : List Holding :=
  (s.makers.flatMap (fun maker => maker.hasher.stations.filterMap maker.holding?) ++
    s.orders.flatMap Order.tables).dedup

/-- All that is held. -/
def holdings (s : Desk) : List Holding :=
  s.orders.flatMap (fun o => o.pairs.flatMap o.holdings) ++ (s.tables ++ s.own)

/-- The memories that only one share or the caller uses. -/
def privates (s : Desk) : List MemoryId :=
  s.orders.flatMap (fun o => o.handle.items.flatMap BatchItem.own) ++ s.own.map (·.memory)

/-- Tables that a hasher or a share in flight uses. -/
def Stages (s : Desk) (id : MemoryId) : Prop :=
  (∃ maker ∈ s.makers, ∃ station ∈ maker.hasher.stations, station.tables.memory = some id) ∨
    ∃ o ∈ s.orders, ∃ item ∈ o.handle.items, item.tables.memory = some id

/-- Everything is as it was made, and memories that one user has are no other's. -/
structure Orderly (s : Desk) : Prop where
  made : ∀ maker ∈ s.makers, maker.Made s.machine
  filled : ∀ o ∈ s.orders, o.Filled s.machine
  stores : ∀ h ∈ s.own, s.machine.Stores h.memory h.demand
  nodup : s.privates.Nodup
  apart : ∀ id ∈ s.privates, ¬ s.Stages id

variable {s s' : Desk} {G : Ledger → Ledger → Prop} {id : MemoryId} {q : QueueId} {l : Ledger}

namespace Orderly

theorem known_of_private (h : s.Orderly) (mem : id ∈ s.privates) :
    id.index < s.machine.memories.length := by
  have stored : ∀ {d : Demand}, s.machine.Stores id d → id.index < s.machine.memories.length := by
    rintro d ⟨memory, found, -⟩
    exact (List.getElem?_eq_some_iff.1 found).1
  rcases List.mem_append.1 mem with mem | mem
  · obtain ⟨o, flying, mem⟩ := List.mem_flatMap.1 mem
    obtain ⟨item, inside, mem⟩ := List.mem_flatMap.1 mem
    rw [← (h.filled o flying).items] at inside
    obtain ⟨pair, there, rfl⟩ := List.mem_map.1 inside
    have placed := (h.filled o flying).placed pair there
    simp only [BatchItem.own, List.mem_cons, List.not_mem_nil, or_false] at mem
    rcases mem with rfl | rfl
    · exact stored placed.input
    · exact stored placed.output
  · obtain ⟨holding, mine, rfl⟩ := List.mem_map.1 mem
    exact stored (h.stores holding mine)

/-- Tables that are in use are those of a hasher as it was made. -/
theorem supplied_of_stages (h : s.Orderly) (staged : s.Stages id) :
    ∃ maker : Maker, ∃ station ∈ maker.hasher.stations, maker.Made s.machine ∧
      station.tables.memory = some id := by
  rcases staged with ⟨maker, mem, station, inside, here⟩ | ⟨o, flying, item, inside, here⟩
  · exact ⟨maker, station, inside, h.made maker mem, here⟩
  · have filled := h.filled o flying
    rw [← filled.items] at inside
    obtain ⟨pair, mem, rfl⟩ := List.mem_map.1 inside
    rw [(filled.placed pair mem).tables] at here
    exact ⟨o.maker, pair.1.1, filled.station mem, filled.made, here⟩

theorem known_of_stages (h : s.Orderly) (staged : s.Stages id) :
    id.index < s.machine.memories.length := by
  obtain ⟨maker, station, inside, made, here⟩ := h.supplied_of_stages staged
  obtain ⟨memory, found, -⟩ := (made.supplied station inside).stores id here
  exact (List.getElem?_eq_some_iff.1 found).1

/-- Order is kept where nothing comes to the desk. -/
theorem fewer (h : s.Orderly) (keeps : Keeps G s.machine s'.machine) (makers : s'.makers ⊆ s.makers)
    (orders : s'.orders.Sublist s.orders) (own : s'.own.Sublist s.own) : s'.Orderly := by
  have privates : s'.privates.Sublist s.privates :=
    (orders.flatMap _).append (own.map _)
  refine ⟨fun maker mem => (h.made maker (makers mem)).keeps keeps,
    fun o mem => (h.filled o (orders.subset mem)).keeps keeps,
    fun holding mem => keeps.stores (h.stores holding (own.subset mem)),
    h.nodup.sublist privates, fun id mem staged => h.apart id (privates.subset mem) ?_⟩
  rcases staged with ⟨maker, mem, rest⟩ | ⟨o, mem, rest⟩
  · exact .inl ⟨maker, makers mem, rest⟩
  · exact .inr ⟨o, orders.subset mem, rest⟩

/-- New memories are no other's. -/
theorem more (h : s.Orderly) (s' : Desk) {new : List MemoryId} (nodup : new.Nodup)
    (fresh : ∀ id ∈ new, s.machine.memories.length ≤ id.index)
    (perm : s'.privates.Perm (new ++ s.privates)) (stages : ∀ id, s'.Stages id → s.Stages id) :
    s'.privates.Nodup ∧ ∀ id ∈ s'.privates, ¬ s'.Stages id := by
  constructor
  · refine perm.nodup_iff.2 (List.nodup_append.2 ⟨nodup, h.nodup, ?_⟩)
    rintro id mem _ mem' rfl
    exact Nat.not_lt.2 (fresh id mem) (h.known_of_private mem')
  · intro id mem staged
    rcases List.mem_append.1 (perm.mem_iff.1 mem) with mem | mem
    · exact Nat.not_lt.2 (fresh id mem) (h.known_of_stages (stages id staged))
    · exact h.apart id mem (stages id staged)

/-- A batch that is dispatched is in flight as it was dispatched. -/
theorem hash (h : s.Orderly) {maker : Maker} (mem : maker ∈ s.makers) {b : Batch} {handle : Handle}
    {after : Machine}
    (run : Host.Reaches (maker.hasher.hash b, s.machine) (.done (.ok handle), after))
    (keeps : Keeps G s.machine after) :
    Orderly { s with machine := after, orders := s.orders ++ [⟨maker, b, handle⟩] } := by
  have made := h.made maker mem
  obtain ⟨all, items, shares, dispatched⟩ :=
    (Hasher.meets_hash_takes made.ledgers).goal_of_reaches run
  have pairs : Order.pairs ⟨maker, b, handle⟩ = all := by
    unfold Order.pairs
    rw [← shares, items, List.zip_map']
    exact List.map_id _
  have filled : Order.Filled ⟨maker, b, handle⟩ after := by
    refine ⟨made.keeps keeps, ?_, ?_⟩
    · rw [items, ← shares, List.length_map, List.length_map]
    · rw [pairs]
      exact dispatched.placed
  have row : handle.items.flatMap BatchItem.own =
      MemoryId.row s.machine.memories.length (2 * all.length) := by
    rw [items]
    exact dispatched.own
  have apart := h.more { s with machine := after, orders := s.orders ++ [⟨maker, b, handle⟩] }
    (MemoryId.nodup_row s.machine.memories.length (2 * all.length))
    (fun id mem => (MemoryId.mem_row.1 mem).1) ?_ ?_
  · refine ⟨fun maker mem => (h.made maker mem).keeps keeps, ?_,
      fun holding mem => keeps.stores (h.stores holding mem), apart.1, apart.2⟩
    intro o mem'
    rcases List.mem_append.1 mem' with old | last
    · exact (h.filled o old).keeps keeps
    · rw [List.mem_singleton.1 last]
      exact filled
  · rw [← row]
    unfold privates
    simp only [List.flatMap_append, List.flatMap_cons, List.flatMap_nil, List.append_nil,
      List.append_assoc]
    exact List.perm_append_comm_assoc _ _ _
  · rintro id (staged | ⟨o, mem', item, inside, here⟩)
    · exact .inl staged
    · rcases List.mem_append.1 mem' with old | last
      · exact .inr ⟨o, old, item, inside, here⟩
      · -- The shares of the new batch use the tables of its hasher.
        rw [List.mem_singleton.1 last] at inside
        have inside : item ∈ handle.items := inside
        rw [← filled.items] at inside
        obtain ⟨pair, mem', rfl⟩ := List.mem_map.1 inside
        rw [(filled.placed pair mem').tables] at here
        exact .inl ⟨maker, mem, pair.1.1, filled.station mem', here⟩

theorem allocate (h : s.Orderly) {kind : MemoryKind} {length : Nat}
    (made : (s.machine.allocate q kind length).1 = .ok id)
    (keeps : Keeps G s.machine (s.machine.allocate q kind length).2) :
    Orderly { s with machine := (s.machine.allocate q kind length).2,
                     own := s.own ++ [⟨id, q, length⟩] } := by
  obtain ⟨e, failed, -⟩ | ⟨l, -, -, made', memories, -⟩ := s.machine.allocate_books q kind length
  · rw [failed] at made
    cases made
  rw [made'] at made
  cases made
  have apart := h.more { s with machine := (s.machine.allocate q kind length).2,
                                own := s.own ++ [⟨⟨s.machine.memories.length⟩, q, length⟩] }
    (List.nodup_singleton (⟨s.machine.memories.length⟩ : MemoryId)) ?_ ?_ fun _ staged => staged
  · refine ⟨fun maker mem => (h.made maker mem).keeps keeps,
      fun o mem => (h.filled o mem).keeps keeps, ?_, apart.1, apart.2⟩
    intro holding mem
    rcases List.mem_append.1 mem with old | last
    · exact keeps.stores (h.stores holding old)
    · rw [List.mem_singleton.1 last]
      exact ⟨_, (memory?_of_append memories).1, rfl, rfl⟩
  · intro id mem
    rw [List.mem_singleton.1 mem]
  · unfold privates
    rw [List.map_append, ← List.append_assoc]
    exact List.perm_append_singleton _ _

/-- **Every step keeps the desk in order.** -/
theorem step (h : s.Orderly) (step : s.Step s') : s'.Orderly := by
  have keeps := step.keeps
  cases step with
  | worker | refuse | fail | rejoin | leave =>
    exact h.fewer keeps (fun _ => id) (.refl _) (.refl _)
  | join flying =>
    refine h.fewer keeps (fun _ => id) ?_ (.refl _)
    rw [flying]
    exact (List.sublist_cons_self _ _).append_left _
  | part there =>
    refine h.fewer keeps ?_ (.refl _) (.refl _)
    rw [there]
    exact ((List.sublist_cons_self _ _).append_left _).subset
  | release mine =>
    refine h.fewer keeps (fun _ => id) (.refl _) ?_
    rw [mine]
    exact (List.sublist_cons_self _ _).append_left _
  | create lent run =>
    obtain ⟨made, fresh⟩ := Maker.made_of_create
      (fun r mem => Nat.lt_of_le_of_lt (Nat.zero_le _) (lent r mem)) run
    refine ⟨?_, fun o mem => (h.filled o mem).keeps keeps,
      fun holding mem => keeps.stores (h.stores holding mem), h.nodup, fun id mem staged => ?_⟩
    · intro maker mem
      rcases List.mem_append.1 mem with old | last
      · exact (h.made maker old).keeps keeps
      · rw [List.mem_singleton.1 last]
        exact made
    · rcases staged with ⟨maker, mem', station, inside, here⟩ | flying
      · rcases List.mem_append.1 mem' with old | last
        · exact h.apart id mem (.inl ⟨maker, old, station, inside, here⟩)
        · -- The tables of the new hasher are new, and this memory is not.
          rw [List.mem_singleton.1 last] at inside
          exact Nat.not_lt.2 (fresh station inside id here) (h.known_of_private mem)
      · exact h.apart id mem (.inr flying)
  | hash mem _ _ run => exact h.hash mem run keeps
  | allocate made => exact h.allocate made keeps

/-- Tables of one hasher or another are where its station is. -/
theorem stores_tables (h : s.Orderly) {holding : Holding} (mem : holding ∈ s.tables) :
    s.machine.Stores holding.memory holding.demand := by
  have stored : ∀ {maker : Maker} {station : Station}, maker.Made s.machine →
      station ∈ maker.hasher.stations → maker.holding? station = some holding →
      s.machine.Stores holding.memory holding.demand := by
    intro maker station made inside held
    obtain ⟨id, here, rfl⟩ := Option.map_eq_some_iff.1 held
    exact (made.supplied station inside).stores id here
  rcases List.mem_append.1 (List.mem_dedup.1 mem) with mem | mem
  · obtain ⟨maker, there, mem⟩ := List.mem_flatMap.1 mem
    obtain ⟨station, inside, held⟩ := List.mem_filterMap.1 mem
    exact stored (h.made maker there) inside held
  · obtain ⟨o, flying, mem⟩ := List.mem_flatMap.1 mem
    obtain ⟨pair, inside, held⟩ := List.mem_filterMap.1 mem
    have filled := h.filled o flying
    rw [(filled.placed pair inside).tables] at held
    exact stored filled.made (filled.station inside) held

theorem stages_iff (h : s.Orderly) : s.Stages id ↔ ∃ holding ∈ s.tables, holding.memory = id := by
  constructor
  · rintro (⟨maker, mem, station, inside, here⟩ | ⟨o, flying, item, inside, here⟩)
    · refine ⟨⟨id, station.runner.queue, maker.tablesLength⟩, List.mem_dedup.2
        (List.mem_append_left _ (List.mem_flatMap.2 ⟨maker, mem, List.mem_filterMap.2
          ⟨station, inside, ?_⟩⟩)), rfl⟩
      rw [Maker.holding?, here]
      rfl
    · rw [← (h.filled o flying).items] at inside
      obtain ⟨pair, mem, rfl⟩ := List.mem_map.1 inside
      refine ⟨⟨id, pair.1.1.runner.queue, o.maker.tablesLength⟩, List.mem_dedup.2
        (List.mem_append_right _ (List.mem_flatMap.2 ⟨o, flying, List.mem_filterMap.2
          ⟨pair, mem, ?_⟩⟩)), rfl⟩
      rw [Maker.holding?, here]
      rfl
  · rintro ⟨holding, mem, rfl⟩
    rcases List.mem_append.1 (List.mem_dedup.1 mem) with mem | mem
    · obtain ⟨maker, there, mem⟩ := List.mem_flatMap.1 mem
      obtain ⟨station, inside, held⟩ := List.mem_filterMap.1 mem
      obtain ⟨id, here, rfl⟩ := Option.map_eq_some_iff.1 held
      exact .inl ⟨maker, there, station, inside, here⟩
    · obtain ⟨o, flying, mem⟩ := List.mem_flatMap.1 mem
      obtain ⟨pair, inside, held⟩ := List.mem_filterMap.1 mem
      obtain ⟨id, here, rfl⟩ := Option.map_eq_some_iff.1 held
      refine .inr ⟨o, flying, pair.2, ?_, here⟩
      rw [← (h.filled o flying).items]
      exact List.mem_map_of_mem inside

/-- The memories of the shares in flight. -/
theorem memories_orders (h : s.Orderly) :
    (s.orders.flatMap fun o => o.pairs.flatMap o.holdings).map (·.memory) =
      s.orders.flatMap fun o => o.handle.items.flatMap BatchItem.own := by
  rw [List.map_flatMap]
  refine List.flatMap_congr fun o flying => ?_
  rw [← (h.filled o flying).items, List.map_flatMap, List.flatMap_map]
  rfl

/-- What is leased is what somebody uses alone, and the tables. -/
theorem leased_iff : (∃ lease ∈ s.leases, lease.memory = some id) ↔
    id ∈ s.privates ∨ s.Stages id := by
  constructor
  · rintro ⟨lease, mem, same⟩
    rcases List.mem_append.1 mem with mem | mem
    · obtain ⟨maker, there, mem⟩ := List.mem_flatMap.1 mem
      obtain ⟨station, inside, rfl⟩ := List.mem_map.1 mem
      exact .inr (.inl ⟨maker, there, station, inside, same⟩)
    · rcases List.mem_append.1 mem with mem | mem
      · obtain ⟨o, flying, mem⟩ := List.mem_flatMap.1 mem
        obtain ⟨item, inside, mem⟩ := List.mem_flatMap.1 mem
        have private' : id ∈ item.own → id ∈ s.privates := fun mem =>
          List.mem_append_left _ (List.mem_flatMap.2 ⟨o, flying, List.mem_flatMap.2
            ⟨item, inside, mem⟩⟩)
        simp only [BatchItem.leases, List.mem_cons, List.not_mem_nil, or_false] at mem
        rcases mem with rfl | rfl | rfl
        · cases same
          exact .inl (private' List.mem_cons_self)
        · cases same
          exact .inl (private' (List.mem_cons_of_mem _ List.mem_cons_self))
        · exact .inr (.inr ⟨o, flying, item, inside, same⟩)
      · obtain ⟨holding, mine, rfl⟩ := List.mem_map.1 mem
        cases same
        exact .inl (List.mem_append_right _ (List.mem_map_of_mem mine))
  · have order : ∀ o ∈ s.orders, ∀ item ∈ o.handle.items, ∀ lease ∈ item.leases,
        lease ∈ s.leases := fun o flying item inside lease mem =>
      List.mem_append_right _ (List.mem_append_left _ (List.mem_flatMap.2
        ⟨o, flying, List.mem_flatMap.2 ⟨item, inside, mem⟩⟩))
    rintro (mem | ⟨maker, there, station, inside, here⟩ | ⟨o, flying, item, inside, here⟩)
    · rcases List.mem_append.1 mem with mem | mem
      · obtain ⟨o, flying, mem⟩ := List.mem_flatMap.1 mem
        obtain ⟨item, inside, mem⟩ := List.mem_flatMap.1 mem
        have order := order o flying item inside
        simp only [BatchItem.leases, List.forall_mem_cons] at order
        simp only [BatchItem.own, List.mem_cons, List.not_mem_nil, or_false] at mem
        rcases mem with rfl | rfl
        · exact ⟨_, order.1, rfl⟩
        · exact ⟨_, order.2.1, rfl⟩
      · obtain ⟨holding, mine, rfl⟩ := List.mem_map.1 mem
        exact ⟨holding.lease, List.mem_append_right _ (List.mem_append_right _
          (List.mem_map_of_mem mine)), rfl⟩
    · exact ⟨station.tables.lease [], List.mem_append_left _ (List.mem_flatMap.2
        ⟨maker, there, List.mem_map_of_mem inside⟩), here⟩
    · have order := order o flying item inside
      simp only [BatchItem.leases, List.forall_mem_cons] at order
      exact ⟨_, order.2.2.1, here⟩

/-- **What is held is what is leased, each memory once.** -/
theorem inventory (h : s.Orderly) : s.machine.Inventory s.leases s.holdings := by
  refine ⟨?stores, ?nodup, ?leased⟩
  case stores =>
    intro holding mem
    rcases List.mem_append.1 mem with mem | mem
    · obtain ⟨o, flying, mem⟩ := List.mem_flatMap.1 mem
      obtain ⟨pair, inside, mem⟩ := List.mem_flatMap.1 mem
      have filled := h.filled o flying
      have placed := filled.placed pair inside
      have output := placed.output
      rw [filled.made.algorithm _ (filled.station inside)] at output
      simp only [Order.holdings, List.mem_cons, List.not_mem_nil, or_false] at mem
      rcases mem with rfl | rfl
      · exact placed.input
      · exact output
    · rcases List.mem_append.1 mem with mem | mem
      · exact h.stores_tables mem
      · exact h.stores holding mem
  case nodup =>
    unfold holdings
    rw [List.map_append, List.map_append, h.memories_orders]
    refine (List.perm_append_comm_assoc _ _ _).nodup_iff.2 (List.nodup_append.2 ⟨?_, h.nodup, ?_⟩)
    · -- Where a memory is tells what was asked for.
      refine List.Nodup.map_on ?_ (List.nodup_dedup _)
      rintro ⟨id, demand⟩ mem ⟨id', demand'⟩ mem' same
      cases same
      obtain ⟨memory, found, queue, length⟩ := h.stores_tables mem
      obtain ⟨memory', found', queue', length'⟩ := h.stores_tables mem'
      rw [found] at found'
      cases found'
      obtain ⟨q, length⟩ := demand
      obtain ⟨q', length'⟩ := demand'
      simp_all
    · rintro id mem _ mem' rfl
      obtain ⟨holding, staged, rfl⟩ := List.mem_map.1 mem
      exact h.apart _ mem' (h.stages_iff.2 ⟨holding, staged, rfl⟩)
  case leased =>
    intro id
    rw [leased_iff, h.stages_iff]
    unfold holdings privates
    rw [← h.memories_orders, List.mem_append, List.mem_map, List.mem_map]
    simp only [List.mem_append, or_and_right, exists_or]
    exact or_right_comm.trans or_assoc

end Orderly

/-! ## What ledgers tell -/

/-- How many shares are in flight on a queue. -/
def itemsOn (s : Desk) (q : QueueId) : Nat :=
  (s.orders.map fun o => (o.pairsOn q).length).sum

/-- The bytes that the shares in flight take on a queue. -/
def bytesOn (s : Desk) (q : QueueId) : Nat :=
  (s.orders.map fun o => ((o.pairsOn q).map fun pair => o.shareBytes pair.1.2.count).sum).sum

/-- What is held on a queue for a batch belongs to its shares there. -/
theorem on_holdings (o : Order) (q : QueueId) :
    Holding.on (o.pairs.flatMap o.holdings) q = (o.pairsOn q).flatMap o.holdings := by
  unfold Order.pairsOn
  induction o.pairs with
  | nil => rfl
  | cons pair rest ih =>
    rw [List.flatMap_cons, Holding.on_append, ih]
    by_cases same : pair.1.1.runner.queue = q
    · rw [List.filter_cons_of_pos (by simpa using same)]
      simp [Holding.on, Order.holdings, same]
    · rw [List.filter_cons_of_neg (by simpa using same)]
      simp [Holding.on, Order.holdings, same]

theorem length_holdings (o : Order) (q : QueueId) :
    (Holding.on (o.pairs.flatMap o.holdings) q).length = 2 * (o.pairsOn q).length := by
  rw [on_holdings]
  induction o.pairsOn q with
  | nil => rfl
  | cons pair rest ih =>
    rw [List.flatMap_cons, List.length_append, ih]
    show 2 + 2 * rest.length = 2 * (rest.length + 1)
    omega

theorem sum_holdings (o : Order) (q : QueueId) :
    ((Holding.on (o.pairs.flatMap o.holdings) q).map (·.demand.length)).sum =
      ((o.pairsOn q).map fun pair => o.shareBytes pair.1.2.count).sum := by
  rw [on_holdings]
  induction o.pairsOn q with
  | nil => rfl
  | cons pair rest ih =>
    rw [List.flatMap_cons, List.map_append, List.sum_append, ih]
    simp [Order.holdings, Order.shareBytes, Nat.add_assoc]

/-- All that is held for batches in flight. -/
theorem on_orders (orders : List Order) (q : QueueId) :
    let held := Holding.on (orders.flatMap fun o => o.pairs.flatMap o.holdings) q
    held.length = 2 * (orders.map fun o => (o.pairsOn q).length).sum ∧
      (held.map (·.demand.length)).sum =
        (orders.map fun o => ((o.pairsOn q).map fun pair => o.shareBytes pair.1.2.count).sum).sum := by
  induction orders with
  | nil => exact ⟨rfl, rfl⟩
  | cons o rest ih =>
    dsimp only at ih ⊢
    rw [List.flatMap_cons, Holding.on_append]
    simp only [List.length_append, List.map_append, List.sum_append, List.map_cons, List.sum_cons,
      length_holdings, sum_holdings]
    constructor
    · have count := ih.1
      omega
    · rw [ih.2]

/-- What the ledger of a queue tells when the caller has allocated nothing there. -/
structure Told (s : Desk) (q : QueueId) (l : Ledger) : Prop where
  /-- Two allocations for each share in flight, and one for all tables that are not empty. -/
  allocations : l.stats.liveAllocations = 2 * s.itemsOn q + (Holding.on s.tables q).length
  bytes : l.stats.liveBytes =
    s.bytesOn q + ((Holding.on s.tables q).map (·.demand.length)).sum
  /-- When everybody is gone, nothing is left. -/
  gone : s.makers = [] → s.orders = [] → l.stats.liveAllocations = 0 ∧ l.stats.liveBytes = 0 ∧
    l.stats.frees = l.stats.allocations

theorem Orderly.told (h : s.Orderly) (leased : s.machine.Leased s.leases)
    (stocked : s.machine.Stocked) (found : s.machine.ledger? q = some l)
    (none : Holding.on s.own q = []) : s.Told q l := by
  have number := h.inventory.liveAllocations_eq leased stocked found
  have bytes := h.inventory.liveBytes_eq leased stocked found
  obtain ⟨length, sum⟩ := on_orders s.orders q
  unfold holdings at number bytes
  rw [Holding.on_append, Holding.on_append, none, List.append_nil] at number bytes
  rw [List.length_append, length] at number
  rw [List.map_append, List.sum_append, sum] at bytes
  refine ⟨number, bytes, fun makers orders => ?_⟩
  have balanced := stocked.balanced q l found
  have turnover := balanced.turnover
  have live := balanced.liveAllocations
  simp only [tables, makers, orders, List.flatMap_nil, List.append_nil, List.dedup_nil,
    Holding.on, List.filter_nil, List.length_nil, List.map_nil, List.sum_nil] at number bytes
  exact ⟨number, bytes, by omega⟩

theorem Traffic.orderly {m : Machine} (traffic : Traffic m s) : s.Orderly := by
  induction traffic with
  | opened =>
    refine ⟨nofun, nofun, nofun, List.nodup_nil, fun id mem => nomatch mem⟩
  | step _ step ih => exact ih.step step

theorem Traffic.stocked {t : Trace} (run : Trace.Reaches .start t) (none : t.machine.memories = [])
    (traffic : Traffic t.machine s) : s.machine.Stocked := by
  induction traffic with
  | opened => exact (Trace.audited_of_reaches run).stocked none
  | step _ step ih => exact step.keeps.stocked ih

/-- However a handle is joined, the ledgers are the same then. -/
theorem ledger_join {before later : List Order} {o : Order}
    (flying : s.orders = before ++ o :: later) (leased : s.machine.Leased s.leases)
    (stocked : s.machine.Stocked) {answer answer' : Option (Except Error Unit)} {n n' : Machine}
    (joins : o.handle.Joins s.machine answer n) (joins' : o.handle.Joins s.machine answer' n')
    (found : s.machine.ledger? q = some l) : n.ledger? q = n'.ledger? q := by
  have keeps := joins.along (giving_keeps Ledger.course_returns)
  have keeps' := joins'.along (giving_keeps Ledger.course_returns)
  have left := (Step.join flying joins).leased leased
  have left' := (Step.join flying joins').leased leased
  have known : ∀ lease ∈ leases { s with machine := n, orders := before ++ later }, ∀ id,
      lease.memory = some id → (s.machine.memory? id).isSome := by
    intro lease mem id same
    refine leased.isSome_memory? (?_ : lease ∈ s.leases) same
    unfold leases at mem ⊢
    rw [flying]
    simp only [List.mem_append, List.flatMap_append, List.flatMap_cons] at mem ⊢
    tauto
  obtain ⟨l₁, found₁, history⟩ := keeps.ledger q l found
  obtain ⟨l₂, found₂, history'⟩ := keeps'.ledger q l found
  have stocked₁ := keeps.stocked stocked
  have stocked₂ := keeps'.stocked stocked
  have live := Leased.live_eq left left' stocked₁ stocked₂ keeps keeps' known found₁ found₂
  rw [found₁, found₂]
  refine congrArg some ((stocked₂.balanced q l₂ found₂).eq_of_live (stocked₁.balanced q l₁ found₁)
    ?_ live)
  exact Ledger.course_returns.trans history'.symm history

/-- **The ledgers hold what is on the desk, and nothing else.** However a handle is joined, what it
leaves is the same, and when it is joined again nothing changes. -/
theorem resources_conserved {t : Trace} (run : Trace.Reaches .start t)
    (none : t.machine.memories = []) (traffic : Traffic t.machine s) :
    (∀ maker ∈ s.makers, maker.Made s.machine) ∧ (∀ o ∈ s.orders, o.Filled s.machine) ∧
    (∀ q l, s.machine.ledger? q = some l → Holding.on s.own q = [] → s.Told q l) ∧
    (∀ before o later, s.orders = before ++ o :: later → ∀ answer answer' n n',
      o.handle.Joins s.machine answer n → o.handle.Joins s.machine answer' n' →
      ∀ q l, s.machine.ledger? q = some l → n.ledger? q = n'.ledger? q) ∧
    ∀ answer n, Handle.empty.Joins s.machine answer n →
      ∀ q, n.ledger? q = s.machine.ledger? q := by
  have orderly := traffic.orderly
  have leased := traffic.leased run none
  have stocked := traffic.stocked run none
  refine ⟨orderly.made, orderly.filled, ?_, ?_, ?_⟩
  · exact fun q l found absent => orderly.told leased stocked found absent
  · exact fun before o later flying answer answer' n n' joins joins' q l found =>
      ledger_join flying leased stocked joins joins' found
  · exact fun answer n joins q => (flow_sameBooks.evolves joins.of_empty).ledger q

/-! A hasher with tables goes while a batch of its is in flight. -/

private def queueWithOutput : Trace :=
  (Trace.start.call (.createQueue ⟨"left", .cpu, none⟩)).call (.createBuffer (Bytes.zeros 16))

private def onlyRunner : List Runner :=
  [⟨⟨0⟩, 1⟩]

private def oneRecord : Batch :=
  ⟨[1], 1, ⟨0⟩, 1⟩

/-- Whether the two memories of the share and the tables are live then. -/
private def leavesThreeMemories : Bool :=
  match (Hasher.create .md2 onlyRunner []).run queueWithOutput.machine with
  | some (.ok h, made) =>
    match (h.hash oneRecord).run made with
    | some (.ok _, hashed) =>
      match h.drop.run hashed with
      | some (_, after) =>
        made.contents.buffers.length == 1 && (after.stats ⟨0⟩).liveAllocations == 3
      | none => false
    | _ => false
  | _ => false

theorem resources_conserved_hasher_gone : ∃ s : Desk,
    Traffic queueWithOutput.machine s ∧ s.makers = [] ∧ s.orders.length = 1 ∧
    (s.machine.stats ⟨0⟩).liveAllocations = 3 ∧
    ∀ q l, s.machine.ledger? q = some l → Holding.on s.own q = [] → s.Told q l := by
  have run : Trace.Reaches .start queueWithOutput :=
    ((Trace.Reaches.refl _).step (.call _ (.createQueue _) trivial)).step
      (.call _ (.createBuffer _) trivial)
  have evaluated : leavesThreeMemories = true := by decide +kernel
  unfold leavesThreeMemories at evaluated
  split at evaluated
  next h made creation =>
    split at evaluated
    next handle hashed hashing =>
      split at evaluated
      next after parting =>
        rw [Bool.and_eq_true, beq_iff_eq, beq_iff_eq] at evaluated
        have found : made.Holds (.buffer oneRecord.output) := by
          show 0 < made.contents.buffers.length
          rw [evaluated.1]
          exact Nat.one_pos
        have lent : ∀ r ∈ onlyRunner, (opened queueWithOutput.machine).attached r.queue <
            queueWithOutput.machine.handles r.queue := by
          intro r mem
          rw [List.mem_singleton.1 mem]
          exact Nat.one_pos
        have traffic := Traffic.opened (m := queueWithOutput.machine)
        have traffic := traffic.step (.create lent (Host.reaches_of_run creation))
        have traffic := traffic.step
          (.hash List.mem_cons_self found (by decide) (Host.reaches_of_run hashing))
        have alone : [(⟨.md2, onlyRunner, [], h⟩ : Maker)] =
          [] ++ ⟨.md2, onlyRunner, [], h⟩ :: [] := rfl
        have traffic := traffic.step (.part alone (Host.reaches_of_run parting))
        exact ⟨_, traffic, rfl, rfl, evaluated.2, (resources_conserved run rfl traffic).2.2.1⟩
      next => cases evaluated
    next => cases evaluated
  next => cases evaluated

end Desk

end BatchDigest
