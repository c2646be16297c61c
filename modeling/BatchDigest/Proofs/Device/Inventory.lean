import BatchDigest.Proofs.Device.Demand
import BatchDigest.Proofs.Device.Lease
import Mathlib.Data.List.Sort

/-!
# What is live

In a machine that is in stock and whose memories are leased, the live entries of a ledger are those
of the leased memories, no more and no fewer (`Leased.mem_live_iff`). So the ledgers can be told
from the leases: machines with the same leases have the same live entries (`Leased.live_eq`), and where
the leased memories are known with what was asked for, so are the statistics
(`Leased.liveAllocations_eq`, `Leased.liveBytes_eq`).
-/

namespace BatchDigest

/-- Ledgers keep their entries in order, so that they are told by what is on them. -/
theorem Ledger.Balanced.live_eq {l l' : Ledger} (balanced : l.Balanced) (balanced' : l'.Balanced)
    (same : ∀ entry, entry ∈ l.live ↔ entry ∈ l'.live) : l.live = l'.live := by
  have : Std.Irrefl fun a b : Allotment => a.id < b.id := ⟨fun a => Nat.lt_irrefl a.id⟩
  have : Std.Antisymm fun a b : Allotment => a.id < b.id :=
    ⟨fun _ _ lt gt => absurd gt (Nat.lt_asymm lt)⟩
  exact balanced.ordered.eq_of_mem_iff balanced'.ordered same

theorem Ledger.Balanced.nodup {l : Ledger} (balanced : l.Balanced) : l.live.Nodup :=
  balanced.ordered.imp fun lt same => absurd (congrArg Allotment.id same) (Nat.ne_of_lt lt)

/-- A memory, with what was asked for. -/
structure Holding where
  memory : MemoryId
  demand : Demand
deriving DecidableEq

/-- The lease of a memory that no job uses. -/
def Holding.lease (holding : Holding) : Lease :=
  ⟨some holding.memory, [], []⟩

/-- What is held on a queue. -/
def Holding.on (holdings : List Holding) (q : QueueId) : List Holding :=
  holdings.filter (·.demand.queue = q)

theorem Holding.on_append (first second : List Holding) (q : QueueId) :
    on (first ++ second) q = on first q ++ on second q :=
  List.filter_append _ _

theorem Holding.mem_on {holdings : List Holding} {q : QueueId} {h : Holding} :
    h ∈ on holdings q ↔ h ∈ holdings ∧ h.demand.queue = q := by
  simp [on]

namespace Machine

variable {m n : Machine} {q : QueueId} {id : MemoryId} {leases : List Lease} {l l' : Ledger}
  {entry : Allotment} {holdings : List Holding}

theorem Leased.isSome_memory? (leased : m.Leased leases) {lease : Lease} (mem : lease ∈ leases)
    (same : lease.memory = some id) : (m.memory? id).isSome := by
  have pos := leased.owned.pos mem same
  unfold owners at pos
  cases found : m.memory? id with
  | none => simp [found] at pos
  | some memory => rfl

/-- The memory of a live entry tells the entry. -/
theorem Stocked.allotment_mem (stocked : m.Stocked) (found : m.ledger? q = some l) {memory : Memory}
    (here : m.memory? id = some memory) (same : memory.queue = q) (live : m.isLive id) :
    memory.allotment ∈ l.live := by
  have place : m.place? id = some (memory.queue, memory.allocation) := by
    unfold place?
    rw [here]
    rfl
  obtain ⟨_, l', entered, found', listed⟩ := isLive_iff.1 live
  rw [place] at entered
  cases entered
  rw [same, found] at found'
  cases found'
  obtain ⟨entry, mem, number⟩ := List.any_eq_true.1 listed
  have number : entry.id = memory.allocation := by simpa using number
  -- The entry belongs to a memory in the same place, which can only be this one.
  obtain ⟨other, memory', there, same', rfl⟩ := stocked.listed q l found entry mem
  have place' : m.place? other = some (memory.queue, memory.allocation) := by
    unfold place?
    rw [there, ← number, same, ← same']
    rfl
  have one := stocked.booked.apart id other _ place place'
  subst one
  rw [here] at there
  cases there
  exact mem

/-- An entry is that of a leased memory on a queue. -/
def Lists (m : Machine) (leases : List Lease) (q : QueueId) (entry : Allotment) : Prop :=
  ∃ lease ∈ leases, ∃ id memory, lease.memory = some id ∧ m.memory? id = some memory ∧
    memory.queue = q ∧ memory.allotment = entry

/-- **What is live is what is leased.** -/
theorem Leased.mem_live_iff (leased : m.Leased leases) (stocked : m.Stocked)
    (found : m.ledger? q = some l) : entry ∈ l.live ↔ m.Lists leases q entry := by
  constructor
  · intro mem
    obtain ⟨id, memory, here, rfl, rfl⟩ := stocked.listed q l found entry mem
    have live : l.isLive memory.allocation :=
      List.any_eq_true.2 ⟨_, mem, beq_self_eq_true _⟩
    have pos := stocked.owned id memory l here found live
    have owners : m.owners id = memory.owners := by
      unfold Machine.owners
      rw [here]
      rfl
    rw [← owners, leased.owned id] at pos
    obtain ⟨lease, mem', same⟩ := List.mem_map.1 (List.count_pos_iff.1 pos)
    exact ⟨lease, mem', id, memory, same, here, rfl, rfl⟩
  · rintro ⟨lease, mem, id, memory, same, here, on, rfl⟩
    exact stocked.allotment_mem found here on (leased.covered.live lease mem id same)

/-- Entries do not depend on how many owners their memories have. -/
theorem Keeps.lists_iff {G : Ledger → Ledger → Prop} (keeps : Keeps G m n)
    (known : ∀ lease ∈ leases, ∀ id, lease.memory = some id → (m.memory? id).isSome) :
    n.Lists leases q entry ↔ m.Lists leases q entry := by
  constructor
  · rintro ⟨lease, mem, id, memory, same, here, on, rfl⟩
    obtain ⟨before, there⟩ := Option.isSome_iff_exists.1 (known lease mem id same)
    obtain ⟨owners, after⟩ := keeps.memory id before there
    rw [here] at after
    cases after
    exact ⟨lease, mem, id, before, same, there, on, rfl⟩
  · rintro ⟨lease, mem, id, memory, same, there, on, rfl⟩
    obtain ⟨owners, here⟩ := keeps.memory id memory there
    exact ⟨lease, mem, id, _, same, here, on, rfl⟩

/-- What is live depends on the leases alone. -/
theorem Leased.live_eq {m' : Machine} {G : Ledger → Ledger → Prop} (leased : n.Leased leases)
    (leased' : m'.Leased leases) (stocked : n.Stocked) (stocked' : m'.Stocked) (keeps : Keeps G m n)
    (keeps' : Keeps G m m')
    (known : ∀ lease ∈ leases, ∀ id, lease.memory = some id → (m.memory? id).isSome)
    (found : n.ledger? q = some l) (found' : m'.ledger? q = some l') : l.live = l'.live := by
  refine (stocked.balanced q l found).live_eq (stocked'.balanced q l' found') fun entry => ?_
  rw [leased.mem_live_iff stocked found, leased'.mem_live_iff stocked' found',
    keeps.lists_iff known, keeps'.lists_iff known]

/-! ## Inventories -/

/-- The leased memories, each of them once, with what was asked for. -/
structure Inventory (m : Machine) (leases : List Lease) (holdings : List Holding) : Prop where
  stores : ∀ h ∈ holdings, m.Stores h.memory h.demand
  nodup : (holdings.map (·.memory)).Nodup
  leased : ∀ id, (∃ lease ∈ leases, lease.memory = some id) ↔ ∃ h ∈ holdings, h.memory = id

/-- The live entries are those of the memories in the inventory. -/
theorem Inventory.perm_live (inventory : m.Inventory leases holdings) (leased : m.Leased leases)
    (stocked : m.Stocked) (found : m.ledger? q = some l) : (l.live.map some).Perm
      ((Holding.on holdings q).map fun h => (m.memory? h.memory).map Memory.allotment) := by
  have entries : (l.live.map some).Nodup :=
    (stocked.balanced q l found).nodup.map (Option.some_injective _)
  have held : ∀ h ∈ Holding.on holdings q, ∃ memory, m.memory? h.memory = some memory ∧
      memory.queue = q := by
    intro h mem
    obtain ⟨inside, on⟩ := Holding.mem_on.1 mem
    obtain ⟨memory, here, queue, -⟩ := inventory.stores h inside
    exact ⟨memory, here, queue.trans on⟩
  refine (List.perm_ext_iff_of_nodup entries ?_).2 fun listed => ?_
  · -- Different memories on a queue have different entries.
    refine List.Nodup.map_on ?_ ((List.Nodup.of_map _ inventory.nodup).filter _)
    intro first mem second mem' same
    obtain ⟨memory, here, on⟩ := held first mem
    obtain ⟨memory', there, on'⟩ := held second mem'
    rw [here, there] at same
    have number : memory.allocation = memory'.allocation :=
      congrArg Allotment.id (Option.some.inj same)
    have place : m.place? first.memory = m.place? second.memory := by
      unfold place?
      rw [here, there, Option.map_some, Option.map_some, number, on, on']
    obtain ⟨entry, placed⟩ : ∃ entry, m.place? second.memory = some entry := by
      unfold place?
      rw [there]
      exact ⟨_, rfl⟩
    have one := stocked.booked.apart _ _ entry (place.trans placed) placed
    exact List.inj_on_of_nodup_map inventory.nodup (Holding.mem_on.1 mem).1
      (Holding.mem_on.1 mem').1 one
  · rw [List.mem_map, List.mem_map]
    constructor
    · rintro ⟨entry, mem, rfl⟩
      obtain ⟨lease, mem', id, memory, same, here, on, rfl⟩ :=
        (leased.mem_live_iff stocked found).1 mem
      obtain ⟨h, inside, rfl⟩ := (inventory.leased id).1 ⟨lease, mem', same⟩
      obtain ⟨memory', there, queue, -⟩ := inventory.stores h inside
      rw [here] at there
      cases there
      exact ⟨h, Holding.mem_on.2 ⟨inside, queue.symm.trans on⟩, by rw [here]; rfl⟩
    · rintro ⟨h, mem, rfl⟩
      obtain ⟨memory, here, on⟩ := held h mem
      obtain ⟨lease, mem', same⟩ := (inventory.leased h.memory).2 ⟨h, (Holding.mem_on.1 mem).1, rfl⟩
      refine ⟨memory.allotment, ?_, by rw [here]; rfl⟩
      exact stocked.allotment_mem found here on (leased.covered.live lease mem' _ same)

theorem Inventory.liveAllocations_eq (inventory : m.Inventory leases holdings)
    (leased : m.Leased leases) (stocked : m.Stocked) (found : m.ledger? q = some l) :
    l.stats.liveAllocations = (Holding.on holdings q).length := by
  rw [(stocked.balanced q l found).liveAllocations]
  simpa using (inventory.perm_live leased stocked found).length_eq

theorem Inventory.liveBytes_eq (inventory : m.Inventory leases holdings)
    (leased : m.Leased leases) (stocked : m.Stocked) (found : m.ledger? q = some l) :
    l.stats.liveBytes = ((Holding.on holdings q).map (·.demand.length)).sum := by
  have perm := inventory.perm_live leased stocked found
  have bytes := (perm.map fun listed => (listed.map Allotment.length).getD 0).sum_eq
  rw [List.map_map, List.map_map] at bytes
  rw [(stocked.balanced q l found).liveBytes]
  refine bytes.trans (congrArg List.sum (List.map_congr_left fun h mem => ?_))
  obtain ⟨memory, here, -, length⟩ := inventory.stores h (Holding.mem_on.1 mem).1
  rw [← length, Function.comp_apply, here]
  rfl

end Machine

end BatchDigest
