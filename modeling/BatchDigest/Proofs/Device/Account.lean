import BatchDigest.Proofs.Device.Balance
import BatchDigest.Proofs.Device.Live
import Mathlib.Data.List.Induction
import Mathlib.Data.List.Nodup

/-!
# The accounts of a queue

A client of a queue asks for memory, and lets memory go by releasing or dropping it, as often as it
likes. `Tab` is what it can write down for itself: which memories it was given and which of them it
still holds. `Tab.Agrees` says that the ledger of the queue has the same on its books. Every request
keeps it, so it holds after any run of requests, and `Machine.ledger_accounts` reads off it what the
statistics are worth.
-/

namespace BatchDigest

namespace Machine

variable {m : Machine} {q p : QueueId} {l : Ledger} {kind : MemoryKind} {length : Nat}
  {id other : MemoryId}

/-! ## Requests for memory -/

theorem ledger?_eq_some_iff : m.ledger? q = some l ↔
    ∃ queue, m.queue? q = some queue ∧ queue.ledger = l := by
  simp [ledger?]

theorem updateQueue_eq_self {queue : Queue} {change : Queue → Queue}
    (found : m.queue? q = some queue) (same : change queue = queue) :
    m.updateQueue q change = m := by
  have queues : m.queues.modify q.index change = m.queues := by
    refine List.ext_getElem? fun i => ?_
    rw [List.getElem?_modify]
    split
    next here =>
      subst here
      have listed : m.queues[q.index]? = some queue := found
      rw [listed, Option.map_eq_map, Option.map_some, same]
    next => simp
  unfold updateQueue
  rw [queues]

/-- A request that does not fit is refused, and the machine is what it was. -/
theorem allocate_refused (found : m.ledger? q = some l) (word : l.limit ≤ Size.largest)
    (misfit : ¬ l.Fits length) :
    m.allocate q kind length = (.error (l.refusal length), m) := by
  obtain ⟨queue, here, rfl⟩ := ledger?_eq_some_iff.1 found
  unfold allocate
  rw [here]
  dsimp only
  rw [Ledger.allocate_eq word, if_neg misfit]
  exact congrArg (Prod.mk _) (updateQueue_eq_self here rfl)

/-- A request that fits is granted, under the next identifier of the ledger. -/
theorem allocate_granted (found : m.ledger? q = some l) (word : l.limit ≤ Size.largest)
    (kind : MemoryKind) (fits : l.Fits length) :
    (m.allocate q kind length).1 = .ok ⟨m.memories.length⟩ ∧
      (∀ p, (m.allocate q kind length).2.ledger? p =
        if p = q then some (l.grown kind length) else m.ledger? p) ∧
      ∀ other, (m.allocate q kind length).2.memory? other =
        if other = ⟨m.memories.length⟩ then some ⟨q, l.nextId, kind, length, 1⟩
        else m.memory? other := by
  obtain ⟨queue, here, rfl⟩ := ledger?_eq_some_iff.1 found
  have granted : queue.ledger.allocate kind length =
      (.ok queue.ledger.nextId, queue.ledger.grown kind length) := by
    rw [Ledger.allocate_eq word, if_pos fits]
  have made : (m.allocate q kind length).1 = .ok ⟨m.memories.length⟩ := by
    unfold allocate
    rw [here]
    dsimp only
    rw [granted]
    rfl
  obtain ⟨_, allocation, given, memory⟩ := memory?_allocate here made
  rw [granted] at given
  cases given
  refine ⟨made, fun p => ?_, memory⟩
  rw [ledger?_allocate here, granted]

/-- Whether a request is granted, and what is reported otherwise. -/
theorem allocate_outcome (found : m.ledger? q = some l) (word : l.limit ≤ Size.largest)
    (kind : MemoryKind) (length : Nat) :
    ((∃ id, (m.allocate q kind length).1 = .ok id) ↔ l.Fits length) ∧
      ∀ e, (m.allocate q kind length).1 = .error e →
        (m.allocate q kind length).2 = m ∧ e = l.refusal length := by
  by_cases fits : l.Fits length
  · obtain ⟨made, -, -⟩ := allocate_granted found word kind fits
    rw [made]
    exact ⟨iff_of_true ⟨_, rfl⟩ fits, nofun⟩
  · rw [allocate_refused found word fits]
    refine ⟨iff_of_false nofun fits, ?_⟩
    rintro e ⟨⟩
    exact ⟨rfl, rfl⟩

/-- A request changes no other ledger. -/
theorem ledger?_allocate_other (ne : p ≠ q) (kind : MemoryKind) (length : Nat) :
    (m.allocate q kind length).2.ledger? p = m.ledger? p := by
  cases here : m.queue? q with
  | none =>
    unfold allocate
    rw [here]
  | some queue => rw [ledger?_allocate here, if_neg ne]

/-- A request makes one memory on its queue, or none. -/
theorem memory?_allocate_cases (m : Machine) (q : QueueId) (kind : MemoryKind) (length : Nat)
    {memory : Memory} (found : (m.allocate q kind length).2.memory? id = some memory) :
    m.memory? id = some memory ∨ memory.queue = q ∧ m.memory? id = none := by
  cases made : (m.allocate q kind length).1 with
  | error e =>
    unfold memory? at found ⊢
    rw [(allocate_error made).1] at found
    exact .inl found
  | ok new =>
    cases here : m.queue? q with
    | none =>
      unfold allocate at made
      rw [here] at made
      cases made
    | some queue =>
      obtain ⟨absent, allocation, -, memories⟩ := memory?_allocate here made
      rw [memories] at found
      split at found
      next same =>
        cases found
        exact .inr ⟨rfl, same ▸ absent⟩
      next => exact .inl found

theorem memory?_allocate_of_some {memory : Memory} (found : m.memory? id = some memory)
    (q : QueueId) (kind : MemoryKind) (length : Nat) :
    (m.allocate q kind length).2.memory? id = some memory := by
  cases made : (m.allocate q kind length).1 with
  | error e =>
    unfold memory? at found ⊢
    rw [(allocate_error made).1]
    exact found
  | ok new =>
    cases here : m.queue? q with
    | none =>
      unfold allocate at made
      rw [here] at made
      cases made
    | some queue =>
      obtain ⟨absent, allocation, -, memories⟩ := memory?_allocate here made
      rw [memories, if_neg, found]
      rintro rfl
      rw [absent] at found
      cases found

/-! ## Releases -/

theorem memory?_release (m : Machine) (id other : MemoryId) : (m.release id).memory? other =
    if other = id then (m.memory? other).map fun memory =>
      { memory with owners := memory.owners - 1 }
    else m.memory? other := by
  have owner : (m.dropOwner id).2.memory? other = _ := memory?_updateMemory m id other _
  unfold release
  dsimp only
  split
  · rw [← owner]
    unfold memory?
    rw [memories_giveBack]
  · exact owner

/-- The last owner of a memory takes its allocation off its ledger, and no other does. -/
theorem ledger?_release {memory : Memory} (found : m.memory? id = some memory) (p : QueueId) :
    (m.release id).ledger? p =
      if memory.owners = 1 ∧ p = memory.queue then (m.ledger? p).map (·.release memory.allocation)
      else m.ledger? p := by
  have last := m.dropOwner_last id
  have owners : m.owners id = memory.owners := by simp [owners, found]
  have entry : (m.dropOwner id).2.place? id = some (memory.queue, memory.allocation) := by
    unfold place?
    rw [show (m.dropOwner id).2.memory? id = _ from memory?_updateMemory m id id _, found]
    simp
  rw [owners] at last
  unfold release
  dsimp only
  by_cases one : memory.owners = 1
  · rw [if_pos (last.2 one), ledger?_giveBack entry]
    simp only [one, true_and]
    rfl
  · rw [if_neg (fun one' => one (last.1 one')), if_neg (fun both => one both.1)]
    rfl

/-- A memory that nobody owns is left alone. -/
theorem release_eq_self (unowned : m.owners id = 0) : m.release id = m := by
  have last : (m.dropOwner id).1 = false := by
    have last := m.dropOwner_last id
    rw [unowned] at last
    simpa using last
  have memories : m.memories.modify id.index
      (fun memory => { memory with owners := memory.owners - 1 }) = m.memories := by
    refine List.ext_getElem? fun i => ?_
    rw [List.getElem?_modify]
    split
    next here =>
      subst here
      have none : ∀ memory, m.memories[id.index]? = some memory → memory.owners = 0 := by
        intro memory listed
        have found : m.memory? id = some memory := listed
        simpa [owners, found] using unowned
      cases listed : m.memories[id.index]? with
      | none => rfl
      | some memory =>
        have zero := none memory listed
        cases memory
        cases zero
        rfl
    next => simp
  unfold release
  dsimp only
  rw [if_neg (by rw [last]; nofun)]
  unfold dropOwner updateMemory
  rw [memories]

end Machine

/-! ## What a client writes down -/

/-- What a client does with device memory. It may let a memory go that it has let go before. -/
inductive Request where
  | allocate (queue : QueueId) (kind : MemoryKind) (length : Nat)
  | release (memory : MemoryId)
  | drop (memory : MemoryId)

/-- A memory that a client was given. -/
structure Grant where
  memory : MemoryId
  /-- The identifier on the ledger, which the client can look up. -/
  id : Nat
  kind : MemoryKind
  length : Nat
deriving DecidableEq

/-- The entry of a grant on the ledger. -/
def Grant.allotment (g : Grant) : Allotment :=
  ⟨g.id, g.kind, g.length⟩

/-- What a client of a queue has written down, next to the machine it works with. -/
structure Tab where
  machine : Machine
  /-- Every memory that the client was given on the queue, first come first. -/
  made : List Grant
  /-- Those that it has neither released nor dropped since. -/
  held : List Grant

namespace Tab

variable {m : Machine} {q : QueueId} {t : Tab} {l : Ledger}

/-- The tab after a memory was let go. -/
def letGo (t : Tab) (memory : MemoryId) : Tab :=
  ⟨t.machine.release memory, t.made, t.held.filter (·.memory != memory)⟩

/-- The tab for a queue `q` after memory was asked for. -/
def ask (q : QueueId) (t : Tab) (queue : QueueId) (kind : MemoryKind) (length : Nat) : Tab :=
  match t.machine.allocate queue kind length with
  | (.error _, machine) => { t with machine }
  | (.ok memory, machine) =>
    if queue = q then
      let id := ((machine.memory? memory).map (·.allocation)).getD 0
      let grant := ⟨memory, id, kind, length⟩
      ⟨machine, t.made ++ [grant], t.held ++ [grant]⟩
    else { t with machine }

/-- The tab for a queue after a request. -/
def step (q : QueueId) (t : Tab) : Request → Tab
  | .allocate queue kind length => t.ask q queue kind length
  | .release memory => t.letGo memory
  | .drop memory => t.letGo memory

/-- The tab for a queue after requests to a machine that had none before. -/
def after (q : QueueId) (m : Machine) (requests : List Request) : Tab :=
  requests.foldl (step q) ⟨m, [], []⟩

theorem after_concat (q : QueueId) (m : Machine) (requests : List Request) (r : Request) :
    after q m (requests ++ [r]) = (after q m requests).step q r := by
  unfold after
  rw [List.foldl_append]
  rfl

/-- The bytes that the client holds. -/
def bytes (t : Tab) : Nat :=
  (t.held.map (·.length)).sum

/-- The ledger has on its books what the client has written down. -/
structure Agrees (q : QueueId) (t : Tab) (l : Ledger) : Prop where
  found : t.machine.ledger? q = some l
  balanced : l.Balanced
  live : l.live = t.held.map Grant.allotment
  nextId : l.nextId = t.made.length + 1
  ids : t.made.map (·.id) = List.range' 1 t.made.length
  names : (t.made.map (·.memory)).Nodup
  held : t.held.Sublist t.made
  /-- A memory has an owner as long as the client holds it. -/
  record : ∀ g ∈ t.made, t.machine.memory? g.memory =
    some ⟨q, g.id, g.kind, g.length, if g ∈ t.held then 1 else 0⟩
  /-- Nobody else has memory on the queue. -/
  made : ∀ id memory, t.machine.memory? id = some memory → memory.queue = q →
    ∃ g ∈ t.made, g.memory = id

theorem agrees_start {device : String} {capacity : Option Nat}
    (fresh : m.ledger? q = some (.empty device capacity))
    (unused : ∀ memory ∈ m.memories, memory.queue ≠ q) :
    Agrees q ⟨m, [], []⟩ (.empty device capacity) := by
  refine ⟨fresh, Ledger.balanced_empty _ _, rfl, rfl, rfl, List.nodup_nil, .slnil, nofun, ?_⟩
  intro id memory found here
  exact absurd here (unused memory (List.mem_of_getElem? found))

namespace Agrees

theorem bytes_eq (h : t.Agrees q l) : t.bytes = Ledger.bytes l.live := by
  unfold bytes Ledger.bytes
  rw [h.live, List.map_map]
  rfl

/-- Grants are told apart by their memories, and by their identifiers as well. -/
theorem eq_of_memory (h : t.Agrees q l) {g other : Grant} (mem : g ∈ t.made) (mem' : other ∈ t.made)
    (same : g.memory = other.memory) : g = other :=
  List.inj_on_of_nodup_map h.names mem mem' same

theorem eq_of_id (h : t.Agrees q l) {g other : Grant} (mem : g ∈ t.made) (mem' : other ∈ t.made)
    (same : g.id = other.id) : g = other := by
  have nodup : (t.made.map (·.id)).Nodup := by
    rw [h.ids]
    exact List.nodup_range'
  exact List.inj_on_of_nodup_map nodup mem mem' same

/-- What goes on elsewhere is nothing to the books of the queue. -/
theorem elsewhere (h : t.Agrees q l) {after : Machine}
    (ledger : after.ledger? q = t.machine.ledger? q)
    (record : ∀ g ∈ t.made, after.memory? g.memory = t.machine.memory? g.memory)
    (made : ∀ id memory, after.memory? id = some memory → memory.queue = q →
      ∃ g ∈ t.made, g.memory = id) :
    Agrees q { t with machine := after } l :=
  ⟨ledger.trans h.found, h.balanced, h.live, h.nextId, h.ids, h.names, h.held,
    fun g mem => (record g mem).trans (h.record g mem), made⟩

/-- A grant on the queue enters the ledger and the tab at once. -/
theorem granted (h : t.Agrees q l) (word : l.limit ≤ Size.largest) {kind : MemoryKind}
    {length : Nat} (fits : l.Fits length) :
    Agrees q (t.ask q q kind length) (l.grown kind length) := by
  obtain ⟨made, ledgers, memories⟩ := Machine.allocate_granted h.found word kind fits
  generalize allocated : t.machine.allocate q kind length = result at made ledgers memories
  obtain ⟨outcome, machine⟩ := result
  cases made
  have fresh : ∀ g ∈ t.made, g.memory ≠ ⟨t.machine.memories.length⟩ := by
    intro g mem same
    have listed := (List.getElem?_eq_some_iff.1 (h.record g mem)).1
    rw [same] at listed
    exact Nat.lt_irrefl _ listed
  have new : ∀ g ∈ t.made, g ≠ ⟨⟨t.machine.memories.length⟩, l.nextId, kind, length⟩ := by
    rintro g mem rfl
    exact fresh _ mem rfl
  have step : t.ask q q kind length = ⟨machine,
      t.made ++ [⟨⟨t.machine.memories.length⟩, l.nextId, kind, length⟩],
      t.held ++ [⟨⟨t.machine.memories.length⟩, l.nextId, kind, length⟩]⟩ := by
    simp only [ask, allocated, if_pos, memories, Option.map_some, Option.getD_some]
  rw [step]
  constructor
  case found => exact (ledgers q).trans (if_pos rfl)
  case balanced => exact h.balanced.grown kind fits.2.2
  case live => rw [Ledger.live_grown, h.live, List.map_append]; rfl
  case nextId =>
    rw [List.length_append, List.length_singleton, ← h.nextId]
    rfl
  case ids =>
    rw [List.map_append, h.ids, List.length_append, List.length_singleton, List.range'_concat,
      h.nextId]
    simp [Nat.add_comm]
  case names =>
    rw [List.map_append]
    refine List.nodup_append.2 ⟨h.names, by simp, ?_⟩
    intro id mem _ last
    obtain ⟨g, inside, rfl⟩ := List.mem_map.1 mem
    rw [List.mem_singleton.1 last]
    exact fresh g inside
  case held => exact h.held.append (List.Sublist.refl _)
  case record =>
    intro g mem
    rcases List.mem_append.1 mem with old | last
    · have still : g ∈ t.held ++ [⟨⟨t.machine.memories.length⟩, l.nextId, kind, length⟩] ↔
          g ∈ t.held := by simp [new g old]
      rw [memories, if_neg (fresh g old), h.record g old]
      simp only [still]
    · rw [List.mem_singleton.1 last, memories, if_pos rfl]
      simp
  case made =>
    intro id memory found here
    rw [memories] at found
    split at found
    next same => exact ⟨_, List.mem_append_right _ List.mem_cons_self, same.symm⟩
    next =>
      obtain ⟨g, mem, same⟩ := h.made id memory found here
      exact ⟨g, List.mem_append_left _ mem, same⟩

/-- A grant that the client still holds comes off the ledger and the tab at once. -/
theorem returned (h : t.Agrees q l) {g : Grant} (held : g ∈ t.held) :
    Agrees q (t.letGo g.memory) (l.shrunk g.allotment) := by
  have mem := h.held.subset held
  have record := h.record g mem
  rw [if_pos held] at record
  have entered : g.allotment ∈ l.live := by
    rw [h.live]
    exact List.mem_map_of_mem held
  have others : ∀ other ∈ t.held, other.id ≠ g.id ↔ other.memory ≠ g.memory := by
    intro other inside
    have mem' := h.held.subset inside
    exact not_congr ⟨fun same => congrArg _ (h.eq_of_id mem' mem same),
      fun same => congrArg _ (h.eq_of_memory mem' mem same)⟩
  constructor
  case found =>
    show (t.machine.release g.memory).ledger? q = _
    rw [Machine.ledger?_release record, if_pos ⟨rfl, rfl⟩, h.found]
    exact congrArg some (h.balanced.release_eq entered)
  case balanced => exact h.balanced.shrunk entered
  case live =>
    show l.live.filter (·.id != g.id) = (t.held.filter (·.memory != g.memory)).map Grant.allotment
    rw [h.live, List.filter_map]
    refine congrArg _ (List.filter_congr fun other inside => ?_)
    rw [Bool.eq_iff_iff]
    simpa only [Function.comp_apply, bne_iff_ne, Grant.allotment] using others other inside
  case nextId => exact h.nextId
  case ids => exact h.ids
  case names => exact h.names
  case held => exact List.filter_sublist.trans h.held
  case record =>
    intro other inside
    show (t.machine.release g.memory).memory? other.memory = _
    rw [Machine.memory?_release, h.record other inside]
    by_cases same : other.memory = g.memory
    · rw [h.eq_of_memory inside mem same]
      simp [letGo, held]
    · simp [letGo, same]
  case made =>
    intro id memory found here
    have found : (t.machine.release g.memory).memory? id = some memory := found
    rw [Machine.memory?_release] at found
    split at found
    next same => exact ⟨g, mem, same.symm⟩
    next => exact h.made id memory found here

/-- Letting a memory go that the client does not hold on the queue leaves the books alone. -/
theorem letGo_other (h : t.Agrees q l) {id : MemoryId} (absent : ∀ g ∈ t.held, g.memory ≠ id) :
    Agrees q (t.letGo id) l := by
  have held : t.held.filter (·.memory != id) = t.held :=
    List.filter_eq_self.2 fun g mem => by simpa using absent g mem
  unfold letGo
  rw [held]
  by_cases unowned : t.machine.owners id = 0
  · rw [Machine.release_eq_self unowned]
    exact h
  · -- Somebody owns the memory, so it is not one of the client: it is on another queue.
    have strange : ∀ g ∈ t.made, g.memory ≠ id := by
      rintro g mem rfl
      have loose : g ∉ t.held := fun held => absent g held rfl
      have record := h.record g mem
      rw [if_neg loose] at record
      exact unowned (by simp [Machine.owners, record])
    cases found : t.machine.memory? id with
    | none => exact absurd (by simp [Machine.owners, found]) unowned
    | some memory =>
      have elsewhere : q ≠ memory.queue := by
        intro here
        obtain ⟨g, mem, same⟩ := h.made id memory found here.symm
        exact strange g mem same
      refine h.elsewhere ?_ ?_ ?_
      · rw [Machine.ledger?_release found, if_neg fun both => elsewhere both.2]
      · intro g mem
        rw [Machine.memory?_release, if_neg (strange g mem)]
      · intro other record found' here
        rw [Machine.memory?_release] at found'
        split at found'
        next same =>
          subst same
          rw [found] at found'
          cases found'
          exact absurd here.symm elsewhere
        next => exact h.made other record found' here

/-- **Every request keeps the books in agreement**, and the peak is the highest level so far. -/
theorem step (h : t.Agrees q l) (word : l.limit ≤ Size.largest) (r : Request) :
    ∃ next, (t.step q r).Agrees q next ∧ next.device = l.device ∧ next.capacity = l.capacity ∧
      next.stats.peakBytes = max l.stats.peakBytes (t.step q r).bytes := by
  have peak := h.balanced.peak
  have same : ∀ {u : Tab}, u.Agrees q l → l.stats.peakBytes = max l.stats.peakBytes u.bytes := by
    intro u agrees
    rw [agrees.bytes_eq]
    omega
  have letGo : ∀ id, ∃ next, (t.letGo id).Agrees q next ∧ next.device = l.device ∧
      next.capacity = l.capacity ∧
      next.stats.peakBytes = max l.stats.peakBytes (t.letGo id).bytes := by
    intro id
    by_cases held : ∃ g ∈ t.held, g.memory = id
    · obtain ⟨g, held, rfl⟩ := held
      have agrees := h.returned held
      refine ⟨_, agrees, rfl, rfl, ?_⟩
      have low := agrees.balanced.peak
      rw [agrees.bytes_eq]
      exact (Nat.max_eq_left low).symm
    · have agrees := h.letGo_other fun g mem same => held ⟨g, mem, same⟩
      exact ⟨l, agrees, rfl, rfl, same agrees⟩
  cases r with
  | release id => exact letGo id
  | drop id => exact letGo id
  | allocate p kind length =>
    by_cases here : p = q
    · subst here
      by_cases fits : l.Fits length
      · have agrees : Agrees p (t.step p (.allocate p kind length)) _ := h.granted word fits
        refine ⟨_, agrees, rfl, rfl, ?_⟩
        rw [agrees.bytes_eq, Ledger.live_grown, Ledger.bytes_append, ← h.balanced.liveBytes]
        rfl
      · have refused : t.step p (.allocate p kind length) = t := by
          simp only [Tab.step, ask, Machine.allocate_refused h.found word fits]
        rw [refused]
        exact ⟨l, h, rfl, rfl, same h⟩
    · -- A request on another queue may add a memory there.
      have step : t.step q (.allocate p kind length) =
          { t with machine := (t.machine.allocate p kind length).2 } := by
        show t.ask q p kind length = _
        unfold ask
        split
        next allocated => rw [allocated]
        next allocated => rw [if_neg here, allocated]
      have agrees : Agrees q { t with machine := (t.machine.allocate p kind length).2 } l := by
        refine h.elsewhere (Machine.ledger?_allocate_other (Ne.symm here) kind length) ?_ ?_
        · intro g mem
          rw [h.record g mem, Machine.memory?_allocate_of_some (h.record g mem)]
        · intro id memory found there
          obtain old | ⟨new, -⟩ := Machine.memory?_allocate_cases _ _ _ _ found
          · exact h.made id memory old there
          · exact absurd (new.symm.trans there) here
      rw [step]
      exact ⟨l, agrees, rfl, rfl, same agrees⟩

end Agrees

/-- The books agree after any requests, and the peak is the highest level that there was. -/
theorem agrees_after {device : String} {capacity : Option Nat}
    (fresh : m.ledger? q = some (.empty device capacity))
    (unused : ∀ memory ∈ m.memories, memory.queue ≠ q)
    (word : capacity.getD Size.largest ≤ Size.largest) (requests : List Request) :
    ∃ l, (after q m requests).Agrees q l ∧ l.device = device ∧ l.capacity = capacity ∧
      (∀ past, past <+: requests → (after q m past).bytes ≤ l.stats.peakBytes) ∧
      ∃ past, past <+: requests ∧ (after q m past).bytes = l.stats.peakBytes := by
  induction requests using List.reverseRecOn with
  | nil =>
    refine ⟨_, agrees_start fresh unused, rfl, rfl, ?_, [], List.prefix_rfl, rfl⟩
    intro past before
    rw [List.prefix_nil.1 before]
    exact Nat.le_refl _
  | append_singleton requests r ih =>
    obtain ⟨l, agrees, rfl, rfl, below, past, before, reached⟩ := ih
    obtain ⟨next, agrees', device, capacity, peak⟩ := agrees.step word r
    rw [← after_concat] at agrees' peak
    refine ⟨next, agrees', device, capacity, ?_, ?_⟩
    · intro past before
      rw [peak]
      rcases List.prefix_concat_iff.1 before with rfl | earlier
      · exact Nat.le_max_right _ _
      · exact Nat.le_trans (below past earlier) (Nat.le_max_left _ _)
    · -- The peak is the one there was, or the level that has just been reached.
      rcases Nat.le_total (after q m (requests ++ [r])).bytes l.stats.peakBytes with low | high
      · exact ⟨past, before.trans (List.prefix_append _ _), by omega⟩
      · exact ⟨_, List.prefix_rfl, by omega⟩

end Tab

/-- **What the ledger of a queue is worth.** A client works with the memory of a queue that is new
and has the given capacity, and writes down what it is given and what it lets go. After any
requests, with `limit` the largest number of bytes that may be live:

* every view of what is live tells what the client holds: bytes, number and entries, and allocations
  less frees make up that number;
* the live bytes are at most the peak, which is at most the limit and is the largest number of bytes
  that were live at any time so far;
* the next request is granted if and only if it is for some bytes, fewer than half of the address
  space, that fit below the limit with all live bytes; one that is refused leaves the machine as it
  is, and reports what was asked for and what is left;
* memories get the identifiers 1, 2, 3 and so on and are never mixed up; each that is let go is
  taken off the ledger once, where it is found, and to let it go again changes nothing. -/
theorem Machine.ledger_accounts {m : Machine} {q : QueueId} {device : String}
    {capacity : Option Nat} (word : capacity.getD Size.largest ≤ Size.largest)
    (fresh : m.ledger? q = some (.empty device capacity))
    (unused : ∀ memory ∈ m.memories, memory.queue ≠ q) (requests : List Request) :
    let limit := capacity.getD Size.largest
    let t := Tab.after q m requests
    ∃ l, t.machine.ledger? q = some l ∧
      (l.used = t.bytes ∧ l.stats.liveBytes = t.bytes ∧ l.live = t.held.map Grant.allotment ∧
        l.stats.liveAllocations = t.held.length ∧
        l.stats.allocations = l.stats.frees + t.held.length) ∧
      (l.stats.liveBytes ≤ l.stats.peakBytes ∧ l.stats.peakBytes ≤ limit ∧
        (∀ past, past <+: requests → (Tab.after q m past).bytes ≤ l.stats.peakBytes) ∧
        ∃ past, past <+: requests ∧ (Tab.after q m past).bytes = l.stats.peakBytes) ∧
      (∀ kind length,
        ((∃ id, (t.machine.allocate q kind length).1 = .ok id) ↔
          0 < length ∧ length < 2 ^ 63 ∧ l.stats.liveBytes + length ≤ limit) ∧
        ∀ e, (t.machine.allocate q kind length).1 = .error e →
          (t.machine.allocate q kind length).2 = t.machine ∧
          e = if length = 0 then .misuse .emptyAllocation
            else .outOfMemory device length (limit - l.stats.liveBytes)) ∧
      (t.made.map (·.id) = List.range' 1 t.made.length ∧ l.stats.allocations = t.made.length ∧
        (t.made.map (·.memory)).Nodup ∧ t.held.Sublist t.made ∧
        ∀ g ∈ t.made,
          (g ∈ t.held → g.length ≤ l.used ∧
            ∀ request ∈ [Request.release g.memory, .drop g.memory],
              (t.step q request).machine.ledger? q = some (l.shrunk g.allotment)) ∧
          (g ∉ t.held → ∀ request ∈ [Request.release g.memory, .drop g.memory],
            (t.step q request).machine = t.machine)) := by
  intro limit t
  obtain ⟨l, agrees, rfl, rfl, below, reached⟩ := Tab.agrees_after fresh unused word requests
  have balanced := agrees.balanced
  have level := balanced.liveBytes
  have used := balanced.used
  have bytes := agrees.bytes_eq
  have number : l.live.length = t.held.length := by
    rw [agrees.live, List.length_map]
  have turnover := balanced.turnover
  rw [number] at turnover
  refine ⟨l, agrees.found, ⟨used.trans bytes.symm, level.trans bytes.symm, agrees.live,
    balanced.liveAllocations.trans number, turnover⟩, ⟨?_, balanced.limited, below, reached⟩, ?_,
    ⟨agrees.ids, ?_, agrees.names, agrees.held, ?_⟩⟩
  · rw [level]
    exact balanced.peak
  · intro kind length
    obtain ⟨granted, refused⟩ := Machine.allocate_outcome agrees.found word kind length
    refine ⟨granted.trans ?_, fun e failed => ⟨(refused e failed).1, ?_⟩⟩
    · rw [level, ← used]
      exact Ledger.fits_iff
    · rw [(refused e failed).2, level, ← used]
      rfl
  · have nextId := agrees.nextId
    rw [balanced.nextId] at nextId
    exact Nat.succ.inj nextId
  · intro g mem
    constructor
    · intro held
      have entered : g.allotment ∈ l.live := by
        rw [agrees.live]
        exact List.mem_map_of_mem held
      refine ⟨?_, ?_⟩
      · rw [used, Ledger.bytes_perm (balanced.perm_filter entered), Ledger.bytes_cons]
        exact Nat.le_add_right _ _
      · have returned := (agrees.returned held).found
        simpa [Tab.step] using returned
    · intro loose
      have unowned : (Tab.after q m requests).machine.owners g.memory = 0 := by
        have record := agrees.record g mem
        rw [if_neg loose] at record
        simp [Machine.owners, record]
      have same := Machine.release_eq_self unowned
      simpa [Tab.step, Tab.letGo] using same

/-- A queue with room for a hundred bytes. A second request waits until the first memory is let go,
which happens three times. -/
theorem Machine.ledger_accounts_hundred :
    let queue : QueueId := ⟨0⟩
    let machine := (Machine.empty.addQueue ⟨"gpu", .gpu, some 100⟩).2
    let t := Tab.after queue machine [.allocate queue .device 60, .allocate queue .host 50,
      .release ⟨0⟩, .release ⟨0⟩, .drop ⟨0⟩, .allocate queue .host 50]
    ∃ l, t.machine.ledger? queue = some l ∧ l.stats.liveBytes = 50 ∧ l.stats.frees = 1 ∧
      60 ≤ l.stats.peakBytes ∧ l.stats.peakBytes ≤ 100 := by
  intro queue machine t
  have fresh : machine.ledger? queue = some (.empty "gpu" (some 100)) := rfl
  obtain ⟨l, found, ⟨-, level, -, -, turnover⟩, ⟨-, limited, below, -⟩, -, ⟨-, made, -⟩⟩ :=
    Machine.ledger_accounts (by decide) fresh nofun
      [.allocate queue .device 60, .allocate queue .host 50, .release ⟨0⟩, .release ⟨0⟩,
        .drop ⟨0⟩, .allocate queue .host 50]
  refine ⟨l, found, level.trans (by decide), ?_, below [.allocate queue .device 60] (by simp),
    limited⟩
  have made : l.stats.allocations = 2 := made.trans (by decide)
  have turnover : l.stats.allocations = l.stats.frees + 1 :=
    turnover.trans (congrArg _ (by decide))
  omega

end BatchDigest
