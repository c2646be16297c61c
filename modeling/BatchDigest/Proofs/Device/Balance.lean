import BatchDigest.Device.Ledger
import Mathlib.Algebra.BigOperators.Group.List.Basic
import Mathlib.Algebra.GroupWithZero.Nat

/-!
# The balance of a ledger

A ledger keeps what is live in four places: the reserved bytes, the entries, and two running
statistics; and it counts what came and went beside that. `Ledger.Balanced` says that all of them
tell the same and stay below the limit. An empty ledger is balanced, and what `allocate` and
`release` do to a balanced one is told exactly: an allocation succeeds if and only if it fits, one
that fails changes nothing, and a release takes one entry off every count at once.
-/

namespace BatchDigest.Ledger

variable {l : Ledger} {kind : MemoryKind} {length id : Nat} {entry : Allotment}

/-- How many bytes allocations take. -/
def bytes (entries : List Allotment) : Nat :=
  (entries.map (·.length)).sum

@[simp] theorem bytes_nil : bytes [] = 0 := rfl

@[simp] theorem bytes_append (first second : List Allotment) :
    bytes (first ++ second) = bytes first + bytes second := by
  simp [bytes]

@[simp] theorem bytes_cons (entry : Allotment) (rest : List Allotment) :
    bytes (entry :: rest) = entry.length + bytes rest := by
  simp [bytes]

/-- Every view of the live allocations is the same, and none is past the limit. -/
structure Balanced (l : Ledger) : Prop where
  used : l.used = bytes l.live
  liveBytes : l.stats.liveBytes = bytes l.live
  liveAllocations : l.stats.liveAllocations = l.live.length
  turnover : l.stats.allocations = l.stats.frees + l.live.length
  nextId : l.nextId = l.stats.allocations + 1
  ordered : l.live.Pairwise (·.id < ·.id)
  entered : ∀ entry ∈ l.live, entry.id < l.nextId
  peak : bytes l.live ≤ l.stats.peakBytes
  limited : l.stats.peakBytes ≤ l.limit
  capacity : l.stats.capacity = l.capacity

theorem balanced_empty (device : String) (capacity : Option Nat) :
    (empty device capacity).Balanced := by
  constructor <;> simp [empty]

/-! ## Allocations -/

/-- Whether a request is for some bytes, can be backed and fits below the limit. -/
def Fits (l : Ledger) (length : Nat) : Prop :=
  0 < length ∧ isBackable length ∧ l.used + length ≤ l.limit

instance (l : Ledger) (length : Nat) : Decidable (l.Fits length) :=
  inferInstanceAs (Decidable (_ ∧ _ ∧ _))

theorem fits_iff :
    l.Fits length ↔ 0 < length ∧ length < 2 ^ 63 ∧ l.used + length ≤ l.limit := by
  simp [Fits, isBackable]

/-- The error of a request that does not fit. -/
def refusal (l : Ledger) (length : Nat) : DeviceError :=
  if length = 0 then .misuse .emptyAllocation else .outOfMemory l.device length l.available

/-- The ledger with an allocation entered that was made. -/
def grown (l : Ledger) (kind : MemoryKind) (length : Nat) : Ledger :=
  ({ l with used := l.used + length }.enter kind length).2

theorem reserve?_eq (word : l.limit ≤ Size.largest) (length : Nat) : l.reserve? length =
    if l.used + length ≤ l.limit then some { l with used := l.used + length } else none := by
  unfold reserve? Size.add?
  by_cases fits : l.used + length ≤ l.limit
  · have small : l.used + length ≤ Size.largest := by omega
    simp [fits, small]
  · rw [if_neg fits]
    split
    · simp only [Option.filter_some, decide_eq_true_eq, if_neg fits, Option.map_none]
    · rfl

/-- **A request is granted if and only if it fits. One that is refused changes nothing.** -/
theorem allocate_eq (word : l.limit ≤ Size.largest) (kind : MemoryKind) (length : Nat) :
    l.allocate kind length =
      if l.Fits length then (.ok l.nextId, l.grown kind length)
      else (.error (l.refusal length), l) := by
  unfold allocate
  by_cases empty : length = 0
  · have misfit : ¬ l.Fits length := fun fits => Nat.ne_of_gt fits.1 empty
    rw [if_pos empty, if_neg misfit, refusal, if_pos empty]
  rw [if_neg empty, reserve?_eq word, refusal, if_neg empty]
  by_cases room : l.used + length ≤ l.limit
  · rw [if_pos room]
    dsimp only
    by_cases backed : isBackable length
    · have fits : l.Fits length := ⟨Nat.pos_of_ne_zero empty, backed, room⟩
      rw [if_pos backed, if_pos fits]
      rfl
    · -- The reservation is given back, and the ledger is what it was.
      have restored : ({ l with used := l.used + length } : Ledger).unreserve length = l := by
        simp [unreserve]
      have misfit : ¬ l.Fits length := fun fits => backed fits.2.1
      rw [if_neg backed, if_neg misfit, restored]
  · have misfit : ¬ l.Fits length := fun fits => room fits.2.2
    rw [if_neg room, if_neg misfit]

theorem live_grown (l : Ledger) (kind : MemoryKind) (length : Nat) :
    (l.grown kind length).live = l.live ++ [⟨l.nextId, kind, length⟩] := rfl

theorem Balanced.grown (balanced : l.Balanced) (kind : MemoryKind)
    (fits : l.used + length ≤ l.limit) : (l.grown kind length).Balanced := by
  have used := balanced.used
  have level := balanced.liveBytes
  have turnover := balanced.turnover
  have nextId := balanced.nextId
  have limited := balanced.limited
  constructor
  case used => simp [Ledger.grown, enter, used]
  case liveBytes => simp [Ledger.grown, enter, level]
  case liveAllocations => simp [Ledger.grown, enter]
  case turnover =>
    simp only [Ledger.grown, enter, List.length_append, List.length_singleton]
    omega
  case nextId => simp [Ledger.grown, enter, nextId]
  case ordered =>
    rw [live_grown]
    refine List.pairwise_append.2 ⟨balanced.ordered, List.pairwise_singleton _ _, ?_⟩
    intro old mem new last
    rw [List.mem_singleton.1 last]
    exact balanced.entered old mem
  case entered =>
    intro entry mem
    rw [live_grown, List.mem_append, List.mem_singleton] at mem
    show entry.id < l.nextId + 1
    rcases mem with old | rfl
    · exact Nat.lt_succ_of_lt (balanced.entered entry old)
    · exact Nat.lt_succ_self _
  case peak =>
    rw [live_grown, bytes_append, ← level]
    exact Nat.le_max_right _ _
  case limited =>
    show max l.stats.peakBytes (l.stats.liveBytes + length) ≤ l.limit
    omega
  case capacity => exact balanced.capacity

/-- Whatever the limit is, an allocation that is made fits below it. -/
theorem allocate_cases (l : Ledger) (kind : MemoryKind) (length : Nat) :
    l.allocate kind length = (.ok l.nextId, l.grown kind length) ∧ l.Fits length ∨
      ∃ e, l.allocate kind length = (.error e, l) := by
  unfold allocate
  split
  · exact .inr ⟨_, rfl⟩
  next some =>
    cases reserved : l.reserve? length with
    | none => exact .inr ⟨_, rfl⟩
    | some reserve =>
      obtain ⟨used, kept, rfl⟩ := Option.map_eq_some_iff.1 reserved
      obtain ⟨sum, low⟩ := Option.filter_eq_some_iff.1 kept
      obtain ⟨-, rfl⟩ := Size.add?_eq_some_iff.1 sum
      dsimp only
      split
      next backed => exact .inl ⟨rfl, Nat.pos_of_ne_zero some, backed, by simpa using low⟩
      · exact .inr ⟨_, by simp [unreserve]; rfl⟩

theorem Balanced.allocate (balanced : l.Balanced) (kind : MemoryKind) (length : Nat) :
    (l.allocate kind length).2.Balanced := by
  rcases l.allocate_cases kind length with ⟨made, fits⟩ | ⟨e, refused⟩
  · rw [made]
    exact balanced.grown kind fits.2.2
  · rw [refused]
    exact balanced

/-! ## Releases -/

/-- The ledger with an entry taken off that was on it. -/
def shrunk (l : Ledger) (entry : Allotment) : Ledger :=
  { l with
    used := l.used - entry.length
    live := l.live.filter (·.id != entry.id)
    stats := { l.stats with
      frees := l.stats.frees + 1
      liveAllocations := (l.live.filter (·.id != entry.id)).length
      liveBytes := l.stats.liveBytes - entry.length } }

/-- An entry is found by its identifier, which it shares with no other. -/
theorem Balanced.find?_eq (balanced : l.Balanced) (mem : entry ∈ l.live) :
    l.live.find? (·.id == entry.id) = some entry := by
  have ordered := balanced.ordered
  generalize l.live = entries at mem ordered ⊢
  induction entries with
  | nil => cases mem
  | cons first rest ih =>
    obtain ⟨above, ordered⟩ := List.pairwise_cons.1 ordered
    rcases List.mem_cons.1 mem with rfl | later
    · simp
    · rw [List.find?_cons_of_neg (by simpa using Nat.ne_of_lt (above entry later))]
      exact ih later ordered

theorem Balanced.release_eq (balanced : l.Balanced) (mem : entry ∈ l.live) :
    l.release entry.id = l.shrunk entry := by
  unfold release
  rw [balanced.find?_eq mem]
  rfl

theorem release_eq_self (absent : ∀ entry ∈ l.live, entry.id ≠ id) : l.release id = l := by
  unfold release
  rw [List.find?_eq_none.2 (by simpa using absent)]

/-- What is left without an entry and the entry make up the whole. -/
theorem Balanced.perm_filter (balanced : l.Balanced) (mem : entry ∈ l.live) :
    l.live.Perm (entry :: l.live.filter (·.id != entry.id)) := by
  have ordered := balanced.ordered
  generalize l.live = entries at mem ordered ⊢
  induction entries with
  | nil => cases mem
  | cons first rest ih =>
    obtain ⟨above, ordered⟩ := List.pairwise_cons.1 ordered
    rcases List.mem_cons.1 mem with rfl | later
    · -- The others have higher identifiers and stay.
      have kept : rest.filter (·.id != entry.id) = rest :=
        List.filter_eq_self.2 fun other inside => by
          simpa using Nat.ne_of_gt (above other inside)
      rw [List.filter_cons_of_neg (by simp), kept]
    · rw [List.filter_cons_of_pos (by simpa using Nat.ne_of_lt (above entry later))]
      exact ((ih later ordered).cons first).trans (List.Perm.swap entry first _)

theorem bytes_perm {first second : List Allotment} (perm : first.Perm second) :
    bytes first = bytes second :=
  (perm.map Allotment.length).sum_eq

/-- A release finds its entry and takes no more bytes off than there are. -/
theorem Balanced.shrunk (balanced : l.Balanced) (mem : entry ∈ l.live) :
    (l.shrunk entry).Balanced := by
  have whole := balanced.perm_filter mem
  have level : bytes l.live = entry.length + bytes (l.live.filter (·.id != entry.id)) := by
    rw [bytes_perm whole, bytes_cons]
  have count : l.live.length = (l.live.filter (·.id != entry.id)).length + 1 := whole.length_eq
  have used := balanced.used
  have liveBytes := balanced.liveBytes
  have turnover := balanced.turnover
  have peak := balanced.peak
  constructor
  case used =>
    show l.used - entry.length = bytes (l.live.filter (·.id != entry.id))
    omega
  case liveBytes =>
    show l.stats.liveBytes - entry.length = bytes (l.live.filter (·.id != entry.id))
    omega
  case liveAllocations => rfl
  case turnover =>
    show l.stats.allocations =
      l.stats.frees + 1 + (l.live.filter (·.id != entry.id)).length
    omega
  case nextId => exact balanced.nextId
  case ordered => exact balanced.ordered.filter _
  case entered => exact fun other inside => balanced.entered other (List.mem_of_mem_filter inside)
  case peak =>
    show bytes (l.live.filter (·.id != entry.id)) ≤ l.stats.peakBytes
    omega
  case limited => exact balanced.limited
  case capacity => exact balanced.capacity

theorem live_release_subset (l : Ledger) (id : Nat) : (l.release id).live ⊆ l.live := by
  unfold release
  split
  · exact fun _ mem => mem
  · exact fun _ mem => List.mem_of_mem_filter mem

theorem Balanced.release (balanced : l.Balanced) (id : Nat) : (l.release id).Balanced := by
  by_cases live : ∃ entry ∈ l.live, entry.id = id
  · obtain ⟨entry, mem, rfl⟩ := live
    rw [balanced.release_eq mem]
    exact balanced.shrunk mem
  · rw [release_eq_self fun entry mem same => live ⟨entry, mem, same⟩]
    exact balanced

end BatchDigest.Ledger
