import BatchDigest.Batch.Slice
import Mathlib.Logic.ExistsUnique

/-!
# Slices cover the batch once

The boundaries between the slices of a batch never go back, whatever the weights are: a boundary is
the one before it and a share more, cut off at the end of the batch. So each slice ends before the
next one starts, and none passes the end of the batch (`pairwise_partition`). A slice also starts
where the one before it ended, and the last one takes what is left; so no record is left out either
(`partition_covers`). Nothing is asked of the weights: a share that comes out of a sum that is zero,
infinite or not a number is a size like any other.
-/

namespace BatchDigest.Slice

variable {batch runner start : Nat} {total : Float}

/-- A boundary lies between the one before it and the end of the batch. -/
private theorem boundary_bounds (inside : start ≤ batch) (size : batch ≤ Size.largest)
    (share : Nat) :
    start ≤ min (Size.addSaturating share start) batch ∧
      min (Size.addSaturating share start) batch ≤ batch := by
  unfold Size.addSaturating
  omega

/-- The slices from a boundary on lie between it and the end of the batch. -/
theorem bounds_of_mem_cutFrom (size : batch ≤ Size.largest) (weights : List Float)
    (inside : start ≤ batch) {s : Slice} (mem : s ∈ cutFrom batch total runner start weights) :
    start ≤ s.offset ∧ s.stop ≤ batch := by
  induction weights generalizing runner start with
  | nil => cases mem
  | cons weight rest ih =>
    cases rest with
    | nil =>
      cases List.mem_singleton.1 mem
      refine ⟨Nat.le_refl _, ?_⟩
      show start + (batch - start) ≤ batch
      omega
    | cons next rest =>
      obtain ⟨lower, upper⟩ := boundary_bounds inside size (share batch weight total)
      rcases List.mem_cons.1 mem with rfl | later
      · refine ⟨Nat.le_refl _, ?_⟩
        show start + (_ - start) ≤ batch
        omega
      · have bounds := ih upper later
        exact ⟨Nat.le_trans lower bounds.1, bounds.2⟩

/-- Each slice ends before the later ones start. -/
theorem pairwise_cutFrom (size : batch ≤ Size.largest) (weights : List Float)
    (inside : start ≤ batch) :
    (cutFrom batch total runner start weights).Pairwise fun a b => a.stop ≤ b.offset := by
  induction weights generalizing runner start with
  | nil => exact .nil
  | cons weight rest ih =>
    cases rest with
    | nil => exact List.pairwise_singleton _ _
    | cons next rest =>
      obtain ⟨lower, upper⟩ := boundary_bounds inside size (share batch weight total)
      refine List.pairwise_cons.2 ⟨?_, ih upper⟩
      intro s later
      have bounds := bounds_of_mem_cutFrom size (next :: rest) upper later
      show start + (_ - start) ≤ s.offset
      omega

/-- **Slices of one batch do not overlap.** -/
theorem pairwise_partition (weights : List Float) (size : batch ≤ Size.largest) :
    (partition weights batch).Pairwise fun a b => a.stop ≤ b.offset :=
  pairwise_cutFrom size weights (Nat.zero_le batch)

/-- There is a slice for each weight. -/
theorem length_cutFrom (weights : List Float) :
    (cutFrom batch total runner start weights).length = weights.length := by
  induction weights generalizing runner start with
  | nil => rfl
  | cons weight rest ih =>
    cases rest with
    | nil => rfl
    | cons next rest => exact congrArg Nat.succ ih

/-- Slices are numbered by their runners. -/
theorem runner_of_cutFrom {weights : List Float} {i : Nat} {s : Slice}
    (at' : (cutFrom batch total runner start weights)[i]? = some s) : s.runner = runner + i := by
  induction weights generalizing runner start i with
  | nil => cases at'
  | cons weight rest ih =>
    cases rest with
    | nil =>
      cases i with
      | zero => cases at'; rfl
      | succ i => cases at'
    | cons next rest =>
      cases i with
      | zero => cases at'; rfl
      | succ i =>
        have later : s.runner = runner + 1 + i := ih at'
        omega

theorem runner_of_partition {weights : List Float} {i : Nat} {s : Slice}
    (at' : (partition weights batch)[i]? = some s) : s.runner = i := by
  have runner := runner_of_cutFrom at'
  omega

theorem length_partition (weights : List Float) :
    (partition weights batch).length = weights.length :=
  length_cutFrom weights

/-! ## Each slice starts where the one before it ended -/

/-- The record at which the slice of runner `i` ends when it starts at record `start`, in arithmetic
without a largest word. -/
def boundary (batch : Nat) (total : Float) (weights : List Float) (i start : Nat) : Nat :=
  if i + 1 = weights.length then batch
  else min (share batch (weights.getD i 0) total + start) batch

@[simp] theorem boundary_cons_succ (weight : Float) (rest : List Float) (i : Nat) :
    boundary batch total (weight :: rest) (i + 1) start = boundary batch total rest i start := by
  simp [boundary]

/-- That a sum stops at the largest word moves no boundary: the batch ends before it. -/
theorem min_addSaturating (size : batch ≤ Size.largest) (share : Nat) :
    min (Size.addSaturating share start) batch = min (share + start) batch := by
  unfold Size.addSaturating
  omega

/-- A slice does not end before it starts, and its count is the distance between the two. -/
theorem boundary_of_cutFrom (size : batch ≤ Size.largest) {weights : List Float} {i : Nat}
    (inside : start ≤ batch) {s : Slice}
    (found : (cutFrom batch total runner start weights)[i]? = some s) :
    s.offset ≤ boundary batch total weights i s.offset ∧
      s.count = boundary batch total weights i s.offset - s.offset := by
  induction weights generalizing runner start i with
  | nil => cases found
  | cons weight rest ih =>
    cases rest with
    | nil =>
      cases i with
      | zero => cases found; exact ⟨inside, rfl⟩
      | succ i => cases found
    | cons next rest =>
      obtain ⟨lower, upper⟩ := boundary_bounds inside size (share batch weight total)
      cases i with
      | zero =>
        cases found
        rw [min_addSaturating size] at lower ⊢
        exact ⟨lower, rfl⟩
      | succ i =>
        rw [boundary_cons_succ]
        exact ih upper found

/-- The slices take the records from `start` to `stop` in turn, each from where the one before it
ended. -/
def Tiles : Nat → Nat → List Slice → Prop
  | start, stop, [] => start = stop
  | start, stop, s :: rest => s.offset = start ∧ Tiles s.stop stop rest

theorem tiles_cutFrom (size : batch ≤ Size.largest) {weights : List Float}
    (nonempty : weights ≠ []) (inside : start ≤ batch) :
    Tiles start batch (cutFrom batch total runner start weights) := by
  induction weights generalizing runner start with
  | nil => exact absurd rfl nonempty
  | cons weight rest ih =>
    cases rest with
    | nil => exact ⟨rfl, Nat.add_sub_of_le inside⟩
    | cons next rest =>
      obtain ⟨lower, upper⟩ := boundary_bounds inside size (share batch weight total)
      refine ⟨rfl, ?_⟩
      -- the end of the first slice, by its offset and its count, is the boundary
      show Tiles (start + (_ - start)) batch _
      rw [Nat.add_sub_of_le lower]
      exact ih (List.cons_ne_nil _ _) upper

theorem Tiles.head {first stop : Nat} {slices : List Slice} (tiles : Tiles first stop slices)
    (nonempty : slices ≠ []) : slices.head?.map Slice.offset = some first := by
  cases slices with
  | nil => exact absurd rfl nonempty
  | cons s rest => exact congrArg some tiles.1

theorem Tiles.last {first stop : Nat} {slices : List Slice} (tiles : Tiles first stop slices)
    (nonempty : slices ≠ []) : slices.getLast?.map Slice.stop = some stop := by
  induction slices generalizing first with
  | nil => exact absurd rfl nonempty
  | cons s rest ih =>
    cases rest with
    | nil => exact congrArg some tiles.2
    | cons s' rest => simpa using ih tiles.2 (List.cons_ne_nil _ _)

theorem Tiles.next {first stop i : Nat} {slices : List Slice} (tiles : Tiles first stop slices)
    {s s' : Slice} (found : slices[i]? = some s) (found' : slices[i + 1]? = some s') :
    s'.offset = s.stop := by
  induction slices generalizing first i with
  | nil => cases found
  | cons t rest ih =>
    cases i with
    | zero =>
      cases found
      cases rest with
      | nil => cases found'
      | cons t' rest => cases found'; exact tiles.2.1
    | succ i => exact ih tiles.2 found found'

/-- No record between the first and the last is left out. -/
theorem Tiles.covers {first stop record : Nat} {slices : List Slice}
    (tiles : Tiles first stop slices) (lower : first ≤ record) (upper : record < stop) :
    ∃ (i : Nat) (s : Slice), slices[i]? = some s ∧ s.offset ≤ record ∧ record < s.stop := by
  induction slices generalizing first with
  | nil =>
    have : first = stop := tiles
    omega
  | cons s rest ih =>
    obtain ⟨start, tiles⟩ := tiles
    by_cases within : record < s.stop
    · exact ⟨0, s, rfl, by omega, within⟩
    · obtain ⟨i, t, found, holds⟩ := ih tiles (by omega)
      exact ⟨i + 1, t, found, holds⟩

theorem tiles_partition {weights : List Float} (nonempty : weights ≠ [])
    (size : batch ≤ Size.largest) : Tiles 0 batch (partition weights batch) :=
  tiles_cutFrom size nonempty (Nat.zero_le batch)

/-- Two slices that share a record are the same slice. -/
theorem eq_of_shared_record {slices : List Slice}
    (apart : slices.Pairwise fun a b => a.stop ≤ b.offset) {i j record : Nat} {s t : Slice}
    (found : slices[i]? = some s) (found' : slices[j]? = some t)
    (inside : s.offset ≤ record ∧ record < s.stop) (inside' : t.offset ≤ record ∧ record < t.stop) :
    i = j := by
  obtain ⟨hi, rfl⟩ := List.getElem?_eq_some_iff.1 found
  obtain ⟨hj, rfl⟩ := List.getElem?_eq_some_iff.1 found'
  have order := List.pairwise_iff_getElem.1 apart
  rcases Nat.lt_trichotomy i j with before | same | after
  · have := order i j hi hj before
    omega
  · exact same
  · have := order j i hj hi after
    omega

/-- **The slices cover the batch once.** There is a slice for each weight, numbered by its runner;
the first starts at record 0, each other one where the one before it ended, and the last ends with
the batch. No slice ends before it starts, none ends past the largest word, and the number of no
runner does. So each record of the batch is in one slice and in no other. -/
theorem partition_covers (weights : List Float) (batch : Nat) (nonempty : weights ≠ [])
    (size : batch ≤ Size.largest) :
    (partition weights batch).length = weights.length ∧
    (partition weights batch).head?.map Slice.offset = some 0 ∧
    (partition weights batch).getLast?.map Slice.stop = some batch ∧
    (∀ i s, (partition weights batch)[i]? = some s →
      s.runner = i ∧ s.runner + 1 ≤ weights.length ∧
      s.offset ≤ boundary batch (totalWeight weights) weights i s.offset ∧
      s.count = boundary batch (totalWeight weights) weights i s.offset - s.offset ∧
      s.stop ≤ Size.largest ∧
      ∀ next, (partition weights batch)[i + 1]? = some next → next.offset = s.stop) ∧
    ∀ record < batch, ∃! i : Nat, ∃ s : Slice, (partition weights batch)[i]? = some s ∧
      s.offset ≤ record ∧ record < s.stop := by
  have tiles := tiles_partition nonempty size
  have length : (partition weights batch).length = weights.length := length_partition weights
  have slices : partition weights batch ≠ [] := by
    intro none
    rw [none] at length
    exact nonempty (List.eq_nil_of_length_eq_zero length.symm)
  refine ⟨length, tiles.head slices, tiles.last slices, ?_, ?_⟩
  · intro i s found
    have runner := runner_of_partition found
    obtain ⟨within, -⟩ := List.getElem?_eq_some_iff.1 found
    obtain ⟨ordered, count⟩ := boundary_of_cutFrom size (Nat.zero_le batch) found
    have bounds := bounds_of_mem_cutFrom size weights (Nat.zero_le batch)
      (List.mem_of_getElem? found)
    exact ⟨runner, by omega, ordered, count, Nat.le_trans bounds.2 size,
      fun next found' => tiles.next found found'⟩
  · intro record upper
    obtain ⟨i, s, found, inside⟩ := tiles.covers (Nat.zero_le record) upper
    refine ⟨i, ⟨s, found, inside⟩, ?_⟩
    rintro j ⟨t, found', inside'⟩
    exact eq_of_shared_record (pairwise_partition weights size) found' found inside' inside

/-- Weights that are no number, negative and infinite: each of seven records is in one slice. -/
theorem partition_covers_without_numbers :
    [0 / 0, -1, 1 / 0] ≠ ([] : List Float) ∧ 7 ≤ Size.largest ∧
    (partition [0 / 0, -1, 1 / 0] 7).getLast?.map Slice.stop = some 7 ∧
    ∀ record < 7, ∃! i : Nat, ∃ s : Slice, (partition [0 / 0, -1, 1 / 0] 7)[i]? = some s ∧
      s.offset ≤ record ∧ record < s.stop :=
  have nonempty : [0 / 0, -1, 1 / 0] ≠ ([] : List Float) := List.cons_ne_nil _ _
  have covers := partition_covers [0 / 0, -1, 1 / 0] 7 nonempty (by decide)
  ⟨nonempty, by decide, covers.2.2.1, covers.2.2.2.2⟩

/-! ## Runners in order -/

/-- Slices stand in the order of their runners. -/
theorem ordered_partition (weights : List Float) (batch : Nat) :
    (partition weights batch).Pairwise fun a b => a.runner < b.runner := by
  refine List.pairwise_iff_getElem.2 fun i j hi hj lt => ?_
  rw [runner_of_partition (List.getElem?_eq_getElem hi),
    runner_of_partition (List.getElem?_eq_getElem hj)]
  exact lt

end BatchDigest.Slice
