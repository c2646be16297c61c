import BatchDigest.Configuration.Building
import Mathlib.Data.List.Nodup

/-!
# Which configurations are accepted

A configuration is checked twice: `Configuration.check` looks at it before any queue is set up, and
`Hasher.create` looks at the runners again. Here both checks are read as conditions on the
configuration. They ask for the same, except that `Hasher.create` also asks for a finite sum of
weights: weights that are finite may have a sum that is not (`Configuration.Overflows`), and such a
configuration is accepted first and refused later (`Configuration.check_eq_ok_iff`).
-/

namespace BatchDigest

/-- A step that is followed by others succeeds with them. -/
theorem exists_of_bind_eq_ok {ε α β : Type} {x : Except ε α} {next : α → Except ε β} {b : β}
    (h : (x >>= next) = .ok b) : ∃ a, x = .ok a ∧ next a = .ok b := by
  cases x with
  | error e => cases h
  | ok a => exact ⟨a, rfl, h⟩

theorem eq_ok_of_mapError {ε δ α : Type} {x : Except ε α} {f : ε → δ} {a : α}
    (h : x.mapError f = .ok a) : x = .ok a := by
  cases x with
  | error e => cases h
  | ok b => cases h; rfl

namespace Runner

variable {named : List (String × Float)}

theorem checkWeights_eq_ok_iff (named : List (String × Float)) :
    checkWeights named = .ok () ↔ ∀ pair ∈ named, isFitWeight pair.2 := by
  induction named with
  | nil => exact iff_of_true rfl nofun
  | cons pair rest ih =>
    unfold checkWeights
    rw [List.forall_mem_cons, ← ih]
    split
    next fit => exact (and_iff_right fit).symm
    next unfit => exact iff_of_false nofun fun both => unfit both.1

/-- Once the weights are fit, all depends on their sum. -/
theorem check_of_fit (filled : named ≠ []) (fit : ∀ pair ∈ named, isFitWeight pair.2) :
    check named = if Slice.totalWeight (named.map (·.2)) ≤ 0 ||
        !(Slice.totalWeight (named.map (·.2))).isFinite then .error .noWeight else .ok () := by
  unfold check
  rw [if_neg fun none => filled (List.isEmpty_iff.1 none), (checkWeights_eq_ok_iff named).2 fit]
  rfl

theorem check_eq_ok_iff (named : List (String × Float)) :
    check named = .ok () ↔ named ≠ [] ∧ (∀ pair ∈ named, isFitWeight pair.2) ∧
      ¬ Slice.totalWeight (named.map (·.2)) ≤ 0 ∧
      (Slice.totalWeight (named.map (·.2))).isFinite := by
  by_cases filled : named = []
  · subst filled
    exact iff_of_false nofun fun both => both.1 rfl
  by_cases fit : ∀ pair ∈ named, isFitWeight pair.2
  · rw [check_of_fit filled fit]
    split
    next bad =>
      refine iff_of_false nofun fun ⟨_, _, positive, finite⟩ => ?_
      rw [finite, Bool.not_true, Bool.or_false] at bad
      exact positive (of_decide_eq_true bad)
    next good =>
      rw [Bool.or_eq_true, not_or, decide_eq_true_eq, Bool.not_eq_true', Bool.not_eq_false] at good
      exact iff_of_true rfl ⟨filled, fit, good⟩
  · refine iff_of_false (fun accepted => fit ?_) fun both => fit both.2.1
    unfold check at accepted
    rw [if_neg fun none => filled (List.isEmpty_iff.1 none)] at accepted
    obtain ⟨_, weights, -⟩ := exists_of_bind_eq_ok accepted
    exact (checkWeights_eq_ok_iff named).1 weights

end Runner

namespace Configuration

variable {c : Configuration} {a : Algorithm}

/-- The weights of the runners under the names of the queues that they are to get. -/
def named (c : Configuration) : List (String × Float) :=
  c.runners.map fun r => (r.name, r.weight)

/-- The sum of the weights. -/
def total (c : Configuration) : Float :=
  Slice.totalWeight (c.runners.map (·.weight))

/-- Everything is in order but for the weights. -/
structure Fits (c : Configuration) (a : Algorithm) : Prop where
  algorithm : c.namedAlgorithm = .ok a
  key : a.checkKey c.keyBytes.length = .ok ()
  distinct : (c.runners.map (·.name)).Nodup
  queues : ∀ r ∈ c.runners, r.queueConfig.check = .ok ()

/-- Every weight is fit, but their sum is not a finite number. -/
structure Overflows (c : Configuration) : Prop where
  filled : c.runners ≠ []
  fit : ∀ r ∈ c.runners, Runner.isFitWeight r.weight
  positive : ¬ c.total ≤ 0
  infinite : c.total.isFinite = false

theorem total_named (c : Configuration) : Slice.totalWeight (c.named.map (·.2)) = c.total := by
  unfold named total
  rw [List.map_map]
  rfl

theorem forall_mem_named {p : Float → Bool} :
    (∀ pair ∈ c.named, p pair.2) ↔ ∀ r ∈ c.runners, p r.weight := by
  unfold named
  rw [List.forall_mem_map]

theorem named_ne_nil : c.named ≠ [] ↔ c.runners ≠ [] := by
  unfold named
  rw [Ne, List.map_eq_nil_iff]

/-- A sum of weights that is not finite is refused like one that is not positive. -/
theorem Overflows.check_named (h : c.Overflows) : Runner.check c.named = .error .noWeight := by
  rw [Runner.check_of_fit (named_ne_nil.2 h.filled) (forall_mem_named.2 h.fit), total_named,
    h.infinite, if_pos]
  rw [Bool.not_false, Bool.or_true]

/-- The runners are accepted when no name comes twice, every weight is fit and every queue can be
set up. -/
theorem checkRunners_eq_ok_iff (earlier : List String) (runners : List RunnerEntry) :
    checkRunners earlier runners = .ok () ↔
      ((runners.map (·.name)).Nodup ∧ ∀ r ∈ runners, r.name ∉ earlier) ∧
      (∀ r ∈ runners, Runner.isFitWeight r.weight) ∧
      ∀ r ∈ runners, r.queueConfig.check = .ok () := by
  induction runners generalizing earlier with
  | nil => exact iff_of_true rfl ⟨⟨List.nodup_nil, nofun⟩, nofun, nofun⟩
  | cons next rest ih =>
    unfold checkRunners
    rw [List.forall_mem_cons, List.forall_mem_cons, List.forall_mem_cons, List.map_cons,
      List.nodup_cons]
    split
    next double =>
      exact iff_of_false nofun fun all => all.1.2.1 (List.contains_iff_mem.1 double)
    next single =>
      have single : next.name ∉ earlier := fun mem => single (List.contains_iff_mem.2 mem)
      split
      next unfit =>
        refine iff_of_false nofun fun all => ?_
        rw [all.2.1.1] at unfit
        cases unfit
      next fit =>
        have fit : Runner.isFitWeight next.weight = true := by simpa using fit
        cases queue : next.queueConfig.check with
        | error e => exact iff_of_false nofun fun all => nomatch all.2.2.1
        | ok =>
          dsimp only
          rw [ih]
          -- The name of the first runner is among the earlier ones of the rest.
          have names : (∀ r ∈ rest, r.name ∉ next.name :: earlier) ↔
              next.name ∉ rest.map (·.name) ∧ ∀ r ∈ rest, r.name ∉ earlier := by
            simp only [List.mem_cons, not_or, forall_and, List.mem_map, not_exists, not_and]
          rw [names]
          tauto

/-- Where all else is in order, all depends on the sum of the weights. -/
theorem check_of_fits (fits : c.Fits a) (filled : c.runners ≠ [])
    (fit : ∀ r ∈ c.runners, Runner.isFitWeight r.weight) :
    c.check = if c.total ≤ 0 then .error (.rejected .noWeight) else .ok () := by
  have runners : checkRunners [] c.runners = .ok () :=
    (checkRunners_eq_ok_iff [] c.runners).2 ⟨⟨fits.distinct, fun _ _ => nofun⟩, fit, fits.queues⟩
  have filled : ¬ c.runners.isEmpty = true := fun none => filled (List.isEmpty_iff.1 none)
  unfold check
  simp only [fits.algorithm, fits.key, runners, filled, Except.mapError, bind, Except.bind,
    Bool.false_eq_true, if_false]
  rfl

/-- What a configuration that is accepted is like. -/
theorem fits_of_check (accepted : c.check = .ok ()) : (∃ a, c.Fits a) ∧ c.runners ≠ [] ∧
    (∀ r ∈ c.runners, Runner.isFitWeight r.weight) ∧ ¬ c.total ≤ 0 := by
  unfold check at accepted
  obtain ⟨a, algorithm, accepted⟩ := exists_of_bind_eq_ok accepted
  obtain ⟨_, key, accepted⟩ := exists_of_bind_eq_ok accepted
  by_cases empty : c.runners.isEmpty = true
  · rw [if_pos empty] at accepted
    cases accepted
  · rw [if_neg empty] at accepted
    obtain ⟨_, runners, accepted⟩ := exists_of_bind_eq_ok accepted
    obtain ⟨⟨distinct, -⟩, fit, queues⟩ := (checkRunners_eq_ok_iff [] c.runners).1 runners
    have positive : ¬ c.total ≤ 0 := by
      intro bad
      rw [if_pos (show Slice.totalWeight (c.runners.map (·.weight)) ≤ 0 from bad)] at accepted
      cases accepted
    exact ⟨⟨a, eq_ok_of_mapError algorithm, eq_ok_of_mapError key, distinct, queues⟩,
      fun none => empty (List.isEmpty_iff.2 none), fit, positive⟩

/-- **The first check accepts what the second one accepts, and sums that overflow.** -/
theorem check_eq_ok_iff (c : Configuration) : c.check = .ok () ↔
    (∃ a, c.Fits a) ∧ (Runner.check c.named = .ok () ∨ c.Overflows) := by
  rw [Runner.check_eq_ok_iff, named_ne_nil, forall_mem_named, total_named]
  constructor
  · intro accepted
    obtain ⟨fits, filled, fit, positive⟩ := fits_of_check accepted
    refine ⟨fits, ?_⟩
    cases finite : c.total.isFinite with
    | true => exact .inl ⟨filled, fit, positive, rfl⟩
    | false => exact .inr ⟨filled, fit, positive, finite⟩
  · rintro ⟨⟨a, fits⟩, ⟨filled, fit, positive, -⟩ | ⟨filled, fit, positive, -⟩⟩
    · rw [check_of_fits fits filled fit, if_neg positive]
    · rw [check_of_fits fits filled fit, if_neg positive]

end Configuration

end BatchDigest
