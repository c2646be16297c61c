import BatchDigest.Proofs.Kernel.Bits
import BatchDigest.Proofs.Kernel.Fips202

/-!
# The permutation of the sponge

A state of 25 words and the array of its bits go through the same rounds (`array_permute`). Three of
the step maps are met one by one. The walk of the lanes is ρ and π at once: π moves each lane to the
place of the next on ρ's walk, so the lane that is put down at time `t` is the one that was taken up
one step before (`walk_eq`).
-/

namespace BatchDigest.Keccak

open Fips202 (StateArray)
open Bytes (rotateLeft64)

/-- The lane of a column and a row. -/
def laneAt (x y : Fin 5) : Fin 25 :=
  ⟨x.val + 5 * y.val, by omega⟩

/-- The array of the bits of a state. -/
def array (a : State) : StateArray :=
  fun x y z => (a.get (laneAt x y)).toNat.testBit z

theorem laneAt_injective {x y x' y' : Fin 5} (same : laneAt x y = laneAt x' y') :
    (x, y) = (x', y') := by
  have values : x.val + 5 * y.val = x'.val + 5 * y'.val := congrArg Fin.val same
  refine Prod.ext (Fin.ext ?_) (Fin.ext ?_)
  · show x.val = x'.val
    omega
  · show y.val = y'.val
    omega

/-! ## Columns and rows -/

theorem testBit_parity (a : State) (x : Fin 5) (z : Fin 64) :
    (parity a x).toNat.testBit z = Fips202.columnParity (array a) x z := by
  unfold parity
  simp only [testBit_xor64]
  rfl

/-- Mixing the columns is θ. -/
theorem array_mixColumns (a : State) : array (mixColumns a) = Fips202.theta (array a) := by
  funext x y z
  have column : Fin.ofNat 5 (laneAt x y).val = x := by
    refine Fin.ext ?_
    show (x.val + 5 * y.val) % 5 = x.val
    omega
  have before : x + 4 = x - 1 := by
    clear column
    revert x
    decide
  have turned := testBit_rotateLeft64 (parity a (x + 1)) (by decide : 0 < 1) (by decide) z
  unfold array mixColumns Fips202.theta
  dsimp only
  rw [get_ofFn, get_ofFn, column, get_ofFn, get_ofFn, before, testBit_xor64, testBit_xor64,
    testBit_parity]
  show (_ ^^ (_ ^^ (rotateLeft64 _ (UInt64.ofNat 1)).toNat.testBit z)) = _
  rw [turned, testBit_parity]
  rfl

theorem along_laneAt (x y n : Fin 5) : along (laneAt x y) n.val = laneAt (x + n) y := by
  refine Fin.ext ?_
  show (x.val + 5 * y.val) / 5 * 5 + (x.val + 5 * y.val + n.val) % 5 =
    (x.val + n.val) % 5 + 5 * y.val
  omega

/-- Mixing the rows is χ. -/
theorem array_mixRows (a : State) : array (mixRows a) = Fips202.chi (array a) := by
  funext x y z
  have first := along_laneAt x y 1
  have second := along_laneAt x y 2
  unfold array mixRows Fips202.chi
  rw [get_ofFn, testBit_xor64, testBit_and64, testBit_not64 _ z.isLt]
  rw [show along (laneAt x y) 1 = laneAt (x + 1) y from first,
    show along (laneAt x y) 2 = laneAt (x + 2) y from second]

/-! ## The walk of the lanes -/

/-- One step of the walk: the carried lane is turned and put down, and the one it replaces is taken
up. -/
def carry (carried : State × UInt64) (stop : UInt64 × Fin 25) : State × UInt64 :=
  (carried.1.set stop.2.val (rotateLeft64 carried.2 stop.1) stop.2.isLt, carried.1.get stop.2)

theorem turnLanes_eq (a : State) : turnLanes a = (walk.foldl carry (a, a.get 1)).1 := rfl

theorem get_set (a : State) (i j : Fin 25) (word : UInt64) :
    (a.set i.val word i.isLt).get j = if i = j then word else a.get j := by
  show (a.set i.val word i.isLt)[j.val] = _
  rw [Vector.getElem_set]
  simp only [Fin.ext_iff]
  rfl

/-- A lane that is not on the way stays. -/
theorem get_foldl_carry_of_notMem {stops : List (UInt64 × Fin 25)} {lane : Fin 25}
    (away : lane ∉ stops.map Prod.snd) (a : State) (carried : UInt64) :
    (stops.foldl carry (a, carried)).1.get lane = a.get lane := by
  induction stops generalizing a carried with
  | nil => rfl
  | cons stop stops ih =>
    rw [List.map_cons, List.mem_cons, not_or] at away
    rw [List.foldl_cons]
    refine (ih away.2 _ _).trans ?_
    exact (get_set a stop.2 lane _).trans (if_neg (Ne.symm away.1))

/-- On a way that meets each lane once, what is put down at a stop is what was there at the stop
before. -/
theorem get_foldl_carry {stops : List (UInt64 × Fin 25)} (once : (stops.map Prod.snd).Nodup)
    (a : State) (carried : UInt64) {t : Nat} (inside : t < stops.length)
    (known : t < (carried :: stops.map fun stop => a.get stop.2).length) :
    (stops.foldl carry (a, carried)).1.get stops[t].2 =
      rotateLeft64 (carried :: stops.map fun stop => a.get stop.2)[t] stops[t].1 := by
  induction stops generalizing a carried t with
  | nil => exact absurd inside (Nat.not_lt_zero t)
  | cons stop stops ih =>
    rw [List.map_cons, List.nodup_cons] at once
    rw [List.foldl_cons]
    cases t with
    | zero =>
      refine (get_foldl_carry_of_notMem once.1 _ _).trans ?_
      exact (get_set a stop.2 stop.2 _).trans (if_pos rfl)
    | succ t =>
      have inside' : t < stops.length := Nat.lt_of_succ_lt_succ inside
      refine (ih once.2 _ _ inside' ?known).trans ?_
      case known =>
        rw [List.length_cons, List.length_map]
        exact Nat.lt_succ_of_lt inside'
      congr 1
      cases t with
      | zero => rfl
      | succ t =>
        -- The lane before is another one than that of this step, so the step left it as it was.
        have met : stops[t].2 ∈ stops.map Prod.snd := List.mem_map_of_mem (List.getElem_mem _)
        have other : stop.2 ≠ stops[t].2 := fun same => once.1 (same ▸ met)
        simp only [List.getElem_cons_succ, List.getElem_map]
        exact (get_set a stop.2 stops[t].2 _).trans (if_neg other)

/-- The place of a lane in the state. -/
def place (lane : Fin 5 × Fin 5) : Fin 25 :=
  laneAt lane.1 lane.2

/-- The table of the walk: the offsets of ρ, and for each lane the place of the next. -/
theorem walk_eq :
    walk = (List.range 24).map fun t =>
      (UInt64.ofNat (Fips202.offset t % 64), place (Fips202.visited (t + 1))) := by
  decide +kernel

theorem walk_once : (walk.map Prod.snd).Nodup := by
  decide +kernel

theorem zero_notMem_walk : (0 : Fin 25) ∉ walk.map Prod.snd := by
  decide +kernel

theorem getElem_walk {t : Nat} (inside : t < walk.length) :
    walk[t] = (UInt64.ofNat (Fips202.offset t % 64), place (Fips202.visited (t + 1))) := by
  simp only [walk_eq, List.getElem_map, List.getElem_range]

/-- A lane goes to the place of the next, turned by its offset. -/
theorem get_turnLanes (a : State) {t : Nat} (inside : t < 24) :
    (turnLanes a).get (place (Fips202.visited (t + 1))) =
      rotateLeft64 (a.get (place (Fips202.visited t))) (UInt64.ofNat (Fips202.offset t % 64)) := by
  have known : t < (a.get 1 :: walk.map fun stop => a.get stop.2).length :=
    Nat.lt_succ_of_lt inside
  have before : (a.get 1 :: walk.map fun stop => a.get stop.2)[t] =
      a.get (place (Fips202.visited t)) := by
    cases t with
    | zero => rfl
    | succ t =>
      rw [List.getElem_cons_succ, List.getElem_map, getElem_walk (Nat.lt_of_succ_lt inside)]
  have put := get_foldl_carry walk_once a (a.get 1) (t := t) inside known
  rw [getElem_walk inside, before] at put
  rw [turnLanes_eq]
  exact put

theorem get_turnLanes_zero (a : State) : (turnLanes a).get 0 = a.get 0 := by
  rw [turnLanes_eq]
  exact get_foldl_carry_of_notMem zero_notMem_walk _ _

/-- The offsets of ρ turn a lane by something. -/
theorem offset_pos : ∀ t : Fin 24, 0 < Fips202.offset t % 64 := by
  decide +kernel

/-- The walk is ρ and π at once. -/
theorem array_turnLanes (a : State) :
    array (turnLanes a) = Fips202.pi (Fips202.rho (array a)) := by
  funext x y z
  obtain first | ⟨t, stop⟩ := Fips202.exists_visited x y
  · obtain ⟨rfl, rfl⟩ := Prod.mk.inj first
    refine Eq.trans ?_ (Fips202.rho_zero (array a) z).symm
    exact congrArg (fun word : UInt64 => word.toNat.testBit z) (get_turnLanes_zero a)
  · have lane : laneAt x y = place (Fips202.visited (t.val + 1)) := by
      rw [← stop]
      rfl
    have turned := testBit_rotateLeft64 (a.get (place (Fips202.visited t)))
      (offset_pos t) (Nat.mod_lt _ (by decide)) z
    have amount : Fin.ofNat 64 (Fips202.offset t % 64) = Fin.ofNat 64 (Fips202.offset t) :=
      Fin.ext (Nat.mod_mod _ _)
    have moved := Fips202.pi_next (Fips202.rho (array a)) (Fips202.visited t.val) z
    rw [← Fips202.visited_succ, ← stop, Fips202.rho_visited _ t.isLt] at moved
    rw [moved]
    show ((turnLanes a).get (laneAt x y)).toNat.testBit z = _
    rw [lane, get_turnLanes a t.isLt, turned, amount]
    rfl

/-! ## Rounds -/

theorem testBit_roundConstants :
    ∀ (index : Fin 24) (z : Fin 64),
      (roundConstants.get index).toNat.testBit z = Fips202.roundConstant index z := by
  decide +kernel

theorem array_round (a : State) (index : Fin 24) :
    array (round a (roundConstants.get index)) = Fips202.round (array a) index := by
  unfold Fips202.round
  rw [← array_mixColumns, ← array_turnLanes, ← array_mixRows]
  funext x y z
  unfold round Fips202.iota
  dsimp only
  generalize mixRows (turnLanes (mixColumns a)) = b
  show ((b.set (0 : Fin 25).val (b.get 0 ^^^ _) _).get (laneAt x y)).toNat.testBit z = _
  rw [get_set]
  by_cases first : x = 0 ∧ y = 0
  · obtain ⟨rfl, rfl⟩ := first
    refine (congrArg (fun word : UInt64 => word.toNat.testBit z) (if_pos rfl)).trans ?_
    rw [if_pos ⟨rfl, rfl⟩, testBit_xor64, testBit_roundConstants]
    rfl
  · rw [if_neg first, if_neg]
    · rfl
    · intro same
      exact first (Prod.mk.inj (laneAt_injective (x := 0) (y := 0) same).symm)

/-- **The permutation of the words is that of the bits.** -/
theorem array_permute (a : State) :
    array (permute roundConstants a) = (List.range 24).foldl Fips202.round (array a) := by
  have constants : roundConstants.toList = (List.finRange 24).map roundConstants.get := by
    decide +kernel
  have indices : List.range 24 = (List.finRange 24).map Fin.val := by decide
  unfold permute
  rw [← Vector.foldl_toList, constants, indices, List.foldl_map, List.foldl_map]
  exact (List.foldl_hom array (fun b index => (array_round b index).symm)).symm

end BatchDigest.Keccak
