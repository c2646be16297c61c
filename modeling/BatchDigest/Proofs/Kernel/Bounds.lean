import BatchDigest.Proofs.Kernel.Bits
import BatchDigest.Proofs.Kernel.Blocks

/-!
# Accesses with bounds

The kernels read rows of words by numbers that are in range because of their types, and strings of
bytes with zeros past the end. Here the same accesses say when they leave their bounds: an index of
a row or a string, a range of a string, a copy between strings, a difference. Each of them has a
lemma that it succeeds in bounds, and what it gives then.
-/

namespace BatchDigest

/-- How an access leaves its bounds. -/
inductive Stray where
  | index (length index : Nat)
  | range (start stop length : Nat)
  /-- A copy of fewer or more bytes than there is room for. -/
  | lengths (target source : Nat)
  /-- A difference below zero. -/
  | below (a b : Nat)
  /-- Blocks of no bytes. -/
  | emptyBlocks
deriving Repr, DecidableEq

/-- A computation that ends at the first access out of bounds. -/
abbrev Guarded := Except Stray

namespace Guarded

variable {α β σ : Type} {n : Nat}

/-- An entry of a row. -/
def get (row : Vector α n) (i : Nat) : Guarded α :=
  if inside : i < n then .ok row[i] else .error (.index n i)

/-- A row with an entry replaced. -/
def set (row : Vector α n) (i : Nat) (value : α) : Guarded (Vector α n) :=
  if inside : i < n then .ok (row.set i value inside) else .error (.index n i)

/-- A difference. -/
def sub (a b : Nat) : Guarded Nat :=
  if b ≤ a then .ok (a - b) else .error (.below a b)

/-- A range of a string. -/
def slice (bytes : Bytes) (start stop : Nat) : Guarded Bytes :=
  if start ≤ stop ∧ stop ≤ bytes.length then .ok ((bytes.take stop).drop start)
  else .error (.range start stop bytes.length)

/-- All bytes of a string as a row. -/
def array (n : Nat) (bytes : Bytes) : Guarded (Vector UInt8 n) :=
  if bytes.length = n then .ok (bytes.toVector n) else .error (.lengths n bytes.length)

/-- A string that is replaced as a whole. -/
def copy (target source : Bytes) : Guarded Bytes :=
  if target.length = source.length then .ok source
  else .error (.lengths target.length source.length)

/-- A string with a range replaced. -/
def copyInto (bytes : Bytes) (start stop : Nat) (source : Bytes) : Guarded Bytes := do
  let copied ← copy (← slice bytes start stop) source
  return bytes.take start ++ copied ++ bytes.drop stop

/-- A string with a byte changed. -/
def change (bytes : Bytes) (i : Nat) (f : UInt8 → UInt8) : Guarded Bytes :=
  if inside : i < bytes.length then .ok (bytes.set i (f bytes[i]))
  else .error (.index bytes.length i)

/-- The complete blocks of a string. -/
def blocks (size : Nat) (bytes : Bytes) : Guarded (List Bytes) :=
  if size = 0 then .error .emptyBlocks else .ok (Bytes.blocks size bytes)

/-- A row in which each entry takes in the complete block of its number, as far as there are
blocks. -/
def takeBlocks (size : Nat) (bytes : Bytes) (row : Vector α n) (step : α → Vector UInt8 size → α) :
    Guarded (Vector α n) := do
  let parts ← blocks size bytes
  Vector.ofFnM fun i =>
    match parts[i.val]? with
    | some part => do return step (row.get i) (← array size part)
    | none => return row.get i

/-- The bytes of a row of lanes, written over a buffer up to its end. -/
def writeLanes (lanes : Vector UInt64 n) (buffer : Bytes) : Guarded Bytes :=
  (List.range buffer.length).mapM fun i => do
    let lane ← get lanes (i / 8)
    return (lane >>> (8 * (i % 8)).toUInt64).toUInt8

/-! ## In bounds -/

/-- What follows a computation that stays in bounds. -/
theorem ok_bind (a : α) (next : α → Guarded β) : ((Except.ok a : Guarded α) >>= next) = next a :=
  rfl

/-- A computation stays in bounds when each of its parts does. -/
theorem bind_eq_ok {x : Guarded α} {next : α → Guarded β} {result : β} :
    x >>= next = .ok result ↔ ∃ a, x = .ok a ∧ next a = .ok result := by
  cases x with
  | ok a => exact ⟨fun ran => ⟨a, rfl, ran⟩, fun ⟨_, same, ran⟩ => Except.ok.inj same ▸ ran⟩
  | error stray =>
    constructor
    · intro ran
      cases ran
    · rintro ⟨_, same, _⟩
      cases same

theorem get_ok (row : Vector α n) {i : Nat} (inside : i < n) :
    get row i = .ok (row.get ⟨i, inside⟩) :=
  dif_pos inside

theorem set_ok (row : Vector α n) {i : Nat} (inside : i < n) (value : α) :
    set row i value = .ok (row.set i value inside) :=
  dif_pos inside

theorem sub_ok {a b : Nat} (le : b ≤ a) : sub a b = .ok (a - b) :=
  if_pos le

theorem slice_ok {bytes : Bytes} {start stop : Nat} (ordered : start ≤ stop)
    (inside : stop ≤ bytes.length) : slice bytes start stop = .ok ((bytes.take stop).drop start) :=
  if_pos ⟨ordered, inside⟩

theorem array_ok {bytes : Bytes} (size : bytes.length = n) :
    array n bytes = .ok (bytes.toVector n) :=
  if_pos size

theorem copy_ok {target source : Bytes} (same : target.length = source.length) :
    copy target source = .ok source :=
  if_pos same

theorem blocks_ok {size : Nat} (positive : 0 < size) (bytes : Bytes) :
    blocks size bytes = .ok (Bytes.blocks size bytes) :=
  if_neg (Nat.ne_of_gt positive)

/-- A copy replaces the range that a write replaces. -/
theorem copyInto_of_write {bytes data result : Bytes} {start : Nat}
    (written : bytes.write start data = .ok result) :
    copyInto bytes start (start + data.length) data = .ok result := by
  unfold Bytes.write at written
  split at written
  next replaced found =>
    cases written
    obtain ⟨fits, rfl⟩ := Bytes.overwrite?_eq_some_iff.1 found
    have part : ((bytes.take (start + data.length)).drop start).length = data.length := by
      rw [List.length_drop, List.length_take]
      omega
    unfold copyInto
    rw [slice_ok (Nat.le_add_right _ _) fits]
    show (copy _ data >>= _) = _
    rw [copy_ok part]
    rfl
  next => cases written

/-- A byte is combined as a toggle combines it. -/
theorem change_of_toggle {bytes result : Bytes} {i : Nat} {value : UInt8}
    (toggled : bytes.toggle i value = .ok result) :
    change bytes i (· ^^^ value) = .ok result := by
  unfold Bytes.toggle at toggled
  split at toggled
  next byte found =>
    obtain ⟨inside, rfl⟩ := List.getElem?_eq_some_iff.1 found
    cases toggled
    exact dif_pos inside
  next => cases toggled

/-- A single byte is replaced as by a write of one byte. -/
theorem change_of_write {bytes result : Bytes} {i : Nat} {value : UInt8}
    (written : bytes.write i [value] = .ok result) :
    change bytes i (fun _ => value) = .ok result := by
  unfold Bytes.write at written
  split at written
  next replaced found =>
    cases written
    obtain ⟨fits, rfl⟩ := Bytes.overwrite?_eq_some_iff.1 found
    have inside : i < bytes.length := fits
    unfold change
    rw [dif_pos inside, List.set_eq_take_append_cons_drop, if_pos inside, List.append_assoc]
    rfl
  next => cases written

/-! ## Loops in bounds -/

/-- A loop whose steps all succeed. -/
theorem foldlM_ok {f : σ → α → Guarded σ} {g : σ → α → σ} {items : List α}
    (same : ∀ x ∈ items, ∀ s, f s x = .ok (g s x)) (s : σ) :
    items.foldlM f s = .ok (items.foldl g s) := by
  induction items generalizing s with
  | nil => rfl
  | cons x rest ih =>
    rw [List.foldlM_cons, same x List.mem_cons_self]
    exact ih (fun y mem => same y (List.mem_cons_of_mem x mem)) (g s x)

/-- A loop that goes through given states. -/
theorem foldlM_states (f : σ → α → Guarded σ) (items : List α) (state : Nat → σ)
    (step : ∀ i x, items[i]? = some x → f (state i) x = .ok (state (i + 1))) :
    items.foldlM f (state 0) = .ok (state items.length) := by
  induction items generalizing state with
  | nil => rfl
  | cons x rest ih =>
    rw [List.foldlM_cons, step 0 x rfl]
    exact ih (fun i => state (i + 1)) fun i y at' => step (i + 1) y at'

theorem fin_foldlM_ok {f : σ → Fin n → Guarded σ} {g : σ → Fin n → σ}
    (same : ∀ s i, f s i = .ok (g s i)) (s : σ) : Fin.foldlM n f s = .ok (Fin.foldl n g s) := by
  rw [show f = fun s i => pure (g s i) from funext fun s => funext fun i => same s i]
  exact Fin.foldlM_pure

theorem vector_foldlM_ok {f : σ → α → Guarded σ} {g : σ → α → σ} {row : Vector α n}
    (same : ∀ x ∈ row, ∀ s, f s x = .ok (g s x)) (s : σ) :
    row.foldlM f s = .ok (row.foldl g s) := by
  rw [← Vector.foldlM_toList, ← Vector.foldl_toList]
  exact foldlM_ok (fun x mem => same x (Vector.mem_toList_iff.1 mem)) s

theorem ofFnM_ok {f : Fin n → Guarded α} {g : Fin n → α} (same : ∀ i, f i = .ok (g i)) :
    Vector.ofFnM f = .ok (Vector.ofFn g) := by
  rw [show f = fun i => pure (g i) from funext same]
  exact Vector.ofFnM_pure

theorem mapM_ok {f : α → Guarded β} {g : α → β} {items : List α}
    (same : ∀ x ∈ items, f x = .ok (g x)) : items.mapM f = .ok (items.map g) := by
  induction items with
  | nil => rfl
  | cons x rest ih =>
    have later := ih fun y mem => same y (List.mem_cons_of_mem x mem)
    rw [List.mapM_cons, same x List.mem_cons_self, later]
    rfl

/-- The complete block of a number. -/
theorem getElem?_blocks {size : Nat} (positive : 0 < size) (bytes : Bytes) (i : Nat) :
    (Bytes.blocks size bytes)[i]? =
      if size * (i + 1) ≤ bytes.length then some ((bytes.drop (size * i)).take size) else none := by
  unfold Bytes.blocks
  by_cases inside : i < bytes.length / size
  · have fits : size * (i + 1) ≤ bytes.length := by
      rw [Nat.mul_comm]
      exact (Nat.le_div_iff_mul_le positive).1 inside
    rw [if_pos fits, Bytes.getElem?_pieces size inside, Nat.mul_comm]
  · have misfit : ¬ size * (i + 1) ≤ bytes.length := by
      rw [Nat.mul_comm]
      exact fun fits => inside ((Nat.le_div_iff_mul_le positive).2 fits)
    rw [if_neg misfit, List.getElem?_eq_none (by rw [Bytes.length_pieces]; omega)]

/-- Blocks are taken in without a stray, however long the string is. -/
theorem takeBlocks_ok {size : Nat} (positive : 0 < size) (bytes : Bytes) (row : Vector α n)
    (step : α → Vector UInt8 size → α) : takeBlocks size bytes row step = .ok (Vector.ofFn fun i =>
      if size * (i.val + 1) ≤ bytes.length then
        step (row.get i) (Bytes.toVector size ((bytes.drop (size * i.val)).take size))
      else row.get i) := by
  unfold takeBlocks
  rw [blocks_ok positive]
  refine ofFnM_ok fun i => ?_
  rw [getElem?_blocks positive]
  by_cases fits : size * (i.val + 1) ≤ bytes.length
  · have length : ((bytes.drop (size * i.val)).take size).length = size := by
      rw [List.length_take, List.length_drop]
      rw [Nat.mul_succ] at fits
      omega
    rw [if_pos fits, if_pos fits]
    dsimp only
    rw [array_ok length]
    rfl
  · rw [if_neg fits, if_neg fits]
    rfl

end Guarded

namespace Bytes

/-- All bytes of a string are those of its row. -/
theorem toList_toVector {n : Nat} {bytes : Bytes} (size : bytes.length = n) :
    (bytes.toVector n).toList = bytes := by
  subst size
  refine List.ext_getElem (by simp) fun i inRow inside => ?_
  simp [toVector]

/-- The row of the bytes of a row. -/
theorem toVector_toList {n : Nat} (row : Vector UInt8 n) : toVector n row.toList = row := by
  refine Vector.ext fun i inside => ?_
  simp [toVector]

/-- The first bytes of a string, as a row. -/
theorem toVector_take (n : Nat) (bytes : Bytes) :
    toVector n (bytes.take n) = toVector n bytes := by
  refine Vector.ext fun i inside => ?_
  simp only [toVector, Vector.getElem_ofFn]
  rw [List.getElem?_take_of_lt inside]

/-- A byte of a word is what the shift by its place leaves. -/
theorem toUInt8_shiftRight (word : UInt64) {r : Nat} (small : r < 8) :
    (word >>> (8 * r).toUInt64).toUInt8 = UInt8.ofNat (word.toNat / 256 ^ r) := by
  have amount : (8 * r).toUInt64.toNat = 8 * r :=
    UInt64.toNat_ofNat_of_lt' (Nat.lt_trans (by omega : 8 * r < 64) (by decide))
  refine UInt8.toNat_inj.1 ?_
  rw [UInt64.toNat_toUInt8, UInt64.toNat_shiftRight, amount,
    Nat.mod_eq_of_lt (by omega : 8 * r < 64), Nat.shiftRight_eq_div_pow, Nat.pow_mul,
    UInt8.toNat_ofNat']

/-- The byte of a row of lanes at a place. -/
theorem getElem_ofWords64LE (words : List UInt64) (i : Nat)
    (inside : i < (ofWords64LE words).length) (row : i / 8 < words.length) :
    (ofWords64LE words)[i] = (words[i / 8] >>> (8 * (i % 8)).toUInt64).toUInt8 := by
  have within : i % 8 < 8 := Nat.mod_lt _ (by decide)
  have parts : (ofWords64LE words).drop (8 * (i / 8)) =
      ofNatLE 8 words[i / 8].toNat ++ ofWords64LE (words.drop (i / 8 + 1)) :=
    drop_flatMap (fun _ => length_ofNatLE 8 _) row
  have place : (ofWords64LE words)[i]? = ((ofWords64LE words).drop (8 * (i / 8)))[i % 8]? := by
    rw [List.getElem?_drop, Nat.div_add_mod]
  rw [toUInt8_shiftRight _ within, ← Option.some.injEq, ← List.getElem?_eq_getElem, place, parts,
    List.getElem?_append_left (by rw [length_ofNatLE]; exact within),
    List.getElem?_eq_getElem (by rw [length_ofNatLE]; exact within), getElem_ofNatLE]

end Bytes

/-- A buffer that is not longer than the lanes takes in the front of their bytes. -/
theorem Guarded.writeLanes_ok {n : Nat} (lanes : Vector UInt64 n) {buffer : Bytes}
    (short : buffer.length ≤ 8 * n) : Guarded.writeLanes lanes buffer =
      .ok ((Bytes.ofWords64LE lanes.toList).take buffer.length) := by
  have total : (Bytes.ofWords64LE lanes.toList).length = 8 * n := by simp
  have bytes : ∀ i ∈ List.range buffer.length, (do
      let lane ← Guarded.get lanes (i / 8)
      return (lane >>> (8 * (i % 8)).toUInt64).toUInt8 : Guarded UInt8) =
        .ok ((Bytes.ofWords64LE lanes.toList).getD i 0) := by
    intro i mem
    have inside := List.mem_range.1 mem
    have row : i / 8 < n := by omega
    have byte := Bytes.getElem_ofWords64LE lanes.toList i (by omega)
      (by rw [Vector.length_toList]; exact row)
    rw [Guarded.get_ok lanes row, List.getD_eq_getElem _ _ (by omega), byte]
    rfl
  unfold Guarded.writeLanes
  rw [Guarded.mapM_ok bytes]
  refine congrArg Except.ok (List.ext_getElem ?_ fun i left right => ?_)
  · rw [List.length_map, List.length_range, List.length_take, total, Nat.min_eq_left short]
  · rw [List.getElem_map, List.getElem_range, List.getElem_take,
      List.getD_eq_getElem _ _ (by rw [List.length_take] at right; omega)]

end BatchDigest
