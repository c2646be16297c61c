import BatchDigest.Kernel.Launch
import BatchDigest.Proofs.Kernel.Total

/-!
# What a launch writes

A launch of a kernel that never crashes, over regions that are apart and large enough, writes the
digests of its records one after the other, each made from its own piece of the input. A digest can
be read back by its number: it stands where its record stood, measured in digests.
-/

namespace BatchDigest

namespace Bytes

theorem pieces_succ (size count : Nat) (bytes : Bytes) :
    pieces size (count + 1) bytes = bytes.take size :: pieces size count (bytes.drop size) := rfl

theorem length_pieces (size count : Nat) (bytes : Bytes) :
    (pieces size count bytes).length = count := by
  induction count generalizing bytes with
  | zero => rfl
  | succ count ih => exact congrArg Nat.succ (ih _)

/-- The piece of a number. -/
theorem getElem?_pieces (size : Nat) {count i : Nat} (inside : i < count) (bytes : Bytes) :
    (pieces size count bytes)[i]? = some ((bytes.drop (i * size)).take size) := by
  induction count generalizing bytes i with
  | zero => exact absurd inside (Nat.not_lt_zero i)
  | succ count ih =>
    cases i with
    | zero =>
      rw [Nat.zero_mul, List.drop_zero]
      rfl
    | succ i =>
      show (pieces size count (bytes.drop size))[i]? = _
      rw [ih (Nat.lt_of_succ_lt_succ inside), List.drop_drop, Nat.succ_mul, Nat.add_comm]

/-- The pieces by their numbers. -/
theorem pieces_eq_map (size count : Nat) (bytes : Bytes) :
    pieces size count bytes =
      (List.range count).map fun i => (bytes.drop (i * size)).take size := by
  refine List.ext_getElem? ?_
  intro i
  rw [List.getElem?_map]
  by_cases inside : i < count
  · rw [List.getElem?_range inside, getElem?_pieces size inside, Option.map_some]
  · rw [List.getElem?_eq_none (by rw [length_pieces]; omega),
      List.getElem?_eq_none (by rw [List.length_range]; omega)]
    rfl

/-- Pieces depend on the bytes in them only. -/
theorem pieces_take (size count : Nat) (bytes : Bytes) :
    pieces size count (bytes.take (size * count)) = pieces size count bytes := by
  induction count generalizing bytes with
  | zero => rfl
  | succ count ih =>
    have inside := Nat.le_mul_of_pos_right size (Nat.succ_pos count)
    rw [pieces_succ, pieces_succ, List.take_take, Nat.min_eq_left inside, Nat.mul_succ,
      Nat.add_comm, List.drop_take, Nat.add_sub_cancel_left, ih]

/-- Pieces of no bytes are all alike. -/
theorem pieces_zero (count : Nat) (a b : Bytes) : pieces 0 count a = pieces 0 count b := by
  rw [← pieces_take 0 count a, ← pieces_take 0 count b, Nat.zero_mul, List.take_zero,
    List.take_zero]

/-- What is written for one item after the other can be read back by the number of the item. -/
theorem read_flatMap {α : Type} {write : α → Bytes} {size : Nat}
    (sizes : ∀ item, (write item).length = size) {items : List α} {i : Nat} {item : α}
    (at' : items[i]? = some item) :
    ((items.flatMap write).drop (i * size)).take size = write item := by
  induction items generalizing i with
  | nil => cases at'
  | cons first rest ih =>
    rw [List.flatMap_cons]
    cases i with
    | zero =>
      cases at'
      rw [Nat.zero_mul, List.drop_zero, ← sizes item, List.take_left]
    | succ i =>
      rw [Nat.succ_mul, Nat.add_comm, ← List.drop_drop, ← sizes first, List.drop_left, sizes first]
      exact ih at'

end Bytes

namespace Kernel

variable {k : Kernel} {tables : k.Tables} {digest : Bytes → Bytes}

/-- A kernel that digests every record writes the digests and leaves what is behind them. -/
theorem hashRecords_eq (total : ∀ record, k.digest tables record = .ok (digest record))
    (recordLength count : Nat)
    (input output : Bytes) (room : k.digestSize * count ≤ output.length) :
    k.hashRecords tables recordLength count input output =
      .success ((Bytes.pieces recordLength count input).flatMap digest ++
        output.drop (k.digestSize * count)) := by
  induction count generalizing input output with
  | zero => rfl
  | succ count ih =>
    have front : (output.take k.digestSize).length = k.digestSize := by
      rw [List.length_take, Nat.mul_succ] at *
      omega
    have back : k.digestSize * count ≤ (output.drop k.digestSize).length := by
      rw [List.length_drop, Nat.mul_succ] at *
      omega
    unfold hashRecords
    dsimp only
    rw [digestInto_of_digest_eq_ok (total _) front, ih _ _ back]
    rw [Bytes.pieces_succ, List.flatMap_cons, List.append_assoc, List.drop_drop, Nat.mul_succ,
      Nat.add_comm k.digestSize]
    rfl

/-- The checks of a launch whose tables are fit to load, in sizes that do not overflow. -/
theorem prepare_of_loaded {staged : Option Bytes} {recordLength count : Nat}
    (loaded : k.load (staged.getD []) = .ok tables) (digests : k.digestSize ≠ 0)
    (inputFits : recordLength * count ≤ Size.largest)
    (outputFits : k.digestSize * count ≤ Size.largest) (aliased : Bool)
    (inputLength outputLength : Nat) :
    k.prepare aliased inputLength outputLength staged recordLength count =
      if aliased then .error .aliased
      else if inputLength < recordLength * count then
        .error (.shortInput inputLength count recordLength (recordLength * count))
      else if outputLength < k.digestSize * count then
        .error (.shortOutput outputLength count k.digestSize (k.digestSize * count))
      else .ok tables := by
  have hinput := Size.mul?_eq_some_iff.2 ⟨inputFits, rfl⟩
  have houtput := Size.mul?_eq_some_iff.2 ⟨outputFits, rfl⟩
  have loads : (Except.ok tables).mapError LaunchError.tables = .ok tables := rfl
  unfold prepare
  rw [loaded, hinput, houtput, loads]
  cases aliased with
  | true => rfl
  | false =>
    simp only [bind, Except.bind, pure, Except.pure, Bool.false_eq_true, if_false, if_neg digests]
    split
    · rfl
    · split <;> rfl

/-- Regions that are apart and large enough, in sizes that do not overflow, are taken. -/
theorem prepare_eq {inputLength outputLength : Nat} {staged : Option Bytes}
    {recordLength count : Nat}
    (loaded : k.load (staged.getD []) = .ok tables) (digests : k.digestSize ≠ 0)
    (inputFits : recordLength * count ≤ Size.largest)
    (outputFits : k.digestSize * count ≤ Size.largest)
    (input : recordLength * count ≤ inputLength) (output : k.digestSize * count ≤ outputLength) :
    k.prepare false inputLength outputLength staged recordLength count = .ok tables := by
  rw [prepare_of_loaded loaded digests inputFits outputFits, if_neg Bool.false_ne_true,
    if_neg (Nat.not_lt.2 input), if_neg (Nat.not_lt.2 output)]

/-- What is taken is apart and large enough, in sizes that do not overflow. -/
theorem of_prepare {aliased : Bool} {inputLength outputLength : Nat} {staged : Option Bytes}
    {recordLength count : Nat}
    (prepared : k.prepare aliased inputLength outputLength staged recordLength count = .ok tables) :
    aliased = false ∧ k.load (staged.getD []) = .ok tables ∧
      (recordLength * count ≤ Size.largest ∧ k.digestSize * count ≤ Size.largest) ∧
      recordLength * count ≤ inputLength ∧ k.digestSize * count ≤ outputLength := by
  unfold prepare Size.mul? at prepared
  cases aliased with
  | true => cases prepared
  | false =>
    cases loaded : k.load (staged.getD []) with
    | error refusal =>
      rw [loaded] at prepared
      cases prepared
    | ok held =>
      rw [loaded] at prepared
      by_cases inputFits : recordLength * count ≤ Size.largest
      · rw [if_pos inputFits] at prepared
        by_cases outputFits : k.digestSize * count ≤ Size.largest
        · rw [if_pos outputFits] at prepared
          -- What is left of the checks, with each refusal brought to its end.
          change (if inputLength < recordLength * count then .error _
            else if outputLength < k.digestSize * count then .error _
            else if k.digestSize = 0 then .error _ else .ok held) =
              (.ok tables : Except LaunchError k.Tables) at prepared
          split at prepared
          · cases prepared
          · split at prepared
            · cases prepared
            · split at prepared
              · cases prepared
              · cases prepared
                exact ⟨rfl, rfl, ⟨inputFits, outputFits⟩, by omega, by omega⟩
        · rw [if_neg outputFits] at prepared
          cases prepared
      · rw [if_neg inputFits] at prepared
        cases prepared

/-- **What a launch writes**: the digests of the records, and nothing behind them. -/
theorem execute_eq {input output : Bytes} {staged : Option Bytes} {recordLength count : Nat}
    (loaded : k.load (staged.getD []) = .ok tables)
    (total : ∀ record, k.digest tables record = .ok (digest record)) (digests : k.digestSize ≠ 0)
    (inputFits : recordLength * count ≤ Size.largest)
    (outputFits : k.digestSize * count ≤ Size.largest)
    (inputRoom : recordLength * count ≤ input.length)
    (outputRoom : k.digestSize * count ≤ output.length) :
    k.execute false input output staged recordLength count =
      .success ((Bytes.pieces recordLength count input).flatMap digest ++
        output.drop (k.digestSize * count)) := by
  unfold execute
  by_cases none : count = 0
  · subst none
    rfl
  · rw [if_neg none, prepare_eq loaded digests inputFits outputFits inputRoom outputRoom]
    dsimp only
    rw [hashRecords_eq total recordLength count input output outputRoom]
    rfl

end Kernel

end BatchDigest
