import Mathlib.Tactic.Choose
import BatchDigest.Proofs.Device.Footprint
import BatchDigest.Proofs.Kernel.Records

/-!
# A launch is all or nothing

A launch of any kernel over memories, whatever their lengths and whether they are the same or not.
It is refused before anything is written when the memories, the tables or the sizes are not what it
asks for (`Contents.Takes`). Otherwise the digests of the records replace the front of the output,
the digest of a record at the place of its number, and nothing else changes. Only a kernel that
crashes on a record could stop in between, so the kernels here digest every record.
-/

namespace BatchDigest

namespace Kernel

variable {k : Kernel}

/-- The digests of the pieces of a text, one after the other. -/
theorem mapM_digest {tables : k.Tables} {digest : Bytes → Bytes}
    (total : ∀ record, k.digest tables record = .ok (digest record)) (size count : Nat)
    (text : Bytes) :
    (List.range count).mapM (fun i => k.digest tables ((text.drop (i * size)).take size)) =
      .ok ((Bytes.pieces size count text).map digest) := by
  have each : (fun i => k.digest tables ((text.drop (i * size)).take size)) =
      fun i => pure (digest ((text.drop (i * size)).take size)) := by
    funext i
    exact total _
  rw [each, List.mapM_pure, Bytes.pieces_eq_map, List.map_map]
  rfl

/-- A digest has its size. -/
theorem length_digest {tables : k.Tables} {record digest : Bytes}
    (digested : k.digest tables record = .ok digest) : digest.length = k.digestSize := by
  unfold Kernel.digest at digested
  cases final : k.finalState tables record with
  | error crash =>
    rw [final] at digested
    cases digested
  | ok state =>
    rw [final] at digested
    dsimp only at digested
    by_cases short : state.length < k.digestSize
    · rw [if_pos short] at digested
      cases digested
    · rw [if_neg short] at digested
      cases digested
      rw [List.length_take]
      omega

end Kernel

namespace Contents

variable {k : Kernel} {c : Contents} {input output : MemoryId} {constants : Option MemoryId}
  {recordLength batch : Nat}

/-- The tables that a launch reads. A launch without tables reads none. -/
def staged (c : Contents) (constants : Option MemoryId) : Bytes :=
  (constants.map c.memory).getD []

/-- What a launch of some records asks for. -/
structure Takes (c : Contents) (k : Kernel) (input output : MemoryId) (constants : Option MemoryId)
    (recordLength batch : Nat) : Prop where
  apart : input ≠ output
  loads : ∃ tables, k.load (c.staged constants) = .ok tables
  inputFits : recordLength * batch ≤ Size.largest
  outputFits : k.digestSize * batch ≤ Size.largest
  inputRoom : recordLength * batch ≤ (c.memory input).length
  outputRoom : k.digestSize * batch ≤ (c.memory output).length

/-- A memory set to what it holds. -/
theorem setMemory_memory (c : Contents) (id : MemoryId) : c.setMemory id (c.memory id) = c := by
  refine eq_of_agrees ?_
  intro r
  by_cases same : r = .memory id
  · subst same
    show (c.memories.set id.index (c.memory id))[id.index]? = c.memories[id.index]?
    by_cases known : id.index < c.memories.length
    · unfold memory
      rw [List.getElem?_set_self known, List.getElem?_eq_getElem known]
      rfl
    · rw [List.set_eq_of_length_le (Nat.le_of_not_lt known)]
  · exact agrees_setMemory _ same

/-- A launch writes its output at most. -/
theorem agrees_run {r : Region} (other : r ≠ .memory output) :
    (c.run k input output constants recordLength batch).result.Agrees c r :=
  agrees_setMemory _ other

/-- A launch of no records. -/
theorem run_zero : c.run k input output constants recordLength 0 = .success c := by
  unfold run Kernel.execute
  dsimp only
  rw [if_pos rfl]
  show Outcome.success (c.setMemory output (c.memory output)) = _
  rw [setMemory_memory]

/-- A launch that is refused. -/
theorem run_of_not_takes (some : batch ≠ 0)
    (refused : ¬ c.Takes k input output constants recordLength batch) :
    ∃ refusal, c.run k input output constants recordLength batch = .failed c refusal := by
  unfold run Kernel.execute
  dsimp only
  rw [if_neg some]
  cases prepared : k.prepare (input == output) (c.memory input).length (c.memory output).length
      (constants.map c.memory) recordLength batch with
  | error refusal =>
    refine ⟨refusal, ?_⟩
    show Outcome.failed (c.setMemory output (c.memory output)) refusal = _
    rw [setMemory_memory]
  | ok tables =>
    obtain ⟨apart, loaded, fits, rooms⟩ := Kernel.of_prepare prepared
    refine absurd ⟨?_, ⟨tables, loaded⟩, fits.1, fits.2, rooms.1, rooms.2⟩ refused
    intro same
    rw [same, beq_self_eq_true] at apart
    cases apart

/-- A launch that is not refused. -/
theorem run_of_takes (digests : k.digestSize ≠ 0) {tables : k.Tables} {digest : Bytes → Bytes}
    (total : ∀ record, k.digest tables record = .ok (digest record))
    (loaded : k.load (c.staged constants) = .ok tables)
    (takes : c.Takes k input output constants recordLength batch) :
    c.run k input output constants recordLength batch =
      .success (c.setMemory output
        ((Bytes.pieces recordLength batch (c.memory input)).flatMap digest ++
          (c.memory output).drop (k.digestSize * batch))) := by
  have differ : (input == output) = false := beq_false_of_ne takes.apart
  have executed := Kernel.execute_eq loaded total digests takes.inputFits takes.outputFits
    takes.inputRoom takes.outputRoom
  unfold run
  rw [differ, executed]
  rfl

/-- No launch changes its input. A launch onto its own input is refused. -/
theorem memory_input_run :
    (c.run k input output constants recordLength batch).result.memory input = c.memory input := by
  by_cases same : input = output
  · have refused : ¬ c.Takes k input output constants recordLength batch :=
      fun takes => takes.apart same
    by_cases none : batch = 0
    · subst none
      rw [run_zero]
      rfl
    · obtain ⟨refusal, failed⟩ := run_of_not_takes none refused
      rw [failed]
      rfl
  · refine (agrees_run ?_).memory_eq
    intro equal
    exact same (Region.memory.inj equal)

section

variable (digests : 1 ≤ k.digestSize)
  (total : ∀ tables record, ∃ digest, k.digest tables record = .ok digest)
include digests total

/-- **What is taken succeeds, and nothing else.** -/
theorem failure_run_eq_none_iff (some : batch ≠ 0) :
    (c.run k input output constants recordLength batch).failure = none ↔
      c.Takes k input output constants recordLength batch := by
  constructor
  · intro ends
    by_contra refused
    obtain ⟨refusal, failed⟩ := run_of_not_takes some refused
    rw [failed] at ends
    cases ends
  · intro takes
    choose digest digested using total
    obtain ⟨tables, loaded⟩ := takes.loads
    rw [run_of_takes (by omega) (digested tables) loaded takes]
    rfl

/-- **What a launch leaves of its output**: the digests of the records in their order, and what
stood behind them. -/
theorem memory_output_run {tables : k.Tables}
    (takes : c.Takes k input output constants recordLength batch)
    (loaded : k.load (c.staged constants) = .ok tables) :
    ∃ row, (List.range batch).mapM (fun i => k.digest tables
        (((c.memory input).drop (i * recordLength)).take recordLength)) = .ok row ∧
      row.flatten.length = k.digestSize * batch ∧
      (c.run k input output constants recordLength batch).result.memory output =
        row.flatten ++ (c.memory output).drop (k.digestSize * batch) := by
  choose digest digested using total tables
  have size : ((Bytes.pieces recordLength batch (c.memory input)).flatMap digest).length =
      k.digestSize * batch := by
    rw [Bytes.length_flatMap _ fun record => Kernel.length_digest (digested record),
      Bytes.length_pieces]
  have room := takes.outputRoom
  refine ⟨_, Kernel.mapM_digest digested _ _ _, ?_, ?_⟩
  · rw [← List.flatMap_def, size]
  · rw [← List.flatMap_def, run_of_takes (by omega) digested loaded takes]
    refine memory_setMemory (.inr ?_)
    rw [List.length_append, size, List.length_drop]
    omega

end

end Contents

/-- **A launch of any kernel is correct, and all or nothing.** A kernel that digests every record
succeeds exactly on what a launch asks for, and then the digests of the records stand one after the
other at the front of the output. A launch that fails changes nothing, and no launch changes its
input, its tables or anything else. -/
theorem run_correct (k : Kernel) (digests : 1 ≤ k.digestSize)
    (total : ∀ tables record, ∃ digest, k.digest tables record = .ok digest) (c : Contents)
    (input output : MemoryId) (constants : Option MemoryId) (apart : constants ≠ some output)
    (recordLength batch : Nat) :
    let o := c.run k input output constants recordLength batch
    (batch = 0 → o = .success c) ∧
    (batch ≠ 0 →
      (o.failure = none ↔ c.Takes k input output constants recordLength batch)) ∧
    (batch ≠ 0 → o.failure = none → ∀ tables, k.load (c.staged constants) = .ok tables →
      ∃ row, (List.range batch).mapM (fun i => k.digest tables
          (((c.memory input).drop (i * recordLength)).take recordLength)) = .ok row ∧
        row.flatten.length = k.digestSize * batch ∧
        o.result.memory output =
          row.flatten ++ (c.memory output).drop (k.digestSize * batch)) ∧
    (o.failure ≠ none → o.result = c) ∧
    (o.result.memory input = c.memory input ∧
      ∀ id, constants = some id → o.result.memory id = c.memory id) ∧
    ∀ r, r ≠ .memory output → o.result.Agrees c r := by
  intro o
  have taken : batch ≠ 0 →
      (o.failure = none ↔ c.Takes k input output constants recordLength batch) :=
    Contents.failure_run_eq_none_iff digests total
  have kept : ∀ r, r ≠ .memory output → o.result.Agrees c r := fun r => Contents.agrees_run
  refine ⟨?_, taken, ?_, ?_, ⟨Contents.memory_input_run, ?_⟩, kept⟩
  · rintro rfl
    exact Contents.run_zero
  · intro some ends tables loaded
    exact Contents.memory_output_run digests total ((taken some).1 ends) loaded
  · intro fails
    by_cases none : batch = 0
    · subst none
      exact congrArg Outcome.result Contents.run_zero
    · have refused : ¬ c.Takes k input output constants recordLength batch :=
        fun takes => fails ((taken none).2 takes)
      obtain ⟨refusal, failed⟩ := Contents.run_of_not_takes none refused
      exact congrArg Outcome.result failed
  · intro id staged
    refine (kept (.memory id) ?_).memory_eq
    intro same
    cases same
    exact apart staged

/-- A kernel of one byte: the bytes of a record combined with the staged one, by exclusive or. -/
def Kernel.parity : Kernel where
  Tables := UInt8
  digestSize := 1
  blob := .ok [0x5a]
  load := fun staged => match staged with
    | byte :: _ => .ok byte
    | [] => .error (.short "parity" 0 1)
  finalState := fun byte record => .ok [record.foldl (· ^^^ ·) byte]

/-- Three records of two bytes, with a byte too many in either region. -/
theorem run_parity :
    let c : Contents := ⟨[[1, 2, 3, 4, 5, 6, 9], [0, 0, 0, 7], [0x5a]], [], []⟩
    let o := c.run .parity ⟨0⟩ ⟨1⟩ (some ⟨2⟩) 2 3
    1 ≤ Kernel.parity.digestSize ∧
    (∀ tables record, ∃ digest, Kernel.parity.digest tables record = .ok digest) ∧
    some (⟨2⟩ : MemoryId) ≠ some ⟨1⟩ ∧
    o.failure = none ∧ o.result.memory ⟨1⟩ = [0x59, 0x5d, 0x59, 7] := by
  intro c o
  have digests : 1 ≤ Kernel.parity.digestSize := Nat.le_refl 1
  have total : ∀ tables record, ∃ digest, Kernel.parity.digest tables record = .ok digest :=
    fun _ _ => ⟨_, rfl⟩
  have apart : some (⟨2⟩ : MemoryId) ≠ some ⟨1⟩ := by decide
  obtain ⟨-, taken, written, -⟩ :=
    run_correct .parity digests total c ⟨0⟩ ⟨1⟩ (some ⟨2⟩) apart 2 3
  have takes : c.Takes .parity ⟨0⟩ ⟨1⟩ (some ⟨2⟩) 2 3 :=
    ⟨by decide, ⟨(0x5a : UInt8), rfl⟩, by decide, by decide, by decide, by decide⟩
  have ends : o.failure = none := (taken (by decide)).2 takes
  obtain ⟨row, digested, -, left⟩ := written (by decide) ends (0x5a : UInt8) rfl
  obtain rfl : [[0x59], [0x5d], [0x59]] = row := Except.ok.inj digested
  exact ⟨digests, total, apart, ends, left⟩

end BatchDigest
