import BatchDigest.Batch.Dispatch
import BatchDigest.Proofs.Device.Quiet
import BatchDigest.Proofs.Kernel.Records

/-!
# What the steps of a share come to

A share of a batch stages no bytes of its own: its tables were uploaded before, its records are
copied in, hashed, and their digests copied out. Each of these jobs has a plan (`Plan`), and each
delivers while the plans of the jobs before it are followed. What the last one leaves is the point:
the digests of the slice in its range of the output when the slice fits, and otherwise the bytes
that were there before, with the fault of the first step that failed.
-/

namespace BatchDigest

namespace Status

/-- The status of an operation that failed with the given fault, or did not fail. -/
def ofFault? : Option Fault → Status
  | none => complete
  | some fault => failed fault

@[simp] theorem fault?_ofFault? (fault? : Option Fault) : (ofFault? fault?).fault? = fault? := by
  cases fault? <;> rfl

theorem ofFault?_ne_pending (fault? : Option Fault) : ofFault? fault? ≠ pending := by
  cases fault? with
  | none => exact complete_ne_pending
  | some fault => exact failed_ne_pending fault

end Status

/-! ## Slices that fit -/

theorem Slice.stop_mul (s : Slice) (size : Nat) :
    s.stop * size = s.offset * size + size * s.count := by
  rw [Slice.stop, Nat.add_mul, Nat.mul_comm s.count]

namespace Batch

variable (b : Batch) (s : Slice) (size room : Nat)

/-- The record of a number. -/
def record (i : Nat) : Bytes :=
  (b.input.drop (i * b.recordLength)).take b.recordLength

/-- The input holds the records of a slice. -/
def HasInput : Prop :=
  b.recordLength = 0 ∨ s.stop * b.recordLength ≤ b.input.length

instance : Decidable (b.HasInput s) :=
  inferInstanceAs (Decidable (_ ∨ _))

/-- A slice fits when the input holds its records and `room` bytes of output hold its digests of
`size` bytes. -/
def Fits : Prop :=
  b.HasInput s ∧ s.stop * size ≤ room

instance : Decidable (b.Fits s size room) :=
  inferInstanceAs (Decidable (_ ∧ _))

/-- The fault of a slice whose records the input does not hold. -/
def inputFault (device : String) : Fault :=
  ⟨device, "memcpy:h2d", s!"records {s.offset}..{s.stop} need {s.stop * b.recordLength} input bytes, " ++
    s!"{b.input.length} given"⟩

/-- The fault of a slice whose digests do not fit into the output. -/
def outputFault (device : String) : Fault :=
  ⟨device, "memcpy:d2h", (CopyError.outPastBuffer (size * s.count) (s.offset * size) room).message⟩

/-- The fault with which the copy of the records ends, if it fails. -/
def copyFault? (device : String) : Option Fault :=
  if b.HasInput s then none else some (b.inputFault s device)

/-- The fault with which a slice ends, if it does not fit. -/
def fault? (device : String) : Option Fault :=
  if b.HasInput s then
    if s.stop * size ≤ room then none else some (outputFault s size room device)
  else some (b.inputFault s device)

theorem fault?_eq_none {device : String} :
    b.fault? s size room device = none ↔ b.Fits s size room := by
  unfold fault? Fits
  by_cases input : b.HasInput s <;> by_cases output : s.stop * size ≤ room <;> simp [input, output]

/-- The input bytes of a slice. -/
def bytes : Bytes :=
  (b.input.drop (s.offset * b.recordLength)).take
    (s.stop * b.recordLength - s.offset * b.recordLength)

/-- The records of a slice. -/
def records : List Bytes :=
  Bytes.pieces b.recordLength s.count (b.input.drop (s.offset * b.recordLength))

theorem length_records : (b.records s).length = s.count :=
  Bytes.length_pieces _ _ _

variable {b s} in
theorem length_bytes (input : b.HasInput s) : (b.bytes s).length = b.recordLength * s.count := by
  have stop := s.stop_mul b.recordLength
  unfold bytes
  rw [List.length_take, List.length_drop]
  rcases input with none | enough
  · simp [none]
  · omega

variable {b s} in
/-- A memory that starts with the bytes of a slice holds its records. -/
theorem pieces_bytes (input : b.HasInput s) (rest : Bytes) :
    Bytes.pieces b.recordLength s.count (b.bytes s ++ rest) = b.records s := by
  have stop : s.stop * b.recordLength - s.offset * b.recordLength = b.recordLength * s.count := by
    rw [s.stop_mul, Nat.add_sub_cancel_left]
  rw [← Bytes.pieces_take, ← length_bytes input, List.take_left]
  unfold bytes records
  rw [stop, Bytes.pieces_take]

/-- The records of a slice by their number in the batch. -/
theorem getElem?_records {i : Nat} (first : s.offset ≤ i) (last : i < s.stop) :
    (b.records s)[i - s.offset]? = some (b.record i) := by
  unfold Slice.stop at last
  unfold records record
  rw [Bytes.getElem?_pieces _ (by omega), List.drop_drop, ← Nat.add_mul,
    Nat.add_sub_of_le first]

end Batch

/-- The memory of tables, of which there may be none, decides facts about them. -/
theorem Place.elim_decides (memory? : Option MemoryId) (fact : Bytes → Prop) :
    Place.Decides (memory?.elim .nothing .memory)
      fun c => fact ((memory?.map c.memory).getD []) := by
  cases memory? with
  | none => exact fun _ _ _ => id
  | some memory => exact Place.memory_decides fact

/-! ## Contracts -/

/-- A batch with what its digests are and what its output held before. -/
structure Contract where
  algorithm : Algorithm
  batch : Batch
  /-- The staged tables. -/
  blob : Bytes
  tables : algorithm.kernel.Tables
  digest : Bytes → Bytes
  /-- The output before. -/
  initial : Bytes
  /-- The name of each queue. -/
  device : QueueId → String
  loaded : algorithm.kernel.load blob = .ok tables
  digests : ∀ record, algorithm.kernel.digest tables record = .ok (digest record)
  sizes : ∀ record, (digest record).length = algorithm.digestSize
  positive : algorithm.digestSize ≠ 0

/-- Where a share is hashed. -/
structure Site where
  slice : Slice
  queue : QueueId
  tables : StagedTables
  input : MemoryId
  output : MemoryId

namespace Contract

variable (k : Contract) (site : Site)

/-- The digest size. -/
def size : Nat :=
  k.algorithm.digestSize

/-- The range of the output that belongs to a slice. -/
def Covers (s : Slice) (i : Nat) : Prop :=
  s.offset * k.size ≤ i ∧ i < s.stop * k.size

/-- The digests of a slice. -/
def written (s : Slice) : Bytes :=
  (k.batch.records s).flatMap k.digest

theorem length_written (s : Slice) : (k.written s).length = k.size * s.count := by
  unfold written
  rw [Bytes.length_flatMap _ k.sizes, Batch.length_records]
  rfl

/-- Some bytes of the output are as they were before. -/
def Untouched (inside : Nat → Prop) (c : Contents) : Prop :=
  (c.buffer k.batch.output).length = k.initial.length ∧
    ∀ i, inside i → (c.buffer k.batch.output)[i]? = k.initial[i]?

theorem untouched_decides (inside : Nat → Prop) :
    (Place.bytes k.batch.output inside).Decides (k.Untouched inside) := by
  rintro c c' ⟨length, same⟩ ⟨size, old⟩
  exact ⟨length.trans size, fun i hi => (same i hi).trans (old i hi)⟩

/-! ## Plans -/

/-- The upload of the tables, of which there may be none. -/
def tablesPlan (queue : QueueId) (tables : StagedTables) : Plan where
  queue := queue
  job := ⟨"memcpy:h2d", [], tables.ready,
    tables.memory.elim (.plain .succeeds []) (.copyIn · 0 k.blob)⟩
  place := tables.memory.elim .nothing .memory
  before c := ((tables.memory.map c.memory).getD []).length = k.blob.length
  status := .complete
  result c := (tables.memory.map c.memory).getD [] = k.blob
  first := Place.elim_decides _ fun bytes => bytes.length = k.blob.length
  last := Place.elim_decides _ fun bytes => bytes = k.blob
  settles := Status.complete_ne_pending

/-- The input of a share has room for its records. -/
def HasRoom (bytes : Bytes) : Prop :=
  k.batch.recordLength * site.slice.count ≤ bytes.length ∧ bytes.length ≤ Size.largest

/-- The copy of the records. -/
def copyPlan (copied : EventId) : Plan where
  queue := site.queue
  job := ⟨"memcpy:h2d", [], copied,
    if k.batch.HasInput site.slice then .copyIn site.input 0 (k.batch.bytes site.slice)
    else .plain (.fails (k.batch.inputFault site.slice (k.device site.queue)).message) []⟩
  place := .memory site.input
  before c := k.HasRoom site (c.memory site.input)
  status := .ofFault? (k.batch.copyFault? site.slice (k.device site.queue))
  result c := k.HasRoom site (c.memory site.input) ∧ (k.batch.HasInput site.slice →
    Bytes.pieces k.batch.recordLength site.slice.count (c.memory site.input) =
      k.batch.records site.slice)
  first := Place.memory_decides (k.HasRoom site)
  last := Place.memory_decides fun bytes => k.HasRoom site bytes ∧ (k.batch.HasInput site.slice →
    Bytes.pieces k.batch.recordLength site.slice.count bytes = k.batch.records site.slice)
  settles := Status.ofFault?_ne_pending _

/-- The output of a share holds its digests exactly. -/
def IsExact (bytes : Bytes) : Prop :=
  bytes.length = k.size * site.slice.count ∧ bytes.length ≤ Size.largest

/-- The launch. -/
def launchPlan (copied computed : EventId) : Plan where
  queue := site.queue
  job := ⟨"kernel:" ++ k.algorithm.name, [copied, site.tables.ready], computed,
    .launch ⟨k.algorithm, site.input, site.output, site.tables.memory, k.batch.recordLength,
      site.slice.count⟩⟩
  place := .memory site.output
  before c := k.IsExact site (c.memory site.output)
  status := .ofFault? (k.batch.copyFault? site.slice (k.device site.queue))
  result c := k.IsExact site (c.memory site.output) ∧
    (k.batch.HasInput site.slice → c.memory site.output = k.written site.slice)
  first := Place.memory_decides (k.IsExact site)
  last := Place.memory_decides fun bytes => k.IsExact site bytes ∧
    (k.batch.HasInput site.slice → bytes = k.written site.slice)
  settles := Status.ofFault?_ne_pending _

/-- What a slice leaves of its range of the output. -/
def Settled (s : Slice) (c : Contents) : Prop :=
  (c.buffer k.batch.output).length = k.initial.length ∧ ∀ i, k.Covers s i →
    (c.buffer k.batch.output)[i]? =
      if k.batch.Fits s k.size k.initial.length then (k.written s)[i - s.offset * k.size]?
      else k.initial[i]?

/-- The copy of the digests. -/
def resultPlan (computed event : EventId) : Plan where
  queue := site.queue
  job := ⟨"memcpy:d2h", [computed], event,
    .copyOut k.batch.output (site.slice.offset * k.size) site.output (k.size * site.slice.count)⟩
  place := .bytes k.batch.output (k.Covers site.slice)
  before := k.Untouched (k.Covers site.slice)
  status := .ofFault? (k.batch.fault? site.slice k.size k.initial.length (k.device site.queue))
  result := k.Settled site.slice
  first := k.untouched_decides _
  last := by
    rintro c c' ⟨length, same⟩ ⟨size, old⟩
    exact ⟨length.trans size, fun i hi => (same i hi).trans (old i hi)⟩
  settles := Status.ofFault?_ne_pending _

/-! ## The plans deliver -/

section

open Machine

variable {k site} {m : Machine} {queues : List QueueId}

theorem tablesPlan_delivers (queue : QueueId) (tables : StagedTables) :
    (k.tablesPlan queue tables).Delivers m := by
  rintro s c verdict (before : ((tables.memory.map m.contents.memory).getD []).length = _)
  obtain ⟨rfl, rfl⟩ := verdict.of_complete nofun
  cases tables with
  | mk algorithm memory? ready =>
    cases memory? with
    | none => exact ⟨rfl, (List.length_eq_zero_iff.1 before.symm).symm⟩
    | some memory =>
      have uploaded : (m.contents.memory memory).overwrite? 0 k.blob = some k.blob :=
        Bytes.overwrite?_eq_some_iff.2 ⟨by simp_all, by simp_all⟩
      show Job.verdict _ _ (Work.perform m.contents (.copyIn memory 0 k.blob)).failure = .complete ∧
        (Work.perform m.contents (.copyIn memory 0 k.blob)).result.memory memory = k.blob
      rw [Work.perform_copyIn, uploaded]
      exact ⟨rfl, Contents.memory_setMemory (.inr before.symm)⟩

theorem copyPlan_delivers (named : m.queueName site.queue = k.device site.queue)
    (copied : EventId) : (k.copyPlan site copied).Delivers m := by
  rintro s c verdict (before : k.HasRoom site (m.contents.memory site.input))
  obtain ⟨rfl, rfl⟩ := verdict.of_complete nofun
  obtain ⟨room, small⟩ := before
  unfold copyPlan Batch.copyFault?
  dsimp only
  by_cases input : k.batch.HasInput site.slice
  · have length := Batch.length_bytes input
    have replaced : (m.contents.memory site.input).overwrite? 0 (k.batch.bytes site.slice) =
        some (k.batch.bytes site.slice ++
          (m.contents.memory site.input).drop (k.batch.bytes site.slice).length) :=
      Bytes.overwrite?_eq_some_iff.2 ⟨by omega, by simp⟩
    have same := Bytes.length_of_overwrite? replaced
    rw [if_pos input, if_pos input, Work.perform_copyIn, replaced]
    refine ⟨rfl, ?_⟩
    have after := Contents.memory_setMemory (c := m.contents) (.inr same)
    show k.HasRoom site ((m.contents.setMemory _ _).memory site.input) ∧
      (k.batch.HasInput site.slice → Bytes.pieces _ _ ((m.contents.setMemory _ _).memory _) = _)
    rw [after]
    exact ⟨⟨by omega, by omega⟩, fun _ => Batch.pieces_bytes input _⟩
  · rw [if_neg input, if_neg input, named]
    exact ⟨rfl, ⟨room, small⟩, fun other => absurd other input⟩

/-- A launch over the records and tables of a share writes its digests. -/
theorem perform_launch {c : Contents} (room : k.HasRoom site (c.memory site.input))
    (exact' : k.IsExact site (c.memory site.output))
    (records : Bytes.pieces k.batch.recordLength site.slice.count (c.memory site.input) =
      k.batch.records site.slice)
    (staged : (site.tables.memory.map c.memory).getD [] = k.blob)
    (apart : site.input ≠ site.output) :
    (Work.launch ⟨k.algorithm, site.input, site.output, site.tables.memory, k.batch.recordLength,
      site.slice.count⟩).perform c = .success (c.setMemory site.output (k.written site.slice)) := by
  have size := k.algorithm.digestSize_kernel
  have loaded : k.algorithm.kernel.load ((site.tables.memory.map c.memory).getD []) =
      .ok k.tables := by
    rw [staged]
    exact k.loaded
  have outputFits : k.algorithm.kernel.digestSize * site.slice.count ≤ Size.largest := by
    rw [size]
    exact Nat.le_trans (Nat.le_of_eq exact'.1.symm) exact'.2
  have executed := Kernel.execute_eq loaded k.digests
    (by rw [size]; exact k.positive) (Nat.le_trans room.1 room.2) outputFits room.1
    (by rw [size]; exact Nat.le_of_eq exact'.1.symm)
  have nothing :
      (c.memory site.output).drop (k.algorithm.kernel.digestSize * site.slice.count) = [] := by
    rw [size]
    exact List.drop_eq_nil_of_le (Nat.le_of_eq exact'.1)
  rw [records, nothing, List.append_nil] at executed
  have differ : (site.input == site.output) = false := by simpa using apart
  show (c.launch _).mapFailure WorkError.launch = _
  unfold Contents.launch Contents.run
  dsimp only
  rw [differ, executed]
  rfl

/-- The launch of a share: the kernel loads the tables and hashes the records, unless the records
were not copied. -/
theorem launchPlan_delivers {copied computed : EventId}
    (first : m.Follows (k.copyPlan site copied))
    (tables : m.Follows (k.tablesPlan site.queue site.tables)) (apart : site.input ≠ site.output) :
    (k.launchPlan site copied computed).Delivers m := by
  rintro s c verdict (before : k.IsExact site (m.contents.memory site.output))
  have resolved := verdict.cases.1
  obtain ⟨copy, ⟨room, small⟩, records⟩ := first.of_resolved (resolved _ List.mem_cons_self)
  obtain ⟨upload, staged⟩ := tables.of_resolved
    (resolved _ (List.mem_cons_of_mem _ List.mem_cons_self))
  change m.status copied = .ofFault? (k.batch.copyFault? site.slice (k.device site.queue)) at copy
  change m.status site.tables.ready = .complete at upload
  change (site.tables.memory.map m.contents.memory).getD [] = k.blob at staged
  by_cases input : k.batch.HasInput site.slice
  · have none : k.batch.copyFault? site.slice (k.device site.queue) = none := if_pos input
    have status : (k.launchPlan site copied computed).status = .complete :=
      congrArg Status.ofFault? none
    rw [none] at copy
    obtain ⟨rfl, rfl⟩ := verdict.of_complete (by
      intro d mem
      rcases List.mem_cons.1 mem with rfl | mem
      · exact copy
      · rw [List.mem_singleton.1 mem]
        exact upload)
    have work : (k.launchPlan site copied computed).job.work = .launch ⟨k.algorithm, site.input,
      site.output, site.tables.memory, k.batch.recordLength, site.slice.count⟩ := rfl
    rw [status, work, perform_launch ⟨room, small⟩ before (records input) staged apart]
    have length := (k.length_written site.slice).trans before.1.symm
    have after := Contents.memory_setMemory (c := m.contents) (.inr length)
    refine ⟨rfl, ?_⟩
    show k.IsExact site ((m.contents.setMemory _ _).memory site.output) ∧
      (k.batch.HasInput site.slice → (m.contents.setMemory _ _).memory site.output = _)
    rw [after]
    exact ⟨⟨k.length_written _, by rw [length]; exact before.2⟩, fun _ => rfl⟩
  · have short : k.batch.copyFault? site.slice (k.device site.queue) =
        some (k.batch.inputFault site.slice (k.device site.queue)) := if_neg input
    rw [short] at copy
    -- The copy comes first among the dependencies, so its fault is passed on.
    have failed : m.firstFault? (k.launchPlan site copied computed).job.deps =
        some (k.batch.inputFault site.slice (k.device site.queue)) := by
      show ([copied, site.tables.ready].findSome? fun e => (m.status e).fault?) = _
      rw [List.findSome?_cons, copy]
      rfl
    obtain ⟨rfl, rfl⟩ := verdict.of_fault failed
    exact ⟨(congrArg Status.ofFault? short).symm, before, fun other => absurd other input⟩

/-- A copy of the digests of a slice settles its range of the output, or there is no room. -/
theorem perform_copyOut {c : Contents} (digests : c.memory site.output = k.written site.slice)
    (untouched : k.Untouched (k.Covers site.slice) c) (input : k.batch.HasInput site.slice) :
    ((Work.copyOut k.batch.output (site.slice.offset * k.size) site.output
        (k.size * site.slice.count)).perform c).failure =
      (if site.slice.stop * k.size ≤ k.initial.length then none
        else some (.copy (.outPastBuffer (k.size * site.slice.count) (site.slice.offset * k.size)
          k.initial.length))) ∧
    k.Settled site.slice ((Work.copyOut k.batch.output (site.slice.offset * k.size) site.output
        (k.size * site.slice.count)).perform c).result := by
  obtain ⟨length, old⟩ := untouched
  have size := k.length_written site.slice
  have stop := site.slice.stop_mul k.size
  have read : (c.memory site.output).read? 0 (k.size * site.slice.count) =
      some (k.written site.slice) := by
    rw [digests]
    exact Bytes.read?_eq_some_iff.2 ⟨by omega, by rw [List.drop_zero, ← size, List.take_length]⟩
  rw [Work.perform_copyOut, read]
  dsimp only
  by_cases room : site.slice.stop * k.size ≤ k.initial.length
  · have fits : k.batch.Fits site.slice k.size k.initial.length := ⟨input, room⟩
    obtain ⟨bytes, replaced⟩ : ∃ bytes, (c.buffer k.batch.output).overwrite?
        (site.slice.offset * k.size) (k.written site.slice) = some bytes :=
      ⟨_, Bytes.overwrite?_eq_some_iff.2 ⟨by omega, rfl⟩⟩
    rw [replaced, if_pos room]
    refine ⟨rfl, ?_⟩
    have same := Bytes.length_of_overwrite? replaced
    have after := Contents.buffer_setBuffer (c := c) (.inr same)
    show ((c.setBuffer _ bytes).buffer _).length = _ ∧ ∀ i, k.Covers site.slice i →
      ((c.setBuffer _ bytes).buffer _)[i]? = _
    rw [after]
    refine ⟨same.trans length, ?_⟩
    rintro i ⟨lower, upper⟩
    rw [Bytes.getElem?_of_overwrite? replaced, if_pos (by omega), if_pos fits]
  · have full : (c.buffer k.batch.output).overwrite? (site.slice.offset * k.size)
        (k.written site.slice) = none := by
      unfold Bytes.overwrite?
      rw [if_neg (by omega)]
    rw [full, if_neg room, length]
    refine ⟨rfl, length, fun i covered => ?_⟩
    rw [if_neg fun fits : k.batch.Fits _ _ _ => room fits.2]
    exact old i covered

/-- The copy of the digests of a share, unless they were not computed. -/
theorem resultPlan_delivers (named : m.queueName site.queue = k.device site.queue)
    {copied computed event : EventId} (launch : m.Follows (k.launchPlan site copied computed)) :
    (k.resultPlan site computed event).Delivers m := by
  rintro s c verdict (untouched : k.Untouched (k.Covers site.slice) m.contents)
  obtain ⟨hash, _, digests⟩ := launch.of_resolved (verdict.cases.1 _ List.mem_cons_self)
  change m.status computed = .ofFault? (k.batch.copyFault? site.slice (k.device site.queue)) at hash
  show s = .ofFault? (k.batch.fault? site.slice k.size k.initial.length (k.device site.queue)) ∧
    k.Settled site.slice c
  unfold Batch.fault?
  by_cases input : k.batch.HasInput site.slice
  · have none : k.batch.copyFault? site.slice (k.device site.queue) = none := if_pos input
    rw [none] at hash
    obtain ⟨rfl, rfl⟩ := verdict.of_complete (by
      intro d mem
      rw [List.mem_singleton.1 mem]
      exact hash)
    obtain ⟨failure, settled⟩ := perform_copyOut (digests input) untouched input
    refine ⟨?_, settled⟩
    show Job.verdict _ _ (Work.perform m.contents (.copyOut _ _ _ _)).failure = _
    rw [failure, if_pos input]
    split
    · rfl
    · rw [show (k.resultPlan site computed event).queue = site.queue from rfl, named]
      rfl
  · have short : k.batch.copyFault? site.slice (k.device site.queue) =
        some (k.batch.inputFault site.slice (k.device site.queue)) := if_neg input
    rw [short] at hash
    have failed : m.firstFault? (k.resultPlan site computed event).job.deps =
        some (k.batch.inputFault site.slice (k.device site.queue)) := by
      show ([computed].findSome? fun e => (m.status e).fault?) = _
      rw [List.findSome?_cons, hash]
      rfl
    obtain ⟨rfl, rfl⟩ := verdict.of_fault failed
    rw [if_neg input]
    refine ⟨rfl, untouched.1, fun i covered => ?_⟩
    rw [if_neg fun fits : k.batch.Fits _ _ _ => input fits.1]
    exact untouched.2 i covered

end

end Contract

end BatchDigest
