import BatchDigest.Proofs.Configuration.Built
import BatchDigest.Proofs.Device.Launching
import BatchDigest.Proofs.Kernel.Encoding

/-!
# Staged tables reach the kernels

Between the key that a caller gives and the launch that hashes under it stand a blob, an upload and
a kernel that decodes what it finds in a memory. Staging waits for nothing, and fails only where the
blob does not fit into the memory of the device. Whatever the workers and the host do from then on,
short of other writes into the memory, the upload ends well, and from its end on a launch that reads
the memory loads the constants of the algorithm and the context of the key
(`StagedTables.outcome_stage`). A launch waits for the upload, so it reads nothing earlier. No other
key and no other width leave the same bytes (`staged_tables_encode`).
-/

namespace BatchDigest

open Machine

/-- What the memory of staged tables holds once they are ready, whatever happens that does not
write into it. -/
def StagedTables.Delivers (tables : StagedTables) (blob : Bytes) (m : Machine) : Prop :=
  ∀ e n, m.Drifts e n → (∀ id, tables.memory = some id → ¬ e.memories id) →
    n.isResolved tables.ready →
      n.status tables.ready = .complete ∧ n.contents.staged tables.memory = blob

namespace Contract

variable {k : Contract} {queues : List QueueId} {m : Machine}

/-- An upload that goes as planned delivers. -/
theorem tables_delivers {queue : QueueId} {tables : StagedTables}
    (follows : m.Follows (k.tablesPlan queue tables)) (serving : m.Serving queues k.device) :
    tables.Delivers k.blob m := by
  intro e n drifts apart resolved
  have chain : Chain queues k.device [k.tablesPlan queue tables] := k.chain_tables queue tables
  have outside : (k.tablesPlan queue tables).place.Outside e := by
    obtain ⟨algorithm, memory?, ready⟩ := tables
    cases memory? with
    | none => exact trivial
    | some memory => exact apart memory rfl
  have all : ∀ plan ∈ [k.tablesPlan queue tables], m.Follows plan := by
    simpa using follows
  have later : n.Follows (k.tablesPlan queue tables) :=
    chain.drifts all (serving.base k.device) serving.isNamed drifts (by simpa using outside) _
      List.mem_cons_self
  exact later.of_resolved resolved

end Contract

/-- What staging a blob comes to that was begun on a machine. -/
structure StagedTables.Outcome (queue : QueueId) (blob : Bytes) (m : Machine)
    (answer : Except Error StagedTables) (n : Machine) : Prop where
  /-- It fails only for want of memory. -/
  fails : ∀ e, answer = .error e → e.isOutOfMemory
  /-- It does not fail where there is enough. -/
  granted : m.Counts queue → m.Affords (StagedTables.demands queue blob.length) →
    ∃ tables, answer = .ok tables
  /-- Where nothing holds the workers up the upload comes to its end, whatever they did before. -/
  comes : m.Unhindered → ∀ tables, answer = .ok tables → ∀ later, n.Evolves later →
    ∃ last, later.Evolves last ∧ last.isResolved tables.ready
  /-- It ends with the blob in place. -/
  delivers : ∀ tables, answer = .ok tables → tables.Delivers blob n

/-- **What is staged arrives.** -/
theorem StagedTables.outcome_stage {t : Trace} (run : Trace.Reaches .start t) {a : Algorithm}
    {key blob : Bytes} (accepted : a.checkKey key.length = .ok ())
    (written : a.tableBlob key = .ok blob) {queue : QueueId} (held : 0 < t.machine.handles queue)
    (kept : ∀ q, queue ∉ t.machine.held q)
    {answer : Except Error StagedTables} {n : Machine}
    (staging : Host.Reaches (StagedTables.stage a key queue, t.machine) (.done answer, n)) :
    StagedTables.Outcome queue blob t.machine answer n := by
  obtain ⟨k, rfl, -, -, device, staged, -⟩ :=
    Contract.exists_of_accepted accepted ⟨[], 0, ⟨0⟩, 0⟩ [] t.machine.queueName
  obtain rfl : k.blob = blob := Except.ok.inj (staged.symm.trans written)
  have serving : t.machine.Serving [queue] k.device := by
    rw [device]
    refine Trace.serving_of_held run ?_ ?_
    · simpa using held
    · simpa using kept
  have mem : queue ∈ [queue] := List.mem_cons_self
  have asked := (StagedTables.meets_stage_takes k.algorithm key queue).goal_of_reaches staging
  obtain ⟨passes, plans⟩ := (Contract.meets_stage staged serving mem).goal_of_reaches staging
  have arrives := passes.serving serving
  constructor
  case fails =>
    exact (StagedTables.meets_stage_fails written (serving.isSome_queue? mem)).goal_of_reaches
      staging
  case granted =>
    intro counts affords
    cases answer with
    | ok tables => exact ⟨tables, rfl⟩
    | error e =>
      obtain ⟨d, _, only, refuses⟩ := asked.2 e rfl k.blob written counts
      rw [only] at affords
      exact absurd affords (refuses.not_affords [])
  case comes =>
    intro free tables answered later evolves
    have follows := (plans tables answered).2
    have free := (StagedTables.always_stage taking_frees _ _ _).of_reaches staging free
    refine (free.evolves evolves).comes (evolves.sound arrives.sound) ?_
    rw [evolves.length_events arrives.sound]
    exact follows.known
  case delivers =>
    intro tables answered
    exact Contract.tables_delivers (plans tables answered).2 arrives

/-- **Staged tables encode the algorithm and the key, and nothing else.** They arrive as what the
algorithm and the key ask for; and width and key of BLAKE2b can be read off them, so that no two
keys or widths share a blob. -/
theorem staged_tables_encode {t : Trace} (run : Trace.Reaches .start t) (queue : QueueId)
    (held : 0 < t.machine.handles queue)
    (kept : ∀ q, queue ∉ t.machine.held q) :
    (∀ (a : Algorithm) (key : Bytes), a.checkKey key.length = .ok () →
      ∃ blob tables, a.tableBlob key = .ok blob ∧ a.kernel.load blob = .ok tables ∧
        a.Encodes key tables ∧
        (∃ answer n, Host.Reaches (StagedTables.stage a key queue, t.machine) (.done answer, n)) ∧
        ∀ answer n, Host.Reaches (StagedTables.stage a key queue, t.machine) (.done answer, n) →
          StagedTables.Outcome queue blob t.machine answer n) ∧
    (∀ (bits : Nat) (key : Bytes), (Algorithm.blake2b bits).isSupported →
      key.length ≤ Algorithm.longestKey →
      ∃ blob, (Algorithm.blake2b bits).tableBlob key = .ok blob ∧
        Blake2b.decode blob = (bits, key)) ∧
    ∀ (bits other : Nat) (key key' : Bytes), (Algorithm.blake2b bits).isSupported →
      (Algorithm.blake2b other).isSupported → key.length ≤ Algorithm.longestKey →
      key'.length ≤ Algorithm.longestKey → (bits, key) ≠ (other, key') →
      (Algorithm.blake2b bits).tableBlob key ≠ (Algorithm.blake2b other).tableBlob key' := by
  have read : ∀ (bits : Nat) (key : Bytes), (Algorithm.blake2b bits).isSupported →
      key.length ≤ Algorithm.longestKey →
      ∃ blob, (Algorithm.blake2b bits).tableBlob key = .ok blob ∧
        Blake2b.decode blob = (bits, key) := by
    intro bits key supported short
    obtain ⟨blob, _, written, -, -⟩ := (Algorithm.blake2b bits).exists_encodes short
    exact ⟨blob, written, Algorithm.decode_tableBlob supported short written⟩
  refine ⟨?_, read, ?_⟩
  · intro a key accepted
    obtain ⟨-, short⟩ := Algorithm.accepted_of_checkKey accepted
    obtain ⟨blob, tables, written, loaded, encodes⟩ := a.exists_encodes short
    refine ⟨blob, tables, written, loaded, encodes, ?_, ?_⟩
    · exact (StagedTables.prompt_stage a key queue t.machine).exists_reaches
    · intro answer n staging
      exact StagedTables.outcome_stage run accepted written held kept staging
  · intro bits other key key' supported supported' short short' different same
    obtain ⟨blob, written, decoded⟩ := read bits key supported short
    obtain ⟨blob', written', decoded'⟩ := read other key' supported' short'
    rw [written, written', Except.ok.injEq] at same
    rw [same, decoded'] at decoded
    exact different decoded.symm

/-! The tables under a key that ends with a zero byte are staged on a queue of their own. -/

private def emptyQueue : Trace :=
  Trace.start.call (.createQueue ⟨"dock", .cpu, none⟩)

/-- Whether the tables are ready when the workers go as far as they can. -/
private def stagesAndUploads : Bool :=
  match (StagedTables.stage (.blake2b 256) [7, 0] ⟨0⟩).run emptyQueue.machine with
  | some (.ok staged, n) => n.settle.isResolved staged.ready
  | _ => false

/-- They are loaded from the device under that key, and those without the zero byte are others. -/
theorem staged_tables_encode_zero_byte : ∃ staged n tables,
    Host.Reaches (StagedTables.stage (.blake2b 256) [7, 0] ⟨0⟩, emptyQueue.machine)
      (.done (.ok staged), n) ∧
    (Algorithm.blake2b 256).kernel.load (n.settle.contents.staged staged.memory) = .ok tables ∧
    (Algorithm.blake2b 256).Encodes [7, 0] tables ∧
    (Algorithm.blake2b 256).tableBlob [7, 0] ≠ (Algorithm.blake2b 256).tableBlob [7] := by
  have run : Trace.Reaches .start emptyQueue :=
    (Trace.Reaches.refl _).step (.call _ (.createQueue _) trivial)
  have kept : ∀ q, ⟨0⟩ ∉ emptyQueue.machine.held q := by
    rintro ⟨_ | i⟩ <;> exact List.not_mem_nil
  obtain ⟨stages, -, apart⟩ := staged_tables_encode run ⟨0⟩ Nat.one_pos kept
  obtain ⟨blob, tables, -, loaded, encodes, -, staging⟩ :=
    stages (.blake2b 256) [7, 0] rfl
  have evaluated : stagesAndUploads = true := by decide +kernel
  unfold stagesAndUploads at evaluated
  split at evaluated
  next staged n ran =>
    have reached := Host.reaches_of_run ran
    have drifts : n.Drifts .nothing n.settle :=
      (Passes.of_evolves (evolves_settleFor _ n)).drifts
    have delivers := (staging _ n reached).delivers staged rfl
    have arrived := delivers .nothing _ drifts (fun _ _ => id) evaluated
    refine ⟨staged, n, tables, reached, ?_, encodes, ?_⟩
    · rw [arrived.2, loaded]
    · exact apart 256 256 [7, 0] [7] (by decide) (by decide) (by decide) (by decide) (by decide)
  next => cases evaluated

end BatchDigest
