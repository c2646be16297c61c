import BatchDigest.Proofs.Batch.Construction
import BatchDigest.Proofs.Batch.Copying
import BatchDigest.Proofs.Batch.InPlace

/-!
# Hashing in place

What hashing in place comes to is told by the ledger of the queue and the two memories before it
(`InPlace.Ends`): the tables fit or not, and the memories suit or not. Whatever the workers do
meanwhile, both memories are left alone when it fails, and the ledgers are what they were. When it
succeeds, the digests are those that hashing from and to the host writes for the same records,
wherever that is done (`InPlace.agrees_with_copying`).
-/

namespace BatchDigest

open Machine

variable {m n : Machine} {queue : QueueId}

namespace InPlace

section

variable (p : InPlace)

/-- The length of the tables. -/
def tablesLength : Nat :=
  p.algorithm.blobLength p.key

/-- There are no tables, or the queue has room for them. -/
def Fits (l : Ledger) : Prop :=
  p.tablesLength = 0 ∨ l.used + p.tablesLength ≤ l.limit

instance (l : Ledger) : Decidable (p.Fits l) :=
  inferInstanceAs (Decidable (_ ∨ _))

/-- How often memory is allocated on a queue: once, for tables that fit. -/
def uploads (q : QueueId) (l : Ledger) : Nat :=
  if q = p.queue ∧ p.count ≠ 0 ∧ p.tablesLength ≠ 0 ∧ p.Fits l then 1 else 0

end

/-- The digest of each record stands at its place in the output, and the bytes behind all digests
are what they were. -/
structure Hashed (p : InPlace) (before after : Contents) : Prop where
  length : (after.memory p.output).length = (before.memory p.output).length
  digests : ∀ i, i < p.count → p.algorithm.digest p.key
      (((before.memory p.input).drop (i * p.recordLength)).take p.recordLength) =
    .ok (((after.memory p.output).drop (i * p.size)).take p.size)
  rest : (after.memory p.output).drop (p.size * p.count) =
    (before.memory p.output).drop (p.size * p.count)

/-- What hashing in place comes to, on a machine with a ledger for its queue. -/
structure Ends (p : InPlace) (m : Machine) (l : Ledger) (r : Except Error Unit) (n : Machine) :
    Prop where
  nothing : p.count = 0 → r = .ok () ∧ m.Untouched n
  full : p.count ≠ 0 → ¬ p.Fits l → r = .error (.device
    (.outOfMemory (m.queueName p.queue) p.tablesLength (l.limit - l.used)))
  refused : p.count ≠ 0 → p.Fits l → ¬ p.Suits m.contents →
    r = .error (.device (.execution (p.fault m)))
  granted : p.count ≠ 0 → p.Fits l → p.Suits m.contents → r = .ok ()
  hashed : r = .ok () → p.Hashed m.contents n.contents
  failed : r ≠ .ok () → n.contents.memory p.output = m.contents.memory p.output
  input : n.contents.memory p.input = m.contents.memory p.input
  ledgers : ∀ q l, m.ledger? q = some l →
    ∃ l', n.ledger? q = some l' ∧ l.Tallies (p.uploads q l) [] l'

/-- The host holds the queue by a handle that no job carries, and no pending job writes into the
memories. -/
structure Admitted (p : InPlace) (m : Machine) : Prop where
  held : m.carried p.queue < m.handles p.queue
  counts : m.Counts p.queue
  input : m.Holds (.memory p.input)
  output : m.Holds (.memory p.output)
  alone : ∀ q, ∀ job ∈ m.pending q,
    .memory p.input ∉ job.work.writes ∧ .memory p.output ∉ job.work.writes

/-! ## What a run comes to -/

section

variable {p : InPlace} {t : Trace} {l : Ledger} {r : Except Error Unit}

theorem moderate_of_accepted (accepted : p.algorithm.checkKey p.key.length = .ok ())
    (record : p.recordLength < 2 ^ 32) (count : p.count < 2 ^ 32) (filled : p.count ≠ 0) :
    p.Moderate := by
  have supported := (Algorithm.accepted_of_checkKey accepted).1
  have digest : p.size ≤ 64 := (Algorithm.digestSize_bounds supported).2
  refine ⟨supported, filled, ?_, ?_⟩
  · have bound := Nat.mul_le_mul (Nat.le_pred_of_lt record) (Nat.le_pred_of_lt count)
    exact Nat.le_trans bound (by decide)
  · have bound := Nat.mul_le_mul digest (Nat.le_pred_of_lt count)
    exact Nat.le_trans bound (by decide)

/-- A memory that no pending job writes stands as it is. -/
theorem stands_memory {id : MemoryId} (held : m.Holds (.memory id))
    (alone : ∀ q, ∀ job ∈ m.pending q, .memory id ∉ job.work.writes) :
    m.Stands (.memory id) fun c => c.memory id = m.contents.memory id :=
  ⟨held, fun q job mem => Work.spares_of_not_mem (alone q job mem),
    Place.memory_decides (· = m.contents.memory id), rfl⟩

/-- What is written between memories that suit are the digests of the records. -/
theorem hashed_of_written {k : Contract} (backs : p.Backs m k) (suits : p.Suits m.contents)
    (output : n.contents.memory p.output = p.written k.digest m.contents) :
    p.Hashed m.contents n.contents := by
  have length := length_written (p := p) (c := m.contents) backs.sizes
  have front : ((Bytes.pieces p.recordLength p.count (m.contents.memory p.input)).flatMap
      k.digest).length = p.size * p.count := by
    rw [Bytes.length_flatMap _ backs.sizes, Bytes.length_pieces]
  refine ⟨by rw [output, length], fun i inside => ?_, ?_⟩
  · have piece := Bytes.getElem?_pieces p.recordLength inside (m.contents.memory p.input)
    have read := Bytes.read_flatMap backs.sizes piece
    have first : i * p.size + p.size ≤ p.size * p.count := by
      have le := Nat.mul_le_mul_left p.size inside
      rw [Nat.mul_succ, Nat.mul_comm p.size i] at le
      exact le
    rw [backs.keyed, output, written, if_pos suits, List.drop_append_of_le_length (by omega),
      List.take_append_of_le_length (by rw [List.length_drop]; omega), read]
  · rw [output, written, if_pos suits, ← front, List.drop_left]

/-- The steps of a run: it ends when the tables are not staged. -/
theorem steps_of_program (accepted : p.algorithm.checkKey p.key.length = .ok ())
    (filled : p.count ≠ 0) (run : Host.Reaches (p.program, m) (.done r, n)) :
    ∃ staging staged,
      Host.Reaches (StagedTables.stage p.algorithm p.key p.queue, m) (.done staging, staged) ∧
      (∀ e, staging = .error e → r = .error e ∧ staged.Evolves n) ∧
      ∀ tables, staging = .ok tables → ∃ event launched outcome joined,
        Host.Reaches (tables.launch p.queue [] p.input p.output p.recordLength p.count, staged)
          (.done event, launched) ∧
        Host.Reaches (Host.joinThrow event, launched) (.done outcome, joined) ∧
        Host.Reaches (tables.drop, joined) (.done (), n) ∧ r = outcome.mapError .device := by
  unfold program computeOnDevice at run
  rw [accepted] at run
  dsimp only at run
  rw [if_neg filled] at run
  obtain ⟨staging, staged, stages, rest⟩ := Host.exists_of_reaches_bind run
  refine ⟨staging, staged, stages, ?_, ?_⟩
  · intro e refused
    subst refused
    exact Host.of_reaches_done rest
  intro tables ok
  subst ok
  obtain ⟨event, launched, launches, rest⟩ := Host.exists_of_reaches_bind rest
  obtain ⟨outcome, joined, joins, rest⟩ := Host.exists_of_reaches_bind rest
  obtain ⟨_, dropped, drops, rest⟩ := Host.exists_of_reaches_bind rest
  obtain ⟨same, later⟩ := Host.of_reaches_done rest
  exact ⟨event, launched, outcome, joined, launches, joins,
    drops.trans (Host.reaches_of_evolves later), same⟩

/-- What is there once the tables are staged: the memories are as they were, and the tables are in
neither of them. -/
theorem staged_tables {k : Contract} (backs : p.Backs m k) (serving : m.Serving [p.queue] k.device)
    (admitted : p.Admitted m) {staging : Except Error StagedTables}
    (stages : Host.Reaches (StagedTables.stage p.algorithm p.key p.queue, m) (.done staging, n)) :
    n.Serving [p.queue] k.device ∧
      (n.Stands (.memory p.input) fun c => c.memory p.input = m.contents.memory p.input) ∧
      (n.Stands (.memory p.output) fun c => c.memory p.output = m.contents.memory p.output) ∧
      ∀ tables, staging = .ok tables → tables.algorithm = p.algorithm ∧
        n.Follows (k.tablesPlan p.queue tables) ∧
        (k.tablesPlan p.queue tables).place.Outside (.memory p.output) := by
  have staged : k.algorithm.tableBlob p.key = .ok k.blob := backs.algorithm ▸ backs.staged
  have stages' := stages
  rw [← backs.algorithm] at stages'
  obtain ⟨passes, upload⟩ := (k.meets_stage staged serving List.mem_cons_self).goal_of_reaches
    stages'
  have taken := (StagedTables.meets_stage_takes p.algorithm p.key p.queue).goal_of_reaches stages
  have stands : ∀ memory, m.Holds (.memory memory) →
      (∀ q, ∀ job ∈ m.pending q, .memory memory ∉ job.work.writes) →
      n.Stands (.memory memory) fun c => c.memory memory = m.contents.memory memory := by
    intro memory held alone
    exact (stands_memory held alone).passes serving passes
      (outside_of_holds held (fun _ => id) nofun)
  refine ⟨passes.serving serving,
    stands _ admitted.input fun q job mem => (admitted.alone q job mem).1,
    stands _ admitted.output fun q job mem => (admitted.alone q job mem).2, fun tables ok => ?_⟩
  obtain ⟨algorithm, follows⟩ := upload tables ok
  refine ⟨algorithm.trans backs.algorithm, follows, ?_⟩
  -- The tables are in a new memory, if they are anywhere.
  obtain ⟨blob, -, -, -, memory⟩ := taken.1 tables ok
  unfold Contract.tablesPlan
  dsimp only
  rw [memory]
  split
  · trivial
  · intro (same : (⟨m.memories.length⟩ : MemoryId) = p.output)
    have held : p.output.index < m.memories.length := admitted.output
    rw [← same] at held
    exact Nat.lt_irrefl _ held

/-- Nothing is done for no records. -/
theorem ends_of_none (run : Trace.Reaches .start t)
    (accepted : p.algorithm.checkKey p.key.length = .ok ()) (admitted : p.Admitted t.machine)
    (none : p.count = 0) (running : Host.Reaches (p.program, t.machine) (.done r, n)) :
    p.Ends t.machine l r n := by
  unfold program computeOnDevice at running
  rw [accepted] at running
  dsimp only at running
  rw [if_pos none] at running
  obtain ⟨ok, later⟩ := Host.of_reaches_done running
  have sound := (Trace.serving_of_reaches run t.machine.queueName).sound
  have audited := Trace.audited_of_reaches run
  have input := ((stands_memory admitted.input fun q job mem =>
    (admitted.alone q job mem).1).evolves sound later).now
  have output := ((stands_memory admitted.output fun q job mem =>
    (admitted.alone q job mem).2).evolves sound later).now
  refine ⟨fun _ => ⟨ok, later.untouched sound⟩, fun some => absurd none some,
    fun some => absurd none some, fun some => absurd none some, fun _ => ?_,
    fun _ => output, input, fun q l found => ?_⟩
  · refine ⟨by rw [output], fun i inside => ?_, by rw [output]⟩
    rw [none] at inside
    exact absurd inside (Nat.not_lt_zero i)
  · have uploads : p.uploads q l = 0 := if_neg fun some => some.2.1 none
    rw [uploads]
    exact (audited.lends.evolves later).tallies audited found

/-- The launch is made, joined, and the tables go. What it answers and leaves depends on the
memories before it, and the books are touched by nothing before the tables go. -/
theorem ended_of_launch {k : Contract} (backs : p.Backs m k) {tables : StagedTables}
    {staged launched joined : Machine} {event : EventId} {outcome : Except DeviceError Unit}
    (serving : staged.Serving [p.queue] k.device)
    (input : staged.Stands (.memory p.input) fun c => c.memory p.input = m.contents.memory p.input)
    (output : staged.Stands (.memory p.output)
      fun c => c.memory p.output = m.contents.memory p.output)
    (algorithm : tables.algorithm = p.algorithm)
    (upload : staged.Follows (k.tablesPlan p.queue tables))
    (elsewhere : (k.tablesPlan p.queue tables).place.Outside (.memory p.output))
    (launches : Host.Reaches (tables.launch p.queue [] p.input p.output p.recordLength p.count,
      staged) (.done event, launched))
    (joins : Host.Reaches (Host.joinThrow event, launched) (.done outcome, joined))
    (drops : Host.Reaches (tables.drop, joined) (.done (), n)) :
    (outcome = match p.fault? m with
      | some fault => .error (.execution fault)
      | none => .ok ()) ∧
    n.contents.memory p.output = p.written k.digest m.contents ∧
    n.contents.memory p.input = m.contents.memory p.input ∧ staged.SameBooks joined := by
  obtain ⟨passes, flying⟩ := (meets_launch backs serving algorithm upload elsewhere input
    output).goal_of_reaches launches
  have serving := (passes.serving serving).base k.device
  obtain ⟨later, resolved, told⟩ :=
    (Host.meets_joinThrow event serving.sound).goal_of_reaches joins
  have waited := flying.passes backs serving (.of_evolves later)
  have serving := serving.evolves later
  have dropped : joined.Passes .nothing n := (tables.always_drop giving_passes).of_reaches drops
  have resolved' := dropped.drifts.isResolved serving resolved
  obtain ⟨-, written, kept⟩ := (waited.passes backs serving dropped).ended resolved'
  refine ⟨?_, written, kept, ?_⟩
  · rw [(waited.ended resolved).1, Status.fault?_ofFault?] at told
    exact told
  · have books : (tables.launch p.queue [] p.input p.output p.recordLength p.count).Always
        SameBooks := flow_sameBooks.call fun m => m.sameBooks_submit _ _ _ _
    exact flow_sameBooks.trans (books.of_reaches launches) (flow_sameBooks.evolves later)

/-- A request that was accepted has a contract, with tables of the length that was told. -/
theorem exists_backs (accepted : p.algorithm.checkKey p.key.length = .ok ())
    (record : p.recordLength < 2 ^ 32) (count : p.count < 2 ^ 32) (filled : p.count ≠ 0)
    (m : Machine) : ∃ k : Contract, p.Backs m k ∧ k.blob.length = p.tablesLength := by
  obtain ⟨k, algorithm, -, -, device, written, keyed⟩ :=
    Contract.exists_of_accepted accepted ⟨[], 0, ⟨0⟩, 0⟩ [] m.queueName
  refine ⟨k, ⟨moderate_of_accepted accepted record count filled, algorithm, device, written,
    keyed⟩, ?_⟩
  obtain ⟨blob, same, length⟩ :=
    p.algorithm.exists_tableBlob (Algorithm.accepted_of_checkKey accepted).2
  cases written.symm.trans same
  exact length

/-! ### Tables that do not fit, and tables that do -/

/-- What it comes to when the tables do not fit. -/
theorem Ends.of_full (filled : p.count ≠ 0) (unfit : ¬ p.Fits l)
    (found : m.ledger? p.queue = some l) (answer : r = .error (.device
      (.outOfMemory (m.queueName p.queue) p.tablesLength (l.limit - l.used))))
    (output : n.contents.memory p.output = m.contents.memory p.output)
    (input : n.contents.memory p.input = m.contents.memory p.input)
    (ledgers : ∀ q l, m.ledger? q = some l → ∃ l', n.ledger? q = some l' ∧ l.Tallies 0 [] l') :
    p.Ends m l r n := by
  refine ⟨fun none => absurd none filled, fun _ _ => answer, fun _ fits => absurd fits unfit,
    fun _ fits => absurd fits unfit, fun ok => ?_, fun _ => output, input, fun q l' found' => ?_⟩
  · rw [answer] at ok
    cases ok
  · have uploads : p.uploads q l' = 0 := by
      apply if_neg
      intro uploaded
      obtain ⟨here, -, -, fits⟩ := uploaded
      subst here
      cases found.symm.trans found'
      exact unfit fits
    rw [uploads]
    exact ledgers q l' found'

/-- What it comes to when the tables fit: what the launch comes to. -/
theorem Ends.of_fits {k : Contract} (backs : p.Backs m k) (filled : p.count ≠ 0) (fits : p.Fits l)
    (found : m.ledger? p.queue = some l) (answer : r = match p.fault? m with
      | some fault => .error (.device (.execution fault))
      | none => .ok ())
    (output : n.contents.memory p.output = p.written k.digest m.contents)
    (input : n.contents.memory p.input = m.contents.memory p.input)
    (ledgers : ∀ q l, m.ledger? q = some l → ∃ l', n.ledger? q = some l' ∧
      l.Tallies ((if p.tablesLength = 0 then [] else [p.queue]).count q) [] l') :
    p.Ends m l r n := by
  have tallies : ∀ q l, m.ledger? q = some l →
      ∃ l', n.ledger? q = some l' ∧ l.Tallies (p.uploads q l) [] l' := by
    intro q l' found'
    have uploads : p.uploads q l' =
        (if p.tablesLength = 0 then [] else [p.queue]).count q := by
      unfold InPlace.uploads
      by_cases none : p.tablesLength = 0
      · simp [none]
      by_cases here : q = p.queue
      · subst here
        cases found.symm.trans found'
        simp [none, filled, fits]
      · simp [none, here, Ne.symm here]
    rw [uploads]
    exact ledgers q l' found'
  by_cases suits : p.Suits m.contents
  · have fault? : p.fault? m = none := if_pos suits
    rw [fault?] at answer
    exact ⟨fun none => absurd none filled, fun _ unfit => absurd fits unfit,
      fun _ _ unsuited => absurd suits unsuited, fun _ _ _ => answer,
      fun _ => hashed_of_written backs suits output, fun failed => absurd answer failed, input,
      tallies⟩
  · have fault? : p.fault? m = some (p.fault m) := if_neg suits
    have same : p.written k.digest m.contents = m.contents.memory p.output := if_neg suits
    rw [fault?] at answer
    refine ⟨fun none => absurd none filled, fun _ unfit => absurd fits unfit,
      fun _ _ _ => answer, fun _ _ suited => absurd suited suits, fun ok => ?_,
      fun _ => output.trans same, input, tallies⟩
    rw [answer] at ok
    cases ok

/-- **What hashing in place comes to**, whatever the workers do meanwhile. -/
theorem ends (run : Trace.Reaches .start t)
    (accepted : p.algorithm.checkKey p.key.length = .ok ()) (record : p.recordLength < 2 ^ 32)
    (count : p.count < 2 ^ 32) (admitted : p.Admitted t.machine)
    (found : t.machine.ledger? p.queue = some l)
    (running : Host.Reaches (p.program, t.machine) (.done r, n)) : p.Ends t.machine l r n := by
  by_cases filled : p.count = 0
  · exact ends_of_none run accepted admitted filled running
  obtain ⟨k, backs, length⟩ := exists_backs accepted record count filled t.machine
  have serving : t.machine.Serving [p.queue] k.device := by
    rw [backs.device]
    exact Trace.serving_of_carried run (by simpa using admitted.held)
  have audited := Trace.audited_of_reaches run
  have word : l.limit ≤ Size.largest := by
    obtain ⟨l', found', word⟩ := admitted.counts
    cases found.symm.trans found'
    exact word
  have backed : Ledger.isBackable k.blob.length := by
    have le := p.algorithm.blobLength_le p.key
    rw [length]
    exact decide_eq_true (Nat.lt_of_le_of_lt le (by decide))
  obtain ⟨staging, staged, stages, refused, rest⟩ := steps_of_program accepted filled running
  obtain ⟨serving', input, output, upload⟩ := staged_tables backs serving admitted stages
  have lent := (StagedTables.meets_stage_lends audited.lends backs.staged backed found
    (audited.balanced _ l found) word).goal_of_reaches stages
  simp only [Loan.entries_nil, Ledger.bytes_nil, Nat.add_zero, length] at lent
  -- Without tables nothing is launched. With them, the launch decides what it comes to.
  cases staging with
  | error e =>
    obtain ⟨lends, some, misfit, told⟩ := lent.2 e rfl
    obtain ⟨answer, later⟩ := refused e rfl
    refine Ends.of_full filled ?_ found ?_ (output.evolves serving'.sound later).now
      (input.evolves serving'.sound later).now fun q l' => (lends.evolves later).tallies audited
    · exact fun fits => fits.elim some (Nat.not_le.2 misfit)
    · rw [answer, told, Trace.labelled_of_reaches run _ l found]
  | ok tables =>
    obtain ⟨-, borrows, room⟩ := lent.1 tables rfl
    obtain ⟨algorithm, follows, elsewhere⟩ := upload tables rfl
    obtain ⟨event, launched, outcome, joined, launches, joins, drops, answer⟩ := rest tables rfl
    obtain ⟨told, left, kept, books⟩ := ended_of_launch backs serving' input output algorithm
      follows elsewhere launches joins drops
    have lends := (StagedTables.meets_drop_borrows (borrows.sameBooks books)).goal_of_reaches drops
    refine Ends.of_fits backs filled ?_ found ?_ left kept fun q l' => lends.tallies audited
    · by_cases none : p.tablesLength = 0
      · exact .inl none
      · exact .inr (room none)
    · rw [answer, told]
      cases p.fault? t.machine <;> rfl

/-- The memories suited, if there were any records, when it succeeded. -/
theorem Ends.holds (h : p.Ends m l r n) (ok : r = .ok ()) :
    p.recordLength * p.count ≤ (m.contents.memory p.input).length ∧
      p.size * p.count ≤ (m.contents.memory p.output).length := by
  by_cases filled : p.count = 0
  · simp [filled]
  by_cases fits : p.Fits l
  · by_cases suits : p.Suits m.contents
    · exact suits.2
    · cases ok.symm.trans (h.refused filled fits suits)
  · cases ok.symm.trans (h.full filled fits)

end

/-! ## Agreement -/

/-- What hashing the same records from the host comes to, on a machine with an output for them. It
does not fail when its own allocations fit, and leaves the given digests whenever it succeeds. -/
structure Copied (p : InPlace) (c : Contents) (digests : Bytes) (m : Machine) (queue : QueueId)
    (output : BufferId) : Prop where
  returns : m.Unhindered → (compute queue p.algorithm (p.batch c output) p.key).Returns m
  granted : m.Counts queue →
    m.Affords (StagedTables.demands queue p.tablesLength ++
      (p.batch c output).needs p.algorithm [⟨queue, 1⟩]) →
    ∀ r n, Host.Reaches (compute queue p.algorithm (p.batch c output) p.key, m) (.done r, n) →
      r = .ok ()
  same : ∀ n, Host.Reaches (compute queue p.algorithm (p.batch c output) p.key, m)
    (.done (.ok ()), n) → n.contents.buffer output = digests

section

variable {p : InPlace} {c after : Contents} {output : BufferId}

/-- The records are the same. -/
theorem record_batch {i : Nat} (inside : i < p.count) : (p.batch c output).record i =
    ((c.memory p.input).drop (i * p.recordLength)).take p.recordLength := by
  have last : i * p.recordLength + p.recordLength ≤ p.recordLength * p.count := by
    have le := Nat.mul_le_mul_left p.recordLength inside
    rw [Nat.mul_succ, Nat.mul_comm p.recordLength i] at le
    exact le
  unfold Batch.record batch
  dsimp only
  rw [List.drop_take, List.take_take, Nat.min_eq_left (by omega)]

/-- All of the batch fits into an output of the size of its digests. -/
theorem fits_batch (output : BufferId)
    (held : p.recordLength * p.count ≤ (c.memory p.input).length) :
    (p.batch c output).Fits (p.batch c output).whole p.size (p.size * p.count) := by
  have length : (p.batch c output).input.length = p.recordLength * p.count := by
    unfold batch
    rw [List.length_take, Nat.min_eq_left held]
  have stop : (p.batch c output).whole.stop = p.count := Nat.zero_add _
  refine ⟨.inr ?_, ?_⟩
  · rw [stop, length, Nat.mul_comm]
    exact Nat.le_refl _
  · rw [stop, Nat.mul_comm]

/-- Whoever hashes the same records from the host finds the same digests. -/
theorem Hashed.eq_of_hashed (h : p.Hashed c after) {initial bytes : Bytes}
    (held : p.recordLength * p.count ≤ (c.memory p.input).length)
    (room : initial.length = p.size * p.count)
    (hashed : (p.batch c output).Hashed p.algorithm p.key [(p.batch c output).whole] initial bytes) :
    bytes = (after.memory p.output).take (p.size * p.count) := by
  have pieces : Bytes.pieces p.size p.count bytes =
      Bytes.pieces p.size p.count (after.memory p.output) := by
    rw [Bytes.pieces_eq_map, Bytes.pieces_eq_map]
    refine List.map_congr_left fun i mem => ?_
    have inside := List.mem_range.1 mem
    have fits := fits_batch output held
    rw [← room] at fits
    have copied := hashed.digests _ List.mem_cons_self fits i (Nat.zero_le i)
      (by rwa [Batch.whole, Slice.stop, Nat.zero_add])
    rw [record_batch inside, h.digests i inside] at copied
    exact (Except.ok.inj copied).symm
  have whole : bytes.take (p.size * p.count) = bytes :=
    List.take_of_length_le (by rw [hashed.length, room])
  rw [← whole, ← Bytes.flatten_pieces, pieces, Bytes.flatten_pieces]

/-- **Hashing from the host comes to what hashing in place came to.** -/
theorem Hashed.copied (h : p.Hashed c after) {t : Trace} (run : Trace.Reaches .start t)
    (accepted : p.algorithm.checkKey p.key.length = .ok ()) (count : p.count < 2 ^ 32)
    (held : p.recordLength * p.count ≤ (c.memory p.input).length)
    (offers : t.machine.Offers queue output)
    (room : (t.machine.contents.buffer output).length = p.size * p.count) :
    p.Copied c ((after.memory p.output).take (p.size * p.count)) t.machine queue output := by
  have size : (p.batch c output).count ≤ Size.largest :=
    Nat.le_trans (Nat.le_of_lt count) (by decide)
  refine ⟨fun free => ?_, fun counts affords r n computing => ?_, fun n computing => ?_⟩
  · have sound := (Trace.serving_of_reaches run t.machine.queueName).sound
    have expects : t.machine.Expects [] := ⟨sound, free, List.forall_mem_nil _⟩
    exact expects.returns_compute queue p.algorithm _ p.key
  · refine compute_granted run (b := p.batch c output) offers size accepted counts affords ?_
      computing
    have fits := fits_batch output held
    rw [← room] at fits
    exact fits
  · exact h.eq_of_hashed held room (compute_hashed run (b := p.batch c output) offers size computing)

end

/-- **Hashing in place agrees with hashing from and to the host.** -/
theorem agrees_with_copying {t : Trace} (run : Trace.Reaches .start t) (p : InPlace)
    (accepted : p.algorithm.checkKey p.key.length = .ok ()) (record : p.recordLength < 2 ^ 32)
    (count : p.count < 2 ^ 32) (admitted : p.Admitted t.machine) :
    (t.machine.Unhindered → p.program.Returns t.machine) ∧
    ∀ r n, Host.Reaches (p.program, t.machine) (.done r, n) →
      (∃ l, t.machine.ledger? p.queue = some l ∧ p.Ends t.machine l r n) ∧
      (r = .ok () → ∀ {t' : Trace}, Trace.Reaches .start t' → ∀ queue output,
        t'.machine.Offers queue output →
        (t'.machine.contents.buffer output).length = p.size * p.count →
        p.Copied t.machine.contents ((n.contents.memory p.output).take (p.size * p.count))
          t'.machine queue output) := by
  refine ⟨fun free => ?_, fun r n running => ?_⟩
  · have sound := (Trace.serving_of_reaches run t.machine.queueName).sound
    have expects : t.machine.Expects [] := ⟨sound, free, List.forall_mem_nil _⟩
    exact expects.returns_computeOnDevice p.queue p.algorithm p.input p.recordLength p.output
      p.count p.key
  · obtain ⟨l, found, -⟩ := admitted.counts
    have ends := ends run accepted record count admitted found running
    refine ⟨⟨l, found, ends⟩, fun ok t' run' queue output offers room => ?_⟩
    exact (ends.hashed ok).copied run' accepted count (ends.holds ok).1 offers room

/-! Three letters in shared memory, and an output with room for a byte more than their digest. -/

private def lettersOnDevice : Trace :=
  ((((Trace.start.call (.createQueue ⟨"bench", .cpu, none⟩)).call (.allocate ⟨0⟩ .shared 3)).call
    (.writeMemory ⟨0⟩ 0 [97, 98, 99])).call (.allocate ⟨0⟩ .device 33)).call
    (.createBuffer (Bytes.zeros 32))

private def letters : InPlace :=
  ⟨⟨0⟩, .sha256, [], ⟨0⟩, 3, ⟨1⟩, 1⟩

/-- Whether they are hashed in place and from the host. -/
private def hashesInPlaceAndCopied : Bool :=
  match letters.program.run lettersOnDevice.machine,
      (compute ⟨0⟩ .sha256 (letters.batch lettersOnDevice.machine.contents ⟨0⟩) []).run
        lettersOnDevice.machine with
  | some (.ok (), _), some (.ok (), _) => true
  | _, _ => false

/-- The digests are the same, and the byte behind the one in place is what it was. -/
theorem agrees_with_copying_letters : ∃ n n',
    Host.Reaches (letters.program, lettersOnDevice.machine) (.done (.ok ()), n) ∧
    Host.Reaches (compute ⟨0⟩ .sha256 (letters.batch lettersOnDevice.machine.contents ⟨0⟩) [],
      lettersOnDevice.machine) (.done (.ok ()), n') ∧
    n'.contents.buffer ⟨0⟩ = (n.contents.memory ⟨1⟩).take 32 ∧
    (n.contents.memory ⟨1⟩).drop 32 = [0] := by
  have run : Trace.Reaches .start lettersOnDevice :=
    (((((Trace.Reaches.refl _).step (.call _ (.createQueue _) trivial)).step
      (.call _ (.allocate _ _ _) trivial)).step (.call _ (.writeMemory _ _ _) trivial)).step
      (.call _ (.allocate _ _ _) trivial)).step (.call _ (.createBuffer _) trivial)
  have idle : ∀ q, lettersOnDevice.machine.pending q = [] := by
    intro q
    obtain ⟨i⟩ := q
    cases i <;> rfl
  have none : ∀ q, ∀ job ∈ lettersOnDevice.machine.pending q, False := by
    intro q job mem
    rw [idle] at mem
    cases mem
  have held : lettersOnDevice.machine.carried ⟨0⟩ < lettersOnDevice.machine.handles ⟨0⟩ := by
    decide
  have admitted : letters.Admitted lettersOnDevice.machine :=
    ⟨held, ⟨_, rfl, by decide⟩, by decide, by decide, fun q job mem => (none q job mem).elim⟩
  have offers : lettersOnDevice.machine.Offers ⟨0⟩ ⟨0⟩ :=
    ⟨held, Nat.one_pos, fun q job mem => (none q job mem).elim⟩
  have twice : hashesInPlaceAndCopied = true := by decide +kernel
  unfold hashesInPlaceAndCopied at twice
  split at twice
  next n n' first second =>
    have running := Host.reaches_of_run first
    have computing := Host.reaches_of_run second
    obtain ⟨⟨l, -, ends⟩, copied⟩ := (agrees_with_copying run letters rfl (by decide) (by decide)
      admitted).2 _ n running
    have same := (copied rfl run ⟨0⟩ ⟨0⟩ offers rfl).same n' computing
    exact ⟨n, n', running, computing, same, (ends.hashed rfl).rest⟩
  next => cases twice

end InPlace

end BatchDigest
