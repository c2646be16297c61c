import BatchDigest.Proofs.Batch.Results
import BatchDigest.Proofs.Batch.Returns
import BatchDigest.Proofs.Batch.Roster
import BatchDigest.Proofs.Batch.Titles
import BatchDigest.Proofs.Device.Demand
import BatchDigest.Proofs.Device.Loans
import BatchDigest.Proofs.Kernel.Encoding

/-!
# Hashers are made as a whole or not at all

Making a hasher checks the configuration and then stages the tables on the queue of one runner after
the other. The tables that are staged are loans (`Hasher.Lodging`): each station has its own, and the
next ones fit or they do not. At the first that do not, what is out by then goes back, so that the
ledgers have what they had; their counters tell that something was there. Without tables nothing is
on loan, and nothing can fail. All of this holds wherever a hasher is made
(`Hasher.create_whole_or_not_at_all`): memory that others hold on the queues plays no part but that
it is in use.
-/

namespace BatchDigest

open Machine

variable {base m n : Machine} {a : Algorithm} {key blob : Bytes} {made : List QueueId}
  {loans : List Loan} {loan : Loan} {queue : QueueId} {l : Ledger} {length : Nat}

/-! ## Loans of tables -/

/-- A loan of tables of a length, with their first owner. -/
structure Loan.OfTables (length : Nat) (loan : Loan) : Prop where
  kind : loan.memory.kind = .device
  length : loan.memory.length = length
  owners : loan.memory.owners = 1

theorem Loan.length_entries (loans : List Loan) (q : QueueId) :
    (entries loans q).length = (loans.map (·.memory.queue)).count q := by
  unfold entries
  rw [List.length_map, ← List.countP_eq_length_filter, List.count_eq_countP, List.countP_map]
  rfl

theorem Loan.mem_entries {entry : Allotment} {q : QueueId} (mem : entry ∈ entries loans q) :
    ∃ loan ∈ loans, loan.memory.allotment = entry := by
  obtain ⟨loan, inside, rfl⟩ := List.mem_map.1 mem
  exact ⟨loan, (List.mem_filter.1 inside).1, rfl⟩

/-- The bytes of tables that are all of one length. -/
theorem Loan.bytes_entries (each : ∀ loan ∈ loans, loan.OfTables length) (q : QueueId) :
    Ledger.bytes (entries loans q) = length * (loans.map (·.memory.queue)).count q := by
  have same : ∀ size ∈ (entries loans q).map (·.length), size = length := by
    intro size mem
    obtain ⟨entry, inside, rfl⟩ := List.mem_map.1 mem
    obtain ⟨loan, out, rfl⟩ := mem_entries inside
    exact (each loan out).length
  rw [Ledger.bytes, List.eq_replicate_of_mem same, List.sum_replicate_nat, List.length_map,
    length_entries, Nat.mul_comm]

namespace StagedTables

/-- What staged tables have of the memory of a machine: nothing when they are empty, and a loan
otherwise. -/
def Borrows (base : Machine) (made : List QueueId) (loans : List Loan) (queue : QueueId)
    (length : Nat) (tables : StagedTables) (n : Machine) : Prop :=
  if length = 0 then tables.memory = .none ∧ base.Lends made loans n
  else ∃ loan : Loan, loan.memory.queue = queue ∧ loan.OfTables length ∧
    tables.memory = some loan.id ∧ base.Lends (made ++ [queue]) (loans ++ [loan]) n

/-- **Tables are staged if they fit behind what is out**, and nothing happens otherwise. -/
theorem meets_stage_lends (h : base.Lends made loans m) (written : a.tableBlob key = .ok blob)
    (backed : Ledger.isBackable blob.length) (found : base.ledger? queue = some l)
    (balanced : l.Balanced) (word : l.limit ≤ Size.largest) :
    (StagedTables.stage a key queue).Meets (fun _ => True) (fun r n =>
      (∀ tables, r = .ok tables → tables.algorithm = a ∧
        tables.Borrows base made loans queue blob.length n ∧ (blob.length ≠ 0 →
          l.used + Ledger.bytes (Loan.entries loans queue) + blob.length ≤ l.limit)) ∧
      ∀ e, r = .error e → base.Lends made loans n ∧ blob.length ≠ 0 ∧
        l.limit < l.used + Ledger.bytes (Loan.entries loans queue) + blob.length ∧
        e = .device (.outOfMemory l.device blob.length
          (l.limit - (l.used + Ledger.bytes (Loan.entries loans queue))))) m := by
  unfold StagedTables.stage
  split
  next crashed =>
    rw [crashed] at written
    cases written
  next empty =>
    rw [empty] at written
    cases written
    intro n first
    refine ⟨trivial, fun k second => ⟨trivial, fun tables answer => ?_, nofun⟩⟩
    obtain rfl := Except.ok.inj answer
    have books : n.SameBooks (n.addEvent .complete).2 := sameBooks_of_queues rfl rfl
    refine ⟨rfl, ?_, fun some => absurd rfl some⟩
    exact ⟨rfl, ((h.evolves first).sameBooks books).evolves second⟩
  next _ filled staged =>
    rw [staged] at written
    cases written
    have some : blob.length ≠ 0 := fun none => filled (List.length_eq_zero_iff.1 none)
    refine Host.meets_call_bind fun n first => ⟨trivial, ?_⟩
    have outcome := (h.evolves first).allocate balanced found word .device some
    cases answered : (n.allocate queue .device blob.length).1 with
    | error e =>
      obtain ⟨misfit, rfl, same⟩ := outcome.2 e answered
      rw [same]
      refine fun k second => ⟨trivial, nofun, fun _ answer => ?_⟩
      obtain rfl := Except.error.inj answer
      refine ⟨(h.evolves first).evolves second, some, ?_, rfl⟩
      exact Nat.lt_of_not_le fun fits => misfit ⟨backed, fits⟩
    | ok memory =>
      obtain ⟨fits, allocation, lends⟩ := outcome.1 memory answered
      refine Host.meets_call_bind fun n' second => ⟨trivial, fun k third =>
        ⟨trivial, fun tables answer => ?_, nofun⟩⟩
      obtain rfl := Except.ok.inj answer
      refine ⟨rfl, ?_, fun _ => fits⟩
      unfold Borrows
      rw [if_neg some]
      exact ⟨_, rfl, ⟨rfl, rfl, rfl⟩, rfl, ((lends.evolves second).submit ..).evolves third⟩

/-- The only owner of tables gives them back. -/
theorem meets_drop_lends (h : base.Lends made (loan :: loans) m) (alone : loan.memory.owners = 1)
    {tables : StagedTables} (here : tables.memory = some loan.id) :
    tables.drop.Meets (fun _ => True) (fun _ n => base.Lends made loans n) m := by
  unfold StagedTables.drop
  rw [here]
  refine Host.meets_call_bind fun n first => ⟨trivial, ?_⟩
  obtain ⟨last, left⟩ := (h.evolves first).dropOwner alone
  rw [if_pos last]
  intro k second
  refine ⟨trivial, fun _ k' third => ⟨trivial, fun l fourth => ⟨trivial, fun l' fifth => ?_⟩⟩⟩
  have left := ((left.evolves second).evolves third).evolves fourth
  exact ⟨trivial, left.giveBack.evolves fifth⟩

/-- All tables are given back by their only owners. -/
theorem meets_dropAll_lends {all : List StagedTables} (h : base.Lends made loans m)
    (alone : ∀ loan ∈ loans, loan.memory.owners = 1)
    (same : all.filterMap (·.memory) = loans.map (·.id)) :
    (StagedTables.dropAll all).Meets (fun _ => True) (fun _ n => base.Lends made [] n) m := by
  induction all generalizing m loans with
  | nil =>
    obtain rfl := List.map_eq_nil_iff.1 same.symm
    exact fun n first => ⟨trivial, h.evolves first⟩
  | cons tables rest ih =>
    cases here : tables.memory with
    | none =>
      rw [List.filterMap_cons_none here] at same
      have nothing : tables.drop = pure () := by
        unfold StagedTables.drop
        rw [here]
      show (tables.drop >>= fun _ => dropAll rest).Meets _ _ m
      rw [nothing]
      exact ih h alone same
    | some id =>
      rw [List.filterMap_cons_some here] at same
      obtain ⟨loan, others, rfl, rfl, rest⟩ := List.map_eq_cons_iff.1 same.symm
      rw [List.forall_mem_cons] at alone
      refine Host.Meets.bind ((meets_drop_lends h alone.1 here).mono fun _ n _ h => ?_)
      exact ih h alone.2 rest.symm

theorem Borrows.sameBooks {tables : StagedTables} {made : List QueueId} {loans : List Loan}
    (h : tables.Borrows base made loans queue length m) (books : m.SameBooks n) :
    tables.Borrows base made loans queue length n := by
  unfold Borrows at h ⊢
  split at h
  next none =>
    rw [if_pos none]
    exact ⟨h.1, h.2.sameBooks books⟩
  next some =>
    rw [if_neg some]
    obtain ⟨loan, here, shape, memory, lends⟩ := h
    exact ⟨loan, here, shape, memory, lends.sameBooks books⟩

/-- Tables that are all there is on loan are given back. -/
theorem meets_drop_borrows {tables : StagedTables} (h : tables.Borrows base [] [] queue length m) :
    tables.drop.Meets (fun _ => True)
      (fun _ n => base.Lends (if length = 0 then [] else [queue]) [] n) m := by
  unfold Borrows at h
  split at h
  next none =>
    unfold drop
    rw [h.1, if_pos none]
    exact fun n later => ⟨trivial, h.2.evolves later⟩
  next some =>
    obtain ⟨loan, -, shape, memory, lends⟩ := h
    rw [if_neg some]
    exact meets_drop_lends lends shape.owners memory

end StagedTables

/-! ## Going through the runners -/

/-- Tables of a length fit on the queue of a runner after those of other runners. -/
def Runner.Fits (m : Machine) (length : Nat) (before : List Runner) (r : Runner) : Prop :=
  ∀ l, m.ledger? r.queue = some l → l.used + length * on before r.queue + length ≤ l.limit

theorem Runner.on_append (first second : List Runner) (q : QueueId) :
    on (first ++ second) q = on first q + on second q := by
  unfold on
  rw [List.map_append, List.count_append]

/-- Tables are staged for some runners, and those of the next one do not fit any more. -/
structure Runner.OutOfRoom (m : Machine) (length : Nat) (done : List Runner) (next : Runner)
    (e : Error) : Prop where
  fits : ∀ before r after, done = before ++ r :: after → r.Fits m length before
  misfit : ¬ next.Fits m length done
  answer : ∃ l, m.ledger? next.queue = some l ∧ e = .device (.outOfMemory (m.queueName next.queue)
    length (l.limit - (l.used + length * on done next.queue)))

namespace Hasher

/-- How many tables there are on a queue for runners, when tables are of a length. -/
def uploads (length : Nat) (runners : List Runner) (q : QueueId) : Nat :=
  if length = 0 then 0 else Runner.on runners q

/-- The tables of stations are on loan, and fitted one after the other. -/
structure Lodging (base : Machine) (length : Nat) (runners : List Runner) (stations : List Station)
    (loans : List Loan) (m : Machine) : Prop where
  lends : base.Lends (loans.map (·.memory.queue)) loans m
  made : stations.map (·.runner) = runners
  tables : stations.filterMap (·.tables.memory) = loans.map (·.id)
  count : ∀ q, (loans.map (·.memory.queue)).count q = uploads length runners q
  each : ∀ loan ∈ loans, loan.OfTables length
  fits : length ≠ 0 → ∀ before r after, runners = before ++ r :: after → r.Fits base length before

namespace Lodging

variable {runners : List Runner} {stations : List Station}

/-- What the tables take up of a queue. -/
theorem bytes (h : Lodging base length runners stations loans m) (q : QueueId) :
    Ledger.bytes (Loan.entries loans q) = length * Runner.on runners q := by
  rw [Loan.bytes_entries h.each, h.count]
  unfold uploads
  split
  next none => rw [none, Nat.zero_mul, Nat.zero_mul]
  next => rfl

/-- One more station is made. -/
theorem add (h : Lodging base length runners stations loans m) {runner : Runner}
    {tables : StagedTables}
    (borrows : tables.Borrows base (loans.map (·.memory.queue)) loans runner.queue length n)
    (fits : length ≠ 0 → runner.Fits base length runners) :
    ∃ loans, Lodging base length (runners ++ [runner]) (stations ++ [⟨runner, tables⟩]) loans n := by
  have made : (stations ++ [(⟨runner, tables⟩ : Station)]).map (·.runner) =
      runners ++ [runner] := by
    rw [List.map_append, h.made]
    rfl
  have every : length ≠ 0 → ∀ before r after, runners ++ [runner] = before ++ r :: after →
      r.Fits base length before := by
    intro some before r after split
    rcases List.eq_nil_or_concat after with rfl | ⟨after, last, rfl⟩
    · obtain ⟨rfl, last⟩ := List.append_inj' split rfl
      cases last
      exact fits some
    · rw [List.concat_eq_append, ← List.cons_append, ← List.append_assoc] at split
      exact h.fits some before r after (List.append_inj_left' split rfl)
  unfold StagedTables.Borrows at borrows
  split at borrows
  next none =>
    obtain ⟨nowhere, lends⟩ := borrows
    refine ⟨loans, lends, made, ?_, fun q => ?_, h.each, every⟩
    · simp [nowhere, h.tables]
    · rw [h.count q, uploads, uploads, if_pos none, if_pos none]
  next some =>
    obtain ⟨loan, here, shape, memory, lends⟩ := borrows
    have queues : (loans ++ [loan]).map (·.memory.queue) =
        loans.map (·.memory.queue) ++ [runner.queue] := by
      rw [List.map_append, ← here]
      rfl
    refine ⟨loans ++ [loan], ?_, made, ?_, fun q => ?_, ?_, every⟩
    · rwa [queues]
    · simp [memory, h.tables]
    · rw [queues, List.count_append, h.count q, uploads, uploads, if_neg some, if_neg some,
        Runner.on_append]
      rfl
    · intro other mem
      rcases List.mem_append.1 mem with old | new
      · exact h.each other old
      · rw [List.mem_singleton.1 new]
        exact shape

end Lodging

/-- **The runners are gone through until tables do not fit.** Then all tables go back. -/
theorem meets_stageAll_lends (audited : base.Audited) (labelled : base.Labelled)
    (written : a.tableBlob key = .ok blob) (backed : Ledger.isBackable blob.length)
    {rest done : List Runner} {stations : List Station} (counts : ∀ r ∈ rest, base.Counts r.queue)
    (start : ∃ loans, Lodging base blob.length done stations loans m) :
    (Hasher.stageAll a key rest stations).Meets (fun _ => True) (fun r n =>
      (∀ all, r = .ok all → ∃ loans, Lodging base blob.length (done ++ rest) all loans n) ∧
      ∀ e, r = .error e → ∃ before next later made, done ++ rest = before ++ next :: later ∧
        Runner.OutOfRoom base blob.length before next e ∧ base.Lends made [] n ∧
        ∀ q, made.count q = Runner.on before q) m := by
  induction rest generalizing m done stations with
  | nil =>
    obtain ⟨loans, start⟩ := start
    refine fun n first => ⟨trivial, fun all answer => ?_, nofun⟩
    obtain rfl := Except.ok.inj answer
    rw [List.append_nil]
    exact ⟨loans, { start with lends := start.lends.evolves first }⟩
  | cons runner rest ih =>
    obtain ⟨loans, start⟩ := start
    rw [List.forall_mem_cons] at counts
    obtain ⟨⟨l, found, word⟩, counts⟩ := counts
    refine Host.Meets.bind ((StagedTables.meets_stage_lends start.lends written backed found
      (audited.balanced _ l found) word).mono ?_)
    intro r n _ goal
    cases r with
    | error e =>
      obtain ⟨lends, some, misfit, rfl⟩ := goal.2 e rfl
      rw [start.bytes] at misfit
      rw [start.bytes, labelled _ l found]
      have out : Runner.OutOfRoom base blob.length done runner _ :=
        ⟨start.fits some, fun fits => Nat.not_le.2 misfit (fits l found), l, found, rfl⟩
      refine Host.Meets.bind ((StagedTables.meets_dropAll_lends lends
        (fun loan mem => (start.each loan mem).owners) ?_).mono fun _ k _ left k' later => ?_)
      · rw [List.filterMap_map]
        exact start.tables
      · refine ⟨trivial, nofun, fun _ answer => ?_⟩
        obtain rfl := Except.error.inj answer
        refine ⟨done, runner, rest, _, rfl, out, left.evolves later, fun q => ?_⟩
        rw [start.count, uploads, if_neg some]
    | ok tables =>
      obtain ⟨-, borrows, fits⟩ := goal.1 tables rfl
      rw [start.bytes] at fits
      have next := start.add borrows fun some l' found' => by
        rw [found] at found'
        cases found'
        exact fits some
      simpa using ih counts next

end Hasher

/-! ## What making a hasher comes to -/

/-- Only workers acted: nothing was put into the queues, and the ledgers are the same. -/
structure Machine.Untouched (m n : Machine) : Prop where
  evolves : m.Evolves n
  events : n.events.length = m.events.length
  jobs : ∀ q, ∀ job ∈ n.pending q, job ∈ m.pending q
  ledgers : ∀ q, n.ledger? q = m.ledger? q
  stats : ∀ q, n.stats q = m.stats q

theorem Machine.Evolves.untouched (evolves : m.Evolves n) (sound : m.Sound) : m.Untouched n := by
  have ledgers := (flow_sameBooks.evolves evolves).ledger
  have stats : ∀ k q, Machine.stats k q =
      ((k.ledger? q).map (·.stats)).getD (Ledger.empty "" none).stats := by
    intro k q
    unfold Machine.stats ledger?
    rw [Option.map_map]
    rfl
  refine ⟨evolves, evolves.length_events sound, ?_, ledgers, fun q => ?_⟩
  · exact evolves.keeps (p := fun k => ∀ q, ∀ job ∈ k.pending q, job ∈ m.pending q)
      (fun _ _ _ before turn q job mem => before q job (turn.mem_pending mem)) fun _ _ => id
  · rw [stats, stats, ledgers]

namespace Hasher

/-- The checks that come before everything else, on runners with the names of their queues. -/
def precheck (a : Algorithm) (key : Bytes) (named : List (String × Float)) :
    Except Rejection Unit := do
  a.checkKey key.length
  Runner.check named

/-- The tables of a runner do not fit. What was staged before went back, so that ledgers have what
they had, and each counts as many frees as allocations more. -/
def Abandoned (m : Machine) (length : Nat) (runners : List Runner) (e : Error) (n : Machine) :
    Prop :=
  ∃ done next later, runners = done ++ next :: later ∧ Runner.OutOfRoom m length done next e ∧
    ∀ q l, m.ledger? q = some l →
      ∃ l', n.ledger? q = some l' ∧ l.Tallies (Runner.on done q) [] l'

/-- Every ledger has the tables of its runners besides what it had. -/
def Equipped (m : Machine) (length : Nat) (runners : List Runner) (n : Machine) : Prop :=
  ∀ q l, m.ledger? q = some l → ∃ l' out, n.ledger? q = some l' ∧
    out.length = uploads length runners q ∧
    (∀ entry ∈ out, entry.kind = .device ∧ entry.length = length) ∧ l.Tallies out.length out l'

/-- What making a hasher on a machine comes to. -/
def Construction (a : Algorithm) (runners : List Runner) (key : Bytes) (m : Machine) :
    Except Error Hasher → Machine → Prop
  | .error (.rejected cause), n =>
    precheck a key (Runner.named m runners) = .error cause ∧ m.Untouched n
  | .error e, n =>
    precheck a key (Runner.named m runners) = .ok () ∧
      ∃ blob, a.tableBlob key = .ok blob ∧ Abandoned m blob.length runners e n
  | .ok h, n =>
    precheck a key (Runner.named m runners) = .ok () ∧ h.algorithm = a ∧
      h.stations.map (·.runner) = runners ∧ ∃ blob, a.tableBlob key = .ok blob ∧
        (blob.length = 0 ↔ a = .md5 ∨ a = .sha1) ∧ Equipped m blob.length runners n

theorem meets_create_lends {runners : List Runner} (sound : m.Sound) (audited : m.Audited)
    (labelled : m.Labelled) (counts : ∀ r ∈ runners, m.Counts r.queue) :
    (Hasher.create a runners key).Meets (fun _ => True) (Construction a runners key m) m := by
  unfold Hasher.create
  split
  next cause refused =>
    refine fun n first => ⟨trivial, ?_, first.untouched sound⟩
    unfold precheck
    rw [refused]
    rfl
  next accepted =>
  refine Host.meets_ask_bind fun n first => ⟨trivial, ?_⟩
  rw [(flow_titles.evolves first).named]
  have precheck : precheck a key (Runner.named m runners) =
      Runner.check (Runner.named m runners) := by
    unfold Hasher.precheck
    rw [accepted]
    rfl
  split
  next cause refused =>
    exact fun k second => ⟨trivial, precheck.trans refused, (first.trans second).untouched sound⟩
  next fit =>
  have precheck := precheck.trans fit
  obtain ⟨blob, written, length⟩ :=
    a.exists_tableBlob (Algorithm.accepted_of_checkKey accepted).2
  have backed : Ledger.isBackable blob.length := by
    have le := a.blobLength_le key
    rw [← length] at le
    exact decide_eq_true (Nat.lt_of_le_of_lt le (by decide))
  have start : Lodging m blob.length [] [] [] n :=
    ⟨audited.lends.evolves first, rfl, rfl, fun q => by unfold uploads; split <;> rfl, nofun,
      by simp⟩
  refine Host.Meets.bind ((meets_stageAll_lends audited labelled written backed counts
    ⟨[], start⟩).mono fun r k _ goal => ?_)
  cases r with
  | error e =>
    obtain ⟨done, next, later, made, split, out, lends, count⟩ := goal.2 e rfl
    intro k' third
    obtain ⟨l, -, answer⟩ := out.answer
    subst answer
    refine ⟨trivial, precheck, blob, written, done, next, later, split, out, fun q l found => ?_⟩
    rw [← count]
    exact (lends.evolves third).tallies audited found
  | ok stations =>
    obtain ⟨loans, lodging⟩ := goal.1 stations rfl
    have held := Hasher.always_holdQueues flow_sameBooks runners fun k r _ =>
      k.sameBooks_updateQueue r.queue (fun queue => { queue with handles := queue.handles + 1 })
        fun _ => rfl
    refine Host.Meets.bind ((held k).mono fun _ k' _ books k'' third => ?_)
    have lends := (lodging.lends.sameBooks books).evolves third
    refine ⟨trivial, precheck, rfl, lodging.made, blob, written, ?_, fun q l found => ?_⟩
    · rw [length]
      exact Algorithm.blobLength_eq_zero
    · obtain ⟨l', found', tallies⟩ := lends.tallies audited found
      have count := Loan.length_entries loans q
      refine ⟨l', _, found', count.trans (lodging.count q), fun entry mem => ?_, ?_⟩
      · obtain ⟨loan, inside, rfl⟩ := Loan.mem_entries mem
        exact ⟨(lodging.each loan inside).kind, (lodging.each loan inside).length⟩
      · rwa [count]

/-- **A hasher is made as a whole or not at all**, wherever it is made. Making it comes to an end
where nothing holds the workers up. -/
theorem create_whole_or_not_at_all {t : Trace} (run : Trace.Reaches .start t) (a : Algorithm)
    (key : Bytes) (runners : List Runner) (counts : ∀ r ∈ runners, t.machine.Counts r.queue) :
    (t.machine.Unhindered →
      ∃ r n, Host.Reaches (Hasher.create a runners key, t.machine) (.done r, n)) ∧
    ∀ r n, Host.Reaches (Hasher.create a runners key, t.machine) (.done r, n) →
      Construction a runners key t.machine r n := by
  have sound := (Trace.serving_of_reaches run t.machine.queueName).sound
  refine ⟨fun free => ?_, fun r n creation => ?_⟩
  · have expects : t.machine.Expects [] := ⟨sound, free, List.forall_mem_nil _⟩
    exact (expects.returns_create a runners key).exists_reaches
  · exact (meets_create_lends sound (Trace.audited_of_reaches run)
      (Trace.labelled_of_reaches run) counts).goal_of_reaches creation

/-! Three runners on a small queue, on which there is a memory already. -/

private def queueWithMemory : Trace :=
  (Trace.start.call (.createQueue ⟨"nook", .cpu, some 700⟩)).call (.allocate ⟨0⟩ .device 100)

private def threeRunners : List Runner :=
  [⟨⟨0⟩, 1⟩, ⟨⟨0⟩, 1⟩, ⟨⟨0⟩, 1⟩]

/-- Whether the tables of the third one do not fit. -/
private def refusesThirdTables : Bool :=
  match (Hasher.create .sha256 threeRunners []).run queueWithMemory.machine with
  | some (.error (.device e), _) => decide (e = .outOfMemory "nook" 288 24)
  | _ => false

/-- The tables of the two before it went back, and the memory that was there stayed. -/
theorem create_whole_or_not_at_all_nook : ∃ n l,
    Host.Reaches (Hasher.create .sha256 threeRunners [], queueWithMemory.machine)
      (.done (.error (.device (.outOfMemory "nook" 288 24))), n) ∧
    n.ledger? ⟨0⟩ = some l ∧ l.used = 100 ∧ l.stats.frees + 1 = l.stats.allocations := by
  have run : Trace.Reaches .start queueWithMemory :=
    ((Trace.Reaches.refl _).step (.call _ (.createQueue _) trivial)).step
      (.call _ (.allocate _ _ _) trivial)
  have counts : ∀ r ∈ threeRunners, queueWithMemory.machine.Counts r.queue := by
    intro r mem
    have here : r.queue = ⟨0⟩ := by
      simp only [threeRunners, List.mem_cons, List.not_mem_nil, or_false] at mem
      rcases mem with rfl | rfl | rfl <;> rfl
    rw [here]
    exact ⟨_, rfl, by decide⟩
  have evaluated : refusesThirdTables = true := by decide +kernel
  unfold refusesThirdTables at evaluated
  split at evaluated
  next e n ran =>
    obtain rfl := of_decide_eq_true evaluated
    have reached := Host.reaches_of_run ran
    obtain ⟨-, blob, -, done, next, later, -, -, ledgers⟩ :=
      (create_whole_or_not_at_all run .sha256 [] threeRunners counts).2 _ n reached
    obtain ⟨l, found, tallies⟩ := ledgers ⟨0⟩ _ rfl
    refine ⟨n, l, reached, found, tallies.used, ?_⟩
    have frees := tallies.frees
    have allocations := tallies.allocations
    change l.stats.frees + 0 = 0 + Runner.on done ⟨0⟩ at frees
    change l.stats.allocations = 1 + Runner.on done ⟨0⟩ at allocations
    omega
  next => cases evaluated

end Hasher

end BatchDigest
