import BatchDigest.Proofs.Batch.Returns
import BatchDigest.Proofs.Batch.Room
import BatchDigest.Proofs.Batch.Service
import Mathlib.Order.Minimal

/-!
# Batches do not get in each other's way

Batches may share queues, hashers and tables, and be joined in any order. As long as each has an
output of its own, none can tell that the others are there: the output of each holds what it would
hold if the batch was alone, and the join answers what it would answer (`Desk.batches_apart`). A
fault of one batch does not reach another, since a share depends on its own steps and on the upload
of its tables only.

What a batch comes to when it is joined is determined by the batch and by what its hasher was made
for (`Order.Over.unique`). This is said of two runs: the batch among others, at any moment of any
traffic, and the batch alone. The latter exists, as there is room for a batch that is alone and
nothing that it waits for fails to come (`Order.Granted.exists_alone`).
-/

namespace BatchDigest

open Machine

/-! ## What a batch determines -/

namespace Batch

variable {b : Batch} {a : Algorithm} {key : Bytes} {slices : List Slice} {before : Bytes}

/-- There is one output that a batch comes to. -/
theorem Hashed.unique {after after' : Bytes} (h : b.Hashed a key slices before after)
    (h' : b.Hashed a key slices before after') : after = after' := by
  refine List.ext_getElem? fun j => ?_
  by_cases covered : ∃ s ∈ slices, b.Fits s a.digestSize before.length ∧
      s.offset * a.digestSize ≤ j ∧ j < s.stop * a.digestSize
  · obtain ⟨s, mem, fits, first, last⟩ := covered
    have positive : 0 < a.digestSize := by
      refine Nat.pos_of_ne_zero fun none => ?_
      rw [none, Nat.mul_zero] at last
      exact Nat.not_lt_zero _ last
    -- The byte belongs to the digest of one record.
    have lower : s.offset ≤ j / a.digestSize := (Nat.le_div_iff_mul_le positive).2 first
    have upper : j / a.digestSize < s.stop := (Nat.div_lt_iff_lt_mul positive).2 last
    have same : Except.ok _ = Except.ok _ := (h.digests s mem fits _ lower upper).symm.trans
      (h'.digests s mem fits _ lower upper)
    have byte := congrArg (·[j % a.digestSize]?) (Except.ok.inj same)
    have inside := Nat.mod_lt j positive
    simp only [List.getElem?_take, if_pos inside, List.getElem?_drop] at byte
    rwa [Nat.mul_comm, Nat.div_add_mod] at byte
  · have outside : ∀ s ∈ slices, b.Fits s a.digestSize before.length →
        ¬ (s.offset * a.digestSize ≤ j ∧ j < s.stop * a.digestSize) :=
      fun s mem fits range => covered ⟨s, mem, fits, range⟩
    rw [h.others j outside, h'.others j outside]

/-- There is one answer that a join gives. -/
theorem Reported.unique {size room : Nat} {device : Nat → String}
    {answer answer' : Except Error Unit}
    (h : b.Reported size room slices device answer)
    (h' : b.Reported size room slices device answer') : answer = answer' := by
  by_cases fits : ∀ s ∈ slices, 0 < s.count → b.Fits s size room
  · rw [h.ok.2 fits, h'.ok.2 fits]
  · -- The first slice that does not fit tells the fault.
    have some : ∃ s : Slice, s ∈ slices ∧ 0 < s.count ∧ ¬ b.Fits s size room := by
      simpa using fits
    obtain ⟨s, ⟨mem, filled, misfit⟩, least⟩ :=
      exists_minimalFor_of_wellFoundedLT _ (fun s : Slice => s.runner) some
    have first : ∀ other ∈ slices, 0 < other.count → other.runner < s.runner →
        b.Fits other size room := by
      intro other mem' filled' lower
      by_contra misfit'
      exact Nat.not_le.2 lower (least ⟨mem', filled', misfit'⟩ (Nat.le_of_lt lower))
    obtain ⟨fault, known, rfl⟩ := h.error s mem filled misfit first
    obtain ⟨fault', known', rfl⟩ := h'.error s mem filled misfit first
    rw [known] at known'
    rw [Option.some.inj known']

end Batch

/-! ## A batch on its way -/

variable {t m n : Machine} {o : Order} {k : Contract} {shares : List Share}

/-- A batch is under way as if nobody else was there. What it comes to is told by what its output
held at the start and by the names of the queues then. -/
structure Order.Underway (o : Order) (t m : Machine) (k : Contract) (shares : List Share) :
    Prop where
  algorithm : k.algorithm = o.maker.algorithm
  batch : k.batch = o.batch
  initial : k.initial = t.contents.buffer o.batch.output
  device : k.device = t.queueName
  keyed : ∀ record, o.maker.algorithm.digest o.maker.key record = .ok (k.digest record)
  items : o.handle.items = shares.map (·.item)
  held : ∀ r ∈ o.maker.runners, 0 < t.handles r.queue
  size : o.batch.count ≤ Size.largest
  shared : Shared (o.batch.slices o.maker.runners) (t.runnerName o.maker.runners) k.device shares
  flight : k.Flight (o.maker.runners.map (·.queue)) m shares

/-- What a join of the batch may answer. -/
def Order.Answers (o : Order) (t : Machine) (answer : Except Error Unit) : Prop :=
  o.batch.Reported o.maker.algorithm.digestSize (t.contents.buffer o.batch.output).length
    (o.batch.slices o.maker.runners) (t.runnerName o.maker.runners) answer

namespace Order.Underway

/-- A batch stays under way while nothing but new memories and other buffers is touched. -/
theorem drifts (h : o.Underway t m k shares) {e : Extent} (drifts : m.Drifts e n)
    (new : ∀ id, e.memories id → m.memories.length ≤ id.index)
    (apart : ∀ i, ¬ e.bytes o.batch.output i) : o.Underway t n k shares :=
  { h with flight := h.flight.drifts drifts new (by rw [h.batch]; exact apart) }

/-- The output of a batch whose shares are over. -/
theorem hashed (h : o.Underway t m k shares)
    (ended : ∀ item ∈ o.handle.items, m.isResolved item.event) :
    o.batch.Hashed o.maker.algorithm o.maker.key (o.batch.slices o.maker.runners)
      (t.contents.buffer o.batch.output) (m.contents.buffer o.batch.output) := by
  have settled := (h.flight.settled fun share mem =>
    ended _ (by rw [h.items]; exact List.mem_map_of_mem mem)).1
  have keyed := h.keyed
  rw [← h.algorithm] at keyed
  have hashed := Contract.hashed keyed (fun share mem => (h.shared.mine share mem).1)
    h.shared.every settled h.flight.rest.now
  rwa [h.initial, h.algorithm, h.batch] at hashed

/-- The join of a batch waits for its shares, and tells what the batch has to answer. -/
theorem joins (h : o.Underway t m k shares) {answer : Option (Except Error Unit)}
    (joins : o.handle.Joins m answer n) : o.Underway t n k shares ∧
      (∀ item ∈ o.handle.items, n.isResolved item.event) ∧
      ∀ told, answer = some told → o.Answers t told := by
  obtain ⟨fault?, ⟨passes, resolved, rfl⟩, told⟩ :=
    joins.of_join (o.handle.meets_join h.flight.base)
  have after : o.Underway t n k shares := { h with flight := h.flight.calm passes }
  refine ⟨after, resolved, fun answer answered => ?_⟩
  have first := (after.flight.settled fun share mem =>
    resolved _ (by rw [h.items]; exact List.mem_map_of_mem mem)).2
  have told := told answer answered
  rw [h.items, List.map_map, show (fun item : BatchItem => item.event) ∘ (fun share : Share =>
    share.item) = fun share => share.item.event from rfl, first] at told
  have reported := Contract.reported h.shared told
  rwa [h.initial, h.batch, show k.size = o.maker.algorithm.digestSize by
    rw [← h.algorithm]; rfl] at reported

end Order.Underway

/-! ## All batches on the desk -/

/-- The batch is over, and so it was answered. -/
structure Order.Over (o : Order) (t m : Machine) (answer : Option (Except Error Unit)) : Prop where
  underway : ∃ k shares, o.Underway t m k shares
  ended : ∀ item ∈ o.handle.items, m.isResolved item.event
  told : ∀ told, answer = some told → o.Answers t told

/-- The output of a batch and the answer of its join depend on the batch and on what its hasher was
made for, and on nothing else. -/
theorem Order.Over.unique {o' : Order} {answer answer' : Option (Except Error Unit)}
    (h : o.Over t m answer) (h' : o'.Over t n answer') (batch : o'.batch = o.batch)
    (algorithm : o'.maker.algorithm = o.maker.algorithm)
    (runners : o'.maker.runners = o.maker.runners) (key : o'.maker.key = o.maker.key) :
    m.contents.buffer o.batch.output = n.contents.buffer o.batch.output ∧
      ∀ told told', answer = some told → answer' = some told' → told = told' := by
  obtain ⟨⟨k, shares, underway⟩, ended, told⟩ := h
  obtain ⟨⟨k', shares', underway'⟩, ended', told'⟩ := h'
  have hashed := underway'.hashed ended'
  unfold Order.Answers at told told'
  rw [batch, algorithm, runners] at told'
  rw [batch, algorithm, runners, key] at hashed
  exact ⟨(underway.hashed ended).unique hashed,
    fun first second here there => (told first here).unique (told' second there)⟩

/-- The same batch when nobody else is there: a hasher is made for it, it is dispatched and it is
joined. -/
def Order.Alone (o : Order) (m : Machine) (answer : Option (Except Error Unit)) (n : Machine) :
    Prop :=
  ∃ hasher made handle dispatched,
    Host.Reaches (Hasher.create o.maker.algorithm o.maker.runners o.maker.key, m)
      (.done (.ok hasher), made) ∧
    Host.Reaches (hasher.hash o.batch, made) (.done (.ok handle), dispatched) ∧
    handle.Joins dispatched answer n

/-- **A batch that is alone returns**, and tells what has become of it, when it is granted what it
asks for and nothing holds the workers up. -/
theorem Order.Granted.exists_alone (granted : o.Granted m) (leased : m.Leased [])
    (free : m.Unhindered) : ∃ told n, o.Alone m (some told) n := by
  have expects := (leased.expects free).of_subset (List.forall_mem_nil _)
  obtain ⟨r, made, creation⟩ := (expects.returns_create _ _ _).exists_reaches
  obtain ⟨hasher, rfl, dispatches⟩ := granted r made creation
  have expects := ((expects.meets_create _ _ _).goal_of_reaches creation).2 hasher rfl
  have ready : ∀ e ∈ hasher.uploading, e ∈ hasher.uploading ++ [] :=
    fun e => List.mem_append_left _
  obtain ⟨r', dispatched, hashing⟩ := (expects.returns_hash ready o.batch).exists_reaches
  obtain ⟨handle, rfl⟩ := dispatches r' dispatched hashing
  have expects := ((expects.meets_hash ready o.batch).goal_of_reaches hashing).2 handle rfl
  obtain ⟨told, n, joining⟩ := (expects.returns_waitAndThrow handle fun e =>
    List.mem_append_left _).exists_reaches
  exact ⟨told, n, hasher, made, handle, dispatched, creation, hashing, .throw joining⟩

/-- A buffer that no pending job is about to write into. -/
def Machine.Free (m : Machine) (buffer : BufferId) : Prop :=
  m.Holds (.buffer buffer) ∧ ∀ q, ∀ job ∈ m.pending q, .buffer buffer ∉ job.work.writes

/-- A buffer holds what it held at the start. -/
def Machine.Spared (t m : Machine) (buffer : BufferId) : Prop :=
  m.Stands (.bytes buffer fun _ => True) fun c => c.buffer buffer = t.contents.buffer buffer

theorem Machine.Free.spared {buffer : BufferId} (free : t.Free buffer) : t.Spared t buffer := by
  refine ⟨free.1, fun q job mem => Work.spares_of_not_mem (free.2 q job mem), ?_, rfl⟩
  intro c c' same held
  exact (List.ext_getElem? fun i => same.2 i trivial).trans held

namespace Desk

variable {s s' : Desk} {name : QueueId → String}

/-- **The batches on the desk are apart**: each goes its way as if it was alone, and buffers that
are nobody's output are as they were. -/
structure Apart (t : Machine) (s : Desk) : Prop where
  spared : ∀ buffer, t.Free buffer → buffer ∉ s.outputs → t.Spared s.machine buffer
  underway : ∀ o ∈ s.orders, ∃ k shares, o.Underway t s.machine k shares
  answered : ∀ pair ∈ s.joined, pair.1.Over t s.machine pair.2

namespace Apart

/-- What is apart stays apart while new outputs are others. -/
theorem spans (h : s.Apart t) (serves : s.Serves name) {e : Extent} {new : List BufferId}
    (spans : s.Spans s' e new) (fresh : ∀ buffer ∈ s.outputs, buffer ∉ new) :
    (∀ buffer, t.Free buffer → buffer ∉ s'.outputs → t.Spared s'.machine buffer) ∧
      (∀ o ∈ s.orders, ∃ k shares, o.Underway t s'.machine k shares) ∧
      ∀ pair ∈ s.joined, pair.1.Over t s'.machine pair.2 := by
  have others : ∀ {buffer : BufferId}, buffer ∉ new → ∀ i, ¬ e.bytes buffer i :=
    fun apart i inside => apart (spans.bytes _ i inside)
  refine ⟨fun buffer free unused => ?_, fun o flying => ?_, fun pair mem => ?_⟩
  · rw [spans.outputs.mem_iff, List.mem_append, not_or] at unused
    exact (h.spared buffer free unused.2).drifts serves.base spans.drifts
      fun i _ => others unused.1 i
  · obtain ⟨k, shares, underway⟩ := h.underway o flying
    have mine : o.batch.output ∈ s.outputs :=
      List.mem_append_left _ (List.mem_map_of_mem flying)
    exact ⟨k, shares, underway.drifts spans.drifts spans.memories (others (fresh _ mine))⟩
  · obtain ⟨⟨k, shares, underway⟩, ended, told⟩ := h.answered pair mem
    have mine : pair.1.batch.output ∈ s.outputs :=
      List.mem_append_right _ (List.mem_append_left _ (List.mem_map.2 ⟨pair, mem, rfl⟩))
    refine ⟨⟨k, shares, underway.drifts spans.drifts spans.memories (others (fresh _ mine))⟩,
      fun item inside => spans.drifts.isResolved serves.base (ended item inside), told⟩

/-- A batch that is dispatched is under way. -/
theorem hash (h : s.Apart t) (serves : s.Serves t.queueName) (orderly : s.Orderly) {maker : Maker}
    (mem : maker ∈ s.makers) {b : Batch} (size : b.count ≤ Size.largest) (free : t.Free b.output)
    (unused : b.output ∉ s.outputs) (held : ∀ q, 0 < s.machine.handles q → 0 < t.handles q)
    {handle : Handle} {after : Machine}
    (run : Host.Reaches (maker.hasher.hash b, s.machine) (.done (.ok handle), after)) :
    ∃ k shares, Order.Underway ⟨maker, b, handle⟩ t after k shares := by
  have made := orderly.made maker mem
  obtain ⟨k, algorithm, rfl, initial, device, staged, keyed⟩ :=
    Contract.exists_of_accepted made.accepted b (t.contents.buffer b.output) t.queueName
  have serving := serves.serving mem
  rw [← device] at serving
  have whole : k.Whole s.machine := by
    refine (h.spared _ free unused).weaken (k.untouched_decides _) fun c held => ?_
    have same : c.buffer k.batch.output = k.initial := held.trans initial.symm
    exact ⟨by rw [same], fun i _ => by rw [same]⟩
  have names : ∀ (i : Nat) station, maker.hasher.stations[i]? = some station →
      k.device station.runner.queue = t.runnerName maker.runners i := by
    intro i station at'
    unfold Machine.runnerName
    rw [← made.runners, List.getElem?_map, at', device]
    rfl
  obtain ⟨shares, items, shared, flight⟩ := (Contract.meets_hash serving
    (serves.ready maker mem k algorithm staged device) whole size names).goal_of_reaches run
      handle rfl
  rw [Hasher.weights_eq made.runners] at shared
  exact ⟨k, shares, algorithm, rfl, initial, device, keyed, items,
    fun r inside => held _ (serves.held mem r inside), size, shared, flight⟩

/-- **Every step keeps the batches apart** when new outputs are others. -/
theorem step (h : s.Apart t) (serves : s.Serves t.queueName) (orderly : s.Orderly)
    (held : ∀ q, 0 < s.machine.handles q → 0 < t.handles q) (step : s.Step s')
    (nodup : s'.outputs.Nodup) (free : ∀ buffer ∈ s'.outputs, t.Free buffer) : s'.Apart t := by
  obtain ⟨e, new, spans⟩ := step.spans serves orderly
  have fresh : ∀ buffer ∈ s.outputs, buffer ∉ new := fun buffer old =>
    fun mem => (List.nodup_append.1 (spans.outputs.nodup_iff.1 nodup)).2.2 buffer mem buffer old rfl
  obtain ⟨spared, underway, answered⟩ := h.spans serves spans fresh
  refine ⟨spared, fun o mem => ?_, fun pair mem => ?_⟩
  · rcases step.mem_orders mem with old | ⟨mem, size, perm, run⟩
    · exact underway o old
    · have unused := (List.nodup_cons.1 (perm.nodup_iff.1 nodup)).1
      exact h.hash serves orderly mem size
        (free _ (perm.mem_iff.2 List.mem_cons_self)) unused held run
  · rcases step.mem_joined mem with old | ⟨mem, joins⟩
    · exact answered pair old
    · obtain ⟨k, shares, going⟩ := h.underway _ mem
      obtain ⟨going, ended, told⟩ := going.joins joins
      exact ⟨⟨k, shares, going⟩, ended, told⟩

end Apart

/-- **Batches are apart at any moment of any traffic** in which each has an output of its own. -/
theorem Traffic.apart {t : Trace} (run : Trace.Reaches .start t) (carefree : t.machine.Carefree)
    (traffic : Traffic t.machine s) (nodup : s.outputs.Nodup)
    (free : ∀ buffer ∈ s.outputs, t.machine.Free buffer) : s.Apart t.machine := by
  induction traffic with
  | opened => exact ⟨fun buffer free _ => free.spared, List.forall_mem_nil _, List.forall_mem_nil _⟩
  | step traffic step ih =>
    have serves := traffic.serves run carefree
    obtain ⟨e, new, spans⟩ := step.spans serves traffic.orderly
    have fewer := (List.nodup_append.1 (spans.outputs.nodup_iff.1 nodup)).2.1
    have before := ih fewer fun buffer mem =>
      free buffer (spans.outputs.mem_iff.2 (List.mem_append_right _ mem))
    exact before.step serves traffic.orderly (fun _ => traffic.held carefree) step nodup free

/-- A batch that is alone is traffic as well. -/
theorem over_of_alone {t : Trace} (run : Trace.Reaches .start t) (carefree : t.machine.Carefree)
    {o : Order} (free : t.machine.Free o.batch.output) (size : o.batch.count ≤ Size.largest)
    (held : ∀ r ∈ o.maker.runners, 0 < t.machine.handles r.queue)
    {answer : Option (Except Error Unit)} {n : Machine} (alone : o.Alone t.machine answer n) :
    ∃ hasher handle, Order.Over ⟨⟨o.maker.algorithm, o.maker.runners, o.maker.key, hasher⟩,
      o.batch, handle⟩ t.machine n answer := by
  obtain ⟨hasher, made, handle, dispatched, creation, hashing, joins⟩ := alone
  let maker : Maker := ⟨o.maker.algorithm, o.maker.runners, o.maker.key, hasher⟩
  have created : Traffic t.machine ⟨made, [maker], [], [], [], []⟩ :=
    Traffic.opened.step (.create held creation)
  have found : made.Holds (.buffer o.batch.output) := by
    obtain ⟨e, new, spans⟩ := (Step.create held creation).spans
      (Traffic.opened.serves run carefree) Traffic.opened.orderly
    exact spans.drifts.holds (Traffic.opened.serves run carefree).base free.1
  have flying : Traffic t.machine ⟨dispatched, [maker], [⟨maker, o.batch, handle⟩], [], [], []⟩ :=
    created.step (.hash (List.mem_singleton.2 rfl) found size hashing)
  have joined : Traffic t.machine
      ⟨n, [maker], [], [], [(⟨maker, o.batch, handle⟩, answer)], []⟩ :=
    flying.step (@Step.join _ [] [] _ _ _ rfl joins)
  have apart := joined.apart run carefree (List.nodup_singleton _) fun buffer mem => by
    rw [List.mem_singleton.1 mem]
    exact free
  exact ⟨hasher, handle, apart.answered _ (List.mem_singleton.2 rfl)⟩

/-- **Batches do not get in each other's way.** Once a batch is joined, its output is what it would
be if the batch was alone, and so is the answer of a join that tells of faults. Alone, on a machine
where nothing was allocated before, the batch would have been dispatched as well, whatever the
workers do; and unless something holds them up, it would have been joined. -/
theorem batches_apart {t : Trace} (run : Trace.Reaches .start t) (carefree : t.machine.Carefree)
    (traffic : Traffic t.machine s) (nodup : s.outputs.Nodup)
    (free : ∀ buffer ∈ s.outputs, t.machine.Free buffer) {o : Order}
    {answer : Option (Except Error Unit)} (joined : (o, answer) ∈ s.joined) :
    (∀ answer' n, o.Alone t.machine answer' n →
      s.machine.contents.buffer o.batch.output = n.contents.buffer o.batch.output ∧
      ∀ told told', answer = some told → answer' = some told' → told = told') ∧
    (t.machine.memories = [] →
      (∀ q l, t.machine.ledger? q = some l → l.limit ≤ Size.largest) →
      o.Granted t.machine ∧
        (t.machine.Unhindered → ∃ told n, o.Alone t.machine (some told) n)) := by
  have joint := (traffic.apart run carefree nodup free).answered _ joined
  obtain ⟨k, shares, underway⟩ := joint.underway
  refine ⟨fun answer' n alone => ?_, fun none words => ?_⟩
  · have mine : t.machine.Free o.batch.output := free _
      (List.mem_append_right _ (List.mem_append_left _ (List.mem_map.2 ⟨_, joined, rfl⟩)))
    obtain ⟨hasher, handle, lone⟩ :=
      over_of_alone run carefree mine underway.size underway.held alone
    exact joint.unique lone rfl rfl rfl rfl
  · have granted := ((traffic.afforded run none).joined _ joined).granted fun r mem => by
      obtain ⟨l, found⟩ := exists_ledger_of_handles (underway.held r mem)
      exact ⟨l, found, words _ l found⟩
    exact ⟨granted, granted.exists_alone (Traffic.opened.leased run none)⟩

/-! Two hashers share a queue. The batch of the second one has a fault, and the first hasher goes
before its own batch is joined. -/

private def twoOutputs : Trace :=
  ((Trace.start.call (.createQueue ⟨"left", .cpu, none⟩)).call
    (.createBuffer (Bytes.zeros 16))).call (.createBuffer (Bytes.zeros 20))

private def loneRunner : List Runner :=
  [⟨⟨0⟩, 1⟩]

private def soundBatch : Batch :=
  ⟨[1], 1, ⟨0⟩, 1⟩

private def emptyInputBatch : Batch :=
  ⟨[], 1, ⟨1⟩, 1⟩

/-- Whether the join of the second batch tells a fault then, and that of the first one none, also
when it is alone. -/
private def onlySecondJoinFails : Bool :=
  match (Hasher.create .md5 loneRunner []).run twoOutputs.machine with
  | some (.ok h, made) =>
    match (h.hash soundBatch).run made with
    | some (.ok handle, alone) =>
      match (Hasher.create .sha1 loneRunner []).run alone, handle.waitAndThrow.run alone with
      | some (.ok h', joint), some (.ok (), _) =>
        match (h'.hash emptyInputBatch).run joint with
        | some (.ok handle', busy) =>
          match h.drop.run busy with
          | some (_, parted) =>
            match handle'.waitAndThrow.run parted with
            | some (.error _, failed) =>
              match handle.waitAndThrow.run failed with
              | some (.ok (), _) =>
                made.contents.buffers.length == 2 && joint.contents.buffers.length == 2 &&
                  decide (1 < alone.handles ⟨0⟩)
              | _ => false
            | _ => false
          | none => false
        | _ => false
      | _, _ => false
    | _ => false
  | _ => false

theorem batches_apart_faulty : ∃ s o o' e n, Traffic twoOutputs.machine s ∧ s.makers.length = 1 ∧
    (o, some (.ok ())) ∈ s.joined ∧ (o', some (.error e)) ∈ s.joined ∧
    o.Alone twoOutputs.machine (some (.ok ())) n ∧
    s.machine.contents.buffer o.batch.output = n.contents.buffer o.batch.output ∧
    o.Granted twoOutputs.machine := by
  have run : Trace.Reaches .start twoOutputs :=
    (((Trace.Reaches.refl _).step (.call _ (.createQueue _) trivial)).step
      (.call _ (.createBuffer _) trivial)).step (.call _ (.createBuffer _) trivial)
  have idle : ∀ q, twoOutputs.machine.pending q = [] := by
    rintro ⟨_ | i⟩ <;> rfl
  have carefree : twoOutputs.machine.Carefree := by
    rintro ⟨_ | i⟩ <;> rfl
  have nodup : [emptyInputBatch.output, soundBatch.output].Nodup := by decide
  have free : ∀ buffer ∈ [emptyInputBatch.output, soundBatch.output],
      twoOutputs.machine.Free buffer := by
    refine fun buffer mem => ⟨?_, fun q job inside => ?_⟩
    · rcases List.mem_cons.1 mem with rfl | mem
      · exact Nat.one_lt_two
      · rw [List.mem_singleton.1 mem]
        exact Nat.two_pos
    · rw [idle] at inside
      cases inside
  have words : ∀ q l, twoOutputs.machine.ledger? q = some l → l.limit ≤ Size.largest := by
    rintro ⟨_ | i⟩ l found
    · cases found
      decide
    · cases found
  have evaluated : onlySecondJoinFails = true := by decide +kernel
  unfold onlySecondJoinFails at evaluated
  split at evaluated
  next h made creation =>
    split at evaluated
    next handle alone first =>
      split at evaluated
      next h' joint n creation' lone =>
        split at evaluated
        next handle' busy second =>
          split at evaluated
          next parted parting =>
            split at evaluated
            next e failed joining' =>
              split at evaluated
              next after joining =>
                simp only [Bool.and_eq_true, beq_iff_eq, decide_eq_true_eq] at evaluated
                obtain ⟨⟨before, later⟩, held⟩ := evaluated
                let maker : Maker := ⟨.md5, loneRunner, [], h⟩
                let maker' : Maker := ⟨.sha1, loneRunner, [], h'⟩
                let o : Order := ⟨maker, soundBatch, handle⟩
                let o' : Order := ⟨maker', emptyInputBatch, handle'⟩
                have lent : ∀ r ∈ loneRunner, (opened twoOutputs.machine).attached r.queue <
                    twoOutputs.machine.handles r.queue := by
                  decide
                have lent' : ∀ r ∈ loneRunner, attached ⟨alone, [maker], [o], [], [], []⟩ r.queue <
                    alone.handles r.queue := by
                  intro r mem
                  rw [List.mem_singleton.1 mem]
                  exact held
                have found : made.Holds (.buffer soundBatch.output) := by
                  show 0 < made.contents.buffers.length
                  omega
                have found' : joint.Holds (.buffer emptyInputBatch.output) := by
                  show 1 < joint.contents.buffers.length
                  omega
                -- Both batches are dispatched, and the first hasher goes.
                have traffic : Traffic twoOutputs.machine ⟨alone, [maker], [o], [], [], []⟩ :=
                  (Traffic.opened.step (.create lent (Host.reaches_of_run creation))).step
                    (.hash (List.mem_singleton.2 rfl) found (by decide) (Host.reaches_of_run first))
                have traffic : Traffic twoOutputs.machine
                    ⟨busy, [maker, maker'], [o, o'], [], [], []⟩ :=
                  (traffic.step (.create lent' (Host.reaches_of_run creation'))).step
                    (.hash (List.mem_cons_of_mem _ (List.mem_singleton.2 rfl)) found' (by decide)
                      (Host.reaches_of_run second))
                have traffic : Traffic twoOutputs.machine ⟨parted, [maker'], [o, o'], [], [], []⟩ :=
                  traffic.step (@Step.part _ [] _ _ _ rfl (Host.reaches_of_run parting))
                -- The second batch is joined before the first.
                have traffic : Traffic twoOutputs.machine
                    ⟨failed, [maker'], [o], [], [(o', some (.error e))], []⟩ :=
                  traffic.step (@Step.join _ [o] [] o' _ _ rfl
                    (.throw (Host.reaches_of_run joining')))
                let answers : List (Order × Option (Except Error Unit)) :=
                  [(o', some (.error e)), (o, some (.ok ()))]
                have traffic : Traffic twoOutputs.machine ⟨after, [maker'], [], [], answers, []⟩ :=
                  traffic.step (@Step.join _ [] [] o _ _ rfl (.throw (Host.reaches_of_run joining)))
                have lonely : o.Alone twoOutputs.machine (some (.ok ())) n :=
                  ⟨h, made, handle, alone, Host.reaches_of_run creation, Host.reaches_of_run first,
                    .throw (Host.reaches_of_run lone)⟩
                have joined : (o, some (.ok ())) ∈ answers :=
                  List.mem_cons_of_mem _ (List.mem_singleton.2 rfl)
                have apart := batches_apart run carefree traffic nodup free joined
                exact ⟨_, o, o', e, n, traffic, rfl, joined, List.mem_cons_self, lonely,
                  (apart.1 _ n lonely).1, (apart.2 rfl words).1⟩
              next => cases evaluated
            next => cases evaluated
          next => cases evaluated
        next => cases evaluated
      next => cases evaluated
    next => cases evaluated
  next => cases evaluated

end Desk

end BatchDigest
