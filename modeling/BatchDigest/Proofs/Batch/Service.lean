import BatchDigest.Proofs.Batch.Conservation
import BatchDigest.Proofs.Batch.Titles

/-!
# Hashers in service

As long as a hasher is on the desk it can be asked for a batch: its queues serve, because it holds
handles to them, and its tables are staged or on their way (`Desk.Serves`). Every step keeps it that
way, since it touches nothing but new memories and, when it is a batch, the output of the batch
(`Desk.Step.spans`).
-/

namespace BatchDigest

open Machine

/-- The stations of a hasher are ready for any batch. -/
def Maker.Ready (maker : Maker) (name : QueueId → String) (m : Machine) : Prop :=
  ∀ k : Contract, k.algorithm = maker.algorithm →
    maker.algorithm.tableBlob maker.key = .ok k.blob → k.device = name →
    ∀ station ∈ maker.hasher.stations, k.Stationed (maker.runners.map (·.queue)) m station

/-- Queues serve that the caller holds handles to, while no job carries one. -/
theorem Machine.Serving.of_held {m : Machine} {name : QueueId → String} (base : m.Serving [] name)
    (titled : ∀ q, m.queueName q = name q) (carefree : m.Carefree) {runners : List Runner}
    (held : ∀ r ∈ runners, 0 < m.handles r.queue) :
    m.Serving (runners.map (·.queue)) name := by
  refine ⟨base.sound, base.aligned, base.inside, fun q mem => ?_, fun q _ => titled q⟩
  obtain ⟨r, inside, rfl⟩ := List.mem_map.1 mem
  rw [carried_eq_zero fun p => carefree p ▸ List.not_mem_nil]
  exact held r inside

/-- Nothing but new memories is touched when a hasher is asked for. -/
theorem Hasher.creation_passes {a : Algorithm} {runners : List Runner} {key : Bytes}
    {r : Except Error Hasher} {m n : Machine} {name : QueueId → String}
    (serving : m.Serving (runners.map (·.queue)) name)
    (run : Host.Reaches (Hasher.create a runners key, m) (.done r, n)) : m.Passes (.new m) n := by
  cases accepted : a.checkKey key.length with
  | error cause =>
    have refused : (Hasher.create a runners key).Meets (fun _ => True)
        (fun _ n => m.Passes (.new m) n) m := by
      unfold Hasher.create
      rw [accepted]
      exact fun n first => ⟨trivial, .of_evolves first⟩
    exact refused.goal_of_reaches run
  | ok _ =>
    obtain ⟨k, rfl, -, -, rfl, staged, -⟩ :=
      Contract.exists_of_accepted accepted ⟨[], 0, ⟨0⟩, 0⟩ [] name
    have mem : ∀ r ∈ runners, r.queue ∈ runners.map (·.queue) := fun r => List.mem_map_of_mem
    exact ((Contract.meets_creation staged mem serving).goal_of_reaches run).1

namespace Desk

variable {s s' : Desk} {name : QueueId → String}

/-- The hashers can be asked for batches. -/
structure Serves (s : Desk) (name : QueueId → String) : Prop where
  base : s.machine.Serving [] name
  titled : ∀ q, s.machine.queueName q = name q
  carefree : s.machine.Carefree
  attached : ∀ q, s.attached q ≤ s.machine.handles q
  ready : ∀ maker ∈ s.makers, maker.Ready name s.machine

namespace Serves

/-- The queues of a hasher are held. -/
theorem held (h : s.Serves name) {maker : Maker} (mem : maker ∈ s.makers) :
    ∀ r ∈ maker.runners, 0 < s.machine.handles r.queue := by
  intro r inside
  have one : 0 < Runner.on maker.runners r.queue :=
    List.count_pos_iff.2 (List.mem_map_of_mem inside)
  have part : Runner.on maker.runners r.queue ≤ s.attached r.queue := by
    obtain ⟨before, later, split⟩ := List.append_of_mem mem
    unfold Desk.attached
    rw [split, List.map_append, List.sum_append, List.map_cons, List.sum_cons]
    omega
  exact Nat.lt_of_lt_of_le one (Nat.le_trans part (h.attached _))

/-- So they serve. -/
theorem serving (h : s.Serves name) {maker : Maker} (mem : maker ∈ s.makers) :
    s.machine.Serving (maker.runners.map (·.queue)) name :=
  h.base.of_held h.titled h.carefree (h.held mem)

/-- So do those of the runners that a hasher is asked for. -/
theorem serving_lent (h : s.Serves name) {runners : List Runner}
    (lent : ∀ r ∈ runners, s.attached r.queue < s.machine.handles r.queue) :
    s.machine.Serving (runners.map (·.queue)) name :=
  h.base.of_held h.titled h.carefree fun r mem => Nat.lt_of_le_of_lt (Nat.zero_le _) (lent r mem)

end Serves

/-! ## What a step touches -/

/-- Between two desks nothing was touched but new memories and the outputs of new batches. -/
structure Spans (s s' : Desk) (e : Extent) (new : List BufferId) : Prop where
  drifts : s.machine.Drifts e s'.machine
  memories : ∀ id, e.memories id → s.machine.memories.length ≤ id.index
  bytes : ∀ buffer i, e.bytes buffer i → buffer ∈ new
  outputs : s'.outputs.Perm (new ++ s.outputs)

/-- A step that is no batch. -/
theorem spans_of_drifts (drifts : s.machine.Drifts .nothing s'.machine)
    (outputs : s'.outputs.Perm s.outputs) : s.Spans s' .nothing [] :=
  ⟨drifts, nofun, nofun, outputs⟩

/-- A batch touches new memories and its output. -/
theorem Serves.hash_passes (h : s.Serves name) (orderly : s.Orderly) {maker : Maker}
    (mem : maker ∈ s.makers) {b : Batch} (found : s.machine.Holds (.buffer b.output))
    (size : b.count ≤ Size.largest) {r : Except Error Handle} {n : Machine}
    (run : Host.Reaches (maker.hasher.hash b, s.machine) (.done r, n)) :
    s.machine.Passes (b.extent s.machine.memories.length) n := by
  obtain ⟨k, algorithm, rfl, -, rfl, staged, -⟩ :=
    Contract.exists_of_accepted (orderly.made maker mem).accepted b [] name
  have outcome := (Contract.meets_hash_flight (h.serving mem)
    (h.ready maker mem k algorithm staged rfl) found size).goal_of_reaches run
  cases r with
  | ok handle =>
    obtain ⟨all, -, -, passes, -⟩ := outcome
    exact passes
  | error e =>
    obtain ⟨done, next, later, d, -, -, passes, -⟩ := outcome
    exact passes

/-- **A step touches nothing but new memories, and the output of a batch if it is one.** -/
theorem Step.spans (h : s.Serves name) (orderly : s.Orderly) (step : s.Step s') :
    ∃ e new, s.Spans s' e new := by
  cases step with
  | worker step =>
    exact ⟨_, _, spans_of_drifts (Drifts.refl.worker (turn_of_advance? step)) (.refl _)⟩
  | create lent run | refuse lent run =>
    have passes := Hasher.creation_passes (h.serving_lent lent) run
    exact ⟨_, [], passes.drifts, fun _ => id, nofun, .refl _⟩
  | hash mem found size run =>
    exact ⟨_, [_], (h.hash_passes orderly mem found size run).drifts, fun _ => id,
      fun _ _ => List.mem_singleton.2, s.outputs_hash _ _⟩
  | fail mem found size run =>
    refine ⟨_, [_], (h.hash_passes orderly mem found size run).drifts, fun _ => id,
      fun _ _ => List.mem_singleton.2, ?_⟩
    unfold outputs
    simp only [← List.append_assoc]
    exact List.perm_append_singleton _ _
  | join flying joins =>
    refine ⟨_, _, spans_of_drifts (joins.along giving_drifts) ?_⟩
    unfold outputs
    rw [flying]
    simp only [List.map_append, List.map_cons, List.map_nil, List.append_assoc, List.cons_append,
      List.nil_append]
    refine List.Perm.append_left _ ?_
    simp only [← List.append_assoc]
    exact List.perm_middle
  | rejoin joins => exact ⟨_, _, spans_of_drifts (joins.along giving_drifts) (.refl _)⟩
  | part there run =>
    exact ⟨_, _, spans_of_drifts ((Hasher.always_drop_drifts _).of_reaches run) (.refl _)⟩
  | leave own run =>
    have drops := Host.always_dropQueue giving_drifts.toFlow
      (fun m q => .still .refl (m.still_dropHandle q))
    exact ⟨_, _, spans_of_drifts ((drops _).of_reaches run) (.refl _)⟩
  | @allocate q kind length _ made =>
    have quiet := s.machine.quiet_allocate q kind length h.base.aligned
    exact ⟨_, _, spans_of_drifts (.still .refl quiet.toStill) (.refl _)⟩
  | release mine =>
    exact ⟨_, _, spans_of_drifts (giving_drifts.release _ _) (.refl _)⟩

/-! ## Service goes on -/

/-- Hashers hold a handle for each of their runners, before and after a step. -/
theorem Step.attached (h : s.Serves name) (orderly : s.Orderly) (step : s.Step s') :
    s'.machine.Carefree ∧ ∀ q, s'.attached q ≤ s'.machine.handles q := by
  -- Most steps let no handle go.
  have retained : ∀ {n : Machine}, Retains s.machine n →
      n.Carefree ∧ ∀ q, s.attached q ≤ n.handles q := by
    intro n retains
    obtain ⟨carefree, kept⟩ := retains h.carefree
    exact ⟨carefree, fun q => Nat.le_trans (h.attached q) (kept q)⟩
  cases step with
  | worker step => exact retained (flow_retains.step step)
  | @create a runners key hasher after lent run =>
    have held : ∀ r ∈ runners, 0 < s.machine.handles r.queue := fun r mem =>
      Nat.lt_of_le_of_lt (Nat.zero_le _) (lent r mem)
    obtain ⟨carefree, more⟩ :=
      (Hasher.meets_create_handles a key h.carefree held).goal_of_reaches run
    refine ⟨carefree, fun q => ?_⟩
    have more : s.machine.handles q + Runner.on runners q ≤ after.handles q := more hasher rfl q
    have before : s.attached q ≤ s.machine.handles q := h.attached q
    unfold Desk.attached at before ⊢
    rw [List.map_append, List.sum_append, List.map_singleton, List.sum_singleton]
    show _ + Runner.on runners q ≤ after.handles q
    omega
  | @refuse a runners key e after lent run =>
    exact retained ((Hasher.always_create giving_retains
      (StagedTables.always_stage taking_retains a key) runners fun m r _ =>
        m.retains_addHandle r.queue).of_reaches run)
  | hash mem found size run | fail mem found size run =>
    exact retained ((Hasher.always_hash taking_retains _ _).of_reaches run)
  | join flying joins => exact retained (joins.along giving_retains)
  | rejoin joins => exact retained (joins.along giving_retains)
  | @part before later maker after there run =>
    have made := orderly.made maker (by rw [there]; exact List.mem_append_right _ List.mem_cons_self)
    obtain ⟨carefree, left⟩ := ((Hasher.drop_sheds maker.hasher).of_reaches run) h.carefree
    refine ⟨carefree, fun q => ?_⟩
    have left : s.machine.handles q ≤ after.handles q + Runner.on _ q := left q
    have before : s.attached q ≤ s.machine.handles q := h.attached q
    rw [made.runners] at left
    unfold Desk.attached at before ⊢
    rw [there] at before
    simp only [List.map_append, List.sum_append, List.map_cons, List.sum_cons] at before ⊢
    omega
  | @leave q after own run =>
    obtain ⟨carefree, left⟩ := ((Host.dropQueue_sheds q).of_reaches run) h.carefree
    refine ⟨carefree, fun p => ?_⟩
    have left : s.machine.handles p ≤ after.handles p + if p = q then 1 else 0 := left p
    have before : s.attached p ≤ s.machine.handles p := h.attached p
    show s.attached p ≤ after.handles p
    split at left
    next same =>
      subst same
      omega
    next => exact Nat.le_trans before left
  | @allocate q kind length _ made => exact retained (s.machine.retains_allocate q kind length)
  | release mine => exact retained (giving_retains.release _ _)

/-- Hashers stay ready, and a new one is ready. -/
theorem Step.ready (h : s.Serves name) (orderly : s.Orderly) (step : s.Step s') :
    ∀ maker ∈ s'.makers, maker.Ready name s'.machine := by
  obtain ⟨e, new, spans⟩ := step.spans h orderly
  rintro maker mem k algorithm staged rfl station inside
  rcases step.mem_makers mem with old | ⟨lent, run⟩
  · exact (h.ready maker old k algorithm staged rfl station inside).drifts h.base
      (h.serving old).isNamed spans.drifts spans.memories
  · rw [← algorithm] at run staged
    exact ((Contract.meets_create staged (fun r => List.mem_map_of_mem)
      (h.serving_lent lent)).goal_of_reaches run _ rfl).2.2.2 station inside

/-- **Every step keeps the hashers in service.** -/
theorem Serves.step (h : s.Serves name) (orderly : s.Orderly) (step : s.Step s') :
    s'.Serves name := by
  obtain ⟨e, new, spans⟩ := step.spans h orderly
  obtain ⟨carefree, attached⟩ := step.attached h orderly
  have titles := step.along taking_titles (fun m q _ => m.titles_addHandle q) titles_dropHandle
    titles_allocate
  exact ⟨spans.drifts.serving h.base, fun q => (titles.queueName q).trans (h.titled q), carefree,
    attached, step.ready h orderly⟩

/-- **Hashers serve at any moment of any traffic.** -/
theorem Traffic.serves {t : Trace} (run : Trace.Reaches .start t) (carefree : t.machine.Carefree)
    (traffic : Traffic t.machine s) : s.Serves t.machine.queueName := by
  induction traffic with
  | opened =>
    exact ⟨Trace.serving_of_reaches run _, fun _ => rfl, carefree, fun _ => Nat.zero_le _, nofun⟩
  | step traffic step ih => exact ih.step traffic.orderly step

end Desk

end BatchDigest
