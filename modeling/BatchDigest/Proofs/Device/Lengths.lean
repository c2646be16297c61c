import BatchDigest.Proofs.Device.Quiet

/-!
# Memories keep their lengths

A memory has the length that was asked for when it was allocated, on record and in its bytes. Work
replaces bytes and never adds or drops any, a launch that fails halfway included
(`Work.lengths_perform`), and no call does either. So on every machine that calls and workers lead
to, the bytes of a memory are as many as its record says (`Trace.sized_of_reaches`).
-/

namespace BatchDigest

namespace Bytes

theorem length_maskFront (mask bytes : Bytes) : (maskFront mask bytes).length = bytes.length := by
  induction mask generalizing bytes with
  | nil => cases bytes <;> rfl
  | cons m mask ih =>
    cases bytes with
    | nil => rfl
    | cons b bytes => exact congrArg (· + 1) (ih bytes)

end Bytes

namespace Kernel

variable (k : Kernel) (tables : k.Tables)

/-- A buffer keeps its length, also when the kernel crashes on the record. -/
theorem length_digestInto (record buffer : Bytes) :
    (k.digestInto tables record buffer).result.length = buffer.length := by
  unfold digestInto
  cases k.finalState tables record with
  | error crash => rfl
  | ok state =>
    dsimp only
    split
    next short =>
      show (state ++ buffer.drop state.length).length = _
      rw [List.length_append, List.length_drop]
      omega
    next long =>
      show (state.take buffer.length).length = _
      rw [List.length_take]
      omega

/-- So does the output of a batch: each digest replaces a piece of it. -/
theorem length_hashRecords (recordLength batch : Nat) (input output : Bytes) :
    (k.hashRecords tables recordLength batch input output).result.length = output.length := by
  induction batch generalizing input output with
  | zero => rfl
  | succ batch ih =>
    show ((k.digestInto tables _ (output.take k.digestSize)).result ++
      (k.hashRecords tables recordLength batch _ (output.drop k.digestSize)).result).length = _
    rw [List.length_append, k.length_digestInto, ih, ← List.length_append, List.take_append_drop]

theorem length_execute (aliased : Bool) (input output : Bytes) (staged : Option Bytes)
    (recordLength batch : Nat) :
    (k.execute aliased input output staged recordLength batch).result.length = output.length := by
  unfold execute
  split
  · rfl
  · split
    · rfl
    · exact k.length_hashRecords _ _ _ _ _

end Kernel

namespace Contents

/-- The number of bytes in each memory. -/
def lengths (c : Contents) : List Nat :=
  c.memories.map List.length

variable {c : Contents}

/-- Bytes that are replaced by as many keep all lengths. -/
theorem lengths_setMemory {id : MemoryId} {bytes : Bytes}
    (same : bytes.length = (c.memory id).length) : (c.setMemory id bytes).lengths = c.lengths := by
  unfold lengths setMemory memory at *
  dsimp only
  rw [List.map_set, same]
  refine List.ext_getElem? fun i => ?_
  rw [List.getElem?_set', List.getElem?_map]
  split
  next here =>
    subst here
    cases c.memories[id.index]? <;> rfl
  next => rfl

end Contents

/-- **Work keeps the length of every memory.** -/
theorem Work.lengths_perform (w : Work) (c : Contents) :
    (w.perform c).result.lengths = c.lengths := by
  cases w with
  | plain _ _ | gate _ | log _ => rfl
  | mask id bytes => exact Contents.lengths_setMemory (Bytes.length_maskFront bytes _)
  | launch l => exact Contents.lengths_setMemory (Kernel.length_execute _ _ _ _ _ _ _)
  | copyIn id offset data =>
    rw [perform_copyIn]
    split
    next replaced => exact Contents.lengths_setMemory (Bytes.length_of_overwrite? replaced)
    next => rfl
  | copyOut buffer offset id length =>
    rw [perform_copyOut]
    split
    · rfl
    · split <;> rfl

namespace Machine

variable {m after : Machine} {q : QueueId}

/-- Memories have as many bytes as their records say. -/
def Sized (m : Machine) : Prop :=
  m.contents.lengths = m.memories.map Memory.length

theorem Sized.length (sized : m.Sized) {id : MemoryId} {memory : Memory}
    (found : m.memory? id = some memory) : (m.contents.memory id).length = memory.length := by
  have here := congrArg (·[id.index]?) sized
  unfold Contents.lengths at here
  unfold memory? at found
  simp only [List.getElem?_map, found, Option.map_some, Option.map_eq_some_iff] at here
  obtain ⟨bytes, there, length⟩ := here
  unfold Contents.memory
  rw [there]
  exact length

theorem Turn.lengths (turn : m.Turn q after) (sound : m.Sound) :
    after.contents.lengths = m.contents.lengths := by
  rcases turn.contents sound with kept | ⟨job, performed⟩
  · rw [kept]
  · rw [performed, Work.lengths_perform]

theorem Sized.turn (sized : m.Sized) (sound : m.Sound) (turn : m.Turn q after) : after.Sized := by
  unfold Sized
  rw [(turn.base sound).memories, ← sized, turn.lengths sound]

/-- A change of owners keeps the length on record. -/
theorem Sized.updateMemory (sized : m.Sized) {change : Memory → Memory}
    (keeps : ∀ memory, (change memory).length = memory.length) (id : MemoryId) :
    (m.updateMemory id change).Sized := by
  refine Eq.trans sized (List.ext_getElem? fun i => ?_)
  show _ = ((m.memories.modify id.index change).map Memory.length)[i]?
  simp only [List.getElem?_map, List.getElem?_modify]
  cases m.memories[i]? with
  | none => split <;> rfl
  | some memory =>
    split
    · exact congrArg some (keeps memory).symm
    · rfl

theorem Sized.addOwner (sized : m.Sized) (id : MemoryId) : (m.addOwner id).Sized :=
  sized.updateMemory (fun _ => by rfl) id

theorem Sized.dropOwner (sized : m.Sized) (id : MemoryId) : (m.dropOwner id).2.Sized :=
  sized.updateMemory (fun _ => by rfl) id

theorem Sized.allocate (sized : m.Sized) (q : QueueId) (kind : MemoryKind) (length : Nat) :
    (m.allocate q kind length).2.Sized := by
  unfold Machine.allocate
  cases m.queue? q with
  | none => exact sized
  | some queue =>
    dsimp only
    split
    next => exact sized
    next allocation _ =>
      show (m.contents.memories ++ [Bytes.zeros length]).map List.length =
        (m.memories ++ [Memory.mk q allocation kind length 1]).map Memory.length
      rw [List.map_append, List.map_append,
        show m.contents.memories.map List.length = _ from sized]
      show _ ++ [(List.replicate length (0 : UInt8)).length] = _ ++ [length]
      rw [List.length_replicate]

theorem Sized.giveBack (sized : m.Sized) (id : MemoryId) : (m.giveBack id).Sized := by
  unfold Machine.giveBack
  split <;> exact sized

/-- The host writes as a queued copy does. -/
theorem writeMemory_eq (m : Machine) (id : MemoryId) (offset : Nat) (data : Bytes) :
    (m.writeMemory id offset data).2 = m ∨ (m.writeMemory id offset data).2 =
      { m with contents := ((Work.copyIn id offset data).perform m.contents).result } := by
  rw [Work.perform_copyIn]
  unfold Machine.writeMemory Contents.copyIn
  cases m.checkAccess "copy_from_host" id with
  | error cause => exact .inl rfl
  | ok memory =>
    dsimp only
    cases (m.contents.memory id).overwrite? offset data with
    | none => exact .inl rfl
    | some bytes => exact .inr rfl

/-- No call changes the length of a memory. -/
theorem Sized.call (sized : m.Sized) (c : Call) : (c.apply m).Sized := by
  cases c with
  | createQueue | holdQueue | dropQueue | createBuffer | writeBuffer | createGate | openGate =>
    exact sized
  | createEvent fault? => cases fault? <;> exact sized
  | submit queue label deps work =>
    show (m.submit queue label deps work).2.Sized
    unfold Machine.submit
    split <;> exact sized
  | allocate queue kind length => exact sized.allocate queue kind length
  | holdMemory id => exact sized.addOwner id
  | dropMemory id => exact sized.dropOwner id
  | giveBack id => exact sized.giveBack id
  | release id =>
    show (m.release id).Sized
    unfold Machine.release
    dsimp only
    split
    · exact (sized.dropOwner id).giveBack id
    · exact sized.dropOwner id
  | writeMemory id offset data =>
    show (m.writeMemory id offset data).2.Sized
    rcases m.writeMemory_eq id offset data with same | performed
    · rw [same]
      exact sized
    · rw [performed]
      exact ((Work.copyIn id offset data).lengths_perform m.contents).trans sized

end Machine

/-- **A memory has as many bytes as were allocated.** -/
theorem Trace.sized_of_reaches {t : Trace} (run : Reaches .start t) : t.machine.Sized := by
  induction run with
  | refl => rfl
  | step reaches step ih =>
    cases step with
    | call c allowed => exact ih.call c
    | worker q after step =>
      exact ih.turn (serving_of_reaches reaches fun _ => "").sound (Machine.turn_of_advance? step)

end BatchDigest
