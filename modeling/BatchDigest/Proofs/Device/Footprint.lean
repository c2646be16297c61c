import BatchDigest.Device.Machine

/-!
# What work touches

The contents of a machine are regions: device memories, host buffers and the log. `Work.reads` and
`Work.writes` list the regions that work looks at and those that it may change. Two facts make these
lists a footprint: work leaves every region alone that it does not write, and what it does to the
regions that it touches, its failure included, depends on these regions only.
-/

namespace BatchDigest

/-- A part of the contents that work touches as a whole. -/
inductive Region where
  | memory (id : MemoryId)
  | buffer (id : BufferId)
  | log
deriving Repr, DecidableEq

namespace Work

/-- The regions that work looks at without changing them. -/
def reads : Work → List Region
  | copyOut _ _ id _ => [.memory id]
  | launch l => .memory l.input :: l.tables.toList.map .memory
  | _ => []

/-- The regions that work may change. -/
def writes : Work → List Region
  | log _ => [.log]
  | mask id _ | copyIn id _ _ => [.memory id]
  | copyOut buffer _ _ _ => [.buffer buffer]
  | launch l => [.memory l.output]
  | _ => []

/-- The regions that work looks at or may change. -/
def touches (w : Work) : List Region :=
  w.reads ++ w.writes

theorem mem_touches_of_mem_writes {w : Work} {r : Region} (h : r ∈ w.writes) : r ∈ w.touches :=
  List.mem_append_right _ h

end Work

/-- Whether a region is one of the machine. -/
def Machine.Holds (m : Machine) : Region → Prop
  | .memory id => id.index < m.memories.length
  | .buffer id => id.index < m.contents.buffers.length
  | .log => True

instance (m : Machine) (r : Region) : Decidable (m.Holds r) :=
  match r with
  | .memory _ => inferInstanceAs (Decidable (_ < _))
  | .buffer _ => inferInstanceAs (Decidable (_ < _))
  | .log => inferInstanceAs (Decidable True)

namespace Contents

/-! ## Agreement on a region -/

/-- Whether two contents are the same on a region. -/
def Agrees (c c' : Contents) : Region → Prop
  | .memory id => c.memories[id.index]? = c'.memories[id.index]?
  | .buffer id => c.buffers[id.index]? = c'.buffers[id.index]?
  | .log => c.log = c'.log

theorem Agrees.refl (c : Contents) (r : Region) : c.Agrees c r := by
  cases r <;> rfl

theorem Agrees.symm {c c' : Contents} {r : Region} (h : c.Agrees c' r) : c'.Agrees c r := by
  cases r <;> exact Eq.symm h

theorem Agrees.trans {a b c : Contents} {r : Region} (first : a.Agrees b r)
    (second : b.Agrees c r) : a.Agrees c r := by
  cases r <;> exact Eq.trans first second

/-- Contents that are the same on every region are the same. -/
theorem eq_of_agrees {c c' : Contents} (same : ∀ r, c.Agrees c' r) : c = c' := by
  have memories : c.memories = c'.memories := List.ext_getElem? fun i => same (.memory ⟨i⟩)
  have buffers : c.buffers = c'.buffers := List.ext_getElem? fun i => same (.buffer ⟨i⟩)
  have log : c.log = c'.log := same .log
  cases c
  cases c'
  simp_all

variable {c c' : Contents} {r : Region}

theorem Agrees.memory_eq {id : MemoryId} (h : c.Agrees c' (.memory id)) :
    c.memory id = c'.memory id := by
  have at' : c.memories[id.index]? = c'.memories[id.index]? := h
  unfold memory
  rw [at']

theorem Agrees.buffer_eq {id : BufferId} (h : c.Agrees c' (.buffer id)) :
    c.buffer id = c'.buffer id := by
  have at' : c.buffers[id.index]? = c'.buffers[id.index]? := h
  unfold buffer
  rw [at']

/-- A change of a memory leaves other regions alone. -/
theorem agrees_setMemory {id : MemoryId} (bytes : Bytes) (other : r ≠ .memory id) :
    (c.setMemory id bytes).Agrees c r := by
  cases r with
  | memory id' =>
    have ne : id.index ≠ id'.index := by
      intro same
      apply other
      cases id
      cases id'
      cases same
      rfl
    exact List.getElem?_set_ne ne
  | buffer _ => rfl
  | log => rfl

/-- A change of a buffer leaves other regions alone. -/
theorem agrees_setBuffer {id : BufferId} (bytes : Bytes) (other : r ≠ .buffer id) :
    (c.setBuffer id bytes).Agrees c r := by
  cases r with
  | memory _ => rfl
  | buffer id' =>
    have ne : id.index ≠ id'.index := by
      intro same
      apply other
      cases id
      cases id'
      cases same
      rfl
    exact List.getElem?_set_ne ne
  | log => rfl

theorem Agrees.setMemory (h : c.Agrees c' r) (id : MemoryId) (bytes : Bytes) :
    (c.setMemory id bytes).Agrees (c'.setMemory id bytes) r := by
  cases r with
  | memory id' =>
    have at' : c.memories[id'.index]? = c'.memories[id'.index]? := h
    show (c.memories.set id.index bytes)[id'.index]? = (c'.memories.set id.index bytes)[id'.index]?
    rw [List.getElem?_set', List.getElem?_set', at']
  | buffer _ => exact h
  | log => exact h

theorem Agrees.setBuffer (h : c.Agrees c' r) (id : BufferId) (bytes : Bytes) :
    (c.setBuffer id bytes).Agrees (c'.setBuffer id bytes) r := by
  cases r with
  | memory _ => exact h
  | buffer id' =>
    have at' : c.buffers[id'.index]? = c'.buffers[id'.index]? := h
    show (c.buffers.set id.index bytes)[id'.index]? = (c'.buffers.set id.index bytes)[id'.index]?
    rw [List.getElem?_set', List.getElem?_set', at']
  | log => exact h

-- A region that does not exist counts as empty, so it can be set to no bytes as well.
theorem getD_set_of_fits {regions : List Bytes} {i : Nat} {bytes : Bytes}
    (fits : i < regions.length ∨ bytes.length = (regions[i]?.getD []).length) :
    (regions.set i bytes)[i]?.getD [] = bytes := by
  by_cases known : i < regions.length
  · rw [List.getElem?_set_self known]
    rfl
  · have none := List.getElem?_eq_none (Nat.le_of_not_lt known)
    have empty : bytes = [] := by simpa [known, none] using fits
    rw [List.set_eq_of_length_le (Nat.le_of_not_lt known), none, empty]
    rfl

theorem memory_setMemory {id : MemoryId} {bytes : Bytes}
    (fits : id.index < c.memories.length ∨ bytes.length = (c.memory id).length) :
    (c.setMemory id bytes).memory id = bytes :=
  getD_set_of_fits fits

theorem buffer_setBuffer {id : BufferId} {bytes : Bytes}
    (fits : id.index < c.buffers.length ∨ bytes.length = (c.buffer id).length) :
    (c.setBuffer id bytes).buffer id = bytes :=
  getD_set_of_fits fits

end Contents

namespace Work

variable {w : Work} {c c' : Contents}

/-! ## The footprint of work -/

/-- A copy into a memory replaces a range that fits. -/
theorem perform_copyIn (c : Contents) (id : MemoryId) (offset : Nat) (data : Bytes) :
    (copyIn id offset data).perform c =
      match (c.memory id).overwrite? offset data with
      | some bytes => .success (c.setMemory id bytes)
      | none => .failed c (.copy (.inPastEnd data.length offset (c.memory id).length)) := by
  show Outcome.ofExcept c ((c.copyIn id offset data).mapError WorkError.copy) = _
  unfold Contents.copyIn
  cases (c.memory id).overwrite? offset data <;> rfl

/-- A copy out of a memory replaces a range of a buffer, when both ranges fit. -/
theorem perform_copyOut (c : Contents) (buffer : BufferId) (offset : Nat) (id : MemoryId)
    (length : Nat) :
    (copyOut buffer offset id length).perform c =
      match (c.memory id).read? 0 length with
      | none => .failed c (.copy (.outPastAllocation length (c.memory id).length))
      | some data =>
        match (c.buffer buffer).overwrite? offset data with
        | some bytes => .success (c.setBuffer buffer bytes)
        | none => .failed c (.copy (.outPastBuffer length offset (c.buffer buffer).length)) := by
  show Outcome.ofExcept c ((c.copyOut buffer offset id length).mapError WorkError.copy) = _
  unfold Contents.copyOut
  cases (c.memory id).read? 0 length with
  | none => rfl
  | some data =>
    dsimp only
    cases (c.buffer buffer).overwrite? offset data <;> rfl

/-- Work makes no memory and no buffer. -/
theorem length_perform (w : Work) (c : Contents) :
    (w.perform c).result.memories.length = c.memories.length ∧
      (w.perform c).result.buffers.length = c.buffers.length := by
  cases w with
  | plain _ _ | gate _ | log _ => exact ⟨rfl, rfl⟩
  | mask _ _ | launch _ => exact ⟨List.length_set, rfl⟩
  | copyIn id offset data =>
    rw [perform_copyIn]
    split
    · exact ⟨List.length_set, rfl⟩
    · exact ⟨rfl, rfl⟩
  | copyOut buffer offset id length =>
    rw [perform_copyOut]
    split
    · exact ⟨rfl, rfl⟩
    · split
      · exact ⟨rfl, List.length_set⟩
      · exact ⟨rfl, rfl⟩

/-- **Work leaves alone what it does not write.** -/
theorem agrees_perform_of_not_mem {r : Region} (apart : r ∉ w.writes) :
    (w.perform c).result.Agrees c r := by
  cases w with
  | plain _ _ | gate _ => exact .refl c r
  | log line =>
    have other : r ≠ .log := fun same => apart (List.mem_singleton.2 same)
    cases r with
    | memory _ | buffer _ => rfl
    | log => exact absurd rfl other
  | mask id bytes =>
    exact Contents.agrees_setMemory _ fun same => apart (List.mem_singleton.2 same)
  | copyIn id offset data =>
    rw [perform_copyIn]
    split
    · exact Contents.agrees_setMemory _ fun same => apart (List.mem_singleton.2 same)
    · exact .refl c r
  | copyOut buffer offset id length =>
    rw [perform_copyOut]
    split
    · exact .refl c r
    · split
      · exact Contents.agrees_setBuffer _ fun same => apart (List.mem_singleton.2 same)
      · exact .refl c r
  | launch l =>
    exact Contents.agrees_setMemory _ fun same => apart (List.mem_singleton.2 same)

/-- The memories that a launch looks at decide what it writes and whether it fails. -/
private theorem launch_congr (l : Launch) (input : c.memory l.input = c'.memory l.input)
    (output : c.memory l.output = c'.memory l.output)
    (tables : l.tables.map c.memory = l.tables.map c'.memory) :
    ∃ bytes failure, (Work.launch l).perform c = ⟨c.setMemory l.output bytes, failure⟩ ∧
      (Work.launch l).perform c' = ⟨c'.setMemory l.output bytes, failure⟩ := by
  refine ⟨_, _, rfl, ?_⟩
  show (c'.launch l).mapFailure WorkError.launch = _
  unfold Contents.launch Contents.run
  rw [input, output, tables]
  rfl

/-- **Work that carries queue handles is plain**: it leaves the contents as they are, and ends in one
way whatever they are. -/
theorem perform_of_held (carries : w.held ≠ []) :
    ∃ failure, ∀ c : Contents, w.perform c = ⟨c, failure⟩ := by
  cases w with
  | plain ending held => exact ⟨ending.failure?, fun _ => rfl⟩
  | _ => exact absurd rfl carries

/-- **Work depends on what it touches only**: on contents that agree there it fails alike and leaves
contents that agree there. -/
theorem perform_congr (same : ∀ r ∈ w.touches, c.Agrees c' r) :
    (w.perform c).failure = (w.perform c').failure ∧
      ∀ r ∈ w.touches, (w.perform c).result.Agrees (w.perform c').result r := by
  cases w with
  | plain _ _ | gate _ => exact ⟨rfl, same⟩
  | log line =>
    refine ⟨rfl, ?_⟩
    intro r hr
    cases List.mem_singleton.1 hr
    exact congrArg (· ++ [line]) (same .log (List.mem_singleton.2 rfl))
  | mask id bytes =>
    have at' := (same (.memory id) (List.mem_singleton.2 rfl)).memory_eq
    refine ⟨rfl, ?_⟩
    intro r hr
    show (c.setMemory id (Bytes.maskFront bytes (c.memory id))).Agrees
      (c'.setMemory id (Bytes.maskFront bytes (c'.memory id))) r
    rw [at']
    exact (same r hr).setMemory id _
  | copyIn id offset data =>
    have at' := (same (.memory id) (List.mem_singleton.2 rfl)).memory_eq
    rw [perform_copyIn, perform_copyIn, at']
    cases Bytes.overwrite? (c'.memory id) offset data with
    | none => exact ⟨rfl, same⟩
    | some bytes => exact ⟨rfl, fun r hr => (same r hr).setMemory id bytes⟩
  | copyOut buffer offset id length =>
    have from' := (same (.memory id) (by simp [touches, reads])).memory_eq
    have into := (same (.buffer buffer) (by simp [touches, writes])).buffer_eq
    rw [perform_copyOut, perform_copyOut, from', into]
    cases Bytes.read? (c'.memory id) 0 length with
    | none => exact ⟨rfl, same⟩
    | some data =>
      dsimp only
      cases Bytes.overwrite? (c'.buffer buffer) offset data with
      | none => exact ⟨rfl, same⟩
      | some bytes => exact ⟨rfl, fun r hr => (same r hr).setBuffer buffer bytes⟩
  | launch l =>
    have input := (same (.memory l.input) (by simp [touches, reads])).memory_eq
    have output := (same (.memory l.output) (by simp [touches, writes])).memory_eq
    have tables : l.tables.map c.memory = l.tables.map c'.memory := by
      cases h : l.tables with
      | none => rfl
      | some id => exact congrArg some (same (.memory id) (by simp [touches, reads, h])).memory_eq
    obtain ⟨bytes, failure, left, right⟩ := launch_congr l input output tables
    rw [left, right]
    exact ⟨rfl, fun r hr => (same r hr).setMemory l.output bytes⟩

end Work

/-! ## Places -/

/-- What a fact about the contents may depend on: nothing, a device memory, or some bytes of a host
buffer and how many there are. -/
inductive Place where
  | nothing
  | memory (id : MemoryId)
  | bytes (buffer : BufferId) (inside : Nat → Prop)

namespace Place

/-- The region that a place lies in. -/
def home : Place → Region
  | nothing => .log
  | memory id => .memory id
  | bytes buffer _ => .buffer buffer

end Place

/-- Whether two contents are the same in a place. -/
def Contents.Same (c c' : Contents) : Place → Prop
  | .nothing => True
  | .memory id => c.memory id = c'.memory id
  | .bytes buffer inside => (c.buffer buffer).length = (c'.buffer buffer).length ∧
      ∀ i, inside i → (c.buffer buffer)[i]? = (c'.buffer buffer)[i]?

theorem Contents.Agrees.same {c c' : Contents} {place : Place} (h : c.Agrees c' place.home) :
    c.Same c' place := by
  cases place with
  | nothing => trivial
  | memory id => exact h.memory_eq
  | bytes buffer inside =>
    have eq : c.buffer buffer = c'.buffer buffer := h.buffer_eq
    exact ⟨by rw [eq], fun i _ => by rw [eq]⟩

/-- Whether a place decides a fact. -/
def Place.Decides (place : Place) (fact : Contents → Prop) : Prop :=
  ∀ c c', c'.Same c place → fact c → fact c'

namespace Work

variable {w : Work} {place : Place}

/-- Work that leaves a place as it is. -/
def Spares (w : Work) (place : Place) : Prop :=
  ∀ c, (w.perform c).result.Same c place

theorem spares_nothing (w : Work) : w.Spares .nothing :=
  fun _ => trivial

/-- Work spares the regions that it does not write. -/
theorem spares_of_not_mem (apart : place.home ∉ w.writes) : w.Spares place :=
  fun _ => (agrees_perform_of_not_mem apart).same

/-- Fewer bytes are spared as well. -/
theorem Spares.bytes_mono {buffer : BufferId} {inside fewer : Nat → Prop}
    (h : w.Spares (.bytes buffer inside)) (within : ∀ i, fewer i → inside i) :
    w.Spares (.bytes buffer fewer) :=
  fun c => ⟨(h c).1, fun i hi => (h c).2 i (within i hi)⟩

/-- A copy out of a memory spares the bytes around the range that it writes. -/
theorem spares_copyOut {buffer : BufferId} {offset length : Nat} {id : MemoryId}
    {inside : Nat → Prop} (apart : ∀ i, inside i → i < offset ∨ offset + length ≤ i) :
    (copyOut buffer offset id length).Spares (.bytes buffer inside) := by
  intro c
  rw [perform_copyOut]
  split
  · exact (Contents.Agrees.refl c _).same
  next data read =>
    split
    next bytes replaced =>
      obtain ⟨fits, rfl⟩ := Bytes.read?_eq_some_iff.1 read
      have size : (((c.memory id).drop 0).take length).length = length := by
        rw [List.length_take, List.length_drop]
        omega
      have same := Bytes.length_of_overwrite? replaced
      show ((c.setBuffer buffer bytes).buffer buffer).length = _ ∧
        ∀ i, inside i → ((c.setBuffer buffer bytes).buffer buffer)[i]? = _
      rw [Contents.buffer_setBuffer (.inr same)]
      refine ⟨same, ?_⟩
      intro i hi
      have outside := apart i hi
      rw [Bytes.getElem?_of_overwrite? replaced, if_neg (by omega)]
    · exact (Contents.Agrees.refl c _).same

end Work

/-! ## Confined work -/

/-- Where work may write: some memories, and some bytes of buffers. -/
structure Extent where
  memories : MemoryId → Prop
  bytes : BufferId → Nat → Prop

/-- The extent of work that writes nothing. -/
def Extent.nothing : Extent :=
  ⟨fun _ => False, fun _ _ => False⟩

/-- A place outside of an extent. -/
def Place.Outside (e : Extent) : Place → Prop
  | .nothing => True
  | .memory id => ¬ e.memories id
  | .bytes buffer inside => ∀ i, inside i → ¬ e.bytes buffer i

theorem Place.outside_nothing (place : Place) : place.Outside .nothing := by
  cases place with
  | nothing => trivial
  | memory id => exact fun inside => inside
  | bytes buffer inside => exact fun _ _ within => within

theorem Place.Outside.mono {place : Place} {e wider : Extent} (h : place.Outside wider)
    (memories : ∀ id, e.memories id → wider.memories id)
    (bytes : ∀ buffer i, e.bytes buffer i → wider.bytes buffer i) : place.Outside e := by
  cases place with
  | nothing => trivial
  | memory id => exact fun inside => h (memories id inside)
  | bytes buffer inside => exact fun i hi within => h i hi (bytes buffer i within)

/-- Work that writes in an extent only, and carries no handle to a queue. -/
structure Work.Confined (e : Extent) (w : Work) : Prop where
  carefree : w.held = []
  spares : ∀ place : Place, place.Outside e → w.Spares place

namespace Work.Confined

variable {w : Work} {e : Extent}

theorem mono {wider : Extent} (h : w.Confined e)
    (memories : ∀ id, e.memories id → wider.memories id)
    (bytes : ∀ buffer i, e.bytes buffer i → wider.bytes buffer i) : w.Confined wider :=
  ⟨h.carefree, fun place outside => h.spares place (outside.mono memories bytes)⟩

/-- Work that writes memories of the extent only. -/
theorem of_writes (carefree : w.held = [])
    (writes : ∀ r ∈ w.writes, ∃ id, r = .memory id ∧ e.memories id) : w.Confined e := by
  refine ⟨carefree, fun place outside => spares_of_not_mem fun mem => ?_⟩
  obtain ⟨id, home, inside⟩ := writes _ mem
  cases place with
  | nothing => cases home
  | memory other =>
    cases home
    exact outside inside
  | bytes buffer _ => cases home

theorem copyIn {id : MemoryId} (offset : Nat) (data : Bytes) (inside : e.memories id) :
    (Work.copyIn id offset data).Confined e :=
  of_writes rfl (by simpa [writes] using inside)

theorem launch {l : Launch} (inside : e.memories l.output) : (Work.launch l).Confined e :=
  of_writes rfl (by simpa [writes] using inside)

theorem copyOut {buffer : BufferId} {offset length : Nat} (id : MemoryId)
    (range : ∀ i, offset ≤ i → i < offset + length → e.bytes buffer i) :
    (Work.copyOut buffer offset id length).Confined e := by
  refine ⟨rfl, fun place outside => ?_⟩
  cases place with
  | nothing => exact spares_nothing _
  | memory other => exact spares_of_not_mem (by simp [writes, Place.home])
  | bytes other inside =>
    by_cases same : other = buffer
    · subst same
      refine spares_copyOut fun i hi => ?_
      have out := outside i hi
      have far : ¬ (offset ≤ i ∧ i < offset + length) := fun near => out (range i near.1 near.2)
      omega
    · exact spares_of_not_mem (by simpa [writes, Place.home] using same)

end Work.Confined

end BatchDigest
