import BatchDigest.Proofs.Batch.Hashers

/-!
# Clients

A client makes hashers, handles, tables and memories of its own, uses them and lets them go in any
order: a hasher before the handles that it gave out, a queue handle before either. What it has at
any moment is a list of belongings, and each command acts on the belongings that it names by
position, so that nothing is used after it was let go. Queue handles are not counted: a client may
let go of more than it has, and of those that a hasher relies on.

`Client.memories_live` is the result: in every machine that any commands and any steps of workers
lead to, pending jobs touch live memory only. A client that decides as it goes is no exception,
since each of its runs is a run of the commands that it came to give.
-/

namespace BatchDigest

open Machine

/-! ## Commands -/

/-- What a client can have. -/
inductive Belonging where
  | hasher (hasher : Hasher)
  | handle (handle : Handle)
  | tables (tables : StagedTables)
  | memory (memory : MemoryId)
  /-- The place of something that was let go. -/
  | gone

/-- Lets go of a belonging. -/
def Belonging.drop : Belonging → Host Unit
  | .hasher h => h.drop
  | .handle h => h.drop
  | .tables t => t.drop
  | .memory id => Host.update (·.release id)
  | .gone => return ()

/-- The belongings of a client. A position is a name for good. -/
abbrev Client := List Belonging

/-- A call that neither makes nor takes memory. Work that is submitted by hand touches none. -/
def Call.IsPlain : Call → Prop
  | submit _ _ deps work => deps = [] ∧ ∀ id, .memory id ∉ work.touches
  | dropQueue _ | allocate .. | holdMemory _ | dropMemory _ | giveBack _ | release _ => False
  | _ => True

/-- What a client can do next. -/
inductive Command where
  | call (call : Call) (plain : call.IsPlain)
  /-- Lets go of a queue handle. -/
  | dropQueue (queue : QueueId)
  | allocate (queue : QueueId) (kind : MemoryKind) (length : Nat)
  | stage (algorithm : Algorithm) (key : Bytes) (queue : QueueId)
  | create (algorithm : Algorithm) (runners : List Runner) (key : Bytes)
  | hash (hasher : Nat) (batch : Batch)
  /-- Hashes a batch with a hasher and waits for it. -/
  | computeWith (hasher : Nat) (batch : Batch)
  | compute (queue : QueueId) (algorithm : Algorithm) (batch : Batch) (key : Bytes)
  | computeOnDevice (queue : QueueId) (algorithm : Algorithm) (input : Nat) (recordLength : Nat)
      (output : Nat) (count : Nat) (key : Bytes)
  | wait (handle : Nat)
  /-- Waits for a handle and reports its first fault. -/
  | throw (handle : Nat)
  /-- Lets go of a belonging. -/
  | drop (belonging : Nat)

namespace Client

/-- The client with what an operation gave it, if it gave something. -/
def receive {ε α : Type} (client : Client) (belonging : α → Belonging) : Except ε α → Client
  | .ok a => client ++ [belonging a]
  | .error _ => client

/-- Carries out a command. A name that stands for nothing of the kind is a command to do nothing. -/
def play (client : Client) : Command → Host Client
  | .call call _ => do
    Host.update call.apply
    return client
  | .dropQueue queue => do
    Host.dropQueue queue
    return client
  | .allocate queue kind length =>
    client.receive .memory <$> Host.call (·.allocate queue kind length)
  | .stage algorithm key queue =>
    client.receive .tables <$> StagedTables.stage algorithm key queue
  | .create algorithm runners key =>
    client.receive .hasher <$> Hasher.create algorithm runners key
  | .hash hasher batch =>
    match client[hasher]? with
    | some (.hasher hasher) => client.receive .handle <$> hasher.hash batch
    | _ => return client
  | .computeWith hasher batch =>
    match client[hasher]? with
    | some (.hasher hasher) => do
      let _ ← hasher.compute batch
      return client
    | _ => return client
  | .compute queue algorithm batch key => do
    let _ ← compute queue algorithm batch key
    return client
  | .computeOnDevice queue algorithm input recordLength output count key =>
    match client[input]?, client[output]? with
    | some (.memory input), some (.memory output) => do
      let _ ← computeOnDevice queue algorithm input recordLength output count key
      return client
    | _, _ => return client
  | .wait name =>
    match client[name]? with
    | some (.handle handle) => do
      handle.wait
      return client.set name (.handle .empty)
    | _ => return client
  | .throw name =>
    match client[name]? with
    | some (.handle handle) => do
      let _ ← handle.waitAndThrow
      return client.set name (.handle .empty)
    | _ => return client
  | .drop name =>
    match client[name]? with
    | some belonging => do
      belonging.drop
      return client.set name .gone
    | none => return client

/-- Carries out commands in order. -/
def playAll (client : Client) : List Command → Host Client
  | [] => return client
  | command :: rest => do
    let next ← client.play command
    next.playAll rest

end Client

/-! ## The leases of a client -/

/-- The leases that come with a belonging. A caller's own memory is used by no job between two
commands. -/
def Belonging.leases : Belonging → List Lease
  | .hasher h => h.leases
  | .handle h => h.leases
  | .tables t => [t.lease []]
  | .memory id => [⟨some id, [], []⟩]
  | .gone => []

def Client.leases (client : Client) : List Lease :=
  client.flatMap Belonging.leases

variable {m n : Machine} {client : Client} {others : List Lease}

theorem Client.mem_leases {name : Nat} {belonging : Belonging}
    (here : client[name]? = some belonging) {l : Lease} (mem : l ∈ belonging.leases) :
    l ∈ client.leases :=
  List.mem_flatMap.2 ⟨belonging, List.mem_of_getElem? here, mem⟩

/-- What leaves its place takes its leases along. -/
theorem Client.leases_set {name : Nat} {old : Belonging} (new : Belonging)
    (here : client[name]? = some old) (free : new.leases = []) :
    client.leases.Perm (old.leases ++ Client.leases (client.set name new)) := by
  induction client generalizing name with
  | nil => cases here
  | cons first rest ih =>
    cases name with
    | zero =>
      cases here
      simp [Client.leases, free]
    | succ name =>
      have moved := (ih here).append_left first.leases
      exact moved.trans (List.perm_append_comm_assoc _ _ _)

theorem Client.leases_receive {ε α : Type} (r : Except ε α) {leases : α → List Lease}
    {belonging : α → Belonging} (same : ∀ a, (belonging a).leases = leases a) :
    (Lease.ofResult leases r ++ client.leases).Perm (client.receive belonging r).leases := by
  cases r with
  | error e => exact .refl _
  | ok a =>
    have last : (client.receive belonging (.ok a : Except ε α)).leases =
        client.leases ++ leases a := by
      simp [Client.receive, Client.leases, same]
    rw [last]
    exact List.perm_append_comm

/-! ## What a command keeps -/

namespace Machine.Leased

/-- A call that makes and takes no memory. -/
theorem plain {leases : List Lease} (h : m.Leased leases) (call : Call) (plain : call.IsPlain) :
    (call.apply m).Leased leases := by
  cases call with
  | submit queue label deps work =>
    obtain ⟨rfl, none⟩ := plain
    exact h.submit [] label (List.forall_mem_nil _) fun id mem => absurd mem (none id)
  | createQueue config =>
    exact h.calm (m.steady_addQueue config) (m.sameStore_addQueue config) rfl
  | holdQueue queue => exact h.calm_addHandle queue
  | createEvent fault? => cases fault? <;> exact h.addEvent nofun
  | createBuffer | writeBuffer | createGate | openGate =>
    exact h.calm (steady_of_queues rfl rfl) (sameStore_of_queues rfl rfl) rfl
  | writeMemory memory offset data =>
    show (m.writeMemory memory offset data).2.Leased leases
    unfold writeMemory
    split
    · exact h
    · split
      · exact h.calm (steady_of_queues rfl rfl) (sameStore_of_queues rfl rfl) rfl
      · exact h
  | dropQueue | allocate | holdMemory | dropMemory | giveBack | release => exact plain.elim

theorem meets_dropBelonging (belonging : Belonging) (h : m.Leased (belonging.leases ++ others)) :
    belonging.drop.Meets Safe (fun _ n => n.Leased others) m := by
  cases belonging with
  | hasher hasher => exact meets_dropHasher hasher h
  | handle handle => exact meets_wait handle h
  | tables tables => exact h.meets_drop
  | memory id =>
    exact h.meets_update others fun n _ h => ⟨h.release rfl nofun, fun _ _ h => h⟩
  | gone => exact h.meets_pure fun _ _ h => h

theorem meets_allocate (h : m.Leased others) (queue : QueueId) (kind : MemoryKind)
    (length : Nat) : (Host.call (·.allocate queue kind length)).Meets Safe (fun r n =>
      n.Leased (Lease.ofResult (fun id => [⟨some id, [], []⟩]) r ++ others)) m := by
  refine h.meets_call (fun r => Lease.ofResult (fun id => [⟨some id, [], []⟩]) r ++ others)
    fun n _ h => ⟨?_, fun _ _ h => h⟩
  cases made : (n.allocate queue kind length).1 with
  | error e => exact h.allocate_error made
  | ok id => exact (h.allocate made).1

/-- An operation gives its result to the client. -/
theorem meets_receive {ε α : Type} {operation : Host (Except ε α)} {leases : α → List Lease}
    {belonging : α → Belonging} (same : ∀ a, (belonging a).leases = leases a)
    (gives : operation.Meets Safe
      (fun r n => n.Leased (Lease.ofResult leases r ++ client.leases)) m) :
    (client.receive belonging <$> operation).Meets Safe
      (fun client n => n.Leased client.leases) m :=
  meets_bind_pure gives fun r _ h => h.perm (Client.leases_receive r same)

/-- A handle that is joined gives its leases back and stays, empty. -/
theorem meets_joined {α : Type} {name : Nat} {handle : Handle} {operation : Host α}
    (h : m.Leased client.leases) (here : client[name]? = some (.handle handle))
    (joins : ∀ others, m.Leased (handle.leases ++ others) →
      operation.Meets Safe (fun _ n => n.Leased others) m) :
    (operation >>= fun _ => pure (client.set name (.handle .empty)) : Host Client).Meets Safe
      (fun client n => n.Leased client.leases) m :=
  meets_bind_pure (joins _ (h.perm (Client.leases_set (.handle .empty) here rfl))) fun _ _ h => h

/-- **Each command keeps the discipline**, whatever the workers do meanwhile. -/
theorem meets_play (command : Command) (h : m.Leased client.leases) :
    (client.play command).Meets Safe (fun client n => n.Leased client.leases) m := by
  cases command with
  | call call plain =>
    exact Host.meets_update_bind fun n first =>
      ⟨(h.evolves first).safe, ((h.evolves first).plain call plain).meets_pure fun _ _ h => h⟩
  | dropQueue queue =>
    exact meets_bind_pure (h.meets_dropQueue queue) fun _ _ h => h
  | allocate queue kind length =>
    exact meets_receive (fun _ => rfl) (h.meets_allocate queue kind length)
  | stage algorithm key queue =>
    exact meets_receive (fun _ => rfl) (h.meets_stage algorithm key queue)
  | create algorithm runners key =>
    exact meets_receive (fun _ => rfl) (h.meets_create algorithm runners key)
  | hash hasher batch =>
    unfold Client.play
    dsimp only
    split
    next hasher here =>
      -- The hasher stays with the client, so its leases are among those of the client.
      exact meets_receive (fun _ => rfl)
        (meets_hash hasher h (fun _ => Client.mem_leases here) batch)
    next => exact h.meets_pure fun _ _ h => h
  | computeWith hasher batch =>
    unfold Client.play
    dsimp only
    split
    next hasher here =>
      exact meets_bind_pure (meets_computeWith hasher h (fun _ => Client.mem_leases here) batch)
        fun _ _ h => h
    next => exact h.meets_pure fun _ _ h => h
  | compute queue algorithm batch key =>
    exact meets_bind_pure (h.meets_compute queue algorithm batch key) fun _ _ h => h
  | computeOnDevice queue algorithm input recordLength output count key =>
    unfold Client.play
    dsimp only
    split
    next input output hereIn hereOut =>
      have owned : ∀ id ∈ [input, output], ∃ l ∈ client.leases, l.memory = some id := by
        simp only [List.forall_mem_cons]
        exact ⟨⟨_, Client.mem_leases hereIn List.mem_cons_self, rfl⟩,
          ⟨_, Client.mem_leases hereOut List.mem_cons_self, rfl⟩, List.forall_mem_nil _⟩
      exact meets_bind_pure (h.meets_computeOnDevice queue algorithm owned recordLength count key)
        fun _ _ h => h
    next => exact h.meets_pure fun _ _ h => h
  | wait name =>
    unfold Client.play
    dsimp only
    split
    next handle here => exact meets_joined h here fun _ h => meets_wait handle h
    next => exact h.meets_pure fun _ _ h => h
  | throw name =>
    unfold Client.play
    dsimp only
    split
    next handle here => exact meets_joined h here fun _ h => meets_waitAndThrow handle h
    next => exact h.meets_pure fun _ _ h => h
  | drop name =>
    unfold Client.play
    dsimp only
    split
    next belonging here =>
      -- What is let go leaves its place first, and takes its leases with it.
      have h := h.perm (Client.leases_set .gone here rfl)
      exact meets_bind_pure (meets_dropBelonging belonging h) fun _ _ h => h
    next => exact h.meets_pure fun _ _ h => h

theorem meets_playAll (commands : List Command) (h : m.Leased client.leases) :
    (client.playAll commands).Meets Safe (fun client n => n.Leased client.leases) m := by
  induction commands generalizing m client with
  | nil => exact h.meets_pure fun _ _ h => h
  | cons command rest ih => exact Host.Meets.bind ((meets_play command h).mono fun _ _ _ h => ih h)

end Machine.Leased

/-- Nobody has anything, and nothing is pending. -/
theorem Machine.leased_empty : Machine.empty.Leased [] := by
  refine ⟨⟨sound_empty, booked_empty, nofun, nofun, nofun, nofun⟩, fun id => rfl⟩

/-- **No memory is given back under queued work.** Whatever commands a client gives, and in whatever
order the workers take their steps, the memories that pending jobs touch are on their ledgers. -/
theorem Client.memories_live (commands : List Command) {rest : Host Client} {m : Machine}
    (run : Host.Reaches (Client.playAll [] commands, Machine.empty) (rest, m)) :
    ∀ q, ∀ job ∈ m.pending q, ∀ id, .memory id ∈ job.work.touches → m.isLive id :=
  (Machine.Leased.meets_playAll commands leased_empty).safe_of_reaches run

/-! A client lets a hasher go while its batch is in flight, before any worker has taken a step. -/

private def dropInFlight : List Command :=
  [.call (.createQueue ⟨"left", .cpu, none⟩) trivial,
    .call (.createBuffer (Bytes.zeros 16)) trivial, .create .md2 [⟨⟨0⟩, 1⟩] [],
    .hash 0 ⟨[1, 2], 1, ⟨0⟩, 1⟩, .drop 0]

/-- Whether the upload of the tables and the three steps of the share are all pending then. -/
private def leavesFourJobs : Bool :=
  match (Client.playAll [] dropInFlight).run Machine.empty with
  | some (_, m) => (m.pending ⟨0⟩).length == 4
  | none => false

theorem Client.memories_live_hasher_gone : ∃ client m,
    Host.Reaches (Client.playAll [] dropInFlight, Machine.empty) (.done client, m) ∧
    (m.pending ⟨0⟩).length = 4 ∧
    ∀ q, ∀ job ∈ m.pending q, ∀ id, .memory id ∈ job.work.touches → m.isLive id := by
  have evaluated : leavesFourJobs = true := by decide +kernel
  unfold leavesFourJobs at evaluated
  split at evaluated
  next client m run =>
    have run := Host.reaches_of_run run
    exact ⟨client, m, run, by simpa using evaluated, Client.memories_live dropInFlight run⟩
  next => cases evaluated

end BatchDigest
