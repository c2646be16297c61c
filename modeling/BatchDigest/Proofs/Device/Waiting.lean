import BatchDigest.Proofs.Device.Flow
import BatchDigest.Proofs.Device.Progress

/-!
# Programs that return

A program of the host is stuck when it waits for something that never comes. `Host.Returns` says
that it is not: whatever the workers did before, at each wait they can still bring about what is
waited for. Such a program can be brought to its end from wherever it is
(`Host.Returns.exists_reaches`). Where nothing holds the workers up every event on record comes
(`Machine.Unhindered.comes`), so that waits for such events are waits of this kind.
-/

namespace BatchDigest

namespace Machine

variable {m n after : Machine} {q : QueueId}

/-! ## Nothing comes to hold up the workers -/

theorem Unhindered.turn (h : m.Unhindered) (turn : m.Turn q after) : after.Unhindered := by
  refine ⟨turn.opened h.opened, turn.carefree h.carefree, fun p target left due? => ?_⟩
  by_cases same : p = q
  · subst same
    exact turn.activity_ne_closing (h.carefree p) target left due?
  · rw [turn.activity_other same]
    exact h.calm p target left due?

theorem Unhindered.evolves (h : m.Unhindered) (evolves : m.Evolves n) : n.Unhindered :=
  evolves.keeps (fun _ _ _ h turn => h.turn turn) h

/-- A call that leaves jobs and gates alone. -/
theorem Unhindered.steady (h : m.Unhindered) (steady : m.Steady n) (gates : n.gates = m.gates) :
    n.Unhindered := by
  refine ⟨fun q job mem gate work => ?_, fun q => ?_, fun q => ?_⟩
  · rw [steady.pending] at mem
    have opened := h.opened q job mem gate work
    unfold isOpen at opened ⊢
    rwa [gates]
  · rw [steady.held]
    exact h.carefree q
  · rw [steady.activity]
    exact h.calm q

/-- A job that needs no gate and carries no handle. -/
theorem Unhindered.submitted {job : Job} (h : m.Unhindered) (submitted : m.Submitted q job n)
    (carefree : job.work.held = []) (free : ∀ gate, job.work ≠ .gate gate) : n.Unhindered := by
  refine ⟨fun p old mem gate work => ?_, fun p => ?_, fun p => ?_⟩
  · rcases submitted.mem_pending.1 mem with mem | ⟨-, rfl⟩
    · have opened := h.opened p old mem gate work
      unfold isOpen at opened ⊢
      rwa [submitted.base.gates]
    · exact absurd work (free gate)
  · rw [submitted.held_of_carefree carefree]
    exact h.carefree p
  · rw [submitted.activity]
    exact h.calm p

/-- **Every event on record comes.** -/
theorem Unhindered.comes (h : m.Unhindered) (sound : m.Sound) {e : EventId}
    (known : e.index < m.events.length) : ∃ n, m.Evolves n ∧ n.isResolved e := by
  have settles : m.Evolves m.settle := evolves_settleFor m.load m
  refine ⟨m.settle, settles, (h.evolves settles).isResolved_of_rest (settles.sound sound)
    m.advance?_settle ?_⟩
  rwa [settles.length_events sound]

/-- **Every queue is drained in the end.** -/
theorem Unhindered.drains (h : m.Unhindered) (sound : m.Sound) (q : QueueId) :
    ∃ n, m.Evolves n ∧ n.isDrained q := by
  have settles : m.Evolves m.settle := evolves_settleFor m.load m
  have sound := settles.sound sound
  have free := h.evolves settles
  have none : m.settle.pending q = [] := by
    refine List.eq_nil_iff_forall_not_mem.2 fun job mem => ?_
    have ended := free.isResolved_of_rest sound m.advance?_settle (sound.known q job mem)
    exact isResolved_iff.1 ended (sound.due q job mem)
  obtain ⟨current, waiting⟩ := List.append_eq_nil_iff.1 none
  refine ⟨m.settle, settles, isDrained_iff.2 ⟨waiting, ?_⟩⟩
  cases activity : m.settle.activity q with
  | idle => rfl
  | running job => rw [activity] at current; cases current
  | closing target left due? => exact absurd activity (free.calm q target left due?)

end Machine

open Machine

namespace Host

variable {α β : Type} {p : Host α} {m : Machine}

/-- Whatever the workers do between the steps of a program, it waits for nothing in vain. -/
def Returns : Host α → Machine → Prop
  | done _, _ => True
  | act change next, m => ∀ n, m.Evolves n → (next n).Returns (change n)
  | await wait next, m => ∀ n, m.Evolves n →
      (∃ k, n.Evolves k ∧ wait.isOver k) ∧ (wait.isOver n → next.Returns n)

/-- **A program that returns has a run to its end.** -/
theorem Returns.exists_reaches (h : p.Returns m) : ∃ a n, Reaches (p, m) (.done a, n) := by
  induction p generalizing m with
  | done a => exact ⟨a, m, .refl _⟩
  | act change next ih =>
    obtain ⟨a, n, run⟩ := ih m (h m .refl)
    exact ⟨a, n, ((Reaches.refl _).step (.act change next m)).trans run⟩
  | await wait next ih =>
    -- The workers go on until the wait is over.
    obtain ⟨⟨k, later, past⟩, -⟩ := h m .refl
    obtain ⟨a, n, run⟩ := ih ((h k later).2 past)
    exact ⟨a, n, ((reaches_of_evolves later).step (.await wait next k past)).trans run⟩

/-- One program after the other, when the second returns from all that the first can come to. -/
theorem Returns.bind {next : α → Host β} {safe : Machine → Prop} {goal : α → Machine → Prop}
    (h : p.Returns m) (meets : p.Meets safe goal m)
    (rest : ∀ a n, goal a n → (next a).Returns n) : (p >>= next).Returns m := by
  show (p.andThen next).Returns m
  induction p generalizing m with
  | done a => exact rest a m (meets m .refl).2
  | act change first ih => exact fun n later => ih n (h n later) (meets n later).2
  | await wait first ih =>
    exact fun n later =>
      ⟨(h n later).1, fun past => ih ((h n later).2 past) ((meets n later).2 past)⟩

/-- A call, and what follows. -/
theorem returns_call_bind {f : Machine → α × Machine} {next : α → Host β}
    (h : ∀ n, m.Evolves n → (next (f n).1).Returns (f n).2) : (call f >>= next).Returns m :=
  h

theorem returns_update_bind {f : Machine → Machine} {next : Unit → Host β}
    (h : ∀ n, m.Evolves n → (next ()).Returns (f n)) : (update f >>= next).Returns m :=
  h

theorem returns_ask_bind {f : Machine → α} {next : α → Host β}
    (h : ∀ n, m.Evolves n → (next (f n)).Returns n) : (ask f >>= next).Returns m :=
  h

/-! ## Waiting for events -/

theorem returns_join_bind {e : EventId} {next : Option Fault → Host β} (free : m.Unhindered)
    (sound : m.Sound) (known : e.index < m.events.length)
    (rest : ∀ fault? n, m.Evolves n → (next fault?).Returns n) : (join e >>= next).Returns m := by
  intro n first
  refine ⟨(free.evolves first).comes (first.sound sound) ?_, fun _ k second => ?_⟩
  · rwa [first.length_events sound]
  · exact rest _ k (first.trans second)

theorem returns_joinAll (events : List EventId) (free : m.Unhindered) (sound : m.Sound)
    (known : ∀ e ∈ events, e.index < m.events.length) : (joinAll events).Returns m := by
  induction events generalizing m with
  | nil => trivial
  | cons e rest ih =>
    rw [List.forall_mem_cons] at known
    refine returns_join_bind free sound known.1 fun fault? n later => ?_
    have known := known.2
    rw [← later.length_events sound] at known
    exact (ih (free.evolves later) (later.sound sound) known).bind (meets_trivial _ n)
      fun _ _ _ => trivial

/-! ## Programs that wait for nothing -/

/-- A program that waits for nothing. -/
def Prompt (p : Host α) : Prop :=
  ∀ m, p.Returns m

theorem prompt_pure (a : α) : (Pure.pure a : Host α).Prompt :=
  fun _ => trivial

theorem prompt_call (f : Machine → α × Machine) : (call f).Prompt :=
  fun _ _ _ => trivial

theorem prompt_update (f : Machine → Machine) : (update f).Prompt :=
  fun _ _ _ => trivial

theorem prompt_ask (f : Machine → α) : (ask f).Prompt :=
  fun _ _ _ => trivial

theorem Prompt.bind {next : α → Host β} (h : p.Prompt) (rest : ∀ a, (next a).Prompt) :
    (p >>= next).Prompt :=
  fun m => (h m).bind (meets_trivial p m) fun a n _ => rest a n

theorem Prompt.map (h : p.Prompt) (f : α → β) : (f <$> p).Prompt :=
  h.bind fun a => prompt_pure (f a)

end Host

end BatchDigest
