import BatchDigest.Device.Host
import BatchDigest.Proofs.Device.Sound

/-!
# Runs of host programs

Between any two steps of the host the workers may take steps of their own (`Machine.Evolves`). What
a program of the host comes to is therefore stated over all of them: `Host.Meets safe goal` says
that every machine on the way is safe, and that the program ends, if it does, with a value and a
machine that meet the goal. It is defined along the program, so that a proof goes through the
program step by step, and `Meets.of_reaches` gives the statement about every interleaving.
-/

namespace BatchDigest

namespace Machine

variable {m n after : Machine}

/-- Any number of steps of workers. -/
inductive Evolves (m : Machine) : Machine → Prop
  | refl : Evolves m m
  | step {n after : Machine} (evolves : Evolves m n) (q : QueueId)
      (step : n.advance? q = some after) : Evolves m after

theorem Evolves.trans (first : m.Evolves n) (second : n.Evolves after) : m.Evolves after := by
  induction second with
  | refl => exact first
  | step _ q step ih => exact ih.step q step

/-- What every step of a worker keeps stays. -/
theorem Evolves.keeps {p : Machine → Prop} (evolves : m.Evolves after)
    (turns : ∀ n q after, p n → n.Turn q after → p after) (start : p m) : p after := by
  induction evolves with
  | refl => exact start
  | step _ q step ih => exact turns _ q _ ih (turn_of_advance? step)

theorem Evolves.sound (evolves : m.Evolves after) (sound : m.Sound) : after.Sound :=
  evolves.keeps (fun _ _ _ sound turn => turn.sound sound) sound

/-- What steps of workers keep on sound machines stays. -/
theorem Evolves.keeps_sound {p : Machine → Prop} (evolves : m.Evolves after) (sound : m.Sound)
    (turns : ∀ n q after, n.Sound → p n → n.Turn q after → p after) (start : p m) : p after :=
  (evolves.keeps (p := fun n => n.Sound ∧ p n)
    (fun n q after h turn => ⟨turn.sound h.1, turns n q after h.1 h.2 turn⟩) ⟨sound, start⟩).2

/-- Workers record no events. -/
theorem Evolves.length_events (evolves : m.Evolves n) (sound : m.Sound) :
    n.events.length = m.events.length :=
  evolves.keeps_sound (p := fun k => k.events.length = m.events.length) sound
    (fun _ _ _ sound same turn => (turn.length_events sound).trans same) rfl

/-- Resolved events are final. -/
theorem Evolves.status (evolves : m.Evolves after) (sound : m.Sound) {e : EventId}
    (ended : m.isResolved e) : after.status e = m.status e := by
  refine evolves.keeps_sound (p := fun n => n.status e = m.status e) sound ?_ rfl
  intro n q after sound same turn
  exact (turn.status_of_isResolved sound (isResolved_of_status same ended)).trans same

theorem Evolves.isResolved (evolves : m.Evolves after) (sound : m.Sound) {e : EventId}
    (ended : m.isResolved e) : after.isResolved e :=
  isResolved_of_status (evolves.status sound ended) ended

theorem evolves_settleFor (steps : Nat) (m : Machine) : m.Evolves (m.settleFor steps) := by
  induction steps generalizing m with
  | zero => exact .refl
  | succ steps ih =>
    unfold settleFor
    split
    next next found =>
      obtain ⟨i, _, step⟩ := List.exists_of_findSome?_eq_some found
      exact (Evolves.refl.step _ step).trans (ih next)
    next => exact .refl

end Machine

namespace Host

open Machine

variable {α β : Type} {safe : Machine → Prop} {m : Machine}

/-- Whatever the workers do between the steps of a program, every machine is safe, and the program
ends with a value and a machine that meet the goal. -/
def Meets (safe : Machine → Prop) (goal : α → Machine → Prop) : Host α → Machine → Prop
  | done value, m => ∀ n, m.Evolves n → safe n ∧ goal value n
  | act change next, m => ∀ n, m.Evolves n → safe n ∧ (next n).Meets safe goal (change n)
  | await wait next, m => ∀ n, m.Evolves n → safe n ∧ (wait.isOver n → next.Meets safe goal n)

variable {goal : α → Machine → Prop} {p : Host α}

/-- Workers cannot spoil what a program meets. -/
theorem Meets.evolves (h : p.Meets safe goal m) {n : Machine} (evolves : m.Evolves n) :
    p.Meets safe goal n := by
  cases p with
  | done value => exact fun n' later => h n' (evolves.trans later)
  | act change next => exact fun n' later => h n' (evolves.trans later)
  | await wait next => exact fun n' later => h n' (evolves.trans later)

theorem Meets.now (h : p.Meets safe goal m) : safe m := by
  cases p with
  | done value => exact (h m .refl).1
  | act change next => exact (h m .refl).1
  | await wait next => exact (h m .refl).1

theorem Meets.step (h : p.Meets safe goal m) {rest : Host α} {after : Machine}
    (step : Step (p, m) (rest, after)) : rest.Meets safe goal after := by
  cases step with
  | act change next => exact (h m .refl).2
  | await wait next _ ended => exact (h m .refl).2 ended
  | worker _ q _ _ step => exact h.evolves (.step .refl q step)

/-- **What a program meets holds of every interleaving.** -/
theorem Meets.of_reaches (h : p.Meets safe goal m) {rest : Host α} {after : Machine}
    (run : Reaches (p, m) (rest, after)) : rest.Meets safe goal after := by
  have all : ∀ state, Reaches (p, m) state → state.1.Meets safe goal state.2 := by
    intro state run
    induction run with
    | refl => exact h
    | step _ step ih => exact ih.step step
  exact all _ run

/-- A program that has ended met its goal. -/
theorem Meets.goal_of_reaches (h : p.Meets safe goal m) {value : α} {after : Machine}
    (run : Reaches (p, m) (.done value, after)) : goal value after :=
  ((h.of_reaches run) after .refl).2

theorem Meets.safe_of_reaches (h : p.Meets safe goal m) {rest : Host α} {after : Machine}
    (run : Reaches (p, m) (rest, after)) : safe after :=
  (h.of_reaches run).now

theorem Meets.mono (h : p.Meets safe goal m) {weaker : α → Machine → Prop}
    (weaken : ∀ value n, safe n → goal value n → weaker value n) : p.Meets safe weaker m := by
  induction p generalizing m with
  | done value =>
    intro n evolves
    obtain ⟨calm, met⟩ := h n evolves
    exact ⟨calm, weaken value n calm met⟩
  | act change next ih => exact fun n evolves => ⟨(h n evolves).1, ih n (h n evolves).2⟩
  | await wait next ih =>
    exact fun n evolves => ⟨(h n evolves).1, fun ended => ih ((h n evolves).2 ended)⟩

/-- One program after the other. -/
theorem Meets.bind {next : α → Host β} {goal : β → Machine → Prop}
    (h : p.Meets safe (fun value n => (next value).Meets safe goal n) m) :
    (p >>= next).Meets safe goal m := by
  show (p.andThen next).Meets safe goal m
  induction p generalizing m with
  | done value => exact (h m .refl).2
  | act change rest ih => exact fun n evolves => ⟨(h n evolves).1, ih n (h n evolves).2⟩
  | await wait rest ih =>
    exact fun n evolves => ⟨(h n evolves).1, fun ended => ih ((h n evolves).2 ended)⟩

/-- A program that has nothing to meet. -/
theorem meets_trivial (p : Host α) (m : Machine) :
    p.Meets (fun _ => True) (fun _ _ => True) m := by
  induction p generalizing m with
  | done value => exact fun n _ => ⟨trivial, trivial⟩
  | act change next ih => exact fun n _ => ⟨trivial, ih n _⟩
  | await wait next ih => exact fun n _ => ⟨trivial, fun _ => ih n⟩

theorem meets_pure {value : α} (h : ∀ n, m.Evolves n → safe n ∧ goal value n) :
    (pure value : Host α).Meets safe goal m :=
  h

/-- A call, and what follows. -/
theorem meets_call_bind {f : Machine → α × Machine} {next : α → Host β}
    {goal : β → Machine → Prop}
    (h : ∀ n, m.Evolves n → safe n ∧ (next (f n).1).Meets safe goal (f n).2) :
    (call f >>= next).Meets safe goal m :=
  h

theorem meets_update_bind {f : Machine → Machine} {next : Unit → Host β}
    {goal : β → Machine → Prop} (h : ∀ n, m.Evolves n → safe n ∧ (next ()).Meets safe goal (f n)) :
    (update f >>= next).Meets safe goal m :=
  h

theorem meets_ask_bind {f : Machine → α} {next : α → Host β} {goal : β → Machine → Prop}
    (h : ∀ n, m.Evolves n → safe n ∧ (next (f n)).Meets safe goal n) :
    (ask f >>= next).Meets safe goal m :=
  h

/-- The wait for an event, and what follows. -/
theorem meets_join_bind {e : EventId} {next : Option Fault → Host β} {goal : β → Machine → Prop}
    (sound : m.Sound) (calm : ∀ n, m.Evolves n → safe n)
    (h : ∀ n, m.Evolves n → n.isResolved e → (next (n.status e).fault?).Meets safe goal n) :
    (join e >>= next).Meets safe goal m := by
  intro n evolves
  refine ⟨calm n evolves, fun ended n' later => ⟨calm n' (evolves.trans later), ?_⟩⟩
  exact h n' (evolves.trans later) (later.isResolved (evolves.sound sound) ended)

/-- Joining events waits for all of them and tells the first fault. -/
theorem meets_joinAll (events : List EventId) (sound : m.Sound)
    (calm : ∀ n, m.Evolves n → safe n) :
    (joinAll events).Meets safe (fun fault? n => m.Evolves n ∧
      (∀ e ∈ events, n.isResolved e) ∧ fault? = n.firstFault? events) m := by
  induction events generalizing m with
  | nil => exact fun n evolves => ⟨calm n evolves, evolves, nofun, rfl⟩
  | cons e rest ih =>
    refine meets_join_bind sound calm fun n first ended => ?_
    have soundN := first.sound sound
    have calmN := fun n' later => calm n' (first.trans later)
    refine Meets.bind ((ih soundN calmN).mono ?_)
    rintro later k - ⟨second, resolved, rfl⟩ k' third
    have soundK := second.sound soundN
    have both := second.trans third
    refine ⟨calmN k' both, first.trans both, ?_, ?_⟩
    · intro d mem
      rcases List.mem_cons.1 mem with rfl | mem
      · exact both.isResolved soundN ended
      · exact third.isResolved soundK (resolved d mem)
    · have same := firstFault?_congr fun d hd => third.status soundK (resolved d hd)
      show ((n.status e).fault? <|> k.firstFault? rest) = k'.firstFault? (e :: rest)
      rw [← same, ← both.status soundN ended]
      unfold firstFault?
      rw [List.findSome?_cons]
      cases (k'.status e).fault? <;> rfl

/-! ## The run of a program is one of its interleavings -/

theorem Reaches.trans {s t u : Host α × Machine} (first : Reaches s t) (second : Reaches t u) :
    Reaches s u := by
  induction second with
  | refl => exact first
  | step _ step ih => exact ih.step step

theorem reaches_of_evolves {n : Machine} (evolves : m.Evolves n) : Reaches (p, m) (p, n) := by
  induction evolves with
  | refl => exact .refl _
  | step _ q step ih => exact ih.step (.worker p q _ _ step)

/-- What a run of a program comes to is reached. -/
theorem reaches_of_run {value : α} {after : Machine} (run : p.run m = some (value, after)) :
    Reaches (p, m) (.done value, after) := by
  induction p generalizing m with
  | done value =>
    cases run
    exact .refl _
  | act change next ih => exact ((Reaches.refl _).step (.act change next m)).trans (ih _ run)
  | await wait next ih =>
    unfold Host.run at run
    dsimp only at run
    split at run
    next ended =>
      have settled := reaches_of_evolves (p := .await wait next) (evolves_settleFor m.load m)
      exact (settled.step (.await wait next _ ended)).trans (ih run)
    next => cases run

/-! ## Runs of one program after the other -/

/-- A program meets whatever all its runs come to. -/
theorem meets_of_reaches (h : ∀ a n, Reaches (p, m) (.done a, n) → goal a n) :
    p.Meets (fun _ => True) goal m := by
  induction p generalizing m with
  | done a => exact fun n later => ⟨trivial, h a n (reaches_of_evolves later)⟩
  | act change next ih =>
    refine fun n later => ⟨trivial, ih n fun a k run => h a k ?_⟩
    exact ((reaches_of_evolves later).step (.act change next n)).trans run
  | await wait next ih =>
    refine fun n later => ⟨trivial, fun ended => ih fun a k run => h a k ?_⟩
    exact ((reaches_of_evolves later).step (.await wait next n ended)).trans run

/-- A run of two programs is a run of the first and then one of the second. -/
theorem exists_of_reaches_bind {next : α → Host β} {b : β} {n : Machine}
    (run : Reaches (p >>= next, m) (.done b, n)) :
    ∃ a k, Reaches (p, m) (.done a, k) ∧ Reaches (next a, k) (.done b, n) := by
  have first : p.Meets (fun _ => True) (fun a k => Reaches (p, m) (.done a, k)) m :=
    meets_of_reaches fun _ _ => id
  have both : (p >>= next).Meets (fun _ => True) (fun b n =>
      ∃ a k, Reaches (p, m) (.done a, k) ∧ Reaches (next a, k) (.done b, n)) m := by
    refine Meets.bind (first.mono fun a k _ before => ?_)
    exact meets_of_reaches fun b n after => ⟨a, k, before, after⟩
  exact both.goal_of_reaches run

/-- Where a program has ended, only workers act. -/
theorem of_reaches_done {a b : α} {n : Machine} (run : Reaches (done a, m) (.done b, n)) :
    b = a ∧ m.Evolves n := by
  have ended : (done a).Meets (fun _ => True) (fun b n => b = a ∧ m.Evolves n) m :=
    fun n later => ⟨trivial, rfl, later⟩
  exact ended.goal_of_reaches run

/-- The wait for an event that reports its fault. -/
theorem meets_joinThrow (e : EventId) (sound : m.Sound) :
    (joinThrow e).Meets (fun _ => True) (fun r n => m.Evolves n ∧ n.isResolved e ∧
      r = match (n.status e).fault? with
        | some fault => .error (.execution fault)
        | none => .ok ()) m := by
  refine meets_join_bind sound (fun _ _ => trivial) fun n first ended => ?_
  have same : ∀ k, n.Evolves k → k.status e = n.status e :=
    fun k later => later.status (first.sound sound) ended
  have resolved : ∀ k, n.Evolves k → k.isResolved e :=
    fun k later => later.isResolved (first.sound sound) ended
  cases fault : (n.status e).fault? with
  | none =>
    refine fun k later => ⟨trivial, first.trans later, resolved k later, ?_⟩
    rw [same k later, fault]
  | some f =>
    refine fun k later => ⟨trivial, first.trans later, resolved k later, ?_⟩
    rw [same k later, fault]

end Host

end BatchDigest
