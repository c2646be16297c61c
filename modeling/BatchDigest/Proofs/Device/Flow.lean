import BatchDigest.Proofs.Device.Runs

/-!
# What programs keep

Many facts about a program of the host are about the machine before it and the machine after it, and
not about what it answers: handles are not lost, memories stay where they are, resolved events stay
resolved. Such a fact is a relation that steps of workers are part of (`Machine.Flow`). A program
leads along it always (`Host.Always`) when each of its calls does, and the lemmas here put that
together along the program.
-/

namespace BatchDigest

/-- Steps of workers lead along the relation, and one way follows on another. -/
structure Machine.Flow (R : Machine → Machine → Prop) : Prop where
  refl : ∀ m, R m m
  trans : ∀ {m n after}, R m n → R n after → R m after
  step : ∀ {m q after}, m.advance? q = some after → R m after

/-- Whatever the workers do meanwhile, the program ends, if it does, along the relation. -/
def Host.Always {α : Type} (R : Machine → Machine → Prop) (p : Host α) : Prop :=
  ∀ m, p.Meets (fun _ => True) (fun _ n => R m n) m

/-- What a program meets in two ways it meets at once. -/
theorem Host.Meets.and {α : Type} {p : Host α} {m : Machine} {safe safe' : Machine → Prop}
    {goal goal' : α → Machine → Prop} (h : p.Meets safe goal m) (h' : p.Meets safe' goal' m) :
    p.Meets safe (fun a n => goal a n ∧ goal' a n) m := by
  induction p generalizing m with
  | done a =>
    exact fun n later => ⟨(h n later).1, (h n later).2, (h' n later).2⟩
  | act change next ih =>
    exact fun n later => ⟨(h n later).1, ih n (h n later).2 (h' n later).2⟩
  | await wait next ih =>
    exact fun n later =>
      ⟨(h n later).1, fun ended => ih ((h n later).2 ended) ((h' n later).2 ended)⟩

/-- What holds at the end of a program goes on to hold while only workers act. -/
theorem Host.Meets.lasting {α : Type} {p : Host α} {m : Machine} {safe : Machine → Prop}
    {goal : α → Machine → Prop} (h : p.Meets safe goal m) :
    p.Meets safe (fun a n => ∀ k, n.Evolves k → goal a k) m := by
  induction p generalizing m with
  | done a =>
    exact fun n later => ⟨(h n later).1, fun k after => (h k (later.trans after)).2⟩
  | act change next ih => exact fun n later => ⟨(h n later).1, ih n (h n later).2⟩
  | await wait next ih =>
    exact fun n later => ⟨(h n later).1, fun ended => ih ((h n later).2 ended)⟩

namespace Host.Always

variable {α β : Type} {R : Machine → Machine → Prop} {p : Host α}

theorem of_reaches (h : p.Always R) {m n : Machine} {a : α} (run : Reaches (p, m) (.done a, n)) :
    R m n :=
  (h m).goal_of_reaches run

end Host.Always

namespace Machine.Flow

open Host

variable {α β : Type} {R : Machine → Machine → Prop} (flow : Flow R) {m n : Machine}

include flow

theorem evolves (evolves : m.Evolves n) : R m n := by
  induction evolves with
  | refl => exact flow.refl m
  | step _ q step ih => exact flow.trans ih (flow.step step)

theorem pure (a : α) : (Pure.pure a : Host α).Always R :=
  fun _ => meets_pure fun _ later => ⟨trivial, flow.evolves later⟩

theorem bind {p : Host α} {next : α → Host β} (first : p.Always R)
    (rest : ∀ a, (next a).Always R) : (p >>= next).Always R := by
  intro m
  refine Meets.bind ((first m).mono fun a n _ before => ?_)
  exact (rest a n).mono fun _ k _ after => flow.trans before after

theorem map {p : Host α} (first : p.Always R) (f : α → β) : (f <$> p).Always R :=
  flow.bind first fun a => flow.pure (f a)

theorem call {f : Machine → α × Machine} (step : ∀ m, R m (f m).2) : (Host.call f).Always R :=
  fun _ n first => ⟨trivial, fun _ second => ⟨trivial,
    flow.trans (flow.trans (flow.evolves first) (step n)) (flow.evolves second)⟩⟩

theorem update {f : Machine → Machine} (step : ∀ m, R m (f m)) : (Host.update f).Always R :=
  fun _ n first => ⟨trivial, fun _ second => ⟨trivial,
    flow.trans (flow.trans (flow.evolves first) (step n)) (flow.evolves second)⟩⟩

theorem ask (f : Machine → α) : (Host.ask f).Always R :=
  fun _ _ first => ⟨trivial, fun _ second => ⟨trivial, flow.evolves (first.trans second)⟩⟩

theorem await {wait : Wait} {next : Host α} (rest : next.Always R) :
    (Host.await wait next).Always R :=
  fun _ n first => ⟨trivial, fun _ => (rest n).mono fun _ _ _ after =>
    flow.trans (flow.evolves first) after⟩

theorem join (e : EventId) : (Host.join e).Always R :=
  flow.await (flow.ask _)

theorem joinAll (events : List EventId) : (Host.joinAll events).Always R := by
  induction events with
  | nil => exact flow.pure none
  | cons e rest ih => exact flow.bind (flow.join e) fun _ => flow.bind ih fun _ => flow.pure _

end Machine.Flow

end BatchDigest
