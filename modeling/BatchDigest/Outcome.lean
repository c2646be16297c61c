/-!
# Outcomes

A step that fails may have changed something before it did. An outcome holds what the step leaves in
either case and, beside it, why the step failed. A step that changes all or nothing is the special
case `ofExcept`.
-/

namespace BatchDigest

/-- What a step leaves, and why it failed, if it did. -/
structure Outcome (ε α : Type) where
  result : α
  failure : Option ε
deriving Repr, DecidableEq

namespace Outcome

variable {ε δ α β : Type}

/-- The outcome of a step that succeeds. -/
def success (result : α) : Outcome ε α :=
  ⟨result, none⟩

/-- The outcome of a step that fails after it left `result`. -/
def failed (result : α) (error : ε) : Outcome ε α :=
  ⟨result, some error⟩

/-- The outcome of a step that changes `before` as a whole or, when it fails, not at all. -/
def ofExcept (before : α) : Except ε α → Outcome ε α
  | .ok after => success after
  | .error error => failed before error

/-- The outcome with another view of the result. -/
def map (view : α → β) (o : Outcome ε α) : Outcome ε β :=
  ⟨view o.result, o.failure⟩

/-- The outcome with another view of the failure. -/
def mapFailure (view : ε → δ) (o : Outcome ε α) : Outcome δ α :=
  ⟨o.result, o.failure.map view⟩

end Outcome

end BatchDigest
