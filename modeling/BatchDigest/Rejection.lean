import BatchDigest.Algorithm.Basic
import BatchDigest.Binary64.Positional
import BatchDigest.Text.Quoted

/-!
# Rejected configurations

Everything that is refused before a device is touched: algorithm names, widths, keys and runner
lists. Each cause is a constructor and `Rejection.message` holds the wording.
-/

namespace BatchDigest

/-- Why a configuration is refused. -/
inductive Rejection where
  | unsupportedWidth (algorithm : Algorithm)
  | invalidWidth (name : String)
  | missingWidth (name : String)
  /-- A width is given for a family that has only one. -/
  | fixedWidth (family : String)
  | unknownAlgorithm (name : String)
  | unexpectedKey (algorithm : Algorithm)
  | longKey (algorithm : Algorithm) (length : Nat)
  | noRunners
  | duplicateRunner (name : String)
  /-- A weight that is negative, infinite or no number. -/
  | invalidWeight (runner : String) (weight : Float)
  | noWeight
  /-- A cause in a caller's own words. -/
  | described (text : String)

/-- What is wrong, without the kind of error. -/
def Rejection.reason : Rejection → String
  | unsupportedWidth a => s!"{a.family} does not support a {a.width}-bit output"
  | invalidWidth name => "invalid digest width in " ++ Text.quote name
  | missingWidth name => "missing digest width in " ++ Text.quote name
  | fixedWidth family => s!"{family} has a fixed width"
  | unknownAlgorithm name => "unknown digest algorithm " ++ Text.quote name
  | unexpectedKey a => s!"{a.name} does not take a key"
  | longKey a length => s!"{a.name} key of {length} bytes exceeds {Algorithm.longestKey} bytes"
  | noRunners => "at least one runner is required"
  | duplicateRunner name => "duplicate runner name " ++ Text.quote name
  | invalidWeight runner weight =>
    s!"runner {runner} has invalid weight " ++ Binary64.positional weight
  | noWeight => "runner weights must sum to a positive value"
  | described text => text

/-- The whole message. -/
def Rejection.message (r : Rejection) : String :=
  "Invalid configuration: " ++ r.reason

end BatchDigest
