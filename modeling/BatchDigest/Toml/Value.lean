/-!
# TOML values

A document is a table of keys and values, in the order in which the keys first occur. A table also
remembers how it came into the document, since that decides whether later lines may add to it.
-/

namespace BatchDigest.Toml

/-- How a table came into a document. -/
inductive Origin where
  /-- Written in braces, and closed for good. -/
  | inline
  /-- Under a header of its own. -/
  | header
  /-- Only as the parent of a table that has a header. -/
  | implied
  /-- By a dotted key. -/
  | dotted
deriving Repr, DecidableEq

/-- A value of a document. -/
inductive Value where
  | text (text : String)
  | integer (number : Int)
  | float (number : Float)
  | boolean (value : Bool)
  /-- A date, a time of day or both. Which one is not kept. -/
  | moment
  /-- An array written in brackets. -/
  | array (items : List Value)
  /-- The tables under repeated headers of one name. -/
  | tables (items : List (List (String × Value)))
  | table (origin : Origin) (entries : List (String × Value))

/-- The keys of a table with their values. -/
abbrev Entries := List (String × Value)

namespace Entries

/-- The entries with another value under a key that is there. -/
def replace (entries : Entries) (key : String) (value : Value) : Entries :=
  entries.map fun entry => if entry.1 == key then (key, value) else entry

/-- The entries without a key. -/
def remove (entries : Entries) (key : String) : Entries :=
  entries.filter (·.1 != key)

end Entries

end BatchDigest.Toml
