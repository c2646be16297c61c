import BatchDigest.Toml.Value

/-!
# Documents

The lines of a document build up one table. A key is given a value once. Dotted keys and headers
make the tables on their way; a header may name a table that other headers made on their way, and
no other table that is there. A dotted key may lead through tables that headers made on their way
and through the last table of an array, but the table that it adds to must be one that dotted keys
made. Repeated headers in double brackets each add a table to an array, and later lines speak of
the last one.
-/

namespace BatchDigest.Toml

/-- A key of one or more parts and its value. -/
structure Assignment where
  path : List String
  value : Value

/-- A header with the parts of its key. -/
inductive Heading where
  | table (path : List String)
  /-- One more element of an array of tables. -/
  | element (path : List String)

/-- What a line of a document says. -/
inductive Line where
  | empty
  | assignment (assignment : Assignment)
  | heading (heading : Heading)

/-- A header with the assignments under it. -/
structure Section where
  heading : Heading
  assignments : List Assignment

namespace Entries

/-- The entries with a value under a dotted key. The last table on the way must be made by dotted
keys. -/
def assign (value : Value) : List String → Entries → Option Entries
  | [], _ => none
  | [key], entries =>
    if (entries.lookup key).isSome then none else some (entries ++ [(key, value)])
  | key :: next :: rest, entries =>
    match entries.lookup key with
    | none => do return entries ++ [(key, .table .dotted (← assign value (next :: rest) []))]
    | some (.table .dotted inner) => do
      return entries.replace key (.table .dotted (← assign value (next :: rest) inner))
    | some (.table .implied inner) => do
      guard !rest.isEmpty
      return entries.replace key (.table .implied (← assign value (next :: rest) inner))
    | some (.tables items) => do
      guard !rest.isEmpty
      let last ← assign value (next :: rest) (← items.getLast?)
      return entries.replace key (.tables (items.dropLast ++ [last]))
    | some _ => none

/-- The entries with the values of some assignments, in order. -/
def assignAll : List Assignment → Entries → Option Entries
  | [], entries => some entries
  | next :: rest, entries => do assignAll rest (← entries.assign next.value next.path)

/-- The entries with a change made to the table that a header's parents lead to. -/
def within (change : Entries → Option Entries) : List String → Entries → Option Entries
  | [], entries => change entries
  | key :: rest, entries =>
    match entries.lookup key with
    | none => do return entries ++ [(key, .table .implied (← within change rest []))]
    | some (.table .inline _) => none
    | some (.table origin inner) => do
      return entries.replace key (.table origin (← within change rest inner))
    | some (.tables items) => do
      let last ← within change rest (← items.getLast?)
      return entries.replace key (.tables (items.dropLast ++ [last]))
    | some _ => none

/-- The entries with a table under a header. -/
def addTable (assignments : List Assignment) (key : String) (parent : Entries) :
    Option Entries := do
  let before ← match parent.lookup key with
    | none => some []
    | some (.table .implied inner) => some inner
    | some _ => none
  return parent.remove key ++ [(key, .table .header (← assignAll assignments before))]

/-- The entries with one more element of an array of tables. -/
def addElement (assignments : List Assignment) (key : String) (parent : Entries) :
    Option Entries := do
  let element ← assignAll assignments []
  match parent.lookup key with
  | none => return parent ++ [(key, .tables [element])]
  | some (.tables items) => return parent.replace key (.tables (items ++ [element]))
  | some _ => none

/-- The entries with a section. -/
def addSection (root : Entries) (s : Section) : Option Entries :=
  match s.heading with
  | .table path => do within (addTable s.assignments (← path.getLast?)) path.dropLast root
  | .element path => do within (addElement s.assignments (← path.getLast?)) path.dropLast root

end Entries

/-- The assignments before the first header, and the sections. -/
def splitLines : List Line → List Assignment × List Section
  | [] => ([], [])
  | .empty :: rest => splitLines rest
  | .assignment next :: rest =>
    let (assignments, sections) := splitLines rest
    (next :: assignments, sections)
  | .heading next :: rest =>
    let (assignments, sections) := splitLines rest
    ([], ⟨next, assignments⟩ :: sections)

/-- The table that lines stand for. -/
def Entries.ofLines? (lines : List Line) : Option Entries := do
  let (assignments, sections) := splitLines lines
  sections.foldlM addSection (← assignAll assignments [])

end BatchDigest.Toml
