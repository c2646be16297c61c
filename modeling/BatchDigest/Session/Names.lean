/-!
# Names

A session binds names to objects. A name stands for one object at a time: binding it again replaces
what it stood for, and unbinding it leaves the other names alone.
-/

namespace BatchDigest

/-- Objects under names, in the order in which the names were bound. -/
structure Names (α : Type) where
  entries : List (String × α)

namespace Names

variable {α : Type}

/-- No names. -/
def empty : Names α := ⟨[]⟩

/-- The object that a name stands for. -/
def get? (names : Names α) (name : String) : Option α :=
  names.entries.lookup name

/-- The names without one of them. -/
def remove (names : Names α) (name : String) : Names α :=
  ⟨names.entries.filter (·.1 != name)⟩

/-- The names with one of them bound to an object. -/
def put (names : Names α) (name : String) (object : α) : Names α :=
  ⟨(names.remove name).entries ++ [(name, object)]⟩

/-- The objects that have a name, once for each name. -/
def objects (names : Names α) : List α :=
  names.entries.map (·.2)

theorem lookup_filter_self (entries : List (String × α)) (name : String) :
    (entries.filter (·.1 != name)).lookup name = none := by
  induction entries with
  | nil => rfl
  | cons entry rest ih =>
    obtain ⟨other, object⟩ := entry
    by_cases same : other = name
    · simpa [List.filter_cons, same] using ih
    · have differs : (name == other) = false := by simpa using fun e => same e.symm
      simpa [List.filter_cons, same, List.lookup_cons, differs] using ih

/-- A name that was removed stands for nothing. -/
theorem get?_remove_self (names : Names α) (name : String) :
    (names.remove name).get? name = none :=
  lookup_filter_self names.entries name

/-- A name stands for what it was bound to last. -/
theorem get?_put_self (names : Names α) (name : String) (object : α) :
    (names.put name object).get? name = some object := by
  simp [get?, put, remove, List.lookup_append, lookup_filter_self]

end Names

end BatchDigest
