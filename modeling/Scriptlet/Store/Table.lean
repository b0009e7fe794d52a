/-!
# Tables

Finite maps from names, in the order in which the names first came in. Putting a value under a name
replaces what was there and removes nothing else. Bindings of scopes and properties of objects are
such tables.

A table may be any list of entries, and the first one of a name counts. Tables that are made by
`put` from the empty one have each name once. The two lemmas at the end say what can be seen of a
table after something was put into it, and other modules hardly need to know more of `put`.
-/

namespace Scriptlet

/-- A finite map from names. -/
abbrev Table (α : Type) := List (String × α)

namespace Table

variable {α : Type}

/-- The value under a name. -/
def find? (t : Table α) (name : String) : Option α :=
  match t with
  | [] => none
  | (n, v) :: rest => if n = name then some v else find? rest name

/-- Whether a name is present. -/
def has (t : Table α) (name : String) : Bool := (t.find? name).isSome

/-- Puts a value under a name, in place if the name is present and at the end
otherwise. -/
def put (t : Table α) (name : String) (value : α) : Table α :=
  match t with
  | [] => [(name, value)]
  | (n, v) :: rest => if n = name then (n, value) :: rest else (n, v) :: put rest name value

/-- The entries in the order of their names, for those who show a whole table. -/
def sorted (t : Table α) : List (String × α) :=
  t.mergeSort fun a b => a.1 ≤ b.1

/-- What is put is found, and everything else stays as it was. As a rewriting rule it decides every
lookup behind a `put` by comparing two names. -/
@[simp] theorem find?_put (t : Table α) (name other : String) (value : α) :
    (t.put name value).find? other = if name = other then some value else t.find? other := by
  induction t with
  | nil => simp [put, find?]
  | cons entry rest ih =>
    obtain ⟨n, v⟩ := entry
    by_cases hn : n = name
    · subst hn
      by_cases ho : n = other <;> simp [put, find?, ho]
    · by_cases ho : n = other
      · subst ho
        simp [put, find?, hn, Ne.symm hn]
      · simp [put, find?, hn, ho, ih]

/-- Putting adds a name and removes none: a name is present afterwards if it is the one that was put
or was present before. -/
@[simp] theorem has_put (t : Table α) (name other : String) (value : α) :
    (t.put name value).has other = (decide (name = other) || t.has other) := by
  by_cases h : name = other <;> simp [has, h]

end Table

end Scriptlet
