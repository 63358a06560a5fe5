/-!
# Tables in insertion order

A table is a list of named entries. A name keeps the place at which it was first inserted and takes
the value that was inserted last.
-/

namespace BraceTemplate

/-- Named entries in insertion order. -/
abbrev Table (α : Type) := List (String × α)

namespace Table

variable {α β : Type}

/-- The value stored under `name`. -/
def get? (table : Table α) (name : String) : Option α :=
  List.lookup name table

/-- Whether `name` has an entry. -/
def has (table : Table α) (name : String) : Bool :=
  (table.get? name).isSome

/-- Stores `value` under `name`: in place if the name has an entry, at the end if it has none. -/
def insert : Table α → String → α → Table α
  | [], name, value => [(name, value)]
  | (key, old) :: rest, name, value =>
    if key = name then (key, value) :: rest else (key, old) :: insert rest name value

/-- Stores `value` under `name` unless the name has an entry already. -/
def insertNew (table : Table α) (name : String) (value : α) : Table α :=
  if table.has name then table else table ++ [(name, value)]

/-- Inserts the given entries one after another. -/
def insertAll (table : Table α) (entries : List (String × α)) : Table α :=
  entries.foldl (fun table (name, value) => table.insert name value) table

/-- The table that holds the given entries: a repeated name keeps its first place and takes its last
value. -/
def ofList (entries : List (String × α)) : Table α :=
  insertAll [] entries

/-- The names of the entries. -/
def names (table : Table α) : List String :=
  table.map Prod.fst

/-- Every name has one entry only. -/
def Distinct (table : Table α) : Prop :=
  table.names.Nodup

/-- How many values are listed under `name`. -/
def count (table : Table (List α)) (name : String) : Nat :=
  ((table.get? name).getD []).length

/-- Adds `value` at the end of the values listed under `name`. -/
def append (table : Table (List α)) (name : String) (value : α) : Table (List α) :=
  table.insert name ((table.get? name).getD [] ++ [value])

/-- The value at place `index` of those listed under `name`. -/
def getAt? (table : Table (List α)) (name : String) (index : Nat) : Option α := do
  (← table.get? name)[index]?

/-- Puts `value` in place of the one at place `index` of those listed under `name`. -/
def setAt (table : Table (List α)) (name : String) (index : Nat) (value : α) : Table (List α) :=
  match table.get? name with
  | some values => table.insert name (values.set index value)
  | none => table

/-- A value that is found under a name is an entry of the table. -/
theorem mem_of_get? {table : Table α} {name : String} {value : α}
    (h : table.get? name = some value) : (name, value) ∈ table := by
  obtain ⟨before, after, heq, -⟩ := List.lookup_eq_some_iff.1 h
  simp [heq]

end Table

/-- Adds a name at the end of a list of names unless it is listed already. -/
def addName (names : List String) (name : String) : List String :=
  if name ∈ names then names else names ++ [name]

end BraceTemplate
