import BraceTemplate.Json.Double
import BraceTemplate.Value.Basic

/-!
# Values from JSON

Arrays of objects become lists of scopes. The names in a scope are in the order of their code
points, and of a repeated name the last member counts. Other items have no bindings, and an object
on its own is null.
-/

namespace BraceTemplate

/-- The entries in the order of their names, each name once with its last value. -/
def sortedTable {α : Type} (entries : List (String × α)) : Table α :=
  (Table.ofList entries).mergeSort fun a b => a.1 ≤ b.1

namespace Value

mutual

/-- The value that a JSON value stands for. -/
def ofJson : Json → Value
  | .null => null
  | .bool b => bool b
  | .number numeral => (numeral.toDouble?.map number).getD null
  | .string text => string text
  | .array items => list (scopesOfJson items)
  | .object _ | .illFormed => null

/-- One scope for every item of an array. -/
def scopesOfJson : List Json → List (List (String × Value))
  | [] => []
  | .object members :: rest => sortedTable (bindingsOfJson members) :: scopesOfJson rest
  | _ :: rest => [] :: scopesOfJson rest

/-- The members of an object as bindings. -/
def bindingsOfJson : List (String × Json) → List (String × Value)
  | [] => []
  | (name, json) :: rest => (name, ofJson json) :: bindingsOfJson rest

end

end Value

end BraceTemplate
