import BraceTemplate.Table
import BraceTemplate.Json.Parser
import BraceTemplate.Json.Double

/-!
# Decoding JSON

Decoders turn a JSON value into data. Arrays and objects may nest so deeply only: a decoder gets the
number of levels that it may still enter. What is not looked at may nest as it likes.
-/

namespace BraceTemplate

namespace Json

/-- How many levels of arrays and objects a decoder may enter. -/
def levelLimit : Nat := 127

/-- Decodes every value of a list. -/
def decodeAll {α : Type} (item : Json → Option α) : List Json → Option (List α)
  | [] => some []
  | json :: rest => do
    let value ← item json
    return value :: (← decodeAll item rest)

/-- Decodes the value of every member of an object. -/
def decodeMembers {α : Type} (item : Json → Option α) :
    List (String × Json) → Option (List (String × α))
  | [] => some []
  | (name, json) :: rest => do
    let value ← item json
    return (name, value) :: (← decodeMembers item rest)

/-- Decodes an array. The items have one level less to enter. -/
def listOf {α : Type} : (levels : Nat) → (item : (l : Nat) → l < levels → Json → Option α) →
    Json → Option (List α)
  | levels + 1, item, .array items => decodeAll (item levels (Nat.lt_succ_self levels)) items
  | _, _, _ => none

/-- Decodes an object as a table. The values have one level less to enter. -/
def tableOf {α : Type} : (levels : Nat) → (item : (l : Nat) → l < levels → Json → Option α) →
    Json → Option (Table α)
  | levels + 1, item, .object members =>
    (decodeMembers (item levels (Nat.lt_succ_self levels)) members).map Table.ofList
  | _, _, _ => none

/-- Decodes a string. -/
def text? : Json → Option String
  | string text => some text
  | _ => none

/-- Decodes a truth value. -/
def bool? : Json → Option Bool
  | bool b => some b
  | _ => none

/-- Decodes a natural number below `2 ^ 64`. -/
def index? : Json → Option Nat
  | number numeral => numeral.toIndex?
  | _ => none

/-- Decodes a double. -/
def double? : Json → Option Float
  | number numeral => numeral.toDouble?
  | _ => none

/-- The value of the only member of that name. `some none` means that there is no such member,
`none` that there are several. -/
def member? (members : List (String × Json)) (name : String) : Option (Option Json) :=
  match members.filter fun member => member.1 == name with
  | [] => some none
  | [(_, value)] => some (some value)
  | _ => none

/-- The values of a record's fields, in the order of their names. A record is an object, whose other
members are ignored, or an array of its first fields. -/
def fields? (names : List String) : Json → Option (List (Option Json))
  | object members => names.mapM (member? members)
  | array items =>
    if items.length ≤ names.length then
      some (items.map some ++ List.replicate (names.length - items.length) none)
    else none
  | _ => none

/-- The tag of a variant with its content: a tag alone, or an object with one member, which is one
level more to enter. The result has the levels that are left for the content. -/
def variant? (levels : Nat) : Json → Option (String × Option Json × Nat)
  | string tag => some (tag, none, levels)
  | object [(tag, content)] =>
    match levels with
    | levels + 1 => some (tag, some content, levels)
    | 0 => none
  | _ => none

/-- A variant takes no levels on top of those that are left. -/
theorem variant?_le {levels left : Nat} {json : Json} {tag : String} {content : Option Json}
    (h : variant? levels json = some (tag, content, left)) : left ≤ levels := by
  unfold variant? at h
  split at h
  · cases h
    exact Nat.le_refl _
  · split at h
    · cases h
      exact Nat.le_succ _
    · simp at h
  · simp at h

/-- Decodes a variant without content, which may be written with null as its content. -/
def unit? {α : Type} (levels : Nat) (named : String → Option α) (json : Json) : Option α :=
  match variant? levels json with
  | some (tag, none, _) => named tag
  | some (tag, some .null, _) => named tag
  | _ => none

end Json

end BraceTemplate
