import BraceTemplate.Json.Decode
import BraceTemplate.Compiled.Encode

/-!
# Reading compiled templates

A compiled text is read back type by type. Nothing is checked beyond the types: a segment may refer
to what the node does not have. Tables and sets may repeat a name; a record may have further fields,
but none of its own twice.
-/

namespace BraceTemplate

open Json (text? index? listOf tableOf fields? variant? unit?)

/-- The operator of a name in compiled texts. -/
def Operator.ofName? (name : String) : Option Operator :=
  Operator.all.find? fun op => op.name == name

/-- The kind of placeholder of a name in compiled texts. -/
def PlaceholderKind.ofName? (name : String) : Option PlaceholderKind :=
  [conditional, repetition].find? fun kind => kind.name == name

/-- The kind of block of a name in compiled texts. -/
def BlockKind.ofName? (name : String) : Option BlockKind :=
  [conditional, repetition, comment].find? fun kind => kind.name == name

/-- Decodes a value, of which at most `levels` levels may be entered. -/
def Value.decode? (levels : Nat) (json : Json) : Option Value :=
  match _ : variant? levels json with
  | some ("Null", none, _) => some .null
  | some ("Null", some .null, _) => some .null
  | some ("Bool", some content, _) => (Json.bool? content).map .bool
  | some ("Number", some content, _) => (Json.double? content).map .number
  | some ("String", some content, _) => (text? content).map .string
  | some ("List", some content, left) =>
    (listOf left (fun l _ => tableOf l fun k _ => decode? k) content).map .list
  | _ => none
termination_by levels
decreasing_by
  have := Json.variant?_le (by assumption)
  omega

/-- Decodes a scope. -/
def decodeScope? (levels : Nat) (json : Json) : Option Scope :=
  tableOf levels (fun l _ => Value.decode? l) json

/-- Decodes an atom. -/
def Atom.decode? (levels : Nat) (json : Json) : Option Atom :=
  match variant? levels json with
  | some ("Literal", some content, _) => (text? content).map .literal
  | some ("Operator", some content, left) => (unit? left Operator.ofName? content).map .operator
  | _ => none

/-- Decodes an expression. -/
def Expression.decode? (levels : Nat) (json : Json) : Option Expression :=
  match levels, fields? ["source", "id", "atoms"] json with
  | levels + 1, some [some source, some id, some atoms] => do
    return ⟨← text? source, ← text? id, ← listOf levels (fun l _ => Atom.decode? l) atoms⟩
  | _, _ => none

/-- Decodes a placeholder. -/
def Placeholder.decode? (levels : Nat) (json : Json) : Option Placeholder :=
  match levels, fields? ["kind", "key", "index"] json with
  | levels + 1, some [some kind, some key, some index] => do
    return ⟨← unit? levels PlaceholderKind.ofName? kind, ← text? key, ← index? index⟩
  | _, _ => none

/-- Decodes a segment. -/
def Segment.decode? (levels : Nat) (json : Json) : Option Segment :=
  match variant? levels json with
  | some ("Text", some content, _) => (text? content).map .text
  | some ("Variable", some content, _) => (text? content).map .binding
  | some ("Expression", some content, _) => (text? content).map .expression
  | some ("Block", some content, left) => (Placeholder.decode? left content).map .block
  | some ("Include", some content, _) => (text? content).map .inclusion
  | _ => none

/-- Decodes the kind and the line of a block. -/
def decodePlace? {α : Type} (make : BlockKind → Nat → α) (levels : Nat) (json : Json) : Option α :=
  match levels, fields? ["kind", "line"] json with
  | levels + 1, some [some kind, some line] => do
    return make (← unit? levels BlockKind.ofName? kind) (← index? line)
  | _, _ => none

/-- Decodes a warning. -/
def Error.decode? (levels : Nat) (json : Json) : Option Error :=
  match variant? levels json with
  | some ("Syntax", some content, _ + 1) =>
    match fields? ["expression", "offset", "message"] content with
    | some [some source, some offset, some message] => do
      return .badExpression (← text? source) (← index? offset) (← text? message)
    | _ => none
  | some ("UnclosedBlock", some content, left) => decodePlace? .unclosedBlock left content
  | some ("UnmatchedClose", some content, left) => decodePlace? .unmatchedClose left content
  | some ("IncludeNotFound", some content, _ + 1) =>
    match fields? ["path", "reason"] content with
    | some [some path, some reason] => do
      return .includeNotFound (← text? path) (← text? reason)
    | _ => none
  | some ("IncludeCycle", some content, _ + 1) =>
    match fields? ["path"] content with
    | some [some path] => (text? path).map .includeCycle
    | _ => none
  | some ("Decode", some content, _) => (text? content).map .undecodable
  | _ => none

/-- The names of the fields of a node in compiled texts, in order. -/
def templateFields : List String :=
  ["name", "segments", "expressions", "conditionals", "repetitions", "includes", "variables",
    "scope", "warnings"]

/-- Decodes a template, of which at most `levels` levels may be entered. Its warnings may be left
out. -/
def Template.decode? (levels : Nat) (json : Json) : Option Template :=
  match levels, fields? templateFields json with
  | levels + 1, some [some name, some segments, some expressions, some conditionals,
      some repetitions, some includes, some names, some scope, warnings] => do
    let node : Node := {
      name := ← text? name
      segments := ← listOf levels (fun l _ => Segment.decode? l) segments
      expressions := ← tableOf levels (fun l _ => Expression.decode? l) expressions
      names := (← listOf levels (fun _ _ => text?) names).foldl addName []
      scope := ← decodeScope? levels scope
      ownWarnings := ← match warnings with
        | some warnings => listOf levels (fun l _ => Error.decode? l) warnings
        | none => some [] }
    let bodies := tableOf levels fun l _ => listOf l fun k _ => decode? k
    return {
      toNode := node
      conditionals := ← bodies conditionals
      repetitions := ← bodies repetitions
      includes := ← tableOf levels (fun l _ => decode? l) includes }
  | _, _ => none
termination_by levels
decreasing_by all_goals omega

/-- Reads a compiled text. -/
def Template.ofCompiled (compiled : String) : Except Error Template :=
  match Json.parse? compiled with
  | none => .error (.undecodable "not a JSON text")
  | some json =>
    match Template.decode? Json.levelLimit json with
    | none => .error (.undecodable "not a compiled template")
    | some template => .ok template

end BraceTemplate
