import BraceTemplate.Json.Basic
import BraceTemplate.Template.Basic

/-!
# The compiled form of a template

A template is written as JSON: its nodes with all their tables in order, their scopes and their
warnings. Numbers are written with the shortest digits that read back.
-/

namespace BraceTemplate

/-- The numeral of a finite double in compiled texts. It is written in full from `0.00001` up to
what has sixteen digits before the point, with one digit behind the point at least, and with an
exponent otherwise. A tie between two shortest decimals goes to the even one. -/
def Binary64.compiledNumeral (value : Binary64) : Numeral :=
  if value.significand = 0 then ⟨value.negative, [0], [0], none⟩
  else
    let decimal := Decimal.shortest .toEven value
    if -5 < decimal.point && decimal.point ≤ 16 then decimal.positional value.negative 1
    else decimal.scientific value.negative

/-- A double in compiled texts; null unless it is finite. -/
def encodeFloat (x : Float) : Json :=
  match Binary64.ofFloat? x with
  | some value => .number value.compiledNumeral
  | none => .null

/-- A natural number in compiled texts. -/
def encodeNat (n : Nat) : Json :=
  .number (.ofNat n)

namespace Value

mutual

/-- A value in compiled texts. -/
def encode : Value → Json
  | null => .string "Null"
  | bool b => .object [("Bool", .bool b)]
  | number x => .object [("Number", encodeFloat x)]
  | string text => .object [("String", .string text)]
  | list items => .object [("List", .array (encodeItems items))]

/-- The items of a list in compiled texts. -/
def encodeItems : List (List (String × Value)) → List Json
  | [] => []
  | item :: rest => .object (encodeBindings item) :: encodeItems rest

/-- The bindings of a scope in compiled texts. -/
def encodeBindings : List (String × Value) → List (String × Json)
  | [] => []
  | (name, value) :: rest => (name, encode value) :: encodeBindings rest

end

end Value

namespace Operator

/-- The name of an operator in compiled texts. -/
def name : Operator → String
  | add => "Add"
  | sub => "Sub"
  | mul => "Mul"
  | div => "Div"
  | mod => "Mod"
  | equal => "Equal"
  | notEqual => "NotEqual"
  | less => "Less"
  | greater => "Greater"
  | lessEq => "LessEq"
  | greaterEq => "GreaterEq"
  | not => "Not"
  | and => "And"
  | or => "Or"

end Operator

/-- An atom in compiled texts. -/
def Atom.encode : Atom → Json
  | literal text => .object [("Literal", .string text)]
  | operator op => .object [("Operator", .string op.name)]

/-- An expression in compiled texts. -/
def Expression.encode (expression : Expression) : Json :=
  .object [("source", .string expression.source), ("id", .string expression.id),
    ("atoms", .array (expression.atoms.map Atom.encode))]

/-- The name of a kind of placeholder in compiled texts. -/
def PlaceholderKind.name : PlaceholderKind → String
  | conditional => "If"
  | repetition => "For"

/-- A placeholder in compiled texts. -/
def Placeholder.encode (placeholder : Placeholder) : Json :=
  .object [("kind", .string placeholder.kind.name), ("key", .string placeholder.key),
    ("index", encodeNat placeholder.index)]

/-- A segment in compiled texts. -/
def Segment.encode : Segment → Json
  | text content => .object [("Text", .string content)]
  | binding name => .object [("Variable", .string name)]
  | expression id => .object [("Expression", .string id)]
  | block placeholder => .object [("Block", placeholder.encode)]
  | inclusion path => .object [("Include", .string path)]

/-- The name of a kind of block in compiled texts. -/
def BlockKind.name : BlockKind → String
  | conditional => "If"
  | repetition => "Foreach"
  | comment => "Comment"

/-- A warning in compiled texts. -/
def Error.encode : Error → Json
  | badExpression source offset message =>
    .object [("Syntax", .object [("expression", .string source), ("offset", encodeNat offset),
      ("message", .string message)])]
  | unclosedBlock kind line =>
    .object [("UnclosedBlock", .object [("kind", .string kind.name), ("line", encodeNat line)])]
  | unmatchedClose kind line =>
    .object [("UnmatchedClose", .object [("kind", .string kind.name), ("line", encodeNat line)])]
  | includeNotFound path reason =>
    .object [("IncludeNotFound", .object [("path", .string path), ("reason", .string reason)])]
  | includeCycle path => .object [("IncludeCycle", .object [("path", .string path)])]
  | undecodable reason => .object [("Decode", .string reason)]

namespace Template

mutual

/-- A template in compiled texts. -/
def encode : Template → Json
  | ⟨node, conditionals, repetitions, includes⟩ =>
    .object [("name", .string node.name),
      ("segments", .array (node.segments.map Segment.encode)),
      ("expressions", .object (node.expressions.map fun (id, e) => (id, e.encode))),
      ("conditionals", .object (encodeBlocks conditionals)),
      ("repetitions", .object (encodeBlocks repetitions)),
      ("includes", .object (encodeIncludes includes)),
      ("variables", .array (node.names.map Json.string)),
      ("scope", .object (Value.encodeBindings node.scope)),
      ("warnings", .array (node.ownWarnings.map Error.encode))]

/-- A table of block bodies in compiled texts. -/
def encodeBlocks : List (String × List Template) → List (String × Json)
  | [] => []
  | (key, bodies) :: rest => (key, .array (encodeBodies bodies)) :: encodeBlocks rest

/-- A list of templates in compiled texts. -/
def encodeBodies : List Template → List Json
  | [] => []
  | body :: rest => encode body :: encodeBodies rest

/-- A table of included documents in compiled texts. -/
def encodeIncludes : List (String × Template) → List (String × Json)
  | [] => []
  | (path, document) :: rest => (path, encode document) :: encodeIncludes rest

end

/-- The compiled text of a template. -/
def toCompiled (template : Template) : String :=
  template.encode.print

end Template

end BraceTemplate
