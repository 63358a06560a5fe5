import BraceTemplate.Template.Basic

/-!
# Markers

What stands between braces is a marker if it has one of a few forms. Blocks and included documents
are found by looking through a line for an opening marker; what is left of a document is read brace
by brace, where a marker means what its content is in a given node.
-/

namespace BraceTemplate

/-- The characters of a name. -/
def isNameChar (c : Char) : Bool :=
  c.isAlphanum || c == '_'

/-- The characters of an expression source. -/
def isExpressionChar (c : Char) : Bool :=
  c.isAlphanum || isBlank c || "_=><-+()'!*%&|/".toList.contains c

/-- The characters of an include path. -/
def isPathChar (c : Char) : Bool :=
  c.isAlphanum || c == '_' || c == '.' || c == '/'

/-- A name: one or more letters, digits and underscores. -/
def isName (cs : List Char) : Bool :=
  !cs.isEmpty && cs.all isNameChar

/-- An include path: one or more letters, digits, underscores, points and slashes. -/
def isPath (cs : List Char) : Bool :=
  !cs.isEmpty && cs.all isPathChar

/-- A text of the characters of expressions that is not blank has to be an expression. -/
def isExpressionSource (cs : List Char) : Bool :=
  !(trim cs).isEmpty && cs.all isExpressionChar

/-- Reads `{word argument}` at the beginning of a text: one blank between the two, and an argument
of allowed characters that is not empty. -/
def argumentAt? (word : String) (allowed : Char → Bool) (cs : List Char) : Option (List Char) :=
  match afterPrefix? ('\x7b' :: word.toList) cs with
  | some (blank :: rest) =>
    let argument := rest.takeWhile allowed
    if isBlank blank && !argument.isEmpty && (rest.dropWhile allowed).head? == some '\x7d' then
      some argument
    else none
  | _ => none

/-- The arguments of all markers `{word argument}` in a text, in order. -/
def arguments (word : String) (allowed : Char → Bool) : List Char → List (List Char)
  | [] => []
  | c :: cs =>
    match argumentAt? word allowed (c :: cs) with
    | some argument => argument :: arguments word allowed cs
    | none => arguments word allowed cs

/-- The argument of the first marker `{word argument}` in a text. -/
def argument? (word : String) (allowed : Char → Bool) (cs : List Char) : Option (List Char) :=
  (arguments word allowed cs).head?

/-- The condition of the first conditional that a line opens. -/
def condition? (line : Line) : Option String :=
  (argument? "if" isExpressionChar line).map String.ofList

/-- The list of the first repetition that a line opens. -/
def listName? (line : Line) : Option String :=
  (argument? "foreach" isNameChar line).map String.ofList

/-- The paths of all include markers of a line. -/
def includePaths (line : Line) : List String :=
  (arguments "include" isPathChar line).map String.ofList

/-- Whether a line opens a block. A comment opens at the beginning of a line only. -/
def opens : BlockKind → Line → Bool
  | .conditional, line => (condition? line).isSome
  | .repetition, line => (listName? line).isSome
  | .comment, line => ['\x7b', '*'].isPrefixOf line

/-- Whether a line closes a block. -/
def closes : BlockKind → Line → Bool
  | .comment, line => occursIn ['*', '\x7d'] line
  | kind, line => occursIn ('\x7b' :: '/' :: kind.word.toList ++ ['\x7d']) line

/-- What a marker means in a node. -/
inductive Meaning where
  /-- It is no marker at all. -/
  | plain
  /-- It closes a block that is not open. -/
  | stray (kind : BlockKind)
  /-- It refers to something of the node. -/
  | segment (segment : Segment)
  /-- It is an expression that may have to be compiled yet. -/
  | expression (source : String)
  deriving DecidableEq, Repr

/-- Whether a node has the body that a placeholder stands for. -/
def Template.hasBody (template : Template) (placeholder : Placeholder) : Bool :=
  match placeholder.kind with
  | .conditional => (template.conditional? placeholder.key placeholder.index).isSome
  | .repetition => (template.repetition? placeholder.key placeholder.index).isSome

/-- The path of a marker content `include path` if the node has the document. -/
def Template.includedPath? (template : Template) (content : List Char) : Option String :=
  match afterPrefix? "include".toList content with
  | some (blank :: path) =>
    if isBlank blank && isPath path && (template.include? (String.ofList path)).isSome then
      some (String.ofList path)
    else none
  | _ => none

/-- What the content of a pair of braces means in a node. A placeholder of a body that the node does
not have is plain text, although its content may look like something else. -/
def Template.meaning (template : Template) (content : List Char) : Meaning :=
  match Placeholder.ofContent? content with
  | some placeholder =>
    if template.hasBody placeholder then .segment (.block placeholder) else .plain
  | none =>
    if content = "/if".toList then .stray .conditional
    else if content = "/foreach".toList then .stray .repetition
    else
      match template.includedPath? content with
      | some path => .segment (.inclusion path)
      | none =>
        if isName content then .segment (.binding (String.ofList content))
        else if isExpressionSource content then .expression (String.ofList content)
        else .plain

end BraceTemplate
