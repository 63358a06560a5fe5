import BraceTemplate.Json.Token

/-!
# Reading JSON

A text is read token by token. The arrays and objects that are open wait on a stack; a phase says
what may come next. So reading is one pass over the tokens, and nesting costs no recursion.
-/

namespace BraceTemplate

namespace Json

/-- The members of an object so far, from the last to the first; `none` if one of the names is no
text. -/
abbrev Members := Option (List (String × Json))

/-- The members with one more. -/
def Members.add (members : Members) (name : Option String) (value : Json) : Members := do
  return (← name, value) :: (← members)

/-- The object that has the given members. -/
def Members.toJson : Members → Json
  | some members => .object members.reverse
  | none => .illFormed

/-- An array or object that is open, with what it holds so far from the last to the first. An open
object also has the name of the member that is being read. -/
inductive Frame where
  | array (items : List Json)
  | object (members : Members) (name : Option String)

/-- What may come next. -/
inductive Phase where
  /-- A value. -/
  | value
  /-- A value or the end of an array that has just been opened. -/
  | firstItem
  /-- A name or the end of an object that has just been opened. -/
  | firstName
  /-- The name of a further member. -/
  | name (members : Members)
  /-- The colon behind a name. -/
  | colon (members : Members) (name : Option String)
  /-- What may stand behind a value. -/
  | after (value : Json)

/-- The state in which reading goes on behind the first token of a value. -/
def begin? (frames : List Frame) : Token → Option (List Frame × Phase)
  | .null => some (frames, .after .null)
  | .bool b => some (frames, .after (.bool b))
  | .number numeral => some (frames, .after (.number numeral))
  | .string (some text) => some (frames, .after (.string text))
  | .string none => some (frames, .after .illFormed)
  | .openArray => some (.array [] :: frames, .firstItem)
  | .openObject => some (frames, .firstName)
  | _ => none

/-- The state in which reading goes on behind a token; `none` if the token may not stand there. -/
def step? : List Frame × Phase → Token → Option (List Frame × Phase)
  | (.array [] :: frames, .firstItem), .closeArray => some (frames, .after (.array []))
  | (frames, .firstItem), token => begin? frames token
  | (frames, .value), token => begin? frames token
  | (frames, .firstName), .closeObject => some (frames, .after (.object []))
  | (frames, .firstName), .string name => some (frames, .colon (some []) name)
  | (frames, .name members), .string name => some (frames, .colon members name)
  | (frames, .colon members name), .colon => some (.object members name :: frames, .value)
  | (.array items :: frames, .after value), .comma =>
    some (.array (value :: items) :: frames, .value)
  | (.array items :: frames, .after value), .closeArray =>
    some (frames, .after (.array (value :: items).reverse))
  | (.object members name :: frames, .after value), .comma =>
    some (frames, .name (members.add name value))
  | (.object members name :: frames, .after value), .closeObject =>
    some (frames, .after (members.add name value).toJson)
  | _, _ => none

/-- Reads tokens from a state on. At the end one value has to be complete and nothing open. -/
def run? (state : List Frame × Phase) : List Token → Option Json
  | [] =>
    match state with
    | ([], .after value) => some value
    | _ => none
  | token :: tokens =>
    match step? state token with
    | some state => run? state tokens
    | none => none

/-- Reads a whole text as one JSON value. -/
def parse? (text : String) : Option Json :=
  match Token.tokens? text.toList with
  | some tokens => run? ([], .value) tokens
  | none => none

end Json

end BraceTemplate
