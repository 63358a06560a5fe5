import BraceTemplate.Decimal.Numeral

/-!
# JSON texts

A number is kept as the numeral that is written, so that nothing is decided about its range and its
kind before somebody asks for it. An object keeps all its members in order, repeated names included.
An escape in a string may stand for half of a character. What such a string is part of is
grammatical, but no decoder accepts it. The printed form is compact.
-/

namespace BraceTemplate

/-- A JSON text. -/
inductive Json where
  | null
  | bool (b : Bool)
  | number (numeral : Numeral)
  | string (text : String)
  | array (items : List Json)
  | object (members : List (String × Json))
  /-- A string with an unpaired surrogate, which is no text, or an object with such a string as a
  name. -/
  | illFormed
  deriving Inhabited

namespace Json

/-- The lower-case hexadecimal digit of a number below sixteen. -/
def hexDigit (n : Nat) : Char :=
  if n < 10 then Char.ofNat (48 + n) else Char.ofNat (87 + n)

/-- How a character is written inside a string: quotes, backslashes and control characters are
escaped, all else stands for itself. -/
def escape (c : Char) : List Char :=
  if c = '"' then ['\\', '"']
  else if c = '\\' then ['\\', '\\']
  else if c = '\x08' then ['\\', 'b']
  else if c = '\t' then ['\\', 't']
  else if c = '\n' then ['\\', 'n']
  else if c = '\x0c' then ['\\', 'f']
  else if c = '\r' then ['\\', 'r']
  else if c.toNat < 32 then
    ['\\', 'u', '0', '0', hexDigit (c.toNat / 16), hexDigit (c.toNat % 16)]
  else [c]

/-- A text between quotes. -/
def quote (text : String) : List Char :=
  '"' :: text.toList.flatMap escape ++ ['"']

mutual

/-- The compact text of a JSON value. -/
def chars : Json → List Char
  | null => "null".toList
  | bool b => if b then "true".toList else "false".toList
  | number numeral => numeral.text
  | string text => quote text
  | array [] => ['[', ']']
  | array (item :: items) => '[' :: chars item ++ itemsChars items
  | object [] => ['\x7b', '\x7d']
  | object ((name, value) :: members) =>
    '\x7b' :: quote name ++ ':' :: chars value ++ membersChars members
  | illFormed => ['"', '\\', 'u', 'd', '8', '0', '0', '"']

/-- The items behind the first one and the closing bracket. -/
def itemsChars : List Json → List Char
  | [] => [']']
  | item :: items => ',' :: chars item ++ itemsChars items

/-- The members behind the first one and the closing brace. -/
def membersChars : List (String × Json) → List Char
  | [] => ['\x7d']
  | (name, value) :: members =>
    ',' :: quote name ++ ':' :: chars value ++ membersChars members

end

/-- The compact text of a JSON value. -/
def print (json : Json) : String :=
  String.ofList json.chars

end Json

end BraceTemplate
