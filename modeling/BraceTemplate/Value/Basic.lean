import BraceTemplate.Table
import BraceTemplate.Text.Line
import BraceTemplate.Decimal.Shortest

/-!
# Values and scopes

A value is what a name can be bound to and what an expression evaluates to. Lists of scopes drive
repetitions; everywhere else a list stands for the number of its items. The conversions here never
fail: each value has a truth value, a number and a text.
-/

namespace BraceTemplate

/-- The values of the expression language. -/
inductive Value where
  | null
  | bool (b : Bool)
  | number (x : Float)
  | string (text : String)
  | list (items : List (List (String × Value)))
  deriving Inhabited

/-- The bindings of one template node. -/
abbrev Scope := Table Value

/-- The number that a text stands for, if all of it, blanks around it aside, is a numeral. -/
def numberOf? (text : String) : Option Float :=
  (Numeral.read? (trim text.toList)).map Numeral.toFloat

/-- The number of items of a list, as a double. -/
def lengthNumber (items : List Scope) : Float :=
  Binary64.ofInt items.length

namespace Value

/-- The empty list, the empty text, the text `0`, zero, `false` and null are false; the rest, NaN
among it, is true. -/
def truthy : Value → Bool
  | null => false
  | bool b => b
  | number x => x != 0
  | string text => text != "" && text != "0"
  | list items => !items.isEmpty

/-- The number that arithmetic takes a value for: a text that is no numeral counts as zero. -/
def toNumber : Value → Float
  | null => 0
  | bool b => if b then 1 else 0
  | number x => x
  | string text => (numberOf? text).getD 0
  | list items => lengthNumber items

/-- The number of a value that is one without guessing: a number, or a text that is a numeral. -/
def numeric? : Value → Option Float
  | number x => some x
  | string text => numberOf? text
  | _ => none

/-- The text that is inserted for a value. Zero has no sign. -/
def display : Value → String
  | null => ""
  | bool b => if b then "1" else ""
  | number x => if x == 0 then "0" else floatText x
  | string text => text
  | list items => items.length.repr

end Value

end BraceTemplate
