/-!
# Operators of the expression language

Five ranks of binding strength: comparisons bind loosest, then the logical operators, sums,
products, and negation, which is the only operator with a single operand.
-/

namespace BraceTemplate

/-- The operators that an expression may contain. -/
inductive Operator where
  | add | sub | mul | div | mod
  | equal | notEqual | less | greater | lessEq | greaterEq
  | not | and | or
  deriving DecidableEq, Repr

namespace Operator

/-- Every operator once, arithmetic first. -/
def all : List Operator :=
  [add, sub, mul, div, mod, equal, notEqual, less, greater, lessEq, greaterEq, not, and, or]

/-- The binding strength: of two neighbours the one with the higher rank takes the operand between
them. -/
def precedence : Operator → Nat
  | equal | notEqual | less | greater | lessEq | greaterEq => 1
  | and | or => 2
  | add | sub => 3
  | mul | div | mod => 4
  | not => 5

/-- The number of operands. -/
def arity : Operator → Nat
  | not => 1
  | _ => 2

/-- Whether the operator stands in front of its only operand. -/
def isPrefix : Operator → Bool
  | not => true
  | _ => false

/-- The canonical spelling. -/
def symbol : Operator → String
  | add => "+"
  | sub => "-"
  | mul => "*"
  | div => "/"
  | mod => "%"
  | equal => "="
  | notEqual => "!="
  | less => "<"
  | greater => ">"
  | lessEq => "<="
  | greaterEq => ">="
  | not => "!"
  | and => "&&"
  | or => "||"

end Operator

end BraceTemplate
