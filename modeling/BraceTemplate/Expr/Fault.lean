import BraceTemplate.Expr.Operator

/-!
# Faults of an expression source

A fault is a cause and the byte offset at which it is reported.
-/

namespace BraceTemplate

/-- Why a source is no expression. -/
inductive FaultCause where
  /-- A run between operators is no word. -/
  | invalidLiteral (text : String)
  /-- A `(` is never closed. -/
  | unmatchedOpen
  /-- A `)` closes nothing. -/
  | unmatchedClose
  /-- Too few operands stand before the operator in the reordered sequence. -/
  | missingOperand (op : Operator)
  /-- There is neither a literal nor an operator. -/
  | empty
  /-- More than one operand is left when all operators are applied. -/
  | unjoined
  deriving DecidableEq, Repr

/-- A cause and the byte offset at which it is reported. -/
structure Fault where
  cause : FaultCause
  offset : Nat
  deriving DecidableEq, Repr

/-- The wording of a fault. -/
def FaultCause.message : FaultCause → String
  | invalidLiteral text => "`" ++ text ++ "` is not a valid literal or identifier"
  | unmatchedOpen => "unmatched `(`"
  | unmatchedClose => "unmatched `)`"
  | missingOperand op => "operator `" ++ op.symbol ++ "` is missing an operand"
  | empty => "empty expression"
  | unjoined => "operands are not joined by an operator"

end BraceTemplate
