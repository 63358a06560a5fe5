import BraceTemplate.Expr.Postfix
import BraceTemplate.Value.Compare

/-!
# Evaluating expressions

Evaluation consumes the atoms of an expression from the last one backwards: an operator takes its
right operand first, then its left one. Where atoms run out the operand is null, so that every
sequence of atoms has a value.
-/

namespace BraceTemplate

namespace Operator

/-- The value of an operator applied to its operands. Negation looks at the right one only. -/
def apply (op : Operator) (a b : Value) : Value :=
  let ordered (accepts : Ordering → Bool) : Value :=
    .bool (((a.looseCmp? b).map accepts).getD false)
  match op with
  | add => .number (a.toNumber + b.toNumber)
  | sub => .number (a.toNumber - b.toNumber)
  | mul => .number (a.toNumber * b.toNumber)
  | div =>
    if b.toNumber == 0 then .number 0 else .number (truncate (a.toNumber / b.toNumber))
  | mod =>
    let divisor := truncate b.toNumber
    if divisor == 0 then .number 0 else .number (remainder (truncate a.toNumber) divisor)
  | and => .bool (a.truthy && b.truthy)
  | or => .bool (a.truthy || b.truthy)
  | equal => .bool (a.looseEq b)
  | notEqual => .bool (!a.looseEq b)
  | less => ordered (· == .lt)
  | greater => ordered (· == .gt)
  | lessEq => ordered (· != .gt)
  | greaterEq => ordered (· != .lt)
  | not => .bool (!b.truthy)

end Operator

/-- The text between two single quotes, if it holds letters, digits, underscores and hyphens
only. -/
def quoted? (text : List Char) : Option (List Char) :=
  match text with
  | '\'' :: rest =>
    match rest.reverse with
    | '\'' :: reversed =>
      if reversed.all fun c => c.isAlphanum || c == '_' || c == '-' then some reversed.reverse
      else none
    | _ => none
  | _ => none

/-- What a literal stands for: a number, a quoted text, a truth value or the binding of a name. A
name without a binding is zero. -/
def literalValue (scope : Scope) (text : String) : Value :=
  match numberOf? text with
  | some x => .number x
  | none =>
    match quoted? text.toList with
    | some inner => .string (String.ofList inner)
    | none =>
      if text = "true" then .bool true
      else if text = "false" then .bool false
      else (scope.get? text).getD (.number 0)

/-- The value of the operand that ends a sequence, and the atoms in front of that operand. The
sequence is given from its last atom to its first. -/
def takeOperand (scope : Scope) (atoms : List Atom) :
    { taken : Value × List Atom // taken.2.length ≤ atoms.length } :=
  match atoms with
  | [] => ⟨(.null, []), Nat.le_refl _⟩
  | .literal text :: rest => ⟨(literalValue scope text, rest), Nat.le_succ _⟩
  | .operator .not :: rest =>
    let ⟨(value, left), hleft⟩ := takeOperand scope rest
    ⟨(.bool (!value.truthy), left), Nat.le_succ_of_le hleft⟩
  | .operator op :: rest =>
    let ⟨(b, middle), hmiddle⟩ := takeOperand scope rest
    let ⟨(a, left), hleft⟩ := takeOperand scope middle
    ⟨(op.apply a b, left), Nat.le_succ_of_le (Nat.le_trans hleft hmiddle)⟩
termination_by atoms.length
decreasing_by
  · exact Nat.lt_succ_self _
  · exact Nat.lt_succ_self _
  · exact Nat.lt_succ_of_le hmiddle

/-- The value of atoms in postfix order. -/
def evaluateAtoms (scope : Scope) (atoms : List Atom) : Value :=
  (takeOperand scope atoms.reverse).val.1

namespace Expression

/-- The value of an expression in a scope. -/
def evaluate (expression : Expression) (scope : Scope) : Value :=
  evaluateAtoms scope expression.atoms

end Expression

/-- The results of the expressions evaluated so far, by expression id. -/
abbrev Memo := Table Value

namespace Memo

/-- The remembered result for the id of an expression. If there is none the expression is evaluated
and its result remembered. -/
def evaluate (memo : Memo) (expression : Expression) (scope : Scope) : Value × Memo :=
  match memo.get? expression.id with
  | some value => (value, memo)
  | none =>
    let value := expression.evaluate scope
    (value, memo.insert expression.id value)

end Memo

end BraceTemplate
