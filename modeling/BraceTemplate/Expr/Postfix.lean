import BraceTemplate.Expr.Token
import BraceTemplate.Expr.Fault

/-!
# Compiled expressions

An expression is compiled to the postfix order of its atoms: operands in front of their operator.
Operators wait on a stack until one of lower or equal rank, a closing parenthesis or the end of the
source releases them. Afterwards one pass counts operands, so that every operator of a compiled
expression finds its operands and exactly one value is left.
-/

namespace BraceTemplate

/-- The smallest unit of a compiled expression. What a literal stands for is decided when it is
evaluated. -/
inductive Atom where
  | literal (text : String)
  | operator (op : Operator)
  deriving DecidableEq, Repr

/-- An atom and the offset at which its scan began. -/
structure PlacedAtom where
  atom : Atom
  offset : Nat
  deriving DecidableEq, Repr

/-- What waits on the stack while a source is reordered. -/
inductive Pending where
  | group (offset : Nat)
  | operator (op : Operator) (offset : Nat)
  deriving DecidableEq, Repr

/-- A compiled expression: its source, the source without blanks, and its atoms in postfix order. -/
structure Expression where
  source : String
  id : String
  atoms : List Atom
  deriving DecidableEq, Repr

namespace Pending

/-- Releases the operators on top of the stack that bind at least as strongly as `op`. -/
def release (op : Operator) : List Pending → List PlacedAtom × List Pending
  | operator top offset :: stack =>
    if top.precedence < op.precedence then ([], operator top offset :: stack)
    else
      let (released, kept) := release op stack
      (⟨.operator top, offset⟩ :: released, kept)
  | stack => ([], stack)

/-- Puts an operator on the stack, behind those that it makes release. A prefix operator releases
none: it has no left operand. -/
def push (op : Operator) (offset : Nat) (stack : List Pending) : List PlacedAtom × List Pending :=
  if op.isPrefix then ([], operator op offset :: stack)
  else
    let (released, kept) := release op stack
    (released, operator op offset :: kept)

/-- Releases the operators of the innermost group and takes the group off the stack; `none` if no
group is open. -/
def closeGroup : List Pending → Option (List PlacedAtom × List Pending)
  | [] => none
  | group _ :: stack => some ([], stack)
  | operator op offset :: stack => do
    let (released, kept) ← closeGroup stack
    return (⟨.operator op, offset⟩ :: released, kept)

/-- Releases all operators at the end of the source. A group that is still open is a fault. -/
def drain : List Pending → Except Fault (List PlacedAtom)
  | [] => return []
  | group offset :: _ => throw ⟨.unmatchedOpen, offset⟩
  | operator op offset :: stack => return ⟨.operator op, offset⟩ :: (← drain stack)

end Pending

/-- Reorders lexemes into postfix order, given the stack of what is pending. The first fault in the
order of the source is the one reported. -/
def reorder : List Scanned → List Pending → Except Fault (List PlacedAtom)
  | [], stack => Pending.drain stack
  | scanned :: rest, stack =>
    match scanned.lexeme with
    | .invalid text lead => throw ⟨.invalidLiteral text, scanned.start + lead⟩
    | .token (.literal text) => return ⟨.literal text, scanned.start⟩ :: (← reorder rest stack)
    | .token (.operator op) =>
      let (released, stack) := Pending.push op scanned.start stack
      return released ++ (← reorder rest stack)
    | .token .groupOpen => reorder rest (.group scanned.start :: stack)
    | .token .groupClose =>
      match Pending.closeGroup stack with
      | none => throw ⟨.unmatchedClose, scanned.start⟩
      | some (released, stack) => return released ++ (← reorder rest stack)

/-- Counts the values on an evaluation stack that starts with `depth` of them. -/
def checkOperands : List PlacedAtom → (depth : Nat) → Except Fault Unit
  | [], 0 => throw ⟨.empty, 0⟩
  | [], 1 => return ()
  | [], _ => throw ⟨.unjoined, 0⟩
  | ⟨.literal _, _⟩ :: rest, depth => checkOperands rest (depth + 1)
  | ⟨.operator op, offset⟩ :: rest, depth =>
    if depth < op.arity then throw ⟨.missingOperand op, offset⟩
    else checkOperands rest (depth - op.arity + 1)

namespace Expression

/-- The source without its blanks. Sources that differ in blanks only share an id. -/
def idOf (source : String) : String :=
  String.ofList (source.toList.filter fun c => !isBlank c)

/-- The atoms of a source in postfix order. -/
def atomsOf (source : String) : Except Fault (List Atom) := do
  let placed ← reorder (Token.scan source) []
  checkOperands placed 0
  return placed.map PlacedAtom.atom

/-- Compiles a source. -/
def compile (source : String) : Except Fault Expression := do
  return ⟨source, idOf source, ← atomsOf source⟩

end Expression

end BraceTemplate
