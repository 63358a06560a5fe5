import Mathlib.Data.List.ReduceOption
import Mathlib.Data.Stream.Init
import BraceTemplate.Proofs.Expr.Bindings
import BraceTemplate.Proofs.Expr.Infix

/-!
# Evaluating on a stack

Atoms in postfix order can be applied to a stack from the first one on. Taking operands from the
last atom backwards gives what lies on top of the stack in the end, for all atoms whatsoever, if
below its bottom there are nulls without end. The operand check accepts the atoms of one tree and no
others; of these every atom is taken once, and there is always one left when one is asked for.
-/

namespace BraceTemplate

/-! ### Both machines -/

/-- Applies an atom to a stack. A literal is put on top; an operator takes its operands off the top,
the right one first, and puts its value there. -/
def Atom.applyTo (scope : Scope) (stack : Stream' Value) : Atom → Stream' Value
  | .literal text => .cons (literalValue scope text) stack
  | .operator .not => .cons (.bool (!stack.head.truthy)) stack.tail
  | .operator op => .cons (op.apply stack.tail.head stack.head) stack.tail.tail

/-- The stack after atoms have been applied from the first one on. At first there are only nulls. -/
def stackAfter (scope : Scope) (atoms : List Atom) : Stream' Value :=
  atoms.foldl (Atom.applyTo scope) (Stream'.const .null)

/-- What taking an operand gets each time that it asks for the next atom: the atom, or `none` if
they have run out. The atoms are given from the last one to the first. -/
def requests (scope : Scope) (atoms : List Atom) : List (Option Atom) :=
  match atoms with
  | [] => [none]
  | .literal text :: _ => [some (.literal text)]
  | .operator .not :: rest => some (.operator .not) :: requests scope rest
  | .operator op :: rest =>
    some (.operator op) :: (requests scope rest ++ requests scope (takeOperand scope rest).val.2)
termination_by atoms.length
decreasing_by
  · exact Nat.lt_succ_self _
  · exact Nat.lt_succ_self _
  · exact Nat.lt_succ_of_le (takeOperand scope rest).property

/-- The last atom is applied to what the others leave. -/
theorem stackAfter_concat (scope : Scope) (atoms : List Atom) (atom : Atom) :
    stackAfter scope (atoms ++ [atom]) = atom.applyTo scope (stackAfter scope atoms) := by
  rw [stackAfter, List.foldl_append]
  rfl

/-- A binary operator puts its value in the place of the two topmost ones. -/
theorem Atom.applyTo_operator (scope : Scope) {op : Operator} (h : op ≠ .not)
    (stack : Stream' Value) :
    Atom.applyTo scope stack (.operator op) =
      .cons (op.apply stack.tail.head stack.head) stack.tail.tail := by
  rw [Atom.applyTo]
  exact h

/-- A binary operator asks for its right operand first, and then for its left one. -/
theorem requests_operator (scope : Scope) {op : Operator} (h : op ≠ .not) (rest : List Atom) :
    requests scope (.operator op :: rest) =
      some (.operator op) :: (requests scope rest ++
        requests scope (takeOperand scope rest).val.2) := by
  rw [requests]
  exact h

/-- The operand that is taken lies on top of the stack, and the atoms in front of it leave what lies
below. -/
theorem stackAfter_takeOperand (scope : Scope) (atoms : List Atom) :
    stackAfter scope atoms.reverse =
      .cons (takeOperand scope atoms).val.1
        (stackAfter scope (takeOperand scope atoms).val.2.reverse) := by
  fun_induction takeOperand scope atoms with
  | case1 => exact Stream'.const_eq _
  | case2 text rest => rw [List.reverse_cons, stackAfter_concat, Atom.applyTo]
  | case3 rest value left hleft htaken ih =>
    rw [htaken] at ih
    rw [List.reverse_cons, stackAfter_concat, ih, Atom.applyTo, Stream'.head_cons,
      Stream'.tail_cons]
  | case4 op rest hop b middle hmiddle hright a left hleft hleft' ihRight ihLeft =>
    rw [hright] at ihRight
    rw [hleft'] at ihLeft
    rw [List.reverse_cons, stackAfter_concat, ihRight, Atom.applyTo_operator scope hop,
      Stream'.head_cons, Stream'.tail_cons, ihLeft, Stream'.head_cons, Stream'.tail_cons]

/-- The atoms that are asked for are those in front of the ones that are left, each of them once. -/
theorem reduceOption_requests_append (scope : Scope) (atoms : List Atom) :
    (requests scope atoms).reduceOption ++ (takeOperand scope atoms).val.2 = atoms := by
  fun_induction takeOperand scope atoms with
  | case1 => rw [requests]; rfl
  | case2 text rest => rw [requests]; rfl
  | case3 rest value left hleft htaken ih =>
    rw [htaken] at ih
    rw [requests, List.reduceOption_cons_of_some, List.cons_append, ih]
  | case4 op rest hop b middle hmiddle hright a left hleft hleft' ihRight ihLeft =>
    rw [hright] at ihRight
    rw [hleft'] at ihLeft
    rw [requests_operator scope hop, hright, List.reduceOption_cons_of_some,
      List.reduceOption_append, List.cons_append, List.append_assoc, ihLeft, ihRight]

/-! ### Atoms of a tree -/

/-- Where operands that are trees wait, atoms that pass the operand check make one tree of them. -/
theorem exists_tree_of_checkOperands {placed : List PlacedAtom} {operands : List Tree}
    (h : checkOperands placed operands.length = .ok ()) :
    ∃ tree : Tree,
      tree.atoms = operands.reverse.flatMap Tree.atoms ++ placed.map PlacedAtom.atom := by
  induction placed generalizing operands with
  | nil =>
    rcases operands with _ | ⟨tree, _ | ⟨other, operands⟩⟩
    · cases h
    · exact ⟨tree, by simp⟩
    · cases h
  | cons first placed ih =>
    obtain ⟨atom, offset⟩ := first
    cases atom with
    | literal text =>
      obtain ⟨tree, htree⟩ := @ih (.literal text :: operands) h
      exact ⟨tree, by simpa [Tree.atoms] using htree⟩
    | operator op =>
      rw [checkOperands] at h
      split at h
      · cases h
      · next harity =>
        cases hop : op.isPrefix with
        | true =>
          obtain rfl : op = .not := by cases op <;> first | rfl | cases hop
          cases operands with
          | nil => exact absurd Nat.zero_lt_one harity
          | cons operand operands =>
            obtain ⟨tree, htree⟩ := @ih (.negation operand :: operands) h
            exact ⟨tree, by simpa [Tree.atoms] using htree⟩
        | false =>
          have htwo : op.arity = 2 := by cases op <;> first | rfl | cases hop
          rw [htwo] at h harity
          rcases operands with _ | ⟨right, _ | ⟨left, operands⟩⟩
          · exact absurd Nat.zero_lt_two harity
          · exact absurd Nat.one_lt_two harity
          · obtain ⟨tree, htree⟩ := @ih (.binary op hop left right :: operands) h
            exact ⟨tree, by simpa [Tree.atoms] using htree⟩

/-- Taking a tree asks for its atoms, each once, and for nothing else. -/
theorem requests_tree (scope : Scope) (tree : Tree) (rest : List Atom) :
    requests scope (tree.atoms.reverse ++ rest) = tree.atoms.reverse.map some := by
  induction tree generalizing rest with
  | literal text =>
    rw [Tree.atoms, List.reverse_singleton, List.singleton_append, requests]
    rfl
  | negation operand ih =>
    rw [Tree.atoms, List.reverse_append, List.reverse_singleton, List.singleton_append,
      List.cons_append, requests, ih, List.map_cons]
  | binary op hbinary left right ihleft ihright =>
    have hnot : op ≠ .not := by
      rintro rfl
      cases hbinary
    rw [Tree.atoms, List.reverse_append, List.reverse_append, List.reverse_singleton,
      List.singleton_append, List.cons_append, List.cons_append, List.append_assoc,
      requests_operator scope hnot, ihright, takeOperand_tree, ihleft, List.map_cons,
      List.map_append]

/-- If the atoms do not run out, an operand that is taken is made of the atoms of one tree. -/
theorem exists_tree_of_requests {scope : Scope} {atoms : List Atom}
    (h : none ∉ requests scope atoms) :
    ∃ tree : Tree, atoms = tree.atoms.reverse ++ (takeOperand scope atoms).val.2 := by
  fun_induction takeOperand scope atoms with
  | case1 =>
    rw [requests] at h
    exact absurd List.mem_cons_self h
  | case2 text rest => exact ⟨.literal text, rfl⟩
  | case3 rest value left hleft htaken ih =>
    rw [requests, List.mem_cons, not_or] at h
    obtain ⟨operand, hoperand⟩ := ih h.2
    rw [htaken] at hoperand
    refine ⟨.negation operand, ?_⟩
    rw [Tree.atoms, List.reverse_append, List.reverse_singleton, List.singleton_append,
      List.cons_append, ← hoperand]
  | case4 op rest hop b middle hmiddle hright a left hleft hleft' ihRight ihLeft =>
    rw [requests_operator scope hop, List.mem_cons, List.mem_append, not_or, not_or, hright] at h
    obtain ⟨right, hatoms⟩ := ihRight h.2.1
    obtain ⟨left', hatoms'⟩ := ihLeft h.2.2
    rw [hright] at hatoms
    rw [hleft'] at hatoms'
    have hbinary : op.isPrefix = false := by
      cases op <;> first | rfl | exact absurd rfl hop
    refine ⟨.binary op hbinary left' right, ?_⟩
    rw [Tree.atoms, List.reverse_append, List.reverse_append, List.reverse_singleton,
      List.singleton_append, List.cons_append, List.cons_append, List.append_assoc, ← hatoms',
      ← hatoms]

/-- The operand check accepts just the atoms of trees. -/
theorem checkOperands_eq_ok_iff {placed : List PlacedAtom} :
    checkOperands placed 0 = .ok () ↔ ∃ tree : Tree, tree.atoms = placed.map PlacedAtom.atom := by
  constructor
  · intro h
    exact @exists_tree_of_checkOperands placed [] h
  · rintro ⟨tree, htree⟩
    have hcount := checkOperands_tree tree placed [] 0 htree.symm
    rw [List.append_nil] at hcount
    exact hcount

namespace Expression

/-- Any atoms, compiled or not, have the value that lies on top of the stack when they have been
applied from the first one on. The operand check accepts atoms exactly if taking their value
backwards asks for every atom once, from the last one to the first, and for none after they have run
out. -/
theorem evaluate_eq_head_stackAfter :
    (∀ (expression : Expression) (scope : Scope),
      expression.evaluate scope = (stackAfter scope expression.atoms).head) ∧
    ∀ (placed : List PlacedAtom) (scope : Scope),
      checkOperands placed 0 = .ok () ↔
        requests scope (placed.map PlacedAtom.atom).reverse =
          (placed.map PlacedAtom.atom).reverse.map some := by
  refine ⟨fun expression scope => ?_, fun placed scope => ?_⟩
  · have hstack := stackAfter_takeOperand scope expression.atoms.reverse
    rw [List.reverse_reverse] at hstack
    rw [evaluate, evaluateAtoms, hstack, Stream'.head_cons]
  · rw [checkOperands_eq_ok_iff]
    constructor
    · rintro ⟨tree, htree⟩
      have hrequests := requests_tree scope tree []
      rwa [List.append_nil, htree] at hrequests
    · intro h
      have hnone : none ∉ requests scope (placed.map PlacedAtom.atom).reverse := by
        rw [h]
        simp
      obtain ⟨tree, htree⟩ := exists_tree_of_requests hnone
      -- All atoms have been asked for, so none are in front of the tree.
      have hall := reduceOption_requests_append scope (placed.map PlacedAtom.atom).reverse
      have hsome : ∀ atoms : List Atom, (atoms.map some).reduceOption = atoms := fun atoms => by
        simp [List.reduceOption]
      rw [h, hsome, List.append_right_eq_self] at hall
      rw [hall, List.append_nil] at htree
      exact ⟨tree, (List.reverse_inj.1 htree).symm⟩

end Expression

end BraceTemplate
