import BraceTemplate.Expr.Eval

/-!
# Expressions and bindings

The value of an expression depends on the bindings of its literals and on nothing else in a scope.
-/

namespace BraceTemplate

/-- The value of a literal depends on what the scope binds to its text. -/
theorem literalValue_congr {scope scope' : Scope} {text : String}
    (h : scope.get? text = scope'.get? text) :
    literalValue scope text = literalValue scope' text := by
  rw [literalValue, literalValue, h]

/-- A negation takes one operand and negates it. -/
theorem takeOperand_not (scope : Scope) (rest : List Atom) :
    (takeOperand scope (.operator .not :: rest)).val =
      (.bool (!(takeOperand scope rest).val.1.truthy), (takeOperand scope rest).val.2) := by
  rw [takeOperand]

/-- The right operand is taken first, and the left one from the atoms that it leaves. -/
theorem takeOperand_operator (scope : Scope) {op : Operator} (h : op ≠ .not) (rest : List Atom) :
    (takeOperand scope (.operator op :: rest)).val =
      (op.apply (takeOperand scope (takeOperand scope rest).val.2).val.1
        (takeOperand scope rest).val.1,
        (takeOperand scope (takeOperand scope rest).val.2).val.2) := by
  rw [takeOperand]
  exact h

/-- Taking an operand depends on the bindings of the literals among the atoms only, and what it
leaves is an end of the atoms. -/
theorem takeOperand_congr {scope scope' : Scope} {atoms : List Atom}
    (h : ∀ text, .literal text ∈ atoms → scope.get? text = scope'.get? text) :
    (takeOperand scope atoms).val = (takeOperand scope' atoms).val ∧
      (takeOperand scope atoms).val.2 <:+ atoms := by
  fun_induction takeOperand scope atoms with
  | case1 =>
    rw [takeOperand]
    exact ⟨rfl, List.suffix_refl _⟩
  | case2 text rest =>
    rw [takeOperand, literalValue_congr (h text List.mem_cons_self)]
    exact ⟨rfl, List.suffix_cons _ rest⟩
  | case3 rest value left hleft htaken ih =>
    obtain ⟨hsame, hsuffix⟩ := ih fun text htext => h text (List.mem_cons_of_mem _ htext)
    rw [htaken] at hsame hsuffix
    rw [takeOperand_not, ← hsame]
    exact ⟨rfl, hsuffix.trans (List.suffix_cons _ rest)⟩
  | case4 op rest hop b middle hmiddle hright a left hleft hleft' ihRight ihLeft =>
    obtain ⟨hsame, hsuffix⟩ := ihRight fun text htext => h text (List.mem_cons_of_mem _ htext)
    rw [hright] at hsame hsuffix
    obtain ⟨hsame', hsuffix'⟩ := ihLeft fun text htext =>
      h text (List.mem_cons_of_mem _ (hsuffix.subset htext))
    rw [hleft'] at hsame' hsuffix'
    rw [takeOperand_operator _ hop, ← hsame, ← hsame']
    exact ⟨rfl, hsuffix'.trans (hsuffix.trans (List.suffix_cons _ rest))⟩

namespace Expression

/-- An expression has the same value in scopes that bind its literals alike. -/
theorem evaluate_congr {expression : Expression} {scope scope' : Scope}
    (h : ∀ text, .literal text ∈ expression.atoms → scope.get? text = scope'.get? text) :
    expression.evaluate scope = expression.evaluate scope' := by
  have hreverse : ∀ text, .literal text ∈ expression.atoms.reverse →
      scope.get? text = scope'.get? text := fun text htext => h text (List.mem_reverse.1 htext)
  rw [evaluate, evaluate, evaluateAtoms, evaluateAtoms, (takeOperand_congr hreverse).1]

end Expression

/-- What is remembered and what is computed depends on the bindings of the literals alone. -/
theorem Memo.evaluate_congr (memo : Memo) {expression : Expression} {scope scope' : Scope}
    (h : ∀ text, .literal text ∈ expression.atoms → scope.get? text = scope'.get? text) :
    memo.evaluate expression scope = memo.evaluate expression scope' := by
  rw [Memo.evaluate, Memo.evaluate, Expression.evaluate_congr h]

end BraceTemplate
