import BraceTemplate.Template.Compile
import BraceTemplate.Proofs.Table

/-!
# The bodies of a node

A placeholder stands for a body of its kind and key. When a block is compiled the node gains one
body behind those of the same kind and key; the bodies it has keep their places.
-/

namespace BraceTemplate

namespace Template

/-- The bodies of the blocks of one kind. -/
def bodies (template : Template) : PlaceholderKind → Table (List Template)
  | .conditional => template.conditionals
  | .repetition => template.repetitions

/-- The body that a placeholder stands for. -/
def body? (template : Template) (placeholder : Placeholder) : Option Template :=
  Table.getAt? (template.bodies placeholder.kind) placeholder.key placeholder.index

/-- A node has a body exactly where one is found. -/
theorem hasBody_eq_isSome_body? (template : Template) (placeholder : Placeholder) :
    template.hasBody placeholder = (template.body? placeholder).isSome := by
  unfold hasBody body?
  cases placeholder.kind <;> rfl

/-- What is below a node is one of its bodies or of its documents. -/
theorem mem_children_iff {template child : Template} :
    child ∈ template.children ↔ (∃ kind, child ∈ (template.bodies kind).flatMap Prod.snd) ∨
      child ∈ template.includes.map Prod.snd := by
  rw [children, List.mem_append, List.mem_append]
  constructor
  · rintro ((hmem | hmem) | hmem)
    · exact .inl ⟨.repetition, hmem⟩
    · exact .inl ⟨.conditional, hmem⟩
    · exact .inr hmem
  · rintro (⟨kind, hmem⟩ | hmem)
    · cases kind with
      | conditional => exact .inl (.inr hmem)
      | repetition => exact .inl (.inl hmem)
    · exact .inr hmem

/-! ### Blocks without an end -/

section NoteCut

variable (template : Template) (kind : BlockKind) (number : Nat) (cut : Cut)

/-- Noting that a block has no end changes nothing but the warnings. -/
theorem exists_noteCut_eq :
    ∃ warnings, template.noteCut kind number cut = { template with ownWarnings := warnings } := by
  unfold noteCut
  split
  · exact ⟨template.ownWarnings, by cases template; rfl⟩
  · exact ⟨_, rfl⟩

/-- To note a cut changes no body. -/
theorem bodies_noteCut : (template.noteCut kind number cut).bodies = template.bodies := by
  obtain ⟨warnings, hnoted⟩ := exists_noteCut_eq template kind number cut
  funext other
  rw [hnoted]
  cases other <;> rfl

/-- To note a cut changes no document. -/
theorem include?_noteCut (path : String) :
    (template.noteCut kind number cut).include? path = template.include? path := by
  obtain ⟨warnings, hnoted⟩ := exists_noteCut_eq template kind number cut
  rw [hnoted]
  rfl

/-- To note a cut changes no expression. -/
theorem expressions_noteCut :
    (template.noteCut kind number cut).expressions = template.expressions := by
  obtain ⟨warnings, hnoted⟩ := exists_noteCut_eq template kind number cut
  rw [hnoted]

/-- To note a cut changes nothing below the node. -/
theorem children_noteCut : (template.noteCut kind number cut).children = template.children := by
  obtain ⟨warnings, hnoted⟩ := exists_noteCut_eq template kind number cut
  rw [hnoted]
  rfl

end NoteCut

/-! ### Further bodies -/

/-- A node gains one body behind those of the same kind and key. -/
structure GainsBody (template changed : Template) (kind : PlaceholderKind) (key : String)
    (body : Template) : Prop where
  bodies : ∀ other, changed.bodies other =
    if other = kind then (template.bodies kind).append key body else template.bodies other
  name : changed.name = template.name
  includes : changed.includes = template.includes
  ownWarnings : changed.ownWarnings = template.ownWarnings

namespace GainsBody

variable {template changed body : Template} {kind : PlaceholderKind} {key : String}

/-- There is one body more under the key, and no more under others. -/
theorem count (h : template.GainsBody changed kind key body) (other : PlaceholderKind)
    (name : String) : (changed.bodies other).count name =
      (template.bodies other).count name + if other = kind ∧ name = key then 1 else 0 := by
  rw [h.bodies]
  by_cases hkind : other = kind
  · subst hkind
    rw [if_pos rfl, Table.count_append]
    simp
  · rw [if_neg hkind, if_neg fun hboth => hkind hboth.1, Nat.add_zero]

/-- The body that is gained is found behind the others. -/
theorem body?_self (h : template.GainsBody changed kind key body) :
    changed.body? ⟨kind, key, (template.bodies kind).count key⟩ = some body := by
  rw [body?, h.bodies, if_pos rfl]
  exact Table.getAt?_append_self ..

/-- The bodies that were there are found where they were. -/
theorem body?_of_some (h : template.GainsBody changed kind key body) {placeholder : Placeholder}
    {child : Template} (hchild : template.body? placeholder = some child) :
    changed.body? placeholder = some child := by
  unfold body? at hchild ⊢
  rw [h.bodies]
  by_cases hkind : placeholder.kind = kind
  · rw [if_pos hkind, ← hkind]
    exact Table.getAt?_append_of_some hchild ..
  · rw [if_neg hkind]
    exact hchild

/-- A body of the changed node is the new one or had its place before. -/
theorem body?_cases (h : template.GainsBody changed kind key body) {placeholder : Placeholder}
    {child : Template} (hchild : changed.body? placeholder = some child) :
    template.body? placeholder = some child ∨
      placeholder = ⟨kind, key, (template.bodies kind).count key⟩ ∧ child = body := by
  obtain ⟨other, name, index⟩ := placeholder
  unfold body? at hchild ⊢
  rw [h.bodies] at hchild
  by_cases hkind : other = kind
  · subst hkind
    rw [if_pos rfl] at hchild
    dsimp only at hchild
    rcases Table.getAt?_append_cases hchild with hold | ⟨rfl, rfl, rfl⟩
    · exact .inl hold
    · exact .inr ⟨rfl, rfl⟩
  · rw [if_neg hkind] at hchild
    exact .inl hchild

/-- Below the node is one body more. -/
theorem mem_children (h : template.GainsBody changed kind key body) {child : Template}
    (hchild : child ∈ changed.children) : child ∈ template.children ∨ child = body := by
  rcases mem_children_iff.1 hchild with ⟨other, hmem⟩ | hmem
  · rw [h.bodies] at hmem
    by_cases hkind : other = kind
    · subst hkind
      rw [if_pos rfl] at hmem
      rcases Table.mem_flatMap_append hmem with hold | rfl
      · exact .inl (mem_children_iff.2 (.inl ⟨other, hold⟩))
      · exact .inr rfl
    · rw [if_neg hkind] at hmem
      exact .inl (mem_children_iff.2 (.inl ⟨other, hmem⟩))
  · rw [h.includes] at hmem
    exact .inl (mem_children_iff.2 (.inr hmem))

end GainsBody

/-- The body of a repetition is gained under its name. -/
theorem gainsBody_addRepetition (template body : Template) (name : String) :
    template.GainsBody (template.addRepetition name body) .repetition name body := by
  refine ⟨fun other => ?_, rfl, rfl, rfl⟩
  cases other <;> rfl

/-- The body of a conditional is gained under the id of its condition. -/
theorem gainsBody_addConditional (template body : Template) (condition : Expression) :
    template.GainsBody (template.addConditional condition body) .conditional condition.id body := by
  refine ⟨fun other => ?_, rfl, rfl, rfl⟩
  cases other <;> rfl

end Template

end BraceTemplate
