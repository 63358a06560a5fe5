import BraceTemplate.Proofs.Template.Descent

/-!
# What a name is bound to after assignments

A name is set on a node that a way through repetitions leads to, and with it on every node below. So
after any assignments each node binds a name to the value that was set last on the node itself or on
one above it, and nothing but scopes has changed.
-/

namespace BraceTemplate

/-- A name that is set on the node at the end of a way through repetitions. -/
structure Assignment where
  way : List (String × Nat)
  name : String
  value : Value

namespace Assignment

/-- The steps of the way. -/
def address (assignment : Assignment) : List Step :=
  assignment.way.map fun (name, index) => .repetition name index

/-- Whether the name is set on the node at an address or on one above it. -/
def reaches (assignment : Assignment) (address : List Step) : Bool :=
  assignment.address.isPrefixOf address

/-- The value of the last assignment of a name that reaches an address. -/
def last? (assignments : List Assignment) (address : List Step) (name : String) : Option Value :=
  (assignments.reverse.find? fun assignment =>
    assignment.name == name && assignment.reaches address).map value

/-- An assignment at the root reaches every node. -/
theorem reaches_of_way_nil (name : String) (value : Value) (address : List Step) :
    reaches ⟨[], name, value⟩ address = true := by
  simp [reaches, Assignment.address]

/-- A way that begins with a hop reaches what its rest reaches behind the step of that hop. -/
theorem reaches_cons (hop : String × Nat) (way : List (String × Nat)) (name : String)
    (value : Value) (step : Step) (address : List Step) :
    reaches ⟨hop :: way, name, value⟩ (step :: address) =
      (step == .repetition hop.1 hop.2 && reaches ⟨way, name, value⟩ address) := by
  simp only [reaches, Assignment.address, List.map_cons, List.isPrefixOf_cons_cons]
  rw [Bool.beq_comm]

/-- Of a first assignment and later ones, the later ones count if one of them reaches the
address. -/
theorem last?_cons (assignment : Assignment) (assignments : List Assignment)
    (address : List Step) (name : String) :
    last? (assignment :: assignments) address name =
      (last? assignments address name).or
        (if assignment.name == name && assignment.reaches address then some assignment.value
          else none) := by
  unfold last?
  rw [List.reverse_cons, List.find?_append, List.find?_singleton, Option.map_or]
  congr 1
  exact apply_ite (Option.map value) _ _ _

end Assignment

namespace Template

/-- Sets a name where the way leads to. If there is no such node nothing happens. -/
def assign (template : Template) (assignment : Assignment) : Template :=
  (template.modifyAt? (fun node => node.set assignment.name assignment.value)
    assignment.way).getD template

/-- Sets names one after another. -/
def assignAll (template : Template) (assignments : List Assignment) : Template :=
  assignments.foldl assign template

/-- The template with every scope emptied: all that assignments leave alone. -/
def withoutScopes (template : Template) : Template :=
  template.mapScopes fun _ => []

/-! ### Changing a node further down -/

/-- The node with another body in the place of one of its repetitions. -/
def setRepetition (template : Template) (name : String) (index : Nat)
    (body : Template) : Template :=
  { template with repetitions := Table.setAt template.repetitions name index body }

section Below

variable {template child : Template} {name : String} {index : Nat}

/-- Only one step leads elsewhere when a body is replaced. -/
theorem child?_setRepetition (h : template.repetition? name index = some child) (body : Template)
    (step : Step) :
    (template.setRepetition name index body).child? step =
      if step = .repetition name index then some body else template.child? step := by
  cases step with
  | repetition key place =>
    simp only [Step.repetition.injEq]
    exact Table.getAt?_setAt h body key place
  | conditional id place => rfl
  | inclusion path => rfl

/-- A change at the end of a way is a change of the body that the first step leads to. Where the way
leads nowhere, the body stays as it is. -/
theorem getD_modifyAt?_cons (h : template.repetition? name index = some child)
    (f : Template → Template) (way : List (String × Nat)) :
    (template.modifyAt? f ((name, index) :: way)).getD template =
      template.setRepetition name index ((child.modifyAt? f way).getD child) := by
  rw [modifyAt?, h]
  cases hbelow : child.modifyAt? f way with
  | some changed => simp [hbelow, setRepetition]
  | none =>
    have hsame : Table.setAt template.repetitions name index child = template.repetitions :=
      Table.setAt_of_getAt? h
    simp only [Option.bind_eq_bind, Option.bind_some, hbelow, Option.bind_none, Option.getD_none,
      setRepetition, hsame]
    cases template
    rfl

/-- Where no way leads nothing is changed. -/
theorem getD_modifyAt?_of_none (h : template.repetition? name index = none)
    (f : Template → Template) (way : List (String × Nat)) :
    (template.modifyAt? f ((name, index) :: way)).getD template = template := by
  rw [modifyAt?, h]
  rfl

end Below

/-! ### One assignment -/

/-- An assignment changes the scopes of the nodes that it reaches, and no others. -/
theorem scope_nodeAt?_assign (template : Template) (assignment : Assignment)
    (address : List Step) :
    ((template.assign assignment).nodeAt? address).map (fun node => node.scope) =
      (template.nodeAt? address).map fun node =>
        if assignment.reaches address = true then
          node.scope.insert assignment.name assignment.value
        else node.scope := by
  obtain ⟨way, name, value⟩ := assignment
  induction way generalizing template address with
  | nil =>
    -- The empty way leads to the node itself, which is above every address.
    have hset : template.assign ⟨[], name, value⟩ = template.set name value := rfl
    simp only [hset, Assignment.reaches_of_way_nil, if_true, set, nodeAt?_mapScopes, Option.map_map]
    congr 1
    funext node
    simp only [Function.comp_apply, mapScopes_eq]
  | cons hop way ih =>
    obtain ⟨key, index⟩ := hop
    cases hchild : template.repetition? key index with
    | none =>
      rw [assign, getD_modifyAt?_of_none hchild]
      cases address with
      | nil => rfl
      | cons step rest =>
        rw [Assignment.reaches_cons]
        by_cases hstep : step = .repetition key index
        · subst hstep
          simp [child?, hchild]
        · simp [hstep]
    | some child =>
      rw [assign, getD_modifyAt?_cons hchild]
      cases address with
      | nil => rfl
      | cons step rest =>
        rw [nodeAt?_cons, nodeAt?_cons, child?_setRepetition hchild, Assignment.reaches_cons]
        by_cases hstep : step = .repetition key index
        · subst hstep
          have hbelow := ih child rest
          simp only [assign] at hbelow
          simpa [child?, hchild] using hbelow
        · simp [hstep]

/-- An assignment changes nothing but scopes. -/
theorem withoutScopes_assign (template : Template) (assignment : Assignment) :
    (template.assign assignment).withoutScopes = template.withoutScopes := by
  obtain ⟨way, name, value⟩ := assignment
  induction way generalizing template with
  | nil => exact mapScopes_mapScopes _ _ template
  | cons hop way ih =>
    obtain ⟨key, index⟩ := hop
    cases hchild : template.repetition? key index with
    | none => rw [assign, getD_modifyAt?_of_none hchild]
    | some child =>
      have hbelow := ih child
      have hget : Table.getAt? (Table.mapValues (List.map (mapScopes fun _ => []))
          template.repetitions) key index = some child.withoutScopes := by
        rw [Table.getAt?_mapValues]
        exact congrArg _ hchild
      rw [assign, getD_modifyAt?_cons hchild, withoutScopes, withoutScopes, mapScopes_eq,
        mapScopes_eq]
      simp only [setRepetition, Table.setAt_mapValues]
      rw [Table.setAt_of_getAt?]
      exact hget.trans (congrArg some hbelow.symm)

/-! ### Any assignments -/

/-- Assignments change nothing but scopes. -/
theorem withoutScopes_assignAll (template : Template) (assignments : List Assignment) :
    (template.assignAll assignments).withoutScopes = template.withoutScopes := by
  induction assignments generalizing template with
  | nil => rfl
  | cons assignment assignments ih =>
    exact (ih (template.assign assignment)).trans (withoutScopes_assign template assignment)

/-- After any assignments, on the node itself or on nodes that ways through repetitions lead to,
every node binds a name to the value that was set last on the node or on one above it, and as before
if there is none. Everything but the scopes is as it was. -/
theorem scopes_assignAll (template : Template) (assignments : List Assignment) :
    (template.assignAll assignments).withoutScopes = template.withoutScopes ∧
      ∀ address name,
        ((template.assignAll assignments).nodeAt? address).map (fun node => node.scope.get? name) =
          (template.nodeAt? address).map fun node =>
            (Assignment.last? assignments address name).or (node.scope.get? name) := by
  refine ⟨withoutScopes_assignAll template assignments, fun address name => ?_⟩
  induction assignments generalizing template with
  | nil => rfl
  | cons assignment assignments ih =>
    have hfirst := congrArg (Option.map fun scope => (Assignment.last? assignments address name).or
      (Table.get? scope name)) (scope_nodeAt?_assign template assignment address)
    rw [Option.map_map, Option.map_map] at hfirst
    refine (ih (template.assign assignment)).trans (hfirst.trans ?_)
    congr 1
    funext node
    rw [Function.comp_apply, Assignment.last?_cons, Option.or_assoc]
    congr 1
    by_cases hreaches : assignment.reaches address = true
    · by_cases hname : assignment.name = name
      · subst hname
        simp [hreaches, Table.get?_insert_self]
      · simp [hreaches, hname, Table.get?_insert_of_ne _ (Ne.symm hname)]
    · simp [hreaches]

end Template

end BraceTemplate
