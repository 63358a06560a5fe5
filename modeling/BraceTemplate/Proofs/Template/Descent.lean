import BraceTemplate.Template.Lemmas
import BraceTemplate.Proofs.Table

/-!
# Ways down a template

A node below another one is reached by steps, each to a body or to an included document that a key
leads to. Where tables repeat no key, every node below is reached. A change of all scopes changes no
way.
-/

namespace BraceTemplate

/-- A step from a node to a node directly below it. -/
inductive Step where
  /-- To the body at place `index` of the repetitions over a name. -/
  | repetition (name : String) (index : Nat)
  /-- To the body at place `index` of the conditionals of an expression. -/
  | conditional (id : String) (index : Nat)
  /-- To the included document at a path. -/
  | inclusion (path : String)
  deriving DecidableEq, Repr

namespace Template

/-! ### Ways -/

/-- The node that a step leads to. -/
def child? (template : Template) : Step → Option Template
  | .repetition name index => template.repetition? name index
  | .conditional id index => template.conditional? id index
  | .inclusion path => template.include? path

/-- The node that steps lead to, one after another. No steps lead to the node itself. -/
def nodeAt? (template : Template) : List Step → Option Template
  | [] => some template
  | step :: address => (template.child? step).bind fun child => child.nodeAt? address

/-- No steps lead away from a node. -/
@[simp] theorem nodeAt?_nil (template : Template) : template.nodeAt? [] = some template := rfl

/-- The first step leads to the child from which the others go on. -/
@[simp] theorem nodeAt?_cons (template : Template) (step : Step) (address : List Step) :
    template.nodeAt? (step :: address) =
      (template.child? step).bind fun child => child.nodeAt? address := rfl

/-! ### All nodes of a template -/

/-- What holds of a node as soon as it holds of its children holds of every template. -/
@[elab_as_elim]
theorem children_induction {motive : Template → Prop}
    (node : ∀ template, (∀ child ∈ template.children, motive child) → motive template)
    (template : Template) : motive template :=
  node template fun child _ => children_induction node child
termination_by sizeOf template
decreasing_by exact sizeOf_lt_of_mem_children (by assumption)

/-- A property of a template and of all templates below it. -/
inductive Everywhere (P : Template → Prop) : Template → Prop
  | node {template : Template} (here : P template)
      (below : ∀ child ∈ template.children, Everywhere P child) : Everywhere P template

/-- What holds everywhere holds of the template itself. -/
theorem Everywhere.here {P : Template → Prop} {template : Template} (h : template.Everywhere P) :
    P template := by
  cases h with
  | node here below => exact here

/-- What holds everywhere holds everywhere in a child. -/
theorem Everywhere.of_mem_children {P : Template → Prop} {template child : Template}
    (h : template.Everywhere P) (hchild : child ∈ template.children) : child.Everywhere P := by
  cases h with
  | node here below => exact below child hchild

/-- What follows from a property at every node holds everywhere if that does. -/
theorem Everywhere.mono {P Q : Template → Prop} {template : Template} (h : template.Everywhere P)
    (himp : ∀ node, P node → Q node) : template.Everywhere Q := by
  induction h with
  | node here below ih => exact .node (himp _ here) ih

/-- A change of a node itself leaves everything below it alone. -/
theorem Everywhere.of_children_eq {P : Template → Prop} {template changed : Template}
    (h : template.Everywhere P) (here : P changed)
    (hchildren : changed.children = template.children) : changed.Everywhere P :=
  .node here fun _ hchild => h.of_mem_children (hchildren ▸ hchild)

/-! ### Entries and children -/

/-- A conditional body is a child. -/
theorem mem_children_of_conditionals {template body : Template} {entry : String × List Template}
    (hentry : entry ∈ template.conditionals) (hbody : body ∈ entry.2) :
    body ∈ template.children := by
  simp only [children, List.mem_append, List.mem_flatMap]
  exact .inl (.inr ⟨entry, hentry, hbody⟩)

/-- A repeated body is a child. -/
theorem mem_children_of_repetitions {template body : Template} {entry : String × List Template}
    (hentry : entry ∈ template.repetitions) (hbody : body ∈ entry.2) :
    body ∈ template.children := by
  simp only [children, List.mem_append, List.mem_flatMap]
  exact .inl (.inl ⟨entry, hentry, hbody⟩)

/-- An included document is a child. -/
theorem mem_children_of_includes {template : Template} {entry : String × Template}
    (hentry : entry ∈ template.includes) : entry.2 ∈ template.children := by
  simp only [children, List.mem_append, List.mem_map]
  exact .inr ⟨entry, hentry, rfl⟩

/-! ### Ways and children -/

/-- A step leads to a child. -/
theorem mem_children_of_child? {template child : Template} {step : Step}
    (h : template.child? step = some child) : child ∈ template.children := by
  cases step with
  | repetition name index => exact mem_children_of_repetition? h
  | conditional id index => exact mem_children_of_conditional? h
  | inclusion path => exact mem_children_of_include? h

/-- What holds in a whole template holds at the end of every way. -/
theorem Everywhere.of_nodeAt? {P : Template → Prop} {template node : Template}
    (h : template.Everywhere P) {address : List Step}
    (hnode : template.nodeAt? address = some node) : P node := by
  induction address generalizing template with
  | nil =>
    obtain rfl := Option.some.inj hnode
    exact h.here
  | cons step address ih =>
    obtain ⟨child, hchild, hnode⟩ := Option.bind_eq_some_iff.1 hnode
    exact ih (h.of_mem_children (mem_children_of_child? hchild)) hnode

/-- No table of bodies or included documents repeats a key. -/
structure KeysDistinct (template : Template) : Prop where
  repetitions : Table.Distinct template.repetitions
  conditionals : Table.Distinct template.conditionals
  includes : Table.Distinct template.includes

/-- A step leads to every child of a node whose tables repeat no key. -/
theorem KeysDistinct.exists_child? {template child : Template} (hkeys : template.KeysDistinct)
    (h : child ∈ template.children) : ∃ step, template.child? step = some child := by
  simp only [children, List.mem_append, List.mem_flatMap, List.mem_map] at h
  rcases h with (⟨⟨key, bodies⟩, hentry, hbody⟩ | ⟨⟨key, bodies⟩, hentry, hbody⟩) |
    ⟨⟨path, document⟩, hentry, rfl⟩
  · obtain ⟨index, hindex⟩ := List.mem_iff_getElem?.1 hbody
    refine ⟨.repetition key index, ?_⟩
    rw [child?, repetition?, Table.getAt?, Table.get?_of_mem hkeys.repetitions hentry]
    exact hindex
  · obtain ⟨index, hindex⟩ := List.mem_iff_getElem?.1 hbody
    refine ⟨.conditional key index, ?_⟩
    rw [child?, conditional?, Table.getAt?, Table.get?_of_mem hkeys.conditionals hentry]
    exact hindex
  · exact ⟨.inclusion path, Table.get?_of_mem hkeys.includes hentry⟩

/-- Steps may be taken in two parts. -/
theorem nodeAt?_append (template : Template) (address more : List Step) :
    template.nodeAt? (address ++ more) =
      (template.nodeAt? address).bind fun node => node.nodeAt? more := by
  induction address generalizing template with
  | nil => rfl
  | cons step address ih =>
    rw [List.cons_append, nodeAt?_cons, nodeAt?_cons]
    cases template.child? step with
    | none => rfl
    | some child => exact ih child

/-! ### Changes of all scopes -/

/-- Scopes are changed in the node itself, in all bodies and in all included documents. -/
theorem mapScopes_eq (f : Scope → Scope) (template : Template) :
    template.mapScopes f =
      ⟨{ template.toNode with scope := f template.scope },
        Table.mapValues (List.map (mapScopes f)) template.conditionals,
        Table.mapValues (List.map (mapScopes f)) template.repetitions,
        Table.mapValues (mapScopes f) template.includes⟩ := by
  obtain ⟨node, conditionals, repetitions, includes⟩ := template
  rw [mapScopes, mapBlockScopes_eq_map, mapBlockScopes_eq_map, mapIncludeScopes_eq_map]
  rfl

/-- What two functions do alike to the children of a node they do alike to its tables. -/
theorem tables_congr {template : Template} {f g : Template → Template}
    (h : ∀ child ∈ template.children, f child = g child) :
    Table.mapValues (List.map f) template.conditionals =
        Table.mapValues (List.map g) template.conditionals ∧
      Table.mapValues (List.map f) template.repetitions =
        Table.mapValues (List.map g) template.repetitions ∧
      Table.mapValues f template.includes = Table.mapValues g template.includes := by
  refine ⟨Table.mapValues_congr fun entry hentry => List.map_congr_left fun body hbody => ?_,
    Table.mapValues_congr fun entry hentry => List.map_congr_left fun body hbody => ?_,
    Table.mapValues_congr fun entry hentry => ?_⟩
  · exact h body (mem_children_of_conditionals hentry hbody)
  · exact h body (mem_children_of_repetitions hentry hbody)
  · exact h entry.2 (mem_children_of_includes hentry)

/-- Two changes of all scopes are one change. -/
theorem mapScopes_mapScopes (f g : Scope → Scope) (template : Template) :
    (template.mapScopes f).mapScopes g = template.mapScopes fun scope => g (f scope) := by
  induction template using children_induction with
  | node template ih =>
    obtain ⟨hconditionals, hrepetitions, hincludes⟩ :=
      tables_congr (f := mapScopes g ∘ mapScopes f) ih
    rw [mapScopes_eq g, mapScopes_eq f, mapScopes_eq _ template, ← hconditionals, ← hrepetitions,
      ← hincludes]
    simp only [Table.mapValues_mapValues, List.map_map, Function.comp_def]

/-- A change that leaves every scope as it is leaves the template as it is. -/
theorem mapScopes_id (template : Template) :
    template.mapScopes (fun scope => scope) = template := by
  induction template using children_induction with
  | node template ih =>
    obtain ⟨hconditionals, hrepetitions, hincludes⟩ := tables_congr ih
    have hbodies : ∀ blocks : Table (List Template),
        blocks.mapValues (List.map fun child => child) = blocks := by
      intro blocks
      rw [List.map_id_fun']
      exact blocks.mapValues_id
    rw [mapScopes_eq, hconditionals, hrepetitions, hincludes, hbodies, hbodies, Table.mapValues_id]
    cases template
    rfl

/-- Setting names one after another is one change of all scopes. -/
theorem setAll_eq_mapScopes (template : Template) (bindings : Scope) :
    template.setAll bindings = template.mapScopes fun scope => scope.insertAll bindings := by
  induction bindings generalizing template with
  | nil => exact (mapScopes_id template).symm
  | cons binding bindings ih =>
    have hrest := ih (template.set binding.1 binding.2)
    rw [Template.set, mapScopes_mapScopes] at hrest
    exact hrest

section Scopes

variable (f : Scope → Scope) (template : Template)

/-- A step leads to the changed child. -/
theorem child?_mapScopes (step : Step) :
    (template.mapScopes f).child? step = (template.child? step).map (mapScopes f) := by
  rw [mapScopes_eq]
  cases step with
  | repetition name index => exact Table.getAt?_mapValues _ template.repetitions name index
  | conditional id index => exact Table.getAt?_mapValues _ template.conditionals id index
  | inclusion path => exact Table.get?_mapValues _ template.includes path

/-- The scope of the node itself is changed. -/
@[simp] theorem scope_mapScopes : (template.mapScopes f).scope = f template.scope := by
  rw [mapScopes_eq]

/-- The segments stay when scopes are changed. -/
@[simp] theorem segments_mapScopes : (template.mapScopes f).segments = template.segments := by
  rw [mapScopes_eq]

/-- The expressions stay when scopes are changed. -/
@[simp] theorem expression?_mapScopes (id : String) :
    (template.mapScopes f).expression? id = template.expression? id := by
  rw [mapScopes_eq]
  rfl

/-- The scopes in repeated bodies are changed. -/
@[simp] theorem repetition?_mapScopes (name : String) (index : Nat) :
    (template.mapScopes f).repetition? name index =
      (template.repetition? name index).map (mapScopes f) :=
  child?_mapScopes f template (.repetition name index)

/-- The scopes in conditional bodies are changed. -/
@[simp] theorem conditional?_mapScopes (id : String) (index : Nat) :
    (template.mapScopes f).conditional? id index =
      (template.conditional? id index).map (mapScopes f) :=
  child?_mapScopes f template (.conditional id index)

/-- The scopes in included documents are changed. -/
@[simp] theorem include?_mapScopes (path : String) :
    (template.mapScopes f).include? path = (template.include? path).map (mapScopes f) :=
  child?_mapScopes f template (.inclusion path)

/-- The node at the end of a way is changed like all others. -/
theorem nodeAt?_mapScopes (address : List Step) :
    (template.mapScopes f).nodeAt? address = (template.nodeAt? address).map (mapScopes f) := by
  induction address generalizing template with
  | nil => rfl
  | cons step address ih =>
    rw [nodeAt?_cons, nodeAt?_cons, child?_mapScopes]
    cases template.child? step with
    | none => rfl
    | some child => exact ih child

end Scopes

end Template

end BraceTemplate
