import BraceTemplate.Template.Basic

/-!
# Nodes of a template

A node that is found by key is a child, and children are lower than their parent. Changing scopes
changes the children one by one and keeps the height.
-/

namespace BraceTemplate

namespace Template

/-- A repeated body that is found is a child. -/
theorem mem_children_of_repetition? {template child : Template} {name : String} {index : Nat}
    (h : template.repetition? name index = some child) : child ∈ template.children := by
  obtain ⟨bodies, hbodies, hchild⟩ := Option.bind_eq_some_iff.1 h
  have hentry := Table.mem_of_get? hbodies
  have hmem := List.mem_of_getElem? hchild
  simp only [children, List.mem_append, List.mem_flatMap]
  exact Or.inl (Or.inl ⟨_, hentry, hmem⟩)

/-- A conditional body that is found is a child. -/
theorem mem_children_of_conditional? {template child : Template} {id : String} {index : Nat}
    (h : template.conditional? id index = some child) : child ∈ template.children := by
  obtain ⟨bodies, hbodies, hchild⟩ := Option.bind_eq_some_iff.1 h
  have hentry := Table.mem_of_get? hbodies
  have hmem := List.mem_of_getElem? hchild
  simp only [children, List.mem_append, List.mem_flatMap]
  exact Or.inl (Or.inr ⟨_, hentry, hmem⟩)

/-- A document that is found is a child. -/
theorem mem_children_of_include? {template child : Template} {path : String}
    (h : template.include? path = some child) : child ∈ template.children := by
  have hentry := Table.mem_of_get? h
  simp only [children, List.mem_append, List.mem_map]
  exact Or.inr ⟨_, hentry, rfl⟩

/-- The maximum is no less than any of the numbers. -/
theorem le_foldr_max {n : Nat} {numbers : List Nat} (h : n ∈ numbers) :
    n ≤ numbers.foldr max 0 := by
  induction numbers with
  | nil => simp at h
  | cons m numbers ih =>
    simp only [List.foldr_cons]
    rcases List.mem_cons.1 h with heq | hmem
    · omega
    · have := ih hmem
      omega

/-- The height of a node is one more than the largest height below it. -/
theorem height_eq (template : Template) :
    template.height = 1 + (template.children.map height).foldr max 0 := by
  rw [height]
  simp

/-- A child is lower than its node. -/
theorem height_lt_of_mem_children {child template : Template} (h : child ∈ template.children) :
    child.height < template.height := by
  rw [height_eq template]
  have := le_foldr_max (List.mem_map_of_mem (f := height) h)
  omega

/-- The warnings of a node are its own and then those of its children. -/
theorem warnings_eq (template : Template) :
    template.warnings = template.ownWarnings ++ template.children.flatMap warnings := by
  rw [warnings]
  simp

/-- The scopes of a list of bodies are changed one body after another. -/
theorem mapBodyScopes_eq_map (f : Scope → Scope) (bodies : List Template) :
    mapBodyScopes f bodies = bodies.map (mapScopes f) := by
  induction bodies with
  | nil => rfl
  | cons body rest ih => simp [mapBodyScopes, ih]

/-- The scopes of a table of bodies are changed under every key. -/
theorem mapBlockScopes_eq_map (f : Scope → Scope) (blocks : List (String × List Template)) :
    mapBlockScopes f blocks = blocks.map fun (key, bodies) => (key, bodies.map (mapScopes f)) := by
  induction blocks with
  | nil => rfl
  | cons block rest ih => simp [mapBlockScopes, mapBodyScopes_eq_map, ih]

/-- The scopes of included documents are changed under every path. -/
theorem mapIncludeScopes_eq_map (f : Scope → Scope) (includes : List (String × Template)) :
    mapIncludeScopes f includes =
      includes.map fun (path, document) => (path, document.mapScopes f) := by
  induction includes with
  | nil => rfl
  | cons document rest ih => simp [mapIncludeScopes, ih]

/-- The children of a node whose scopes are changed are its children, changed. -/
@[simp] theorem children_mapScopes (f : Scope → Scope) (template : Template) :
    (template.mapScopes f).children = template.children.map (mapScopes f) := by
  obtain ⟨node, conditionals, repetitions, includes⟩ := template
  simp [mapScopes, children, mapBlockScopes_eq_map, mapIncludeScopes_eq_map, List.flatMap_map,
    List.map_flatMap, Function.comp_def]

/-- A change of scopes leaves the height as it is. -/
@[simp] theorem height_mapScopes (f : Scope → Scope) (template : Template) :
    (template.mapScopes f).height = template.height := by
  rw [height_eq, height_eq template, children_mapScopes, List.map_map]
  congr 2
  refine List.map_congr_left fun child hchild => ?_
  exact height_mapScopes f child
termination_by sizeOf template
decreasing_by exact sizeOf_lt_of_mem_children hchild

/-- Setting a name leaves the height as it is. -/
@[simp] theorem height_set (template : Template) (name : String) (value : Value) :
    (template.set name value).height = template.height :=
  height_mapScopes ..

/-- Setting bindings leaves the height as it is. -/
@[simp] theorem height_setAll (template : Template) (bindings : Scope) :
    (template.setAll bindings).height = template.height := by
  unfold setAll
  induction bindings generalizing template with
  | nil => rfl
  | cons binding bindings ih => simp [ih]

end Template

end BraceTemplate
