import BraceTemplate.Error
import BraceTemplate.Expr.Eval
import BraceTemplate.Template.Placeholder

/-!
# Templates

A template is a tree. A node holds the segments that its text was cut into, the expressions they
refer to, and its own scope; below it are the bodies of its conditionals and repetitions and the
documents it includes. Only scopes change after compiling. A name that is set on a node is set on
every node below it, and never above it.
-/

namespace BraceTemplate

/-- One piece of a node: text, the place of a bound name, of an expression, of a block or of an
included document. -/
inductive Segment where
  | text (text : String)
  | binding (name : String)
  | expression (id : String)
  | block (placeholder : Placeholder)
  | inclusion (path : String)
  deriving DecidableEq, Repr

/-- A node of a template without the nodes below it. Expressions are stored by id. The names are
those of its bindings in the order in which they are met, each once; the warnings are those of the
node itself. -/
structure Node where
  name : String
  segments : List Segment := []
  expressions : Table Expression := []
  names : List String := []
  scope : Scope := []
  ownWarnings : List Error := []

/-- A node with the nodes below it: the bodies of conditionals by expression id, those of
repetitions by the name of the list, and the included documents by path. -/
structure Template extends Node where
  conditionals : List (String × List Template) := []
  repetitions : List (String × List Template) := []
  includes : List (String × Template) := []

namespace Template

/-- The template of a document without lines. -/
def empty (name : String) : Template where
  name := name

/-- The body at place `index` of the conditionals of an expression. -/
def conditional? (template : Template) (id : String) (index : Nat) : Option Template :=
  Table.getAt? template.conditionals id index

/-- The body at place `index` of the repetitions over a name. -/
def repetition? (template : Template) (name : String) (index : Nat) : Option Template :=
  Table.getAt? template.repetitions name index

/-- The included document at a path. -/
def include? (template : Template) (path : String) : Option Template :=
  Table.get? template.includes path

/-- The expression with the given id. -/
def expression? (template : Template) (id : String) : Option Expression :=
  template.expressions.get? id

/-- The nodes directly below: repetitions, then conditionals, then included documents. -/
def children (template : Template) : List Template :=
  template.repetitions.flatMap Prod.snd ++ template.conditionals.flatMap Prod.snd ++
    template.includes.map Prod.snd

mutual

/-- Changes the scope of every node. -/
def mapScopes (f : Scope → Scope) : Template → Template
  | ⟨node, conditionals, repetitions, includes⟩ =>
    ⟨{ node with scope := f node.scope }, mapBlockScopes f conditionals,
      mapBlockScopes f repetitions, mapIncludeScopes f includes⟩

/-- Changes every scope in a table of block bodies. -/
def mapBlockScopes (f : Scope → Scope) :
    List (String × List Template) → List (String × List Template)
  | [] => []
  | (key, bodies) :: rest => (key, mapBodyScopes f bodies) :: mapBlockScopes f rest

/-- Changes every scope in a list of templates. -/
def mapBodyScopes (f : Scope → Scope) : List Template → List Template
  | [] => []
  | body :: rest => mapScopes f body :: mapBodyScopes f rest

/-- Changes every scope in a table of included documents. -/
def mapIncludeScopes (f : Scope → Scope) : List (String × Template) → List (String × Template)
  | [] => []
  | (path, document) :: rest => (path, mapScopes f document) :: mapIncludeScopes f rest

end

/-- Binds a name in every node. -/
def set (template : Template) (name : String) (value : Value) : Template :=
  template.mapScopes fun scope => scope.insert name value

/-- Binds the names of a scope one after another in every node. -/
def setAll (template : Template) (bindings : Scope) : Template :=
  bindings.foldl (fun template (name, value) => template.set name value) template

/-- Changes the node that a path of repetitions leads to; `none` if there is no such node. -/
def modifyAt? (f : Template → Template) :
    (path : List (String × Nat)) → Template → Option Template
  | [], template => some (f template)
  | (name, index) :: path, template => do
    let child ← template.repetition? name index
    let child ← modifyAt? f path child
    return { template with repetitions := Table.setAt template.repetitions name index child }

/-- A child is a part of its node. -/
theorem sizeOf_lt_of_mem_children {child template : Template} (h : child ∈ template.children) :
    sizeOf child < sizeOf template := by
  obtain ⟨node, conditionals, repetitions, includes⟩ := template
  simp only [children, List.mem_append, List.mem_flatMap, List.mem_map] at h
  simp only [mk.sizeOf_spec]
  rcases h with (⟨⟨key, bodies⟩, hentry, hchild⟩ | ⟨⟨key, bodies⟩, hentry, hchild⟩) |
    ⟨⟨path, document⟩, hentry, rfl⟩
  · have hbodies := List.sizeOf_lt_of_mem hentry
    have hbody := List.sizeOf_lt_of_mem hchild
    simp only [Prod.mk.sizeOf_spec] at hbodies
    dsimp only at hbody
    omega
  · have hbodies := List.sizeOf_lt_of_mem hentry
    have hbody := List.sizeOf_lt_of_mem hchild
    simp only [Prod.mk.sizeOf_spec] at hbodies
    dsimp only at hbody
    omega
  · have hdocument := List.sizeOf_lt_of_mem hentry
    simp only [Prod.mk.sizeOf_spec] at hdocument
    dsimp only
    omega

/-- The warnings of a node and of all nodes below it. -/
def warnings (template : Template) : List Error :=
  template.ownWarnings ++ template.children.attach.flatMap fun ⟨child, _⟩ => child.warnings
termination_by sizeOf template
decreasing_by exact sizeOf_lt_of_mem_children (by assumption)

/-- The number of nodes on the longest way down. -/
def height (template : Template) : Nat :=
  1 + (template.children.attach.map fun ⟨child, _⟩ => child.height).foldr max 0
termination_by sizeOf template
decreasing_by exact sizeOf_lt_of_mem_children (by assumption)

end Template

end BraceTemplate
