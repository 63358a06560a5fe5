import BraceTemplate.Template.Cut
import BraceTemplate.Template.Piece

/-!
# Compiling documents

A document is compiled line by line. Where a block opens it is cut out, its body is compiled as a
document of its own, and a placeholder takes its place. Included documents are compiled where a path
is met first. The lines that are left are then read into segments.

How an include path is compiled is a parameter here. It may use the paths of the documents that are
being compiled, innermost first, which are the state of compiling; the state survives a failure.
-/

namespace BraceTemplate

/-- Why compiling gives no template: an error of the document, or documents that include each other
more deeply than the loader allows for. -/
inductive Failure where
  | error (error : Error)
  | tooDeep
  deriving DecidableEq, Repr

/-- Compiling with the paths of the documents that are being compiled, innermost first. -/
abbrev CompileM := ExceptT Failure (StateM (List String))

/-- A result that does not depend on the state. -/
def CompileM.lift {α : Type} : Except Error α → CompileM α
  | .ok value => return value
  | .error error => throw (.error error)

namespace Template

/-- The node after a block has been cut out: if the block had no end, there is a warning about
it. -/
def noteCut (template : Template) (kind : BlockKind) (number : Nat) (cut : Cut) : Template :=
  if cut.closed then template
  else { template with ownWarnings := template.ownWarnings ++ [.unclosedBlock kind number] }

/-- The node with a further body of a repetition. -/
def addRepetition (template : Template) (name : String) (body : Template) : Template :=
  { template with repetitions := Table.append template.repetitions name body }

/-- The node with a further body of a conditional, and the condition unless it is there already. -/
def addConditional (template : Template) (condition : Expression) (body : Template) : Template :=
  { template with
    conditionals := Table.append template.conditionals condition.id body
    expressions := template.expressions.insertNew condition.id condition }

/-- The name of the body that a placeholder stands for. -/
def bodyName (name : String) (placeholder : Placeholder) : String :=
  name ++ "_" ++ placeholder.kind.tag ++ "_" ++ placeholder.key ++ "_" ++ placeholder.index.repr

/-- Compiles the documents at paths that the node does not include yet. -/
def addIncludes (resolve : String → CompileM Template) :
    List String → Template → CompileM Template
  | [], template => return template
  | path :: paths, template => do
    if (template.include? path).isSome then addIncludes resolve paths template
    else
      let document ← resolve path
      addIncludes resolve paths
        { template with includes := Table.insert template.includes path document }

/-- Cuts the blocks out of lines and compiles them and the included documents into the node. The
first line has the given number. The result holds the lines that are left, placeholders among
them. -/
def cutLines (resolve : String → CompileM Template) (number : Nat) (lines : List Line)
    (template : Template) : CompileM (List Line × Template) :=
  match lines with
  | [] => return ([], template)
  | line :: rest =>
    if _ : opens .comment line then do
      let cut := cutBlock .comment line rest
      let (left, template) ← cutLines resolve (number + 1) cut.rest
        (template.noteCut .comment number cut)
      return ([] :: left, template)
    else
      match _ : listName? line with
      | some key => do
        let placeholder := ⟨.repetition, key, Table.count template.repetitions key⟩
        let cut := cutBlock .repetition line rest
        let (bodyLines, body) ← cutLines resolve 1 cut.body
          (.empty (bodyName template.name placeholder))
        let body ← CompileM.lift (body.complete bodyLines)
        let (left, template) ← cutLines resolve (number + 1) cut.rest
          ((template.noteCut .repetition number cut).addRepetition key body)
        return (placeholder.text :: left, template)
      | none =>
        match _ : condition? line with
        | some source => do
          let condition ← CompileM.lift ((Expression.compile source).mapError (.ofFault source))
          let placeholder :=
            ⟨.conditional, condition.id, Table.count template.conditionals condition.id⟩
          let cut := cutBlock .conditional line rest
          let (bodyLines, body) ← cutLines resolve 1 cut.body
            (.empty (bodyName template.name placeholder))
          let body ← CompileM.lift (body.complete bodyLines)
          let (left, template) ← cutLines resolve (number + 1) cut.rest
            ((template.noteCut .conditional number cut).addConditional condition body)
          return (placeholder.text :: left, template)
        | none => do
          let template ← addIncludes resolve (includePaths line) template
          let (left, template) ← cutLines resolve (number + 1) rest template
          return (line :: left, template)
termination_by weight lines
decreasing_by
  · have := weight_rest_le .comment line rest
    simp only [weight_cons]
    omega
  · exact weight_body_lt rest (by simp [opens, *])
  · have := weight_rest_le .repetition line rest
    simp only [weight_cons]
    omega
  · exact weight_body_lt rest (by simp [opens, *])
  · have := weight_rest_le .conditional line rest
    simp only [weight_cons]
    omega
  · simp only [weight_cons]
    omega

/-- Compiles the lines of a document into a node of the given name. -/
def compileLines (resolve : String → CompileM Template) (name : String) (lines : List Line) :
    CompileM Template := do
  let (left, template) ← cutLines resolve 1 lines (.empty name)
  CompileM.lift (template.complete left)

end Template

end BraceTemplate
