import BraceTemplate.Template.Compile
import BraceTemplate.Source.Loader

/-!
# Compiling with a loader

An include path is compiled by loading its document, unless the document is being compiled already:
then it includes itself, and that is an error. A compiler can be used for several documents; between
them it keeps the paths that are being compiled.
-/

namespace BraceTemplate

namespace Template

/-- Compiles lines that come from `path`, so that an include that leads back to `path` is a
cycle. -/
def compileDocument (resolve : String → CompileM Template) (path : String) (lines : List Line) :
    CompileM Template := fun openPaths =>
  let (result, openPaths) := compileLines resolve path lines (path :: openPaths)
  (result, openPaths.tail)

/-- Loads and compiles the document at `path`, where documents include each other at most `depth`
times. -/
def compilePath (loader : Loader) : (depth : Nat) → (path : String) → CompileM Template
  | 0, _ => throw .tooDeep
  | depth + 1, path => do
    if path ∈ (← get) then throw (.error (.includeCycle path))
    else
      let lines ← CompileM.lift (loader.load path)
      compileDocument (compilePath loader depth) path lines

end Template

/-- A compiler: a loader and the paths of the documents that are being compiled, innermost first. -/
structure Compiler where
  loader : Loader
  openPaths : List String := []

namespace Compiler

/-- Runs a compilation, and gives its result and the compiler after it. -/
def run (compiler : Compiler) (compilation : CompileM Template) :
    Except Failure Template × Compiler :=
  let (result, openPaths) := compilation compiler.openPaths
  (result, { compiler with openPaths })

/-- How the compiler compiles an include path. -/
def resolve (compiler : Compiler) : String → CompileM Template :=
  Template.compilePath compiler.loader compiler.loader.depth

/-- Compiles lines into a template of the given name. -/
def compile (compiler : Compiler) (name : String) (lines : List Line) :
    Except Failure Template × Compiler :=
  compiler.run (Template.compileLines compiler.resolve name lines)

/-- Compiles lines that come from `path`. -/
def compileDocument (compiler : Compiler) (path : String) (lines : List Line) :
    Except Failure Template × Compiler :=
  compiler.run (Template.compileDocument compiler.resolve path lines)

/-- Loads and compiles the document at `path`. -/
def compilePath (compiler : Compiler) (path : String) : Except Failure Template × Compiler :=
  compiler.run (compiler.resolve path)

end Compiler

/-- Compiles lines into a template of the default name. -/
def compileLines (loader : Loader) (lines : List Line) : Except Failure Template :=
  (Compiler.compile ⟨loader, []⟩ "template" lines).1

/-- Compiles a text into a template of the default name. -/
def compileText (loader : Loader) (text : String) : Except Failure Template :=
  compileLines loader (splitLines text.toList)

end BraceTemplate
