import BraceTemplate.Proofs.Template.OpenPaths

/-!
# Compilers that are used again

A compiler keeps the paths that are open between the documents it compiles. Whether a request is
answered or fails, however deep inside of the included documents, every path that was opened for it
is closed again. So a compiler answers any sequence of requests as if each of them were its first
one.
-/

namespace BraceTemplate

open CompileM (AgreeAt congruent_agreeAt)

namespace Compiler

/-- The answers to requests that are made one after the other, and the compiler after them. -/
def answers (compiler : Compiler) : List Request → List (Except Failure Template) × Compiler
  | [] => ([], compiler)
  | request :: requests =>
    let (result, compiler) := compiler.answer request
    let (results, compiler) := compiler.answers requests
    (result :: results, compiler)

/-- Resolving an include path restores the open paths, whatever is open and however it ends. -/
theorem restores_resolve (compiler : Compiler) (path : String) (openPaths : List String) :
    AgreeAt openPaths (compiler.resolve path) (compiler.resolve path) :=
  Template.restores_compilePath compiler.loader compiler.loader.depth path openPaths

/-- One case per kind of request: only the lines of a document are compiled with a further path
open. -/
theorem restores_compilation (compiler : Compiler) (request : Request) (openPaths : List String) :
    AgreeAt openPaths (compiler.compilation request) (compiler.compilation request) := by
  cases request with
  | lines name lines =>
    exact Template.congruent_compileLines (congruent_agreeAt openPaths)
      (fun path _ => compiler.restores_resolve path openPaths) name
  | document path lines =>
    exact Template.agreeAt_compileDocument fun other _ =>
      compiler.restores_resolve other (path :: openPaths)
  | path path => exact compiler.restores_resolve path openPaths

/-- A request leaves the compiler as it was. -/
theorem answer_snd (compiler : Compiler) (request : Request) :
    (compiler.answer request).2 = compiler := by
  have hrestored := (compiler.restores_compilation request compiler.openPaths).2
  rw [answer_eq_run]
  change
    { compiler with openPaths := (compiler.compilation request compiler.openPaths).2 } = compiler
  rw [hrestored]

/-- Requests that a compiler is asked one after the other, each of which may fail, are answered as
by a compiler that has not been asked for anything before, and leave it as it was. -/
theorem answers_eq_map (compiler : Compiler) (requests : List Request) :
    compiler.answers requests =
      (requests.map fun request => (compiler.answer request).1, compiler) := by
  induction requests with
  | nil => rfl
  | cons request requests ih =>
    have hanswer : compiler.answer request = ((compiler.answer request).1, compiler) :=
      Prod.ext rfl (compiler.answer_snd request)
    rw [answers, hanswer]
    dsimp only
    rw [ih, List.map_cons]

end Compiler

end BraceTemplate
