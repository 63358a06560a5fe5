import BraceTemplate.Compiled.Decode
import BraceTemplate.Engine.Cache
import BraceTemplate.Engine.Config
import BraceTemplate.Source.FileTree
import BraceTemplate.Template.Compiler
import BraceTemplate.Template.Render

/-!
# Engines

An engine compiles documents of its sources. When caching is on, a loaded document is restored from
the cache if its own lines are those it was stored with; what it includes is not looked at then. An
entry that cannot be read back is compiled again and replaced.
-/

namespace BraceTemplate

/-- Where the documents of an engine come from: texts by path, or files below a root. -/
inductive Sources where
  | documents (texts : Table String)
  | files (tree : FileTree)

namespace Sources

/-- The loader of sources. Files are looked for below a directory. -/
def loader (directory : String) : Sources → Loader
  | documents texts => .ofDocuments texts
  | files tree => tree.loader directory

/-- Adds or replaces a document. -/
def write (path : String) (bytes : ByteArray) : Sources → Sources
  | documents texts =>
    match String.fromUTF8? bytes with
    | some text => .documents (texts.insert path text)
    | none => .documents texts
  | files tree => .files (tree.write path bytes)

end Sources

/-- An engine: its settings, its sources and its cache. -/
structure Engine where
  config : Config
  sources : Sources
  cache : Cache := {}

namespace Engine

/-- The loader of an engine. -/
def loader (engine : Engine) : Loader :=
  engine.sources.loader engine.config.templateDir

/-- A compiler that is compiling nothing yet. -/
def compiler (engine : Engine) : Compiler where
  loader := engine.loader

/-- Loads and compiles the document at a path. -/
def compileFile (engine : Engine) (path : String) : Except Failure Template :=
  (engine.compiler.compilePath path).1

/-- Compiles a text under a name, or under the configured one if the name is empty. -/
def compileText (engine : Engine) (name text : String) : Except Failure Template :=
  (engine.compiler.compile (if name = "" then engine.config.name else name)
    (splitLines text.toList)).1

/-- Adds or replaces a document of the sources. -/
def write (engine : Engine) (path : String) (bytes : ByteArray) : Engine :=
  { engine with sources := engine.sources.write path bytes }

/-- Compiles lines that come from a path. -/
def compileDocument (engine : Engine) (path : String) (lines : List Line) :
    Except Failure Template :=
  (engine.compiler.compileDocument path lines).1

/-- Compiles lines that come from a path and stores the result under a key. -/
def compileAndStore (engine : Engine) (key path : String) (lines : List Line) :
    Except Failure Document × Engine :=
  match engine.compileDocument path lines with
  | .ok template =>
    (.ok (.fresh template), { engine with cache := engine.cache.put key template.toCompiled })
  | .error failure => (.error failure, engine)

/-- Loads the document at a path: restored from the cache if caching is on and the cache has it, and
compiled otherwise. -/
def load (engine : Engine) (path : String) : Except Failure Document × Engine :=
  match engine.loader.load path with
  | .error error => (.error (.error error), engine)
  | .ok lines =>
    if engine.config.cache then
      let key := cacheKey path lines
      let (found, cache) := engine.cache.get key
      let engine := { engine with cache }
      match found.map Template.ofCompiled with
      | some (.ok template) => (.ok (.cached template), engine)
      | _ => engine.compileAndStore key path lines
    else ((engine.compileDocument path lines).map .fresh, engine)

end Engine

end BraceTemplate
