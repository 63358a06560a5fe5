import BraceTemplate.Error
import BraceTemplate.Table
import BraceTemplate.Text.Line

/-!
# Loaders

A loader resolves the path of a document to its lines. It also bounds how deeply its documents can
include each other before a path repeats.
-/

namespace BraceTemplate

/-- Where documents come from. On one way down, at most `depth` paths are asked for before one of
them repeats or cannot be loaded. -/
structure Loader where
  load : String → Except Error (List Line)
  depth : Nat

namespace Loader

/-- The loader without documents, which refuses every path. -/
def none : Loader where
  load path := .error (.includeNotFound path "includes are disabled")
  depth := 1

/-- The loader of documents held in a table. At most every document and one path that is missing are
asked for on one way down. -/
def ofDocuments (documents : Table String) : Loader where
  load path :=
    match documents.get? path with
    | some text => .ok (splitLines text.toList)
    | Option.none => .error (.includeNotFound path "no such document")
  depth := documents.length + 1

end Loader

end BraceTemplate
