/-!
# Paths

A path is a text whose parts stand between slashes. Joining works on the text as it is written; two
paths are the same if they have the same parts.
-/

namespace BraceTemplate

/-- A relative path appended to a base. An absolute path replaces the base. -/
def joinPath (base path : String) : String :=
  if path.startsWith "/" then path
  else if base = "" ∨ base.endsWith "/" then base ++ path
  else base ++ "/" ++ path

/-- The parts that name something: those that are neither empty nor a single point. -/
def namedParts (parts : List String) : List String :=
  parts.filter fun part => part != "" && part != "."

/-- The parts of a path. A slash in front of all others is a part of its own, and so is a point;
behind the first part a point stands for nothing, and so does a slash that follows another one or
ends the path. -/
def pathParts (path : String) : List String :=
  match path.splitOn "/" with
  | "" :: [] => []
  | "" :: rest => "/" :: namedParts rest
  | first :: rest => first :: namedParts rest
  | [] => []

/-- Whether two paths have the same parts. -/
def samePath (a b : String) : Bool :=
  pathParts a == pathParts b

end BraceTemplate
