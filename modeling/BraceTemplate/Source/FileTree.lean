import BraceTemplate.Source.Loader
import BraceTemplate.Source.Path

/-!
# Files as sources

A tree of directories and files below a root that has a name of its own. A path is followed
component by component: every component but the last has to be a directory, also where the next one
leads back up. A component has a limited length. Nothing is known of what lies outside of the root.
-/

namespace BraceTemplate

/-- Directories and files below a root. Both are given by their components below the root. -/
structure FileTree where
  root : String
  directories : List (List String) := []
  files : List (List String × ByteArray) := []

/-- Why a file cannot be read. -/
inductive FileFault where
  | missing
  | isDirectory
  | notDirectory
  | notText
  | nameTooLong
  | nulInName
  deriving DecidableEq, Repr

/-- The wording of a fault. -/
def FileFault.message : FileFault → String
  | missing => "No such file or directory (os error 2)"
  | isDirectory => "Is a directory (os error 21)"
  | notDirectory => "Not a directory (os error 20)"
  | notText => "stream did not contain valid UTF-8"
  | nameTooLong => "File name too long (os error 36)"
  | nulInName => "file name contained an unexpected NUL byte"

namespace FileTree

/-- The most bytes that a component may have. -/
def maxNameSize : Nat := 255

/-- Follows components from a directory, or from somewhere outside if there is none, to a file. -/
def follow (tree : FileTree) : Option (List String) → List String → Except FileFault ByteArray
  | _, [] => .error .isDirectory
  | none, component :: rest =>
    if component ∈ ["", ".", ".."] then tree.follow none rest
    else if maxNameSize < component.utf8ByteSize then .error .nameTooLong
    else .error .missing
  | some directory, component :: rest =>
    if component = "" ∨ component = "." then tree.follow (some directory) rest
    else if component = ".." then
      tree.follow (if directory = [] then none else some directory.dropLast) rest
    else if maxNameSize < component.utf8ByteSize then .error .nameTooLong
    else
      let place := directory ++ [component]
      if place ∈ tree.directories then tree.follow (some place) rest
      else
        match tree.files.lookup place with
        | some bytes => if rest = [] then .ok bytes else .error .notDirectory
        | none => .error .missing

/-- The content of the file at a full path. -/
def read (tree : FileTree) (path : String) : Except FileFault ByteArray :=
  if path.toList.contains '\x00' then .error .nulInName
  else
    match afterPrefix? tree.root.toList path.toList with
    | some rest => tree.follow (some []) ((String.ofList rest).splitOn "/")
    | none => tree.follow none (path.splitOn "/")

/-- Adds or replaces a file below a directory. Directories on the way are created. -/
def writeBelow (tree : FileTree) (bytes : ByteArray) : List String → List String → FileTree
  | _, [] => tree
  | directory, [name] =>
    let place := directory ++ [name]
    { tree with files := (place, bytes) :: tree.files.filter fun file => file.1 != place }
  | directory, component :: rest =>
    if component = "" ∨ component = "." then tree.writeBelow bytes directory rest
    else if component = ".." then tree.writeBelow bytes directory.dropLast rest
    else
      let place := directory ++ [component]
      writeBelow { tree with directories := place :: tree.directories } bytes place rest

/-- Adds or replaces the file at a path below the root. -/
def write (tree : FileTree) (path : String) (bytes : ByteArray) : FileTree :=
  tree.writeBelow bytes [] (path.splitOn "/")

/-- The number of bytes of all files. -/
def size (tree : FileTree) : Nat :=
  tree.files.foldr (fun file total => file.2.size + total) 0

/-- The loader of the text files below a base directory. Every path but the first one and the last
one stands in an include marker of some file, so the bytes of all files bound their number. -/
def loader (tree : FileTree) (base : String) : Loader where
  load path :=
    let full := joinPath base path
    let text : Except FileFault String := do
      match String.fromUTF8? (← tree.read full) with
      | some text => return text
      | none => throw .notText
    match text with
    | .ok text => .ok (splitLines text.toList)
    | .error fault => .error (.includeNotFound path (full ++ ": " ++ fault.message))
  depth := tree.size + 2

end FileTree

end BraceTemplate
