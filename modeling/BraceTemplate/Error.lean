import BraceTemplate.Expr.Fault

/-!
# Errors and warnings

Every failure of compiling, loading and decoding is one of these causes. A block that is never
closed and a close marker that closes nothing are recoverable: they are collected as warnings.
-/

namespace BraceTemplate

/-- The kinds of blocks that a document may hold. -/
inductive BlockKind where
  | conditional
  | repetition
  | comment
  deriving DecidableEq, Repr

namespace BlockKind

/-- The word that names the kind in a marker. -/
def word : BlockKind → String
  | conditional => "if"
  | repetition => "foreach"
  | comment => "comment"

end BlockKind

/-- What can go wrong with a document. -/
inductive Error where
  /-- An expression source is malformed at a byte offset. -/
  | badExpression (source : String) (offset : Nat) (message : String)
  /-- The block that opens on `line` never closes. -/
  | unclosedBlock (kind : BlockKind) (line : Nat)
  /-- A close marker on `line` closes nothing. -/
  | unmatchedClose (kind : BlockKind) (line : Nat)
  /-- The loader has no document at `path`. -/
  | includeNotFound (path : String) (reason : String)
  /-- The document at `path` is being compiled already. -/
  | includeCycle (path : String)
  /-- A compiled text cannot be read back. -/
  | undecodable (reason : String)
  deriving DecidableEq, Repr

namespace Error

/-- The error that a fault of `source` amounts to. -/
def ofFault (source : String) (fault : Fault) : Error :=
  .badExpression source fault.offset fault.cause.message

/-- The wording of an error. -/
def message : Error → String
  | badExpression source offset message =>
    "SYNTAX_ERROR: " ++ message ++ " in `" ++ source ++ "` at offset " ++ offset.repr
  | unclosedBlock kind line =>
    "UNCLOSED_BLOCK: `" ++ kind.word ++ "` opened on line " ++ line.repr ++ " has no closing marker"
  | unmatchedClose kind line =>
    "UNMATCHED_CLOSE: `\x7b/" ++ kind.word ++ "\x7d` on line " ++ line.repr ++ " closes nothing"
  | includeNotFound path reason => "INCLUDE_NOT_FOUND: '" ++ path ++ "': " ++ reason
  | includeCycle path => "INCLUDE_CYCLE: '" ++ path ++ "' includes itself"
  | undecodable reason => "DECODE_ERROR: compiled template is unreadable: " ++ reason

/-- Recoverable errors are collected as warnings and do not end compiling. -/
def recoverable : Error → Bool
  | unclosedBlock .. | unmatchedClose .. => true
  | _ => false

end Error

end BraceTemplate
