import BraceTemplate.Digest.Sha256
import BraceTemplate.Template.Basic
import BraceTemplate.Text.Line

/-!
# The cache of compiled templates

Compiled texts are stored under the path of a document together with the digest of its source, so
that another source never hits the entry. The cache records how it has been used.
-/

namespace BraceTemplate

/-- The hexadecimal digest of lines put together. -/
def checksum (lines : List Line) : String :=
  Sha256.hex (String.ofList lines.flatten).toUTF8.toList

/-- The key under which a document with the given lines is stored. -/
def cacheKey (path : String) (lines : List Line) : String :=
  path ++ ":" ++ checksum lines

/-- One use of a cache. -/
inductive CacheUse where
  | get (key : String) (found : Bool)
  | put (key : String) (bytes : Nat)
  deriving DecidableEq, Repr

/-- Compiled texts by key, and the uses so far from the last one to the first. -/
structure Cache where
  entries : Table String := []
  uses : List CacheUse := []

namespace Cache

/-- Looks up a key, and gives the cache after it. -/
def get (cache : Cache) (key : String) : Option String × Cache :=
  let found := cache.entries.get? key
  (found, { cache with uses := .get key found.isSome :: cache.uses })

/-- Stores a compiled text. -/
def put (cache : Cache) (key compiled : String) : Cache where
  entries := cache.entries.insert key compiled
  uses := .put key compiled.utf8ByteSize :: cache.uses

end Cache

/-- A template that has been compiled from its source, or restored from a cache. -/
inductive Document where
  | fresh (template : Template)
  | cached (template : Template)

namespace Document

/-- The template of a document. -/
def template : Document → Template
  | fresh template => template
  | cached template => template

/-- Whether a document has been restored from a cache. -/
def isCached : Document → Bool
  | fresh _ => false
  | cached _ => true

/-- Changes the template of a document. -/
def map (f : Template → Template) : Document → Document
  | fresh template => fresh (f template)
  | cached template => cached (f template)

end Document

end BraceTemplate
