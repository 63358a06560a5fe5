import BraceTemplate.Text.Line
import BraceTemplate.Decimal.Numeral

/-!
# Placeholders

When a block is cut out of a document, a placeholder is left in its place: the kind of the block, a
key, and the place of its body among those with the same key. It is written as a marker, from which
it can be read back.
-/

namespace BraceTemplate

/-- The kinds of blocks that have a body to render. -/
inductive PlaceholderKind where
  | conditional
  | repetition
  deriving DecidableEq, Repr

/-- The tag of a kind in the text of a placeholder. -/
def PlaceholderKind.tag : PlaceholderKind → String
  | conditional => "if"
  | repetition => "for"

/-- What is left in place of a block. -/
structure Placeholder where
  kind : PlaceholderKind
  key : String
  index : Nat
  deriving DecidableEq, Repr

/-- Reads a natural number below `2 ^ 64`: digits, and one plus sign in front of them at most. -/
def readIndex? (cs : List Char) : Option Nat :=
  let digits := match cs with
    | '+' :: cs => cs
    | cs => cs
  match Digit.span digits with
  | (digit :: digits, []) =>
    let n := Digit.value (digit :: digits)
    if n < 2 ^ 64 then some n else none
  | _ => none

namespace Placeholder

/-- The marker without its braces. -/
def content (placeholder : Placeholder) : List Char :=
  placeholder.kind.tag.toList ++ ':' :: placeholder.key.toList ++
    ':' :: (Digit.ofNat placeholder.index).map Digit.toChar

/-- The marker. -/
def text (placeholder : Placeholder) : List Char :=
  '\x7b' :: placeholder.content ++ ['\x7d']

/-- Reads a marker without its braces. The key is what stands between the first and the last colon;
it is not empty. -/
def ofContent? (cs : List Char) : Option Placeholder := do
  let (tag, rest) ← splitFirst? ':' cs
  let (key, index) ← splitLast? ':' rest
  let kind ←
    if tag = "if".toList then some PlaceholderKind.conditional
    else if tag = "for".toList then some PlaceholderKind.repetition
    else none
  if key.isEmpty then none
  else return ⟨kind, String.ofList key, ← readIndex? index⟩

/-- Reads a marker. -/
def ofText? (text : String) : Option Placeholder :=
  match text.toList with
  | '\x7b' :: rest =>
    match rest.reverse with
    | '\x7d' :: reversed => ofContent? reversed.reverse
    | _ => none
  | _ => none

end Placeholder

end BraceTemplate
