import BraceTemplate.Text.Line
import BraceTemplate.Expr.Operator

/-!
# Tokens of the expression language

Operators and parentheses are spelled with a fixed set of characters. Whatever stands between two
of those characters, trimmed, is one literal; it has to be a word of letters, digits, underscores
and single quotes. Scanning never stops early: a run that is no such word is reported in its place
and scanning goes on behind it.
-/

namespace BraceTemplate

/-- The smallest units of an expression source. -/
inductive Token where
  | literal (text : String)
  | operator (op : Operator)
  | groupOpen
  | groupClose
  deriving DecidableEq, Repr

/-- What scanning finds at one place: a token, or a run that is no literal. The latter comes with
the number of bytes of the blanks in front of it. -/
inductive Lexeme where
  | token (token : Token)
  | invalid (text : String) (lead : Nat)
  deriving DecidableEq, Repr

/-- A lexeme between the offsets at which its scan began and ended. Blanks in front of the lexeme
lie between the two. -/
structure Scanned where
  start : Nat
  lexeme : Lexeme
  stop : Nat
  deriving DecidableEq, Repr

namespace Token

/-- The characters that end a literal. -/
def isSymbolChar (c : Char) : Bool :=
  "<>!&|()=*/%+-".toList.contains c

/-- The characters that a literal may begin with. -/
def isWordChar (c : Char) : Bool :=
  c.isAlphanum || c == '_' || c == '\''

/-- A literal begins with a word character, and goes on with word characters and hyphens. -/
def isWord : List Char → Bool
  | [] => false
  | c :: cs => isWordChar c && cs.all fun c => isWordChar c || c == '-'

/-- Reads an operator or a parenthesis. Of two spellings that fit the longer one is read. -/
def symbol? : List Char → Option (Token × List Char)
  | '<' :: '=' :: rest => some (operator .lessEq, rest)
  | '>' :: '=' :: rest => some (operator .greaterEq, rest)
  | '!' :: '=' :: rest => some (operator .notEqual, rest)
  | '=' :: '=' :: rest => some (operator .equal, rest)
  | '&' :: '&' :: rest => some (operator .and, rest)
  | '|' :: '|' :: rest => some (operator .or, rest)
  | '<' :: rest => some (operator .less, rest)
  | '>' :: rest => some (operator .greater, rest)
  | '!' :: rest => some (operator .not, rest)
  | '=' :: rest => some (operator .equal, rest)
  | '&' :: rest => some (operator .and, rest)
  | '|' :: rest => some (operator .or, rest)
  | '*' :: rest => some (operator .mul, rest)
  | '/' :: rest => some (operator .div, rest)
  | '%' :: rest => some (operator .mod, rest)
  | '+' :: rest => some (operator .add, rest)
  | '-' :: rest => some (operator .sub, rest)
  | '(' :: rest => some (groupOpen, rest)
  | ')' :: rest => some (groupClose, rest)
  | _ => none

/-- The characters in front of the first operator or parenthesis. -/
def run (cs : List Char) : List Char :=
  cs.takeWhile fun c => !isSymbolChar c

/-- The text from the first operator or parenthesis on. -/
def afterRun (cs : List Char) : List Char :=
  cs.dropWhile fun c => !isSymbolChar c

/-- Classifies a run that is not blank. -/
def ofRun (cs : List Char) : Lexeme :=
  let text := trim cs
  if isWord text then .token (literal (String.ofList text))
  else .invalid (String.ofList text) (byteSize cs - byteSize (trimLeft cs))

/-- Reads one lexeme and gives it with the rest of the text; `none` if only blanks are left. -/
def lexeme? (cs : List Char) : Option (Lexeme × List Char) :=
  if (trim (run cs)).isEmpty then
    (symbol? (afterRun cs)).map fun (token, rest) => (.token token, rest)
  else some (ofRun (run cs), afterRun cs)

/-- Reading a symbol takes up characters. -/
theorem length_symbol?_lt {cs rest : List Char} {token : Token}
    (h : symbol? cs = some (token, rest)) : rest.length < cs.length := by
  unfold symbol? at h
  split at h <;> cases h <;> simp only [List.length_cons] <;> omega

/-- A text is its run and what is behind it. -/
theorem run_append_afterRun (cs : List Char) : run cs ++ afterRun cs = cs :=
  List.takeWhile_append_dropWhile

/-- Behind a run no more is left than there was. -/
theorem length_afterRun_le (cs : List Char) : (afterRun cs).length ≤ cs.length := by
  have := congrArg List.length (run_append_afterRun cs)
  simp only [List.length_append] at this
  omega

/-- Reading a lexeme takes up characters. -/
theorem length_lexeme?_lt {cs rest : List Char} {lexeme : Lexeme}
    (h : lexeme? cs = some (lexeme, rest)) : rest.length < cs.length := by
  unfold lexeme? at h
  split at h
  · obtain ⟨⟨token, after⟩, hsymbol, heq⟩ := Option.map_eq_some_iff.1 h
    cases heq
    exact Nat.lt_of_lt_of_le (length_symbol?_lt hsymbol) (length_afterRun_le cs)
  · next hrun =>
    cases h
    have happend := congrArg List.length (run_append_afterRun cs)
    have hpos : 0 < (run cs).length := by
      cases hr : run cs with
      | nil => simp [hr, trim, trimLeft, trimRight] at hrun
      | cons c cs => simp
    simp only [List.length_append] at happend
    omega

/-- Scans a text that begins at byte `start` of its source. The second component is the offset at
which scanning ends. -/
def scanFrom (start : Nat) (cs : List Char) : List Scanned × Nat :=
  match _ : lexeme? cs with
  | none => ([], start + byteSize cs)
  | some (lexeme, rest) =>
    let stop := start + (byteSize cs - byteSize rest)
    let (scanned, final) := scanFrom stop rest
    (⟨start, lexeme, stop⟩ :: scanned, final)
termination_by cs.length
decreasing_by exact length_lexeme?_lt (by assumption)

/-- All lexemes of a source in order. -/
def scan (source : String) : List Scanned :=
  (scanFrom 0 source.toList).1

end Token

end BraceTemplate
