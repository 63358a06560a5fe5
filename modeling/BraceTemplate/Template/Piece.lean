import BraceTemplate.Template.Marker

/-!
# Reading lines into segments

What is left of a document when its blocks are cut out is read from left to right. A backslash takes
the meaning from the brace behind it. A brace opens a marker if the next brace closes it and the
content means something in the node; otherwise it is text, and reading goes on behind it. Characters
that follow each other, also across lines, make up one text segment.
-/

namespace BraceTemplate

/-- What reading a line yields: characters of text and segments. -/
inductive Piece where
  | char (c : Char)
  | segment (segment : Segment)
  deriving DecidableEq, Repr

namespace Piece

/-- A text segment in front of segments, unless the text is empty. -/
def flush : List Char × List Segment → List Segment
  | ([], segments) => segments
  | (text, segments) => .text (String.ofList text) :: segments

/-- The characters in front of the first segment, and all segments from there on. -/
def gather : List Piece → List Char × List Segment
  | [] => ([], [])
  | char c :: rest =>
    let (text, segments) := gather rest
    (c :: text, segments)
  | segment found :: rest => ([], found :: flush (gather rest))

/-- The segments that pieces make up. -/
def segments (pieces : List Piece) : List Segment :=
  flush (gather pieces)

end Piece

/-- The content of a marker whose opening brace has been read, and what follows its closing brace.
The first brace there is has to be the closing one. -/
def content? : List Char → Option (List Char × List Char)
  | [] => none
  | c :: cs =>
    if c = '\x7d' then some ([], cs)
    else if c = '\x7b' then none
    else (content? cs).map fun (content, rest) => (c :: content, rest)

/-- A text behind an opening brace is its content, the closing brace and the rest. -/
theorem eq_of_content? {cs content rest : List Char} (h : content? cs = some (content, rest)) :
    cs = content ++ '\x7d' :: rest := by
  induction cs generalizing content with
  | nil => simp [content?] at h
  | cons c cs ih =>
    unfold content? at h
    split at h
    · next hc =>
      cases h
      simp [hc]
    · split at h
      · simp at h
      · obtain ⟨⟨inner, left⟩, hinner, heq⟩ := Option.map_eq_some_iff.1 h
        cases heq
        simp [ih hinner]

/-- Reading the content of braces takes up characters. -/
theorem length_content?_lt {cs content rest : List Char}
    (h : content? cs = some (content, rest)) : rest.length < cs.length := by
  rw [eq_of_content? h]
  simp only [List.length_append, List.length_cons]
  omega

namespace Template

/-- The node after it refers to a segment: the name of a binding is among its names. -/
def refer (template : Template) : Segment → Template
  | .binding name => { template with names := addName template.names name }
  | _ => template

/-- The node after it holds the expression of a source. An expression whose id it holds already is
not compiled again. -/
def addExpression (template : Template) (source : String) : Except Error Template :=
  if template.expressions.has (Expression.idOf source) then .ok template
  else
    match Expression.compile source with
    | .ok expression =>
      .ok { template with
        expressions := template.expressions.insert (Expression.idOf source) expression }
    | .error fault => .error (.ofFault source fault)

/-- Reads line `number` into pieces. The node collects the names, expressions and warnings that the
line brings. -/
def readLine (number : Nat) (cs : List Char) (template : Template) :
    Except Error (List Piece × Template) :=
  match cs with
  | [] => return ([], template)
  | '\\' :: '\x7b' :: rest => do
    let (pieces, template) ← readLine number rest template
    return (.char '\x7b' :: pieces, template)
  | '\\' :: '\x7d' :: rest => do
    let (pieces, template) ← readLine number rest template
    return (.char '\x7d' :: pieces, template)
  | '\x7b' :: cs =>
    match _ : content? cs with
    | none => do
      let (pieces, template) ← readLine number cs template
      return (.char '\x7b' :: pieces, template)
    | some (content, rest) =>
      match template.meaning content with
      | .plain => do
        let (pieces, template) ← readLine number cs template
        return (.char '\x7b' :: pieces, template)
      | .stray kind =>
        let warning := .unmatchedClose kind number
        readLine number rest { template with ownWarnings := template.ownWarnings ++ [warning] }
      | .segment segment => do
        let (pieces, template) ← readLine number rest (template.refer segment)
        return (.segment segment :: pieces, template)
      | .expression source => do
        let template ← template.addExpression source
        let (pieces, template) ← readLine number rest template
        return (.segment (.expression (Expression.idOf source)) :: pieces, template)
  | c :: rest => do
    let (pieces, template) ← readLine number rest template
    return (.char c :: pieces, template)
termination_by cs.length
decreasing_by
  all_goals simp only [List.length_cons]
  all_goals try have := length_content?_lt (by assumption)
  all_goals omega

/-- Reads lines into pieces. The first one has the given number. -/
def readLines (number : Nat) : List Line → Template → Except Error (List Piece × Template)
  | [], template => return ([], template)
  | line :: rest, template => do
    let (pieces, template) ← readLine number line template
    let (more, template) ← readLines (number + 1) rest template
    return (pieces ++ more, template)

/-- Binds each name that has no binding to the empty text, in this node only. -/
def bindNames (template : Template) : Template :=
  { template with
    scope := template.names.foldl (fun scope name => scope.insertNew name (.string ""))
      template.scope }

/-- Completes a node by the lines that are left when its blocks are cut out. -/
def complete (template : Template) (lines : List Line) : Except Error Template := do
  let (pieces, template) ← readLines 1 lines template
  return { template with segments := Piece.segments pieces }.bindNames

end Template

end BraceTemplate
