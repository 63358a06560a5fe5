import BraceTemplate.Proofs.Template.Marking
import BraceTemplate.Proofs.Template.Reading

/-!
# Documents with nested blocks

An outline is a document as its author sees it: lines, and blocks whose opening and closing markers
stand on lines of their own. Written out, the block that opens on a line ends at its own closing
marker, whatever blocks of either kind are nested in it, so exactly its body is cut out.
-/

namespace BraceTemplate

/-- What opens a block that has a body to render. -/
inductive Opening where
  | conditional (source : String)
  | repetition (name : String)
  deriving DecidableEq, Repr

namespace Opening

/-- The kind of block. -/
def kind : Opening → BlockKind
  | conditional _ => .conditional
  | repetition _ => .repetition

/-- The kind of placeholder that takes the place of the block. -/
def placeholderKind : Opening → PlaceholderKind
  | conditional _ => .conditional
  | repetition _ => .repetition

/-- The key of that placeholder. -/
def key : Opening → String
  | conditional source => Expression.idOf source
  | repetition name => name

/-- The argument of the opening marker. -/
def argument : Opening → String
  | conditional source => source
  | repetition name => name

/-- The characters that the argument may have. -/
def allowed : Opening → Char → Bool
  | conditional _ => isExpressionChar
  | repetition _ => isNameChar

/-- The line with the opening marker. -/
def line (opening : Opening) : Line :=
  '\x7b' :: opening.kind.word.toList ++ ' ' :: (opening.argument.toList ++ ['\x7d', '\n'])

/-- The line with the closing marker. -/
def closing (opening : Opening) : Line :=
  '\x7b' :: '/' :: opening.kind.word.toList ++ ['\x7d', '\n']

/-- A marker with an argument of allowed characters, where a condition can be compiled. -/
structure WellFormed (opening : Opening) : Prop where
  argument_ne_nil : opening.argument.toList ≠ []
  allowed : ∀ c ∈ opening.argument.toList, opening.allowed c = true
  compiles : ∀ source, opening = .conditional source →
    ∃ expression, Expression.compile source = .ok expression

instance : (opening : Opening) → Decidable opening.WellFormed
  | conditional source =>
    decidable_of_iff
      (source.toList ≠ [] ∧ source.toList.all isExpressionChar = true ∧
        ∃ expression, Expression.compile source = .ok expression)
      ⟨fun h => ⟨h.1, List.all_eq_true.1 h.2.1, fun _ heq => by cases heq; exact h.2.2⟩,
        fun h => ⟨h.argument_ne_nil, List.all_eq_true.2 h.allowed, h.compiles source rfl⟩⟩
  | repetition name =>
    decidable_of_iff (name.toList ≠ [] ∧ name.toList.all isNameChar = true)
      ⟨fun h => ⟨h.1, List.all_eq_true.1 h.2, fun _ heq => by cases heq⟩,
        fun h => ⟨h.argument_ne_nil, List.all_eq_true.2 h.allowed⟩⟩

end Opening

/-- A document from its first line on: a line and what follows it, or a block and what follows
it. -/
inductive Outline where
  | done
  | line (text : Line) (rest : Outline)
  | block (opening : Opening) (body rest : Outline)

namespace Outline

/-- The lines of a document. -/
def lines : Outline → List Line
  | done => []
  | line text rest => text :: rest.lines
  | block opening body rest => opening.line :: (body.lines ++ opening.closing :: rest.lines)

end Outline

/-! ### Where no brace stands -/

/-- What begins with a character does not occur in a text without it. -/
theorem occursIn_of_notMem {c : Char} {word cs : List Char} (h : c ∉ cs) :
    occursIn (c :: word) cs = false :=
  occursIn_eq_false_iff.2 fun hpart => h (hpart.subset List.mem_cons_self)

/-- Without an opening brace there is no marker. -/
theorem arguments_of_notMem {word : String} {allowed : Char → Bool} {cs : List Char}
    (h : '\x7b' ∉ cs) : arguments word allowed cs = [] := by
  induction cs with
  | nil => rfl
  | cons d cs ih =>
    simp only [List.mem_cons, not_or] at h
    have hnone : argumentAt? word allowed (d :: cs) = none := by
      rw [argumentAt?, afterPrefix?, if_neg h.1]
    rw [arguments, hnone]
    exact ih h.2

namespace Opening

variable {opening : Opening}

/-- No argument has braces in it. -/
theorem allowed_brace (opening : Opening) :
    opening.allowed '\x7b' = false ∧ opening.allowed '\x7d' = false := by
  have hall : isExpressionChar '\x7b' = false ∧ isExpressionChar '\x7d' = false ∧
      isNameChar '\x7b' = false ∧ isNameChar '\x7d' = false := by decide
  cases opening with
  | conditional source => exact ⟨hall.1, hall.2.1⟩
  | repetition name => exact hall.2.2

/-- The only opening brace of the line with the opening marker is its first character. -/
theorem brace_notMem_tail (h : opening.WellFormed) : '\x7b' ∉ opening.line.tail := by
  have hargument : '\x7b' ∉ opening.argument.toList := by
    intro hmem
    have hallowed := h.allowed _ hmem
    rw [opening.allowed_brace.1] at hallowed
    simp at hallowed
  cases opening <;> simp_all [line, kind, argument, BlockKind.word]

/-- Behind its brace the marker goes on with a letter. -/
theorem exists_line (opening : Opening) :
    ∃ c cs, opening.line = '\x7b' :: c :: cs ∧ '*' ≠ c ∧ '/' ≠ c := by
  cases opening with
  | conditional source =>
    exact ⟨'i', 'f' :: ' ' :: (source.toList ++ ['\x7d', '\n']),
      by simp [line, kind, argument, BlockKind.word], by decide, by decide⟩
  | repetition name =>
    exact ⟨'f', "oreach ".toList ++ (name.toList ++ ['\x7d', '\n']),
      by simp [line, kind, argument, BlockKind.word], by decide, by decide⟩

/-- At the beginning of its line the marker of a block has its argument. -/
theorem argumentAt?_line (h : opening.WellFormed) :
    argumentAt? opening.kind.word opening.allowed opening.line =
      some opening.argument.toList :=
  (argumentAt?_eq_some_iff opening.allowed_brace.2).2
    ⟨' ', ['\n'], by simp [line], by decide, h.argument_ne_nil, h.allowed⟩

/-- The first argument in the line of a block is that of its marker. -/
theorem argument?_line (h : opening.WellFormed) :
    argument? opening.kind.word opening.allowed opening.line = some opening.argument.toList := by
  have hline : opening.line = '\x7b' :: opening.line.tail := rfl
  have hargument := argumentAt?_line h
  rw [argument?, hline, arguments, ← hline, hargument]
  rfl

/-- The marker of one kind is none of the other kind. -/
theorem argument?_line_of_ne (h : opening.WellFormed) {word : String} {allowed : Char → Bool}
    (hne : afterPrefix? ('\x7b' :: word.toList) opening.line = none) :
    argument? word allowed opening.line = none := by
  have hline : opening.line = '\x7b' :: opening.line.tail := rfl
  have hnone : argumentAt? word allowed opening.line = none := by rw [argumentAt?, hne]
  rw [argument?, hline, arguments, ← hline, hnone]
  dsimp only
  rw [arguments_of_notMem (brace_notMem_tail h)]
  rfl

/-- On the line of a conditional its condition is found. -/
theorem condition?_line {source : String} (h : (conditional source).WellFormed) :
    condition? (conditional source).line = some source := by
  have hargument := argument?_line h
  simp only [kind, BlockKind.word, allowed, argument] at hargument
  rw [condition?, hargument, Option.map_some, String.ofList_toList]

/-- On the line of a repetition its name is found. -/
theorem listName?_line {name : String} (h : (repetition name).WellFormed) :
    listName? (repetition name).line = some name := by
  have hargument := argument?_line h
  simp only [kind, BlockKind.word, allowed, argument] at hargument
  rw [listName?, hargument, Option.map_some, String.ofList_toList]

/-- On the line of a repetition there is no condition. -/
theorem condition?_line_repetition {name : String} (h : (repetition name).WellFormed) :
    condition? (repetition name).line = none := by
  have hne : afterPrefix? ('\x7b' :: "if".toList) (repetition name).line = none := by
    simp [afterPrefix?, line, kind, BlockKind.word]
  rw [condition?, argument?_line_of_ne h hne, Option.map_none]

/-- On the line of a conditional there is no name of a list. -/
theorem listName?_line_conditional {source : String} (h : (conditional source).WellFormed) :
    listName? (conditional source).line = none := by
  have hne : afterPrefix? ('\x7b' :: "foreach".toList) (conditional source).line = none := by
    simp [afterPrefix?, line, kind, BlockKind.word]
  rw [listName?, argument?_line_of_ne h hne, Option.map_none]

/-- The line with the opening marker opens a block of its own kind only. -/
theorem opens_line (h : opening.WellFormed) (kind : BlockKind) :
    opens kind opening.line = (kind == opening.kind) := by
  have hcomment : opens .comment opening.line = false := by
    obtain ⟨c, cs, hline, hstar, -⟩ := opening.exists_line
    simp [opens, hline, List.isPrefixOf_cons_cons, hstar]
  cases opening with
  | conditional source =>
    cases kind with
    | conditional => simp only [opens, condition?_line h]; rfl
    | repetition => simp only [opens, listName?_line_conditional h]; rfl
    | comment => exact hcomment
  | repetition name =>
    cases kind with
    | conditional => simp only [opens, condition?_line_repetition h]; rfl
    | repetition => simp only [opens, listName?_line h]; rfl
    | comment => exact hcomment

/-- The line that opens a block closes none. -/
theorem closes_line (h : opening.WellFormed) {kind : BlockKind} (hkind : kind ≠ .comment) :
    closes kind opening.line = false := by
  have hline : opening.line = '\x7b' :: opening.line.tail := rfl
  have hprefix :
      ('\x7b' :: '/' :: kind.word.toList ++ ['\x7d']).isPrefixOf opening.line = false := by
    obtain ⟨c, cs, hline, -, hslash⟩ := opening.exists_line
    simp [hline, List.isPrefixOf_cons_cons, hslash]
  have htail : occursIn ('\x7b' :: '/' :: kind.word.toList ++ ['\x7d']) opening.line.tail = false :=
    occursIn_of_notMem (brace_notMem_tail h)
  cases kind with
  | comment => exact absurd rfl hkind
  | conditional | repetition =>
    rw [closes, hline, occursIn, ← hline, hprefix]
    exact htail
    simp

/-- The line with the closing marker opens no block and closes one of its own kind only. -/
theorem opens_closing (opening : Opening) (kind : BlockKind) :
    opens kind opening.closing = false := by
  have hall : ∀ kind ∈ [BlockKind.conditional, .repetition, .comment],
      ∀ own ∈ [BlockKind.conditional, .repetition],
        opens kind ('\x7b' :: '/' :: own.word.toList ++ ['\x7d', '\n']) = false := by decide
  exact hall kind (by cases kind <;> simp) opening.kind (by cases opening <;> simp [Opening.kind])

/-- The closing line of a block closes its kind and no other. -/
theorem closes_closing (opening : Opening) {kind : BlockKind} (hkind : kind ≠ .comment) :
    closes kind opening.closing = (kind == opening.kind) := by
  have hall : ∀ kind ∈ [BlockKind.conditional, .repetition],
      ∀ own ∈ [BlockKind.conditional, .repetition],
        closes kind ('\x7b' :: '/' :: own.word.toList ++ ['\x7d', '\n']) = (kind == own) := by
    decide
  exact hall kind (by cases kind <;> simp_all) opening.kind
    (by cases opening <;> simp [Opening.kind])

/-- Nothing of a closing line belongs to the body. -/
theorem closingPart_closing (opening : Opening) : closingPart opening.closing = [] := by
  have hall : ∀ own ∈ [BlockKind.conditional, .repetition],
      closingPart ('\x7b' :: '/' :: own.word.toList ++ ['\x7d', '\n']) = [] := by decide
  exact hall opening.kind (by cases opening <;> simp [Opening.kind])

end Opening

/-! ### Lines that belong to no marker -/

/-- A plain line: it has no opening and no include markers either. -/
structure PlainLine (line : Line) : Prop extends PlainText line where
  no_comment : opens .comment line = false
  no_condition : condition? line = none
  no_list : listName? line = none
  no_include : includePaths line = []

instance (line : Line) : Decidable (PlainLine line) :=
  decidable_of_iff
    (PlainText line ∧ opens .comment line = false ∧ condition? line = none ∧
      listName? line = none ∧ includePaths line = [])
    ⟨fun h => ⟨h.1, h.2.1, h.2.2.1, h.2.2.2.1, h.2.2.2.2⟩,
      fun h => ⟨h.toPlainText, h.no_comment, h.no_condition, h.no_list, h.no_include⟩⟩

/-- A plain line opens no block. -/
theorem PlainLine.opens {line : Line} (h : PlainLine line) (kind : BlockKind) :
    opens kind line = false := by
  cases kind with
  | conditional => simp [BraceTemplate.opens, h.no_condition]
  | repetition => simp [BraceTemplate.opens, h.no_list]
  | comment => exact h.no_comment

/-- A plain line closes no block. -/
theorem PlainLine.closes {line : Line} (h : PlainLine line) {kind : BlockKind}
    (hkind : kind ≠ .comment) : closes kind line = false := by
  cases kind with
  | conditional => exact h.no_closing.1
  | repetition => exact h.no_closing.2
  | comment => exact absurd rfl hkind

namespace Outline

/-- A document of plain lines and well-formed markers. -/
inductive WellFormed : Outline → Prop
  | done : WellFormed done
  | line {text : Line} {rest : Outline} (htext : PlainLine text) (hrest : WellFormed rest) :
      WellFormed (line text rest)
  | block {opening : Opening} {body rest : Outline} (hopening : opening.WellFormed)
      (hbody : WellFormed body) (hrest : WellFormed rest) : WellFormed (block opening body rest)

instance decidableWellFormed : (outline : Outline) → Decidable outline.WellFormed
  | done => isTrue .done
  | line text rest =>
    have := decidableWellFormed rest
    decidable_of_iff (PlainLine text ∧ rest.WellFormed)
      ⟨fun h => .line h.1 h.2, fun | .line htext hrest => ⟨htext, hrest⟩⟩
  | block opening body rest =>
    have := decidableWellFormed body
    have := decidableWellFormed rest
    decidable_of_iff (opening.WellFormed ∧ body.WellFormed ∧ rest.WellFormed)
      ⟨fun h => .block h.1 h.2.1 h.2.2,
        fun | .block hopening hbody hrest => ⟨hopening, hbody, hrest⟩⟩

/-! ### Where a block ends -/

/-- A line without a marker of the kind is passed over. -/
theorem endDistance?_other {kind : BlockKind} {line : Line} (hopens : opens kind line = false)
    (hcloses : closes kind line = false) (depth : Nat) (rest : List Line) :
    endDistance? kind depth (line :: rest) = (endDistance? kind depth rest).map (· + 1) := by
  rw [endDistance?, hopens, hcloses]
  rfl

/-- A line that opens a block of the kind has to be closed as well. -/
theorem endDistance?_opening {kind : BlockKind} {line : Line} (hopens : opens kind line = true)
    (hcloses : closes kind line = false) (depth : Nat) (rest : List Line) :
    endDistance? kind depth (line :: rest) = (endDistance? kind (depth + 1) rest).map (· + 1) := by
  rw [endDistance?, hopens, hcloses]
  rfl

/-- A line that closes a block of the kind ends the search if only one is open, and one of the open
blocks otherwise. -/
theorem endDistance?_closing {kind : BlockKind} {line : Line} (hopens : opens kind line = false)
    (hcloses : closes kind line = true) (depth : Nat) (rest : List Line) :
    endDistance? kind 1 (line :: rest) = some 0 ∧
      endDistance? kind (depth + 2) (line :: rest) =
        (endDistance? kind (depth + 1) rest).map (· + 1) := by
  constructor
  · rw [endDistance?, hopens, hcloses]
    rfl
  · have hdeep : ¬ depth + 2 ≤ 1 := by omega
    rw [endDistance?, hopens, hcloses]
    simp only [Bool.false_eq_true, if_false, if_true, if_neg hdeep]
    rfl

/-- In the lines of a document every block of a kind that opens also closes. -/
theorem endDistance?_lines {outline : Outline} (h : outline.WellFormed) {kind : BlockKind}
    (hkind : kind ≠ .comment) (depth : Nat) (rest : List Line) :
    endDistance? kind (depth + 1) (outline.lines ++ rest) =
      (endDistance? kind (depth + 1) rest).map (· + outline.lines.length) := by
  induction h generalizing depth rest with
  | done => simp [lines]
  | line htext hrest ih =>
    rw [lines, List.cons_append, endDistance?_other (htext.opens kind) (htext.closes hkind), ih,
      Option.map_map, List.length_cons]
    congr
  | @block opening body after hopening hbody hrest ihBody ihRest =>
    have hsplit : (block opening body after).lines ++ rest =
        opening.line :: (body.lines ++ opening.closing :: (after.lines ++ rest)) := by
      simp [lines]
    have hlength : (block opening body after).lines.length =
        body.lines.length + after.lines.length + 2 := by
      simp only [lines, List.length_cons, List.length_append]
      omega
    have hopensLine := Opening.opens_line hopening kind
    have hclosesLine := Opening.closes_line hopening hkind
    have hopensClosing := opening.opens_closing kind
    have hclosesClosing := opening.closes_closing hkind
    have hadd : ∀ distance : Option Nat,
        (((distance.map (· + after.lines.length)).map (· + 1)).map (· + body.lines.length)).map
          (· + 1) = distance.map (· + (body.lines.length + after.lines.length + 2)) := by
      intro distance
      cases distance with
      | none => rfl
      | some n =>
        simp only [Option.map_some, Option.some.injEq]
        omega
    rw [hsplit, hlength]
    -- a marker of the kind that is counted changes the depth, one of the other kind does not
    by_cases hown : kind = opening.kind
    · have hbeq : (kind == opening.kind) = true := by rw [beq_iff_eq, hown]
      rw [hbeq] at hopensLine hclosesClosing
      rw [endDistance?_opening hopensLine hclosesLine, ihBody,
        (endDistance?_closing hopensClosing hclosesClosing depth _).2, ihRest, hadd]
    · have hbeq : (kind == opening.kind) = false := beq_false_of_ne hown
      rw [hbeq] at hopensLine hclosesClosing
      rw [endDistance?_other hopensLine hclosesLine, ihBody,
        endDistance?_other hopensClosing hclosesClosing, ihRest, hadd]

/-- A block is cut out from its opening marker to its own closing marker. An empty body is cut out
as an empty line. -/
theorem cutBlock_line {opening : Opening} (hopening : opening.WellFormed) {body : Outline}
    (hbody : body.WellFormed) (rest : List Line) :
    cutBlock opening.kind opening.line (body.lines ++ opening.closing :: rest) =
      ⟨if body.lines = [] then [[]] else body.lines,
        List.replicate (body.lines.length + 1) [] ++ rest, true⟩ := by
  have hkind : opening.kind ≠ .comment := by cases opening <;> simp [Opening.kind]
  have hopensLine := Opening.opens_line hopening opening.kind
  have hclosesLine := Opening.closes_line hopening hkind
  have hopensClosing := opening.opens_closing opening.kind
  have hclosesClosing := opening.closes_closing hkind
  rw [beq_self_eq_true] at hopensLine hclosesClosing
  have hdistance : endDistance? opening.kind 0
      (opening.line :: (body.lines ++ opening.closing :: rest)) =
        some (body.lines.length + 1) := by
    rw [endDistance?_opening hopensLine hclosesLine, endDistance?_lines hbody hkind,
      (endDistance?_closing hopensClosing hclosesClosing 0 rest).1]
    simp
  unfold cutBlock
  rw [hdistance]
  cases hlines : body.lines with
  | nil =>
    simp [opening.closingPart_closing]
  | cons line lines =>
    simp

end Outline

end BraceTemplate
