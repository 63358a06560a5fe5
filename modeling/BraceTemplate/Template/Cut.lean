import BraceTemplate.Template.Marker

/-!
# Cutting out blocks

A block that opens on a line ends on the first line at which as many lines contain a close marker as
contain an open marker of its kind. Its body is cut out, and the lines it covered are left empty. A
block without an end takes all lines up to the end of the document.
-/

namespace BraceTemplate

/-- A block that has been cut out: its body, the lines behind the opening one as they are left, and
whether an end was found. -/
structure Cut where
  body : List Line
  rest : List Line
  closed : Bool
  deriving DecidableEq, Repr

/-- How many lines further on a block ends, given the number of blocks of its kind that are open. -/
def endDistance? (kind : BlockKind) : (depth : Nat) → List Line → Option Nat
  | _, [] => none
  | depth, line :: rest =>
    let depth := if opens kind line then depth + 1 else depth
    if closes kind line then
      if depth ≤ 1 then some 0 else (endDistance? kind (depth - 1) rest).map (· + 1)
    else (endDistance? kind depth rest).map (· + 1)

/-- The body of a block on one line: what stands between the first closing and the last opening
brace. There is none if they do not come in this order. -/
def inlineBody (line : Line) : List Line :=
  match splitFirst? '\x7d' line with
  | some (_, rest) =>
    match splitLast? '\x7b' rest with
    | some (body, _) => [body]
    | none => []
  | none => []

/-- The part of a closing line that belongs to the body: what stands before its last opening
brace. -/
def closingPart (line : Line) : Line :=
  match splitLast? '\x7b' line with
  | some (body, _) => body
  | none => []

/-- Cuts out the block that opens on `line`, where `rest` are the lines behind it. The body is a
part of the line if the block ends there, a part of the next line if it ends on that one, and
otherwise all lines strictly between. -/
def cutBlock (kind : BlockKind) (line : Line) (rest : List Line) : Cut :=
  match endDistance? kind 0 (line :: rest) with
  | none => ⟨rest, List.replicate rest.length [], false⟩
  | some 0 => ⟨inlineBody line, rest, true⟩
  | some 1 => ⟨[closingPart (rest.headD [])], [] :: rest.tail, true⟩
  | some (further + 2) =>
    ⟨rest.take (further + 1), List.replicate (further + 2) [] ++ rest.drop (further + 2), true⟩

/-- The number of characters and lines. It bounds how often blocks can be cut out of lines. -/
def weight : List Line → Nat
  | [] => 0
  | line :: rest => line.length + 1 + weight rest

/-- No lines weigh nothing. -/
@[simp] theorem weight_nil : weight [] = 0 := rfl

/-- A line weighs one more than it has characters. -/
@[simp] theorem weight_cons (line : Line) (rest : List Line) :
    weight (line :: rest) = line.length + 1 + weight rest := rfl

/-- Weights add up. -/
@[simp] theorem weight_append (lines rest : List Line) :
    weight (lines ++ rest) = weight lines + weight rest := by
  induction lines with
  | nil => simp
  | cons line lines ih => simp [ih, Nat.add_assoc]

/-- An empty line weighs one. -/
@[simp] theorem weight_replicate_nil (n : Nat) : weight (List.replicate n []) = n := by
  induction n with
  | zero => rfl
  | succ n ih => simp [List.replicate_succ, ih, Nat.add_comm]

/-- Every line weighs something. -/
theorem length_le_weight (lines : List Line) : lines.length ≤ weight lines := by
  induction lines with
  | nil => simp
  | cons line lines ih =>
    simp only [List.length_cons, weight_cons]
    omega

/-- Lines weigh as much in two parts as in one. -/
theorem weight_take_add_weight_drop (n : Nat) (lines : List Line) :
    weight (lines.take n) + weight (lines.drop n) = weight lines := by
  rw [← weight_append, List.take_append_drop]

/-- A block ends on one of the lines. -/
theorem endDistance?_lt_length {kind : BlockKind} {depth distance : Nat} {lines : List Line}
    (h : endDistance? kind depth lines = some distance) : distance < lines.length := by
  induction lines generalizing depth distance with
  | nil => simp [endDistance?] at h
  | cons line rest ih =>
    simp only [endDistance?] at h
    generalize (if opens kind line then depth + 1 else depth) = next at h
    split at h
    · split at h
      · cases h
        simp
      · obtain ⟨further, hfurther, rfl⟩ := Option.map_eq_some_iff.1 h
        have := ih hfurther
        simp only [List.length_cons]
        omega
    · obtain ⟨further, hfurther, rfl⟩ := Option.map_eq_some_iff.1 h
      have := ih hfurther
      simp only [List.length_cons]
      omega

/-- A body within a line weighs no more than the line has characters. -/
theorem weight_inlineBody_le (line : Line) : weight (inlineBody line) ≤ line.length := by
  unfold inlineBody
  split
  · next before rest hfirst =>
    split
    · next body after hlast =>
      rw [eq_of_splitFirst? hfirst, eq_of_splitLast? hlast]
      simp
      omega
    · simp
  · simp

/-- The part of a closing line that belongs to the body is no longer than the line. -/
theorem length_closingPart_le (line : Line) : (closingPart line).length ≤ line.length := by
  unfold closingPart
  split
  · next body after hlast =>
    rw [eq_of_splitLast? hlast]
    simp
  · simp

/-- A line that opens a block is not empty. -/
theorem length_pos_of_opens {kind : BlockKind} {line : Line} (h : opens kind line = true) :
    0 < line.length := by
  cases line with
  | nil => cases kind <;> simp [opens, condition?, listName?, argument?, arguments] at h
  | cons c cs => simp

/-- A body has less weight than the lines it was cut from. -/
theorem weight_body_lt {kind : BlockKind} {line : Line} (rest : List Line)
    (h : opens kind line = true) :
    weight (cutBlock kind line rest).body < weight (line :: rest) := by
  have hpos := length_pos_of_opens h
  unfold cutBlock
  split
  · simp only [weight_cons]
    omega
  · have := weight_inlineBody_le line
    simp only [weight_cons]
    omega
  · next hdistance =>
    have hlt := endDistance?_lt_length hdistance
    cases rest with
    | nil => simp at hlt
    | cons next rest =>
      have := length_closingPart_le next
      simp only [weight_cons, weight_nil, List.headD_cons]
      omega
  · next further _ =>
    have := weight_take_add_weight_drop (further + 1) rest
    simp only [weight_cons]
    omega

/-- The lines behind a block weigh no more than before it was cut out. -/
theorem weight_rest_le (kind : BlockKind) (line : Line) (rest : List Line) :
    weight (cutBlock kind line rest).rest ≤ weight rest := by
  unfold cutBlock
  split
  · simpa using length_le_weight _
  · exact Nat.le_refl _
  · next hdistance =>
    have hlt := endDistance?_lt_length hdistance
    cases rest with
    | nil => simp at hlt
    | cons next rest =>
      simp only [weight_cons, List.length_nil, List.tail_cons]
      omega
  · next further hdistance =>
    have hlt := endDistance?_lt_length hdistance
    have hsum := weight_take_add_weight_drop (further + 2) rest
    have hlen := length_le_weight (rest.take (further + 2))
    simp only [List.length_take, List.length_cons] at hlen hlt
    simp only [weight_append, weight_replicate_nil]
    omega

end BraceTemplate
