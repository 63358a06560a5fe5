import BraceTemplate.Proofs.Template.Splitting

/-!
# The text of comments

Where a block ends is found by counting the markers of its kind on physical lines, and those on the
lines of a comment count like all others. As long as the same blocks are open behind every line of
two documents that differ in the text of their comments only, the two are cut alike, so that they
compile to the same template or fail in the same way.
-/

namespace BraceTemplate

/-! ### Open blocks -/

/-- How many blocks of a kind are open behind a line, given how many are open in front of it; `none`
if the line ends the outermost of them. -/
def depthAfter? (kind : BlockKind) (depth : Nat) (line : Line) : Option Nat :=
  let depth := if opens kind line then depth + 1 else depth
  if closes kind line then
    if depth ≤ 1 then none else some (depth - 1)
  else some depth

/-- A block ends at the first of the lines, or it goes on with as many open blocks as that line
leaves. -/
theorem endDistance?_cons (kind : BlockKind) (depth : Nat) (line : Line) (rest : List Line) :
    endDistance? kind depth (line :: rest) =
      match depthAfter? kind depth line with
      | none => some 0
      | some depth => (endDistance? kind depth rest).map (· + 1) := by
  rw [endDistance?, depthAfter?]
  generalize (if opens kind line then depth + 1 else depth) = next
  by_cases hcloses : closes kind line = true
  · rw [if_pos hcloses, if_pos hcloses]
    by_cases hle : next ≤ 1
    · rw [if_pos hle, if_pos hle]
    · rw [if_neg hle, if_neg hle]
  · rw [if_neg hcloses, if_neg hcloses]

/-- A block that ends at the very first line has nothing open behind that line. -/
theorem depthAfter?_eq_none {kind : BlockKind} {depth : Nat} {line : Line} {rest : List Line}
    (h : endDistance? kind depth (line :: rest) = some 0) : depthAfter? kind depth line = none := by
  rw [endDistance?_cons] at h
  cases hnext : depthAfter? kind depth line with
  | none => rfl
  | some next =>
    rw [hnext] at h
    obtain ⟨further, -, hsucc⟩ := Option.map_eq_some_iff.1 h
    exact absurd hsucc (Nat.succ_ne_zero further)

/-- A line without a marker of the kind leaves as many blocks open as there were. -/
theorem depthAfter?_eq_self {kind : BlockKind} {line : Line} (hopens : opens kind line = false)
    (hcloses : closes kind line = false) (depth : Nat) :
    depthAfter? kind depth line = some depth := by
  simp [depthAfter?, hopens, hcloses]

/-- The kind of the block that is cut out where a line is met. -/
def openedKind? (line : Line) : Option BlockKind :=
  [BlockKind.comment, .repetition, .conditional].find? fun kind => opens kind line

/-- The blocks that are open between two lines, the outermost first, each with the number of blocks
of its kind that are counted for it. Nothing is open within a comment. -/
abbrev OpenBlocks := List (BlockKind × Nat)

namespace OpenBlocks

/-- The blocks that are open behind a line that opens one. -/
def entered (kind : BlockKind) (line : Line) : OpenBlocks :=
  ((depthAfter? kind 0 line).map fun depth => (kind, depth)).toList

/-- The blocks that are open behind a line. The line that ends a block ends all blocks within it,
and otherwise it is a line of the innermost one. -/
def after : OpenBlocks → Line → OpenBlocks
  | [], line => (openedKind? line).elim [] fun kind => entered kind line
  | (kind, depth) :: inner, line =>
    match depthAfter? kind depth line with
    | none => []
    | some depth => (kind, depth) :: if kind = .comment then [] else after inner line

/-- The kinds of the blocks that are open. -/
def kinds (blocks : OpenBlocks) : List BlockKind :=
  blocks.map Prod.fst

/-- A line belongs to a comment: one is open, or the line opens one. -/
def InComment : OpenBlocks → Line → Prop
  | [], line => opens .comment line = true
  | (kind, _) :: inner, line => kind = .comment ∨ InComment inner line

/-- A line ends a block that is no comment. -/
def Ends : OpenBlocks → Line → Prop
  | [], _ => False
  | (kind, depth) :: inner, line =>
    kind ≠ .comment ∧ (depthAfter? kind depth line = none ∨ Ends inner line)

end OpenBlocks

open OpenBlocks

/-- Two documents differ in lines of comments only, and behind every line the same blocks are open
in both. If such a line ends a block around its comment, what it leaves to the body ends the comment
in both documents or in neither. -/
inductive Alike : (blocks blocks' : OpenBlocks) → List Line → List Line → Prop
  | nil {blocks blocks' : OpenBlocks} : Alike blocks blocks' [] []
  | line {blocks blocks' : OpenBlocks} {line : Line} {rest rest' : List Line}
      (hkinds : (blocks.after line).kinds = (blocks'.after line).kinds)
      (hrest : Alike (blocks.after line) (blocks'.after line) rest rest') :
    Alike blocks blocks' (line :: rest) (line :: rest')
  | comment {blocks blocks' : OpenBlocks} {line line' : Line} {rest rest' : List Line}
      (hline : InComment blocks line) (hline' : InComment blocks' line')
      (hkinds : (blocks.after line).kinds = (blocks'.after line').kinds)
      (hpart : Ends blocks line →
        closes .comment (closingPart line) = closes .comment (closingPart line'))
      (hrest : Alike (blocks.after line) (blocks'.after line') rest rest') :
    Alike blocks blocks' (line :: rest) (line' :: rest')

namespace Alike

variable {kind : BlockKind} {depth depth' : Nat} {blocks blocks' inner inner' : OpenBlocks}
  {line line' : Line} {rest rest' lines lines' : List Line}

/-- Every document is alike to itself, whatever is open in front of it. -/
theorem refl (blocks : OpenBlocks) (lines : List Line) : Alike blocks blocks lines lines := by
  induction lines generalizing blocks with
  | nil => exact .nil
  | cons line lines ih => exact .line rfl (ih _)

/-- Where the same blocks are open behind a line, it ends a block in both documents or in
neither. -/
theorem depthAfter?_cases
    (hkinds :
      (after ((kind, depth) :: inner) line).kinds =
        (after ((kind, depth') :: inner') line').kinds) :
    (depthAfter? kind depth line = none ∧ depthAfter? kind depth' line' = none) ∨
      ∃ next next', depthAfter? kind depth line = some next ∧
        depthAfter? kind depth' line' = some next' ∧
        (kind ≠ .comment → (after inner line).kinds = (after inner' line').kinds) := by
  unfold after at hkinds
  cases hnext : depthAfter? kind depth line with
  | none =>
    rw [hnext] at hkinds
    cases hnext' : depthAfter? kind depth' line' with
    | none => exact .inl ⟨rfl, rfl⟩
    | some next' =>
      rw [hnext'] at hkinds
      cases hkinds
  | some next =>
    rw [hnext] at hkinds
    cases hnext' : depthAfter? kind depth' line' with
    | none =>
      rw [hnext'] at hkinds
      cases hkinds
    | some next' =>
      rw [hnext'] at hkinds
      refine .inr ⟨next, next', rfl, rfl, fun hkind => ?_⟩
      dsimp only at hkinds
      rw [if_neg hkind, if_neg hkind] at hkinds
      exact (List.cons.inj hkinds).2

/-- A block that is open in two documents ends at the same line of both or at none. The lines up to
there are alike in its body, and those behind are alike on their own. -/
inductive Split (kind : BlockKind) (depth depth' : Nat) (inner inner' : OpenBlocks)
    (lines lines' : List Line) : Prop
  | unclosed (hend : endDistance? kind depth lines = none)
      (hend' : endDistance? kind depth' lines' = none)
      (hlength : lines.length = lines'.length)
      (hbody : kind ≠ .comment → Alike inner inner' lines lines')
  | closed {distance : Nat} (hend : endDistance? kind depth lines = some distance)
      (hend' : endDistance? kind depth' lines' = some distance)
      (hbody : kind ≠ .comment → Alike inner inner' (lines.take distance) (lines'.take distance))
      (hrest : Alike [] [] (lines.drop (distance + 1)) (lines'.drop (distance + 1)))

/-- A line that ends the block in neither document is put in front of both: it becomes a line of the
body. -/
theorem Split.cons {next next' : Nat} (hnext : depthAfter? kind depth line = some next)
    (hnext' : depthAfter? kind depth' line' = some next')
    (hcons : ∀ {more more'}, kind ≠ .comment →
      Alike (inner.after line) (inner'.after line') more more' →
      Alike inner inner' (line :: more) (line' :: more'))
    {within within' : OpenBlocks} (hwithin : kind ≠ .comment → within = inner.after line)
    (hwithin' : kind ≠ .comment → within' = inner'.after line')
    (h : Split kind next next' within within' rest rest') :
    Split kind depth depth' inner inner' (line :: rest) (line' :: rest') := by
  have hends :
      endDistance? kind depth (line :: rest) = (endDistance? kind next rest).map (· + 1) := by
    rw [endDistance?_cons, hnext]
  have hends' : endDistance? kind depth' (line' :: rest') =
      (endDistance? kind next' rest').map (· + 1) := by
    rw [endDistance?_cons, hnext']
  cases h with
  | unclosed hend hend' hlength hbody =>
    rw [hend] at hends
    rw [hend'] at hends'
    refine .unclosed hends hends' (congrArg (· + 1) hlength) fun hkind => hcons hkind ?_
    rw [← hwithin hkind, ← hwithin' hkind]
    exact hbody hkind
  | closed hend hend' hbody hrest =>
    rw [hend] at hends
    rw [hend'] at hends'
    refine .closed hends hends' (fun hkind => hcons hkind ?_) hrest
    rw [← hwithin hkind, ← hwithin' hkind]
    exact hbody hkind

/-- Where documents are alike within a block, the block ends in both at once or in neither, and what
it is cut into is alike as well. -/
theorem split (h : Alike ((kind, depth) :: inner) ((kind, depth') :: inner') lines lines') :
    Split kind depth depth' inner inner' lines lines' := by
  induction lines generalizing depth depth' inner inner' lines' with
  | nil =>
    cases h
    exact .unclosed rfl rfl rfl fun _ => .nil
  | cons line rest ih =>
    have hstep : ∀ {line' rest'},
        (after ((kind, depth) :: inner) line).kinds =
          (after ((kind, depth') :: inner') line').kinds →
        Alike (after ((kind, depth) :: inner) line) (after ((kind, depth') :: inner') line')
          rest rest' →
        (∀ {more more'}, kind ≠ .comment → (after inner line).kinds = (after inner' line').kinds →
          Alike (after inner line) (after inner' line') more more' →
          Alike inner inner' (line :: more) (line' :: more')) →
        Split kind depth depth' inner inner' (line :: rest) (line' :: rest') := by
      intro line' rest' hkinds hrest hcons
      rcases depthAfter?_cases hkinds with ⟨hnone, hnone'⟩ | ⟨next, next', hnext, hnext', hinner⟩
      · have hend : endDistance? kind depth (line :: rest) = some 0 := by
          rw [endDistance?_cons, hnone]
        have hend' : endDistance? kind depth' (line' :: rest') = some 0 := by
          rw [endDistance?_cons, hnone']
        rw [after, after, hnone, hnone'] at hrest
        exact .closed hend hend' (fun _ => .nil) hrest
      · rw [after, after, hnext, hnext'] at hrest
        exact .cons hnext hnext' (fun hkind => hcons hkind (hinner hkind))
          (fun hkind => if_neg hkind) (fun hkind => if_neg hkind) (ih hrest)
    cases h with
    | line hkinds hrest => exact hstep hkinds hrest fun _ hinner hmore => .line hinner hmore
    | comment hline hline' hkinds hpart hrest =>
      refine hstep hkinds hrest fun hkind hinner hmore => ?_
      exact .comment (hline.resolve_left hkind) (hline'.resolve_left hkind) hinner
        (fun hends => hpart ⟨hkind, .inr hends⟩) hmore

/-! ### Cutting a block -/

/-- A text with a mark in it can be split at the last one. -/
theorem exists_splitLast?_of_mem {mark : Char} {cs : List Char} (h : mark ∈ cs) :
    ∃ before behind, splitLast? mark cs = some (before, behind) := by
  induction cs with
  | nil => cases h
  | cons c cs ih =>
    rw [splitLast?]
    by_cases hmem : mark ∈ cs
    · obtain ⟨before, behind, hsplit⟩ := ih hmem
      exact ⟨c :: before, behind, by rw [hsplit]⟩
    · obtain rfl := (List.mem_cons.1 h).resolve_right hmem
      exact ⟨[], cs, by rw [splitLast?_of_notMem hmem]; exact if_pos rfl⟩

/-- A line that begins a comment and ends another block leaves the beginning of the comment to the
body. -/
theorem opens_closingPart (hcomment : opens .comment line = true) (hkind : kind ≠ .comment)
    (hcloses : closes kind line = true) : opens .comment (closingPart line) = true := by
  obtain ⟨tail, rfl⟩ : ∃ tail, line = '\x7b' :: '*' :: tail := by
    obtain ⟨tail, htail⟩ := List.isPrefixOf_iff_prefix.1 hcomment
    exact ⟨tail, htail.symm⟩
  have hmem : '\x7b' ∈ tail := by
    have hneedle : ∃ word, '\x7b' :: '/' :: word <:+: '\x7b' :: '*' :: tail := by
      cases kind with
      | comment => exact absurd rfl hkind
      | conditional => exact ⟨_, occursIn_iff.1 hcloses⟩
      | repetition => exact ⟨_, occursIn_iff.1 hcloses⟩
    obtain ⟨word, hneedle⟩ := hneedle
    rcases List.infix_cons_iff.1 hneedle with hfirst | hneedle
    · exact absurd (List.cons_prefix_cons.1 (List.cons_prefix_cons.1 hfirst).2).1 (by decide)
    · rcases List.infix_cons_iff.1 hneedle with hsecond | hneedle
      · exact absurd (List.cons_prefix_cons.1 hsecond).1 (by decide)
      · exact hneedle.subset List.mem_cons_self
  obtain ⟨before, behind, hsplit⟩ := exists_splitLast?_of_mem hmem
  rw [closingPart, splitLast?, splitLast?, hsplit]
  rfl

/-- A line that opens a comment is cut out as one, whatever else it opens. -/
theorem openedKind?_of_comment (h : opens .comment line = true) :
    openedKind? line = some .comment := by
  unfold openedKind?
  exact List.find?_cons_of_pos h

/-- Behind a line that opens a comment nothing but the comment is open, and not even that if the
line ends it too. -/
theorem kinds_after_of_comment (h : opens .comment line = true) :
    (after [] line).kinds = if closes .comment line then [] else [.comment] := by
  rw [after, openedKind?_of_comment h]
  change (entered .comment line).kinds = _
  rw [entered, depthAfter?, if_pos h]
  split <;> rfl

/-- What the closing line directly behind an opening one leaves to the body. -/
theorem closingPart_alike (hkind : kind ≠ .comment) (hends : depthAfter? kind depth line = none)
    (hends' : depthAfter? kind depth' line' = none)
    (h : Alike [(kind, depth)] [(kind, depth')] (line :: rest) (line' :: rest')) :
    Alike [] [] [closingPart line] [closingPart line'] := by
  have hcloses : ∀ {depth line}, depthAfter? kind depth line = none → closes kind line = true := by
    intro depth line hnone
    unfold depthAfter? at hnone
    by_contra hopen
    rw [if_neg hopen] at hnone
    cases hnone
  cases h with
  | line => exact .refl [] _
  | comment hline hline' hkinds hpart =>
    have hbegins := opens_closingPart (hline.resolve_left hkind) hkind (hcloses hends)
    have hbegins' := opens_closingPart (hline'.resolve_left hkind) hkind (hcloses hends')
    have hsame := hpart ⟨hkind, .inl hends⟩
    have hafter : (after [] (closingPart line)).kinds = (after [] (closingPart line')).kinds := by
      rw [kinds_after_of_comment hbegins, kinds_after_of_comment hbegins', hsame]
    exact .comment hbegins hbegins' hafter (fun hnone => hnone.elim) .nil

/-- A block that opens in two documents is cut out of both alike. -/
structure CutAlike (kind : BlockKind) (cut cut' : Cut) : Prop where
  closed : cut.closed = cut'.closed
  rest : Alike [] [] cut.rest cut'.rest
  body : kind ≠ .comment → Alike [] [] cut.body cut'.body

/-- Documents stay alike when the same number of empty lines is put in front of them. -/
theorem empty_append (count : Nat) (h : Alike [] [] lines lines') :
    Alike [] [] (List.replicate count [] ++ lines) (List.replicate count [] ++ lines') := by
  induction count with
  | zero => exact h
  | succ count ih =>
    rw [List.replicate_succ, List.cons_append, List.cons_append]
    exact .line rfl ih

/-- A block that goes on behind the lines that open it is cut out of alike documents alike. -/
theorem cutAlike_of_next {next next' : Nat} (hnext : depthAfter? kind 0 line = some next)
    (hnext' : depthAfter? kind 0 line' = some next')
    (h : Alike [(kind, next)] [(kind, next')] rest rest') :
    CutAlike kind (cutBlock kind line rest) (cutBlock kind line' rest') := by
  unfold cutBlock
  rw [endDistance?_cons, endDistance?_cons, hnext, hnext']
  cases h.split with
  | unclosed hend hend' hlength hbody =>
    dsimp only
    rw [hend, hend', hlength]
    exact ⟨rfl, .refl [] _, hbody⟩
  | @closed distance hend hend' hbody hrest =>
    dsimp only
    rw [hend, hend']
    match distance with
    | 0 =>
      cases rest with
      | nil => cases hend
      | cons first rest =>
        cases rest' with
        | nil => cases hend'
        | cons first' rest' =>
          exact ⟨rfl, empty_append 1 hrest,
            fun hkind => closingPart_alike hkind (depthAfter?_eq_none hend)
              (depthAfter?_eq_none hend') h⟩
    | further + 1 => exact ⟨rfl, empty_append (further + 2) hrest, hbody⟩

/-- A block that is opened by lines of the same effect is cut out of alike documents alike. The
lines themselves have to be equal unless the block is a comment. -/
theorem cutAlike (hopened : kind ≠ .comment → line = line')
    (hkinds : (entered kind line).kinds = (entered kind line').kinds)
    (h : Alike (entered kind line) (entered kind line') rest rest') :
    CutAlike kind (cutBlock kind line rest) (cutBlock kind line' rest') := by
  unfold entered at hkinds h
  -- Either both lines end the block at once or it goes on behind both of them.
  cases hnext : depthAfter? kind 0 line with
  | none =>
    rw [hnext] at hkinds h
    cases hnext' : depthAfter? kind 0 line' with
    | none =>
      rw [hnext'] at h
      unfold cutBlock
      rw [endDistance?_cons, endDistance?_cons, hnext, hnext']
      refine ⟨rfl, h, fun hkind => ?_⟩
      rw [hopened hkind]
      exact .refl [] _
    | some next' =>
      rw [hnext'] at hkinds
      cases hkinds
  | some next =>
    rw [hnext] at hkinds h
    cases hnext' : depthAfter? kind 0 line' with
    | none =>
      rw [hnext'] at hkinds
      cases hkinds
    | some next' =>
      rw [hnext'] at h
      exact cutAlike_of_next hnext hnext' h

/-! ### Compiling -/

open Template

/-- A line on which a block with a body opens is cut out as a block of its kind. -/
theorem openedKind?_of_opensOn {opening : Opening} (h : opening.OpensOn line) :
    openedKind? line = some opening.kind := by
  unfold openedKind?
  cases h with
  | repetition hcomment hname =>
    rw [List.find?_cons_of_neg (by simp [hcomment])]
    exact List.find?_cons_of_pos (by simp [opens, hname])
  | conditional hcomment hname hcondition =>
    rw [List.find?_cons_of_neg (by simp [hcomment]),
      List.find?_cons_of_neg (by simp [opens, hname])]
    exact List.find?_cons_of_pos (by simp [opens, hcondition])

/-- A line that opens nothing is not cut out. -/
theorem openedKind?_eq_none (hcomment : opens .comment line = false) (hname : listName? line = none)
    (hcondition : condition? line = none) : openedKind? line = none := by
  have hopens : ∀ kind, opens kind line = false := by
    intro kind
    cases kind with
    | comment => exact hcomment
    | conditional => simp [opens, hcondition]
    | repetition => simp [opens, hname]
  simp [openedKind?, hopens]

/-- At the top level, what a line opens is open behind it. -/
theorem after_of_openedKind? (h : openedKind? line = some kind) :
    after [] line = entered kind line := by
  rw [after, h]
  rfl

/-- Lines that are cut alike compile alike. -/
theorem compileLines_congr (resolve : String → CompileM Template)
    (h : ∀ template, cutLines resolve 1 lines template = cutLines resolve 1 lines' template)
    (name : String) :
    Template.compileLines resolve name lines = Template.compileLines resolve name lines' := by
  rw [Template.compileLines, Template.compileLines, h]

/-- Documents that are alike are cut alike: the same lines are left, and the node becomes the
same. -/
theorem cutLines_eq (resolve : String → CompileM Template) (h : Alike [] [] lines lines')
    (number : Nat) (template : Template) :
    cutLines resolve number lines template = cutLines resolve number lines' template := by
  induction lines using block_induction generalizing lines' number template with
  | nil =>
    cases h
    rfl
  | comment line rest hcomment ihRest =>
    have hcut : ∀ {line' rest'}, opens .comment line' = true →
        (after [] line).kinds = (after [] line').kinds →
          Alike (after [] line) (after [] line') rest rest' →
        cutLines resolve number (line :: rest) template =
          cutLines resolve number (line' :: rest') template := by
      intro line' rest' hcomment' hkinds hrest
      rw [after_of_openedKind? (openedKind?_of_comment hcomment),
        after_of_openedKind? (openedKind?_of_comment hcomment')] at hkinds hrest
      have hcut := cutAlike (fun hkind => absurd rfl hkind) hkinds hrest
      rw [cutLines_comment _ _ _ _ hcomment, cutLines_comment _ _ _ _ hcomment']
      dsimp only [noteCut]
      rw [hcut.closed, ihRest hcut.rest]
    cases h with
    | line hkinds hrest => exact hcut hcomment hkinds hrest
    | comment hline hline' hkinds hpart hrest => exact hcut hline' hkinds hrest
  | block line rest opening hopens ihBody ihRest =>
    cases h with
    | @line _ _ _ _ rest' hkinds hrest =>
      have hafter := after_of_openedKind? (openedKind?_of_opensOn hopens)
      rw [hafter] at hrest
      have hcut := cutAlike (fun _ => rfl) rfl hrest
      have hbody :
          ∀ name, Template.compileLines resolve name (cutBlock opening.kind line rest).body =
          Template.compileLines resolve name (cutBlock opening.kind line rest').body :=
        compileLines_congr resolve (ihBody (hcut.body fun heq => by cases opening <;> cases heq) 1)
      rw [cutLines_opening _ hopens, cutLines_opening _ hopens]
      dsimp only [noteCut]
      rw [hcut.closed]
      simp only [hbody, ihRest hcut.rest]
    | comment hline =>
      rw [InComment, Opening.opens_comment_of_opensOn hopens] at hline
      cases hline
  | plain line rest hcomment hname hcondition ihRest =>
    cases h with
    | line hkinds hrest =>
      rw [after, openedKind?_eq_none hcomment hname hcondition] at hrest
      rw [cutLines_plain _ _ _ _ hcomment hname hcondition,
        cutLines_plain _ _ _ _ hcomment hname hcondition]
      simp only [ihRest hrest]
    | comment hline =>
      rw [InComment, hcomment] at hline
      cases hline

end Alike

/-! ### Whole comments -/

/-- The lines of a comment. It may be that the first one begins it; no later line begins a comment,
and the last line is the only one that ends it. -/
inductive CommentLines : (begins : Bool) → List Line → Prop
  | last {begins : Bool} {line : Line} (hbegins : opens .comment line = begins)
      (hends : closes .comment line = true) : CommentLines begins [line]
  | more {begins : Bool} {line : Line} {rest : List Line} (hbegins : opens .comment line = begins)
      (hends : closes .comment line = false) (hrest : CommentLines false rest) :
    CommentLines begins (line :: rest)

/-- No line has a marker of the kind of one of the blocks, and none of these is a comment. -/
def Untouched (blocks : OpenBlocks) (lines : List Line) : Prop :=
  ∀ block ∈ blocks, block.1 ≠ .comment ∧
    ∀ line ∈ lines, opens block.1 line = false ∧ closes block.1 line = false

instance (blocks : OpenBlocks) (lines : List Line) : Decidable (Untouched blocks lines) :=
  inferInstanceAs (Decidable (∀ block ∈ blocks, block.1 ≠ .comment ∧
    ∀ line ∈ lines, opens block.1 line = false ∧ closes block.1 line = false))

namespace OpenBlocks

/-- What is open within the blocks around a comment, in front of one of its lines. -/
def commenting : (begins : Bool) → OpenBlocks
  | true => []
  | false => [(.comment, 1)]

/-- In a comment, a line leaves the comment open unless it ends it. -/
theorem after_commenting {begins : Bool} {line : Line} (h : opens .comment line = begins) :
    after (commenting begins) line = commenting (closes .comment line) := by
  cases begins with
  | true =>
    rw [commenting, Alike.after_of_openedKind? (Alike.openedKind?_of_comment h), entered,
      depthAfter?, if_pos h]
    cases closes .comment line <;> rfl
  | false =>
    have hdepth : depthAfter? .comment 1 line = if closes .comment line then none else some 1 := by
      simp [depthAfter?, h]
    rw [commenting, after, hdepth]
    cases closes .comment line <;> rfl

/-- A line of a comment stays one when blocks are open around the comment. -/
theorem inComment_append {begins : Bool} {line : Line} (h : opens .comment line = begins)
    (blocks : OpenBlocks) : InComment (blocks ++ commenting begins) line := by
  induction blocks with
  | nil =>
    cases begins with
    | true => exact h
    | false => exact .inl rfl
  | cons block blocks ih => exact .inr ih

/-- A line without markers of the blocks leaves them open as they are. -/
theorem after_append {blocks : OpenBlocks} {line : Line} (h : Untouched blocks [line])
    (inner : OpenBlocks) : after (blocks ++ inner) line = blocks ++ after inner line := by
  induction blocks with
  | nil => rfl
  | cons block blocks ih =>
    obtain ⟨kind, depth⟩ := block
    obtain ⟨⟨hkind, hmarkers⟩, hblocks⟩ := List.forall_mem_cons.1 h
    obtain ⟨hopens, hcloses⟩ := hmarkers line (List.mem_singleton_self line)
    rw [List.cons_append, after, depthAfter?_eq_self hopens hcloses]
    dsimp only
    rw [if_neg hkind, ih hblocks, List.cons_append]

/-- A line without markers of the outer blocks ends none of them. -/
theorem not_ends_append {blocks : OpenBlocks} {line : Line} (h : Untouched blocks [line])
    (begins : Bool) : ¬ Ends (blocks ++ commenting begins) line := by
  induction blocks with
  | nil =>
    cases begins with
    | true => exact id
    | false => exact fun hends => hends.1 rfl
  | cons block blocks ih =>
    obtain ⟨kind, depth⟩ := block
    obtain ⟨⟨hkind, hmarkers⟩, hblocks⟩ := List.forall_mem_cons.1 h
    obtain ⟨hopens, hcloses⟩ := hmarkers line (List.mem_singleton_self line)
    rintro ⟨-, hnone | hends⟩
    · rw [depthAfter?_eq_self hopens hcloses] at hnone
      cases hnone
    · exact ih hblocks hends

end OpenBlocks

/-- Blocks that some lines leave alone are left alone by a part of them. -/
theorem Untouched.mono {blocks : OpenBlocks} {lines more : List Line} (h : Untouched blocks lines)
    (hsubset : more ⊆ lines) : Untouched blocks more :=
  fun block hblock =>
    ⟨(h block hblock).1, fun line hline => (h block hblock).2 line (hsubset hline)⟩

/-- Whatever its text is, a line of a comment leaves the same blocks open if the comment goes on or
ends behind it. -/
theorem Alike.comment_cons {begins ends : Bool} {blocks : OpenBlocks} {line line' : Line}
    {rest rest' : List Line} (hbegins : opens .comment line = begins)
    (hbegins' : opens .comment line' = begins) (hends : closes .comment line = ends)
    (hends' : closes .comment line' = ends) (huntouched : Untouched blocks [line])
    (huntouched' : Untouched blocks [line'])
    (hrest : Alike (blocks ++ commenting ends) (blocks ++ commenting ends) rest rest') :
    Alike (blocks ++ commenting begins) (blocks ++ commenting begins) (line :: rest)
      (line' :: rest') := by
  have hafter := after_append huntouched (commenting begins)
  have hafter' := after_append huntouched' (commenting begins)
  rw [after_commenting hbegins, hends] at hafter
  rw [after_commenting hbegins', hends'] at hafter'
  refine .comment (inComment_append hbegins blocks) (inComment_append hbegins' blocks) ?_
    (fun hnone => absurd hnone (not_ends_append huntouched begins)) ?_
  · rw [hafter, hafter']
  · rw [hafter, hafter']
    exact hrest

/-- Comments of as many lines may stand for each other if they leave the blocks around them
alone. -/
theorem Alike.comment_append {begins : Bool} {blocks : OpenBlocks}
    {comment comment' rest rest' : List Line}
    (hcomment : CommentLines begins comment) (hcomment' : CommentLines begins comment')
    (hlength : comment.length = comment'.length) (huntouched : Untouched blocks comment)
    (huntouched' : Untouched blocks comment') (hrest : Alike blocks blocks rest rest') :
    Alike (blocks ++ commenting begins) (blocks ++ commenting begins) (comment ++ rest)
      (comment' ++ rest') := by
  induction hcomment generalizing comment' with
  | last hbegins hends =>
    cases hcomment' with
    | more _ _ hmore => cases hmore <;> cases hlength
    | last hbegins' hends' =>
      refine .comment_cons hbegins hbegins' hends hends' huntouched huntouched' ?_
      rw [commenting, List.append_nil]
      exact hrest
  | more hbegins hends hmore ih =>
    cases hcomment' with
    | last => cases hmore <;> cases hlength
    | more hbegins' hends' hmore' =>
      have hlater :=
        ih hmore' (Nat.succ.inj hlength) (huntouched.mono (by simp)) (huntouched'.mono (by simp))
      exact .comment_cons hbegins hbegins' hends hends' (huntouched.mono (by simp))
        (huntouched'.mono (by simp)) hlater

/-- Two documents are equal but for the text of whole comments. What may stand in a comment can
depend on the blocks that are open around it. -/
inductive Recommented (Fits : OpenBlocks → List Line → Prop) :
    OpenBlocks → List Line → List Line → Prop
  | nil {blocks : OpenBlocks} : Recommented Fits blocks [] []
  | line {blocks : OpenBlocks} {line : Line} {rest rest' : List Line}
      (hrest : Recommented Fits (blocks.after line) rest rest') :
    Recommented Fits blocks (line :: rest) (line :: rest')
  | comment {blocks : OpenBlocks} {comment comment' rest rest' : List Line}
      (hcomment : CommentLines true comment) (hcomment' : CommentLines true comment')
      (hlength : comment.length = comment'.length) (hfits : Fits blocks comment)
      (hfits' : Fits blocks comment') (hrest : Recommented Fits blocks rest rest') :
    Recommented Fits blocks (comment ++ rest) (comment' ++ rest')

/-- Documents whose comments leave the blocks around them alone are alike. -/
theorem Recommented.alike {blocks : OpenBlocks} {lines lines' : List Line}
    (h : Recommented Untouched blocks lines lines') : Alike blocks blocks lines lines' := by
  induction h with
  | nil => exact .nil
  | line hrest ih => exact .line rfl ih
  | @comment blocks _ _ _ _ hcomment hcomment' hlength hfits hfits' hrest ih =>
    have happend := Alike.comment_append hcomment hcomment' hlength hfits hfits' ih
    rwa [commenting, List.append_nil] at happend

namespace Compiler

/-- What stands in a comment has no effect, as long as the blocks around the comment end where they
do. -/
theorem compile_eq_of_alike (lines lines' : List Line) :
    (Recommented Untouched [] lines lines' → Alike [] [] lines lines') ∧
      (Alike [] [] lines lines' → ∀ (compiler : Compiler) (name : String),
        compiler.compile name lines = compiler.compile name lines' ∧
          compiler.compileDocument name lines = compiler.compileDocument name lines') := by
  refine ⟨Recommented.alike, fun h compiler name => ?_⟩
  have hlines : Template.compileLines compiler.resolve name lines =
      Template.compileLines compiler.resolve name lines' :=
    Alike.compileLines_congr compiler.resolve (Alike.cutLines_eq compiler.resolve h 1) name
  constructor
  · rw [compile, compile, hlines]
  · have hdocument : Template.compileDocument compiler.resolve name lines =
        Template.compileDocument compiler.resolve name lines' := by
      unfold Template.compileDocument
      rw [hlines]
    rw [Compiler.compileDocument, Compiler.compileDocument, hdocument]

/-- An order that is marked as paid: its two comments may be written otherwise, even with markers of
other blocks, and nothing changes. -/
theorem compile_eq_of_alike_order :
    let lines := ["\x7b* \x7binclude missing\x7d \x7bif *\x7d\n".toList, "\x7bif paid\x7d\n".toList,
      "\x7b* thanks\n".toList, "\x7bforeach items\x7d *\x7d\n".toList, "Paid.\n".toList,
      "\x7b/if\x7d\n".toList]
    let lines' := ["\x7b* \x7b/if\x7d *\x7d\n".toList, "\x7bif paid\x7d\n".toList,
      "\x7b* \x7bhello world\x7d\n".toList, "*\x7d\n".toList, "Paid.\n".toList,
      "\x7b/if\x7d\n".toList]
    Recommented Untouched [] lines lines' ∧
      ∀ (compiler : Compiler) (name : String),
        compiler.compile name lines = compiler.compile name lines' ∧
          compiler.compileDocument name lines = compiler.compileDocument name lines' := by
  intro lines lines'
  have htop : CommentLines true ["\x7b* \x7binclude missing\x7d \x7bif *\x7d\n".toList] :=
    .last (by decide +kernel) (by decide +kernel)
  have htop' : CommentLines true ["\x7b* \x7b/if\x7d *\x7d\n".toList] :=
    .last (by decide +kernel) (by decide +kernel)
  have hbody :
      CommentLines true ["\x7b* thanks\n".toList, "\x7bforeach items\x7d *\x7d\n".toList] :=
    .more (by decide +kernel) (by decide +kernel) (.last (by decide +kernel) (by decide +kernel))
  have hbody' : CommentLines true ["\x7b* \x7bhello world\x7d\n".toList, "*\x7d\n".toList] :=
    .more (by decide +kernel) (by decide +kernel) (.last (by decide +kernel) (by decide +kernel))
  have hrecommented : Recommented Untouched [] lines lines' :=
    .comment htop htop' rfl (by decide) (by decide) <|
      .line <| .comment hbody hbody' rfl (by decide +kernel) (by decide +kernel) <|
        .line <| .line .nil
  have hsame := compile_eq_of_alike lines lines'
  exact ⟨hrecommented, hsame.2 (hsame.1 hrecommented)⟩

/-- A marker that ends a conditional ends it in a comment as well, and the lines behind the comment
are no longer of its body. -/
theorem compile_ne_of_closing_comment :
    let lines := ["\x7bif paid\x7d\n".toList, "\x7b* thanks *\x7d\n".toList, "Paid.\n".toList,
      "\x7b/if\x7d\n".toList]
    let lines' := ["\x7bif paid\x7d\n".toList, "\x7b* \x7b/if\x7d *\x7d\n".toList, "Paid.\n".toList,
      "\x7b/if\x7d\n".toList]
    Recommented (fun _ _ => True) [] lines lines' ∧
      ((⟨.none, []⟩ : Compiler).compile "page" lines).1 ≠
        ((⟨.none, []⟩ : Compiler).compile "page" lines').1 := by
  intro lines lines'
  have hcomment : CommentLines true ["\x7b* thanks *\x7d\n".toList] :=
    .last (by decide +kernel) (by decide +kernel)
  have hcomment' : CommentLines true ["\x7b* \x7b/if\x7d *\x7d\n".toList] :=
    .last (by decide +kernel) (by decide +kernel)
  refine ⟨.line (.comment hcomment hcomment' rfl trivial trivial (.line (.line .nil))),
    fun heq => ?_⟩
  have hsegments := congrArg (fun result : Except Failure Template =>
    result.toOption.map fun template => template.segments) heq
  revert hsegments
  decide +kernel

end Compiler

end BraceTemplate
