import BraceTemplate.Proofs.Template.Changes
import BraceTemplate.Proofs.Template.Placing

/-!
# Cutting lines in two parts

Where a block ends is found by looking ahead, but not beyond its end. So a document whose blocks all
end is cut the same whatever lines follow it, and these are cut as if they came alone, into the node
that the first part leaves. That a block has no end shows in a warning of the node.
-/

namespace BraceTemplate

open CompileM (Ensures)

/-! ### One block -/

/-- A block that has an end is not prolonged by further lines. -/
theorem endDistance?_append {kind : BlockKind} {depth distance : Nat} {lines : List Line}
    (h : endDistance? kind depth lines = some distance) (more : List Line) :
    endDistance? kind depth (lines ++ more) = some distance := by
  induction lines generalizing depth distance with
  | nil => simp [endDistance?] at h
  | cons line rest ih =>
    rw [List.cons_append]
    simp only [endDistance?] at h ⊢
    generalize (if opens kind line then depth + 1 else depth) = next at h ⊢
    split at h
    · next hcloses =>
      rw [if_pos hcloses]
      split at h
      · next hle => rw [if_pos hle, h]
      · next hlt =>
        obtain ⟨further, hfurther, rfl⟩ := Option.map_eq_some_iff.1 h
        rw [if_neg hlt, ih hfurther, Option.map_some]
    · next hopen =>
      obtain ⟨further, hfurther, rfl⟩ := Option.map_eq_some_iff.1 h
      rw [if_neg hopen, ih hfurther, Option.map_some]

/-- A block that ends is cut out the same whatever lines follow. -/
theorem cutBlock_append {kind : BlockKind} {line : Line} {rest : List Line}
    (h : (cutBlock kind line rest).closed = true) (more : List Line) :
    cutBlock kind line (rest ++ more) =
      { cutBlock kind line rest with rest := (cutBlock kind line rest).rest ++ more } := by
  cases hdistance : endDistance? kind 0 (line :: rest) with
  | none => simp [cutBlock, hdistance] at h
  | some distance =>
    have happend := endDistance?_append hdistance more
    have hlt := endDistance?_lt_length hdistance
    rw [List.cons_append] at happend
    rw [List.length_cons] at hlt
    match distance with
    | 0 => simp only [cutBlock, hdistance, happend]
    | 1 =>
      obtain ⟨next, rest, rfl⟩ := List.exists_cons_of_length_pos (by omega : 0 < rest.length)
      simp only [cutBlock, hdistance, happend]
      rfl
    | further + 2 =>
      simp only [cutBlock, hdistance, happend, List.append_assoc,
        List.take_append_of_le_length (by omega : further + 1 ≤ rest.length),
        List.drop_append_of_le_length (by omega : further + 2 ≤ rest.length)]

/-! ### Blocks with a body -/

namespace Opening

/-- A block with a body opens on a line. A comment comes first, and then a repetition. -/
inductive OpensOn (line : Line) : Opening → Prop
  | repetition {name : String} (hcomment : opens .comment line = false)
      (hname : listName? line = some name) : OpensOn line (.repetition name)
  | conditional {source : String} (hcomment : opens .comment line = false)
      (hname : listName? line = none) (hcondition : condition? line = some source) :
    OpensOn line (.conditional source)

/-- Compiles the condition. -/
def check : Opening → Except Error Unit
  | conditional source => ((Expression.compile source).mapError (.ofFault source)).map fun _ => ()
  | repetition _ => .ok ()

/-- A line on which a block with a body opens begins no comment. -/
theorem opens_comment_of_opensOn {line : Line} {opening : Opening} (h : OpensOn line opening) :
    opens .comment line = false := by
  cases h with
  | repetition hcomment => exact hcomment
  | conditional hcomment => exact hcomment

/-- A line on which a block opens has the opening marker of its kind. -/
theorem opens_kind_of_opensOn {line : Line} {opening : Opening} (h : OpensOn line opening) :
    opens opening.kind line = true := by
  cases h with
  | repetition hcomment hname => simp [kind, opens, hname]
  | conditional hcomment hname hcondition => simp [kind, opens, hcondition]

/-- A block that opens on a line is well-formed if its condition can be compiled. -/
theorem wellFormed_of_opensOn {line : Line} {opening : Opening} (h : OpensOn line opening)
    (hcheck : opening.check = .ok ()) : opening.WellFormed := by
  have hargument : ∀ {word : String} {allowed : Char → Bool} {found : String},
      allowed '\x7d' = false → (argument? word allowed line).map String.ofList = some found →
      found.toList ≠ [] ∧ ∀ c ∈ found.toList, allowed c = true := by
    intro word allowed found hbrace hfound
    obtain ⟨argument, hargument, rfl⟩ := Option.map_eq_some_iff.1 hfound
    obtain ⟨suffix, -, hsuffix⟩ := mem_arguments_iff.1 (List.mem_of_head? hargument)
    obtain ⟨blank, more, -, -, hne, hallowed⟩ := (argumentAt?_eq_some_iff hbrace).1 hsuffix
    rw [String.toList_ofList]
    exact ⟨hne, hallowed⟩
  cases h with
  | repetition hcomment hname =>
    obtain ⟨hne, hallowed⟩ := hargument (by decide) hname
    exact ⟨hne, hallowed, fun source heq => by cases heq⟩
  | @conditional source hcomment hname hcondition =>
    obtain ⟨hne, hallowed⟩ := hargument (by decide) hcondition
    refine ⟨hne, hallowed, fun other heq => ?_⟩
    cases heq
    cases hcompile : Expression.compile source with
    | ok condition => exact ⟨condition, rfl⟩
    | error fault => simp [check, hcompile, Except.mapError, Except.map] at hcheck

end Opening

/-- A line on which no block is cut out. -/
structure Plain (line : Line) : Prop where
  comment : opens .comment line = false
  name : listName? line = none
  condition : condition? line = none

/-- A line on which no block is cut out, and which includes no document. -/
structure Inert (line : Line) : Prop extends Plain line where
  includes : includePaths line = []

instance (line : Line) : Decidable (Inert line) :=
  decidable_of_iff
    (opens .comment line = false ∧ listName? line = none ∧ condition? line = none ∧
      includePaths line = [])
    ⟨fun h => ⟨⟨h.1, h.2.1, h.2.2.1⟩, h.2.2.2⟩,
      fun h => ⟨h.comment, h.name, h.condition, h.includes⟩⟩

/-- A line that begins no comment and has no marker with an argument is inert. -/
theorem inert_of_arguments_eq_nil {line : Line} (hcomment : opens .comment line = false)
    (hrepetition : arguments "foreach" isNameChar line = [])
    (hconditional : arguments "if" isExpressionChar line = [])
    (hinclude : arguments "include" isPathChar line = []) : Inert line := by
  refine ⟨⟨hcomment, ?_, ?_⟩, ?_⟩
  · rw [listName?, argument?, hrepetition]
    rfl
  · rw [condition?, argument?, hconditional]
    rfl
  · rw [includePaths, hinclude]
    rfl

/-- Lines are gone through as their blocks are cut out, with one case for all blocks that have a
body. -/
@[elab_as_elim]
theorem block_induction {motive : List Line → Prop} (nil : motive [])
    (comment : ∀ line rest, opens .comment line = true →
      motive (cutBlock .comment line rest).rest → motive (line :: rest))
    (block : ∀ line rest opening, Opening.OpensOn line opening →
      motive (cutBlock opening.kind line rest).body →
      motive (cutBlock opening.kind line rest).rest → motive (line :: rest))
    (plain : ∀ line rest, opens .comment line = false → listName? line = none →
      condition? line = none → motive rest → motive (line :: rest)) :
    ∀ lines, motive lines := by
  intro lines
  induction lines using Template.cut_induction with
  | nil => exact nil
  | comment line rest hcomment ihRest => exact comment line rest hcomment ihRest
  | repetition line rest key hcomment hname ihBody ihRest =>
    exact block line rest _ (.repetition hcomment hname) ihBody ihRest
  | conditional line rest source hcomment hname hcondition ihBody ihRest =>
    exact block line rest _ (.conditional hcomment hname hcondition) ihBody ihRest
  | plain line rest hcomment hname hcondition ihRest =>
    exact plain line rest hcomment hname hcondition ihRest

/-- All blocks that are cut out of lines have an end. -/
inductive Closed : List Line → Prop
  | nil : Closed []
  | comment {line : Line} {rest : List Line} (hcomment : opens .comment line = true)
      (hclosed : (cutBlock .comment line rest).closed = true)
      (hrest : Closed (cutBlock .comment line rest).rest) : Closed (line :: rest)
  | block {line : Line} {rest : List Line} {opening : Opening} (hopens : opening.OpensOn line)
      (hclosed : (cutBlock opening.kind line rest).closed = true)
      (hrest : Closed (cutBlock opening.kind line rest).rest) : Closed (line :: rest)
  | plain {line : Line} {rest : List Line} (hcomment : opens .comment line = false)
      (hname : listName? line = none) (hcondition : condition? line = none)
      (hrest : Closed rest) : Closed (line :: rest)

namespace Template

variable (resolve : String → CompileM Template)

/-- Inert lines stay as they are when blocks are cut out. -/
theorem cutLines_of_inert (resolve : String → CompileM Template) {lines : List Line}
    (h : ∀ line ∈ lines, Inert line) (number : Nat) (template : Template) :
    cutLines resolve number lines template = pure (lines, template) := by
  induction lines generalizing number with
  | nil => exact cutLines_nil ..
  | cons line lines ih =>
    rw [List.forall_mem_cons] at h
    rw [cutLines_plain _ _ _ _ h.1.comment h.1.name h.1.condition, h.1.includes,
      addIncludes, pure_bind, ih h.2]
    rfl

/-- A block with a body leaves its placeholder behind, and the node gains the body. -/
theorem cutLines_opening {opening : Opening} {line : Line} (h : opening.OpensOn line)
    (number : Nat) (rest : List Line) (template : Template) :
    cutLines resolve number (line :: rest) template = (do
      CompileM.lift opening.check
      let placeholder := ⟨opening.placeholderKind, opening.key,
        (template.bodies opening.placeholderKind).count opening.key⟩
      let cut := cutBlock opening.kind line rest
      let body ← compileLines resolve (bodyName template.name placeholder) cut.body
      let (left, changed) ← cutLines resolve (number + 1) cut.rest
        (opening.addBody (template.noteCut opening.kind number cut) body)
      return (placeholder.text :: left, changed)) := by
  cases h with
  | repetition hcomment hname => rw [cutLines_repetition _ _ _ _ hcomment hname]; rfl
  | @conditional source hcomment hname hcondition =>
    rw [cutLines_conditional _ _ _ _ hcomment hname hcondition, Opening.check]
    cases hcompile : Expression.compile source with
    | error fault => rfl
    | ok condition =>
      simp only [Except.mapError, Except.map, CompileM.lift, pure_bind,
        Opening.addBody_conditional hcompile, Expression.id_of_compile hcompile]
      rfl

/-- Lines behind a document whose blocks all end are cut on their own, into the node that the
document leaves. -/
theorem cutLines_append {lines : List Line} (h : Closed lines) (more : List Line) (number : Nat)
    (template : Template) :
    cutLines resolve number (lines ++ more) template = (do
      let (left, between) ← cutLines resolve number lines template
      let (left', changed) ← cutLines resolve (number + lines.length) more between
      return (left ++ left', changed)) := by
  induction h generalizing number template with
  | nil =>
    rw [List.nil_append, cutLines_nil, pure_bind]
    simp
  | @comment line rest hcomment hclosed hrest ih =>
    rw [List.cons_append, cutLines_comment _ _ _ _ hcomment, cutLines_comment _ _ _ _ hcomment]
    dsimp only
    rw [cutBlock_append hclosed, ih]
    simp [noteCut, length_rest_cutBlock, Nat.add_assoc, Nat.add_comm 1]
  | @block line rest opening hopens hclosed hrest ih =>
    rw [List.cons_append, cutLines_opening _ hopens, cutLines_opening _ hopens]
    dsimp only
    rw [cutBlock_append hclosed]
    simp [ih, noteCut, length_rest_cutBlock, Nat.add_assoc, Nat.add_comm 1]
  | @plain line rest hcomment hname hcondition hrest ih =>
    rw [List.cons_append, cutLines_plain _ _ _ _ hcomment hname hcondition,
      cutLines_plain _ _ _ _ hcomment hname hcondition]
    simp [ih, Nat.add_assoc, Nat.add_comm 1]

/-! ### Blocks without an end -/

/-- Including documents adds no warning to the node itself. -/
theorem ensures_addIncludes_ownWarnings (paths : List String) (template : Template) :
    Ensures (addIncludes resolve paths template) fun changed =>
      changed.ownWarnings = template.ownWarnings := by
  induction paths generalizing template with
  | nil => exact .pure rfl
  | cons path paths ih =>
    rw [addIncludes]
    split
    · exact ih template
    · exact .bind (P := fun _ => True) (fun _ _ _ _ => trivial) fun document _ => ih _

/-- No warning is lost while lines are cut, and without a warning of a block that has no end all
blocks have one. -/
def WarnsUnclosed (lines : List Line) (template changed : Template) : Prop :=
  template.ownWarnings ⊆ changed.ownWarnings ∧
    ((∀ kind number, .unclosedBlock kind number ∉ changed.ownWarnings) → Closed lines)

/-- What is known of the lines behind a block tells whether the block itself has an end. -/
theorem WarnsUnclosed.of_noteCut {rest : List Line} {template between changed : Template}
    (h : WarnsUnclosed rest between changed) {kind : BlockKind} {number : Nat} {cut : Cut}
    (hnoted : between.ownWarnings = (template.noteCut kind number cut).ownWarnings) :
    template.ownWarnings ⊆ changed.ownWarnings ∧
      ((∀ kind number, .unclosedBlock kind number ∉ changed.ownWarnings) →
        cut.closed = true ∧ Closed rest) := by
  obtain ⟨hkept, hclosed⟩ := h
  rw [hnoted, noteCut] at hkept
  split at hkept
  · next hend => exact ⟨hkept, fun hnone => ⟨hend, hclosed hnone⟩⟩
  · have hwarning : .unclosedBlock kind number ∈ changed.ownWarnings := hkept (by simp)
    exact ⟨fun warning hmem => hkept (List.mem_append_left _ hmem),
      fun hnone => absurd hwarning (hnone kind number)⟩

/-- Cutting loses no warning, and adds one for every block that has no end. -/
theorem ensures_warnsUnclosed (lines : List Line) (number : Nat) (template : Template) :
    Ensures (cutLines resolve number lines template) fun cut =>
      WarnsUnclosed lines template cut.2 := by
  have hany : ∀ {α : Type} (m : CompileM α), Ensures m fun _ => True := fun _ _ _ _ _ => trivial
  induction lines using block_induction generalizing number template with
  | nil =>
    rw [cutLines_nil]
    exact .pure ⟨List.Subset.refl _, fun _ => .nil⟩
  | comment line rest hcomment ihRest =>
    rw [cutLines_comment _ _ _ _ hcomment]
    refine .bind (ihRest _ _) fun cut hcut => .pure ?_
    obtain ⟨hkept, hclosed⟩ := hcut.of_noteCut rfl
    exact ⟨hkept, fun hnone => .comment hcomment (hclosed hnone).1 (hclosed hnone).2⟩
  | block line rest opening hopens ihBody ihRest =>
    rw [cutLines_opening _ hopens]
    refine .bind (.lift fun _ hcheck => hcheck) fun _ hcheck => ?_
    refine .bind (hany _) fun body _ => .bind (ihRest _ _) fun cut hcut => .pure ?_
    have hgains := Opening.gainsBody_addBody (Opening.wellFormed_of_opensOn hopens hcheck)
    obtain ⟨hkept, hclosed⟩ := hcut.of_noteCut (hgains _ body).ownWarnings
    exact ⟨hkept, fun hnone => .block hopens (hclosed hnone).1 (hclosed hnone).2⟩
  | plain line rest hcomment hname hcondition ihRest =>
    rw [cutLines_plain _ _ _ _ hcomment hname hcondition]
    refine .bind (ensures_addIncludes_ownWarnings resolve _ template) fun between hbetween => ?_
    refine .bind (ihRest _ _) fun cut hcut => .pure ?_
    exact ⟨hbetween ▸ hcut.1, fun hnone => .plain hcomment hname hcondition (hcut.2 hnone)⟩

end Template

end BraceTemplate
