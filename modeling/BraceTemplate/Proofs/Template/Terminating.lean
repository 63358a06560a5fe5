import Mathlib.Data.Finset.Card
import BraceTemplate.Proofs.Template.OpenPaths
import BraceTemplate.Proofs.Template.Splitting

/-!
# Compiling ends

Compiling lines calls itself for the bodies that are cut out of them, and for the documents that
they include. A body is less text than the lines it is cut out of. An included document may be of
any length, but while it is compiled one more document is open. So for documents in a table every
chain of calls ends. It follows that the calls determine what lines are compiled to: the depth up to
which a compiler follows includes is out of the account, and the recursion that does without it has
one solution only.
-/

namespace BraceTemplate

open CompileM (AgreeAt Yields congruent_agreeAt)

/-! ### The text of a body -/

/-- The weight of lines is the number of their characters and that of the lines themselves. -/
theorem length_flatten_add_length (lines : List Line) :
    lines.flatten.length + lines.length = weight lines := by
  induction lines with
  | nil => rfl
  | cons line lines ih =>
    simp only [List.flatten_cons, List.length_append, List.length_cons, weight_cons]
    omega

/-- A body within a line has fewer characters than the line. -/
theorem length_flatten_inlineBody_lt {line : Line} (h : 0 < line.length) :
    (inlineBody line).flatten.length < line.length := by
  have hweight := length_flatten_add_length (inlineBody line)
  have hle := weight_inlineBody_le line
  cases hbody : inlineBody line with
  | nil => exact h
  | cons body bodies =>
    rw [hbody, List.length_cons] at hweight
    rw [hbody] at hle
    omega

/-- A body is less text than the lines it is cut out of. -/
theorem length_flatten_body_lt {kind : BlockKind} {line : Line} (rest : List Line)
    (h : opens kind line = true) :
    (cutBlock kind line rest).body.flatten.length < (line :: rest).flatten.length := by
  have hpos := length_pos_of_opens h
  rw [List.flatten_cons, List.length_append]
  unfold cutBlock
  split
  · dsimp only
    omega
  · have hlt := length_flatten_inlineBody_lt hpos
    dsimp only
    omega
  · next hdistance =>
    have hlt := endDistance?_lt_length hdistance
    cases rest with
    | nil => simp at hlt
    | cons next rest =>
      have hle := length_closingPart_le next
      simp only [List.headD_cons, List.flatten_cons, List.flatten_nil, List.length_append,
        List.length_nil]
      omega
  · next further _ =>
    have hsum :
        (rest.take (further + 1)).flatten.length + (rest.drop (further + 1)).flatten.length =
        rest.flatten.length := by
      rw [← List.length_append, ← List.flatten_append, List.take_append_drop]
    dsimp only
    omega

/-- What is left behind a block is no more text than before the block was cut out. -/
theorem length_flatten_rest_le (kind : BlockKind) (line : Line) (rest : List Line) :
    (cutBlock kind line rest).rest.flatten.length ≤ rest.flatten.length := by
  have hweight := weight_rest_le kind line rest
  have hlength := length_rest_cutBlock kind line rest
  have hrest := length_flatten_add_length rest
  have hcut := length_flatten_add_length (cutBlock kind line rest).rest
  omega

/-! ### The calls -/

/-- The block with a body that opens on a line. -/
def opening? (line : Line) : Option Opening :=
  if opens .comment line then none
  else
    match listName? line with
    | some name => some (.repetition name)
    | none => (condition? line).map .conditional

/-- A block that opens on a line is the one that is found there. -/
theorem opening?_of_opensOn {line : Line} {opening : Opening} (h : opening.OpensOn line) :
    opening? line = some opening := by
  cases h with
  | repetition hcomment hname => simp [opening?, hcomment, hname]
  | conditional hcomment hname hcondition => simp [opening?, hcomment, hname, hcondition]

/-- No block is found on a line that opens none. -/
theorem Plain.opening?_eq {line : Line} (h : Plain line) : opening? line = none := by
  simp [opening?, h.comment, h.name, h.condition]

/-- Cutting the blocks out of lines meets the line with the lines behind it as they are left
then. -/
inductive Meets (line : Line) (rest : List Line) : List Line → Prop
  | here : Meets line rest (line :: rest)
  | comment {first : Line} {others : List Line} (hcomment : opens .comment first = true)
      (hrest : Meets line rest (cutBlock .comment first others).rest) :
      Meets line rest (first :: others)
  | block {first : Line} {others : List Line} {opening : Opening} (hopens : opening.OpensOn first)
      (hrest : Meets line rest (cutBlock opening.kind first others).rest) :
    Meets line rest (first :: others)
  | plain {first : Line} {others : List Line} (hplain : Plain first)
      (hrest : Meets line rest others) :
    Meets line rest (first :: others)

/-- A line that is met has, with those behind it, no more characters than the lines it is met in. -/
theorem Meets.length_flatten_le {line : Line} {rest lines : List Line} (h : Meets line rest lines) :
    (line :: rest).flatten.length ≤ lines.flatten.length := by
  induction h with
  | here => exact Nat.le_refl _
  | @comment first others hcomment hrest ih =>
    have hle := length_flatten_rest_le .comment first others
    simp only [List.flatten_cons, List.length_append] at ih ⊢
    omega
  | @block first others opening hopens hrest ih =>
    have hle := length_flatten_rest_le opening.kind first others
    simp only [List.flatten_cons, List.length_append] at ih ⊢
    omega
  | plain hplain hrest ih =>
    simp only [List.flatten_cons, List.length_append] at ih ⊢
    omega

/-- A body is cut out of lines. -/
def CutsOut (lines body : List Line) : Prop :=
  ∃ line rest, ∃ opening : Opening, Meets line rest lines ∧ opening.OpensOn line ∧
    body = (cutBlock opening.kind line rest).body

/-- Lines include the document at a path. -/
def AsksFor (lines : List Line) (path : String) : Prop :=
  ∃ line rest, Meets line rest lines ∧ Plain line ∧ path ∈ includePaths line

/-- Compiling lines calls itself for the bodies that are cut out of them, and with a further path
open for the documents that they include. -/
inductive Calls (loader : Loader) : (caller callee : List String × List Line) → Prop
  | body {openPaths : List String} {lines body : List Line} (hcuts : CutsOut lines body) :
    Calls loader (openPaths, lines) (openPaths, body)
  | document {openPaths : List String} {lines document : List Line} {path : String}
      (hasks : AsksFor lines path) (hclosed : path ∉ openPaths)
      (hload : loader.load path = .ok document) :
    Calls loader (openPaths, lines) (path :: openPaths, document)

/-- A body has fewer characters than the lines that it is cut out of. -/
theorem CutsOut.length_flatten_lt {lines body : List Line} (h : CutsOut lines body) :
    body.flatten.length < lines.flatten.length := by
  obtain ⟨line, rest, opening, hmeets, hopens, rfl⟩ := h
  exact Nat.lt_of_lt_of_le (length_flatten_body_lt rest (Opening.opens_kind_of_opensOn hopens))
    hmeets.length_flatten_le

namespace Loader

/-- The documents of a table that are open. -/
def openDocuments (documents : Table String) (openPaths : List String) : Finset String :=
  documents.names.toFinset ∩ openPaths.toFinset

/-- The number of documents of a table that are not open. -/
def closedCount (documents : Table String) (openPaths : List String) : Nat :=
  documents.names.toFinset.card - (openDocuments documents openPaths).card

variable {documents : Table String} {openPaths : List String} {path : String}

/-- A document that is opened was not open. -/
theorem openDocuments_ssubset {document : List Line} (hclosed : path ∉ openPaths)
    (hload : (ofDocuments documents).load path = .ok document) :
    openDocuments documents openPaths ⊂ openDocuments documents (path :: openPaths) := by
  have hname : path ∈ documents.names := by
    simp only [ofDocuments] at hload
    split at hload
    · next text htext => exact List.mem_map_of_mem (Table.mem_of_get? htext)
    · cases hload
  rw [Finset.ssubset_iff_of_subset]
  · exact ⟨path, by simp [openDocuments, hname], by simp [openDocuments, hclosed]⟩
  · exact Finset.inter_subset_inter_left fun other hother => by simp_all

/-- To open a document of the table that was closed leaves fewer closed ones. -/
theorem closedCount_lt {document : List Line} (hclosed : path ∉ openPaths)
    (hload : (ofDocuments documents).load path = .ok document) :
    closedCount documents (path :: openPaths) < closedCount documents openPaths := by
  have hlt := Finset.card_lt_card (openDocuments_ssubset hclosed hload)
  have hle : (openDocuments documents (path :: openPaths)).card ≤ documents.names.toFinset.card :=
    Finset.card_le_card Finset.inter_subset_left
  unfold closedCount
  omega

/-- The documents of a table are spared that are not open, whatever else is open. -/
theorem spares_ofDocuments (documents : Table String) :
    (ofDocuments documents).Spares (fun _ _ => True) (closedCount documents) :=
  ⟨fun _ hclosed hload => closedCount_lt hclosed hload, fun _ _ _ _ _ => trivial⟩

/-- There are always more levels than closed documents. -/
theorem closedCount_lt_depth (documents : Table String) (openPaths : List String) :
    closedCount documents openPaths < (ofDocuments documents).depth := by
  have hle := documents.names.toFinset_card_le
  simp only [closedCount, ofDocuments, Table.names, List.length_map] at hle ⊢
  omega

end Loader

open Loader (openDocuments closedCount closedCount_lt closedCount_lt_depth)

/-- With each call one more document is open, or the same paths are open and there is less text. -/
theorem Calls.lex_lt {documents : Table String} {caller callee : List String × List Line}
    (h : Calls (.ofDocuments documents) caller callee) :
    Prod.Lex (· < ·) (· < ·) (closedCount documents callee.1, callee.2.flatten.length)
      (closedCount documents caller.1, caller.2.flatten.length) := by
  cases h with
  | body hcuts => exact .right _ hcuts.length_flatten_lt
  | document hasks hclosed hload => exact .left _ _ (closedCount_lt hclosed hload)

/-- Every chain of calls ends. -/
theorem wellFounded_calls (documents : Table String) :
    WellFounded fun callee caller => Calls (.ofDocuments documents) caller callee :=
  Subrelation.wf Calls.lex_lt
    (InvImage.wf (fun call : List String × List Line =>
        (closedCount documents call.1, call.2.flatten.length))
      (WellFounded.prod_lex Nat.lt_wfRel.wf Nat.lt_wfRel.wf))

namespace Template

/-! ### One round of compiling -/

/-- Cuts the blocks out of lines, but leaves it to `compile` what becomes of the bodies. -/
def cutOnce (compile : String → List Line → CompileM Template)
    (resolve : String → CompileM Template) (number : Nat) (lines : List Line)
    (template : Template) : CompileM (List Line × Template) :=
  match lines with
  | [] => return ([], template)
  | line :: rest =>
    if opens .comment line then do
      let cut := cutBlock .comment line rest
      let (left, template) ← cutOnce compile resolve (number + 1) cut.rest
        (template.noteCut .comment number cut)
      return ([] :: left, template)
    else
      match opening? line with
      | some opening => do
        CompileM.lift opening.check
        let placeholder := ⟨opening.placeholderKind, opening.key,
          (template.bodies opening.placeholderKind).count opening.key⟩
        let cut := cutBlock opening.kind line rest
        let body ← compile (bodyName template.name placeholder) cut.body
        let (left, changed) ← cutOnce compile resolve (number + 1) cut.rest
          (opening.addBody (template.noteCut opening.kind number cut) body)
        return (placeholder.text :: left, changed)
      | none => do
        let template ← addIncludes resolve (includePaths line) template
        let (left, template) ← cutOnce compile resolve (number + 1) rest template
        return (line :: left, template)
termination_by lines.length
decreasing_by all_goals simp [length_rest_cutBlock]

/-- Loads the document at `path` unless it is open, and leaves it to `compile` what becomes of its
lines. -/
def resolveOnce (loader : Loader) (compile : String → List Line → CompileM Template)
    (path : String) : CompileM Template := do
  if path ∈ (← get) then throw (.error (.includeCycle path))
  else
    let lines ← CompileM.lift (loader.load path)
    within path (compile path lines)

/-- Compiles lines, but leaves it to `compile` what becomes of bodies and of included documents. -/
def compileOnce (loader : Loader) (compile : String → List Line → CompileM Template) (name : String)
    (lines : List Line) : CompileM Template := do
  let (left, template) ← cutOnce compile (resolveOnce loader compile) 1 lines (.empty name)
  CompileM.lift (template.complete left)

section Rounds

variable {compile compile' : String → List Line → CompileM Template}
  {resolve resolve' : String → CompileM Template} {openPaths : List String}

/-- A comment is cut out with nothing left behind. -/
theorem cutOnce_comment {line : Line} (hcomment : opens .comment line = true) (number : Nat)
    (rest : List Line) (template : Template) :
    cutOnce compile resolve number (line :: rest) template = (do
      let cut := cutBlock .comment line rest
      let (left, template) ← cutOnce compile resolve (number + 1) cut.rest
        (template.noteCut .comment number cut)
      return ([] :: left, template)) := by
  rw [cutOnce, if_pos hcomment]

/-- A block with a body leaves its placeholder, and its body is handed to what is to be done with
it. -/
theorem cutOnce_opening {line : Line} {opening : Opening} (hopens : opening.OpensOn line)
    (number : Nat) (rest : List Line) (template : Template) :
    cutOnce compile resolve number (line :: rest) template = (do
      CompileM.lift opening.check
      let placeholder := ⟨opening.placeholderKind, opening.key,
        (template.bodies opening.placeholderKind).count opening.key⟩
      let cut := cutBlock opening.kind line rest
      let body ← compile (bodyName template.name placeholder) cut.body
      let (left, changed) ← cutOnce compile resolve (number + 1) cut.rest
        (opening.addBody (template.noteCut opening.kind number cut) body)
      return (placeholder.text :: left, changed)) := by
  rw [cutOnce, if_neg (by simp [Opening.opens_comment_of_opensOn hopens]),
    opening?_of_opensOn hopens]

/-- A line that opens no block stays, and the documents that it asks for are included. -/
theorem cutOnce_plain {line : Line} (hplain : Plain line) (number : Nat) (rest : List Line)
    (template : Template) :
    cutOnce compile resolve number (line :: rest) template = (do
      let template ← addIncludes resolve (includePaths line) template
      let (left, template) ← cutOnce compile resolve (number + 1) rest template
      return (line :: left, template)) := by
  rw [cutOnce, if_neg (by simp [hplain.comment]), hplain.opening?_eq]

/-- The bodies that are cut out of lines are compiled like documents of their own. -/
theorem cutLines_eq_cutOnce (resolve : String → CompileM Template) (number : Nat)
    (lines : List Line) (template : Template) :
    cutLines resolve number lines template =
      cutOnce (compileLines resolve) resolve number lines template := by
  induction lines using block_induction generalizing number template with
  | nil => rw [cutLines_nil, cutOnce]
  | comment line rest hcomment ihRest =>
    rw [cutLines_comment _ _ _ _ hcomment, cutOnce_comment hcomment]
    simp only [ihRest]
  | block line rest opening hopens ihBody ihRest =>
    rw [cutLines_opening _ hopens, cutOnce_opening hopens]
    simp only [ihRest]
  | plain line rest hcomment hname hcondition ihRest =>
    rw [cutLines_plain _ _ _ _ hcomment hname hcondition,
      cutOnce_plain ⟨hcomment, hname, hcondition⟩]
    simp only [ihRest]

/-- Cutting asks for no other bodies and documents than those that the lines call for. -/
theorem agreeAt_cutOnce {lines : List Line}
    (hbody : ∀ body, CutsOut lines body →
      ∀ name, AgreeAt openPaths (compile name body) (compile' name body))
    (hpath : ∀ path, AsksFor lines path → AgreeAt openPaths (resolve path) (resolve' path))
    (number : Nat) (template : Template) :
    AgreeAt openPaths (cutOnce compile resolve number lines template)
      (cutOnce compile' resolve' number lines template) := by
  induction lines using block_induction generalizing number template with
  | nil =>
    rw [cutOnce, cutOnce]
    exact .pure _
  | comment line rest hcomment ihRest =>
    rw [cutOnce_comment hcomment, cutOnce_comment hcomment]
    refine .bind (ihRest (fun body hcuts => hbody body ?_) (fun path hasks => hpath path ?_) _ _)
      fun _ => .pure _
    · obtain ⟨met, behind, opening, hmeets, hfound⟩ := hcuts
      exact ⟨met, behind, opening, .comment hcomment hmeets, hfound⟩
    · obtain ⟨met, behind, hmeets, hfound⟩ := hasks
      exact ⟨met, behind, .comment hcomment hmeets, hfound⟩
  | block line rest opening hopens ihBody ihRest =>
    rw [cutOnce_opening hopens, cutOnce_opening hopens]
    refine .bind (.lift _) fun _ =>
      .bind (hbody _ ⟨line, rest, opening, .here, hopens, rfl⟩ _) fun body => ?_
    refine .bind (ihRest (fun body hcuts => hbody body ?_) (fun path hasks => hpath path ?_) _ _)
      fun _ => .pure _
    · obtain ⟨met, behind, found, hmeets, hfound⟩ := hcuts
      exact ⟨met, behind, found, .block hopens hmeets, hfound⟩
    · obtain ⟨met, behind, hmeets, hfound⟩ := hasks
      exact ⟨met, behind, .block hopens hmeets, hfound⟩
  | plain line rest hcomment hname hcondition ihRest =>
    have hplain : Plain line := ⟨hcomment, hname, hcondition⟩
    rw [cutOnce_plain hplain, cutOnce_plain hplain]
    refine .bind (congruent_addIncludes (congruent_agreeAt openPaths)
      (fun path hmem => hpath path ⟨line, rest, .here, hplain, hmem⟩) template) fun template => ?_
    refine .bind (ihRest (fun body hcuts => hbody body ?_) (fun path hasks => hpath path ?_) _ _)
      fun _ => .pure _
    · obtain ⟨met, behind, opening, hmeets, hfound⟩ := hcuts
      exact ⟨met, behind, opening, .plain hplain hmeets, hfound⟩
    · obtain ⟨met, behind, hmeets, hfound⟩ := hasks
      exact ⟨met, behind, .plain hplain hmeets, hfound⟩

/-- A path is refused if it is open, and otherwise its lines are compiled with the path open. -/
theorem resolveOnce_apply (loader : Loader) (compile : String → List Line → CompileM Template)
    (path : String) (openPaths : List String) :
    resolveOnce loader compile path openPaths =
      if path ∈ openPaths then (.error (.error (.includeCycle path)), openPaths)
      else
        match loader.load path with
        | .ok lines => within path (compile path lines) openPaths
        | .error error => (.error (.error error), openPaths) := by
  change (if path ∈ openPaths then _ else _ : CompileM Template) openPaths = _
  split
  · rfl
  · cases loader.load path <;> rfl

/-- What lines are compiled to depends on the calls that they make, and on nothing else. -/
theorem agreeAt_compileOnce {loader : Loader} {lines : List Line}
    (h : ∀ callee, Calls loader (openPaths, lines) callee →
      ∀ name, AgreeAt callee.1 (compile name callee.2) (compile' name callee.2)) (name : String) :
    AgreeAt openPaths (compileOnce loader compile name lines)
      (compileOnce loader compile' name lines) := by
  have hbody : ∀ body, CutsOut lines body →
      ∀ name, AgreeAt openPaths (compile name body) (compile' name body) :=
    fun body hcuts => h (openPaths, body) (.body hcuts)
  have hpath : ∀ path, AsksFor lines path →
      AgreeAt openPaths (resolveOnce loader compile path) (resolveOnce loader compile' path) := by
    intro path hasks
    unfold AgreeAt
    rw [resolveOnce_apply, resolveOnce_apply]
    split
    · exact ⟨rfl, rfl⟩
    · next hclosed =>
      cases hload : loader.load path with
      | error error => exact ⟨rfl, rfl⟩
      | ok document =>
        exact agreeAt_within (h (path :: openPaths, document) (.document hasks hclosed hload) path)
  exact (agreeAt_cutOnce hbody hpath 1 (empty name)).bind fun _ => .lift _

end Rounds

/-! ### Documents in a table -/

section Documents

variable {documents : Table String}

/-- A further level of depth compiles the included documents with the levels that are left. -/
theorem compilePath_succ_eq_resolveOnce (loader : Loader) (depth : Nat) :
    compilePath loader (depth + 1) = resolveOnce loader (compileLines (compilePath loader depth)) :=
  rfl

/-- Including goes on without a depth that it is limited to. -/
theorem compilePath_eq_resolveOnce (documents : Table String) :
    let loader := Loader.ofDocuments documents
    compilePath loader loader.depth =
      resolveOnce loader (compileLines (compilePath loader loader.depth)) := by
  intro loader
  rw [← compilePath_succ_eq_resolveOnce]
  funext path openPaths
  exact (agreeAt_compilePath_of_spares (Loader.spares_ofDocuments documents) trivial
    (closedCount_lt_depth documents openPaths)).1

/-- Over a table of documents, compiling lines is one step of compilation whose bodies and documents
are compiled in the same way. -/
theorem compileLines_eq_compileOnce (documents : Table String) :
    let loader := Loader.ofDocuments documents
    compileLines (compilePath loader loader.depth) =
      compileOnce loader (compileLines (compilePath loader loader.depth)) := by
  intro loader
  funext name lines
  rw [compileOnce, ← compilePath_eq_resolveOnce]
  simp only [compileLines, cutLines_eq_cutOnce]
  rfl

/-- Whatever solves the recursion compiles lines as a compiler does, by induction on the calls. -/
theorem agreeAt_of_eq_compileOnce {compile : String → List Line → CompileM Template}
    (h : compile = compileOnce (.ofDocuments documents) compile) (call : List String × List Line)
    (name : String) :
    let loader := Loader.ofDocuments documents
    AgreeAt call.1 (compile name call.2)
      (compileLines (compilePath loader loader.depth) name call.2) := by
  intro loader
  induction call using (wellFounded_calls documents).induction generalizing name with
  | h call ih =>
    rw [h, compileLines_eq_compileOnce]
    exact agreeAt_compileOnce ih name

/-- Over a table of documents no request fails because the documents go too deep. -/
theorem yields_compilation_ofDocuments (documents : Table String) (openPaths : List String)
    (request : Request) :
    Yields openPaths (Compiler.compilation ⟨.ofDocuments documents, openPaths⟩ request)
      (fun _ => True)
      (· ≠ .tooDeep) := by
  have hresolve : ∀ path openPaths, Yields openPaths
      (compilePath (.ofDocuments documents) (Loader.ofDocuments documents).depth path)
      (fun _ => True) (· ≠ .tooDeep) := fun path openPaths =>
    yields_compilePath_of_spares (Loader.spares_ofDocuments documents) trivial
      (closedCount_lt_depth documents openPaths)
  cases request with
  | lines name lines =>
    exact yields_compileLines (fun _ _ => by simp) (fun _ _ _ => trivial)
      (fun path _ => hresolve path openPaths) name
  | document path lines =>
    exact yields_compileDocument (fun _ _ => by simp) (fun _ _ _ => trivial)
      fun other _ => hresolve other (path :: openPaths)
  | path path => exact hresolve path openPaths

end Documents

end Template

/-- Compiling ends, whatever documents there are and whatever is open. (1) The compiler's way to
compile lines is the only solution of the recursion in which bodies and included documents are
compiled in the same way, without any limit to how deeply. (2) What that recursion makes of lines
depends on the calls that it makes for them, and on nothing else. (3) No chain of calls goes on
forever: the body of a block is less text than the lines it is cut out of, and with an included
document more documents are open. (4) No request is ever turned down because documents include each
other too deeply. -/
theorem compiling_ends (documents : Table String) :
    let loader := Loader.ofDocuments documents
    let compile := Template.compileLines (Template.compilePath loader loader.depth)
    (∀ other, other = Template.compileOnce loader other ↔ other = compile) ∧
    (∀ other other' openPaths lines,
      (∀ callee, Calls loader (openPaths, lines) callee →
        ∀ name, AgreeAt callee.1 (other name callee.2) (other' name callee.2)) →
      ∀ name, AgreeAt openPaths (Template.compileOnce loader other name lines)
        (Template.compileOnce loader other' name lines)) ∧
    (WellFounded (fun callee caller => Calls loader caller callee) ∧
      (∀ lines body, CutsOut lines body → body.flatten.length < lines.flatten.length) ∧
      ∀ openPaths path document, path ∉ openPaths → loader.load path = .ok document →
        openDocuments documents openPaths ⊂ openDocuments documents (path :: openPaths)) ∧
    ∀ openPaths request, (Compiler.answer ⟨loader, openPaths⟩ request).1 ≠ .error .tooDeep := by
  intro loader compile
  refine ⟨fun other => ⟨fun h => ?_, ?_⟩, ?_, ⟨wellFounded_calls documents, ?_, ?_⟩, ?_⟩
  · funext name lines openPaths
    exact (Template.agreeAt_of_eq_compileOnce h (openPaths, lines) name).1
  · rintro rfl
    exact Template.compileLines_eq_compileOnce documents
  · exact fun other other' openPaths lines h name => Template.agreeAt_compileOnce h name
  · exact fun lines body hcuts => hcuts.length_flatten_lt
  · exact fun openPaths path document hclosed hload => Loader.openDocuments_ssubset hclosed hload
  · intro openPaths request hrun
    rw [Compiler.answer_eq_run] at hrun
    exact (Template.yields_compilation_ofDocuments documents openPaths request).of_error hrun rfl

/-- A document that includes itself from within a block. -/
def spiral : List Line :=
  ["\x7bif deeper\x7d\n", "\x7binclude spiral\x7d\n", "\x7b/if\x7d\n"].map String.toList

/-- Compiling the document calls for the body of its block, and that calls for the document once
more. There the path is open, so compiling ends. -/
theorem compiling_ends_spiral :
    let documents : Table String := [("spiral", String.ofList spiral.flatten)]
    let body := ["\x7binclude spiral\x7d\n".toList]
    Calls (.ofDocuments documents) ([], spiral) ([], body) ∧
      Calls (.ofDocuments documents) ([], body) (["spiral"], spiral) ∧
      body.flatten.length < spiral.flatten.length ∧
      openDocuments documents [] ⊂ openDocuments documents ["spiral"] ∧
      (Compiler.answer ⟨.ofDocuments documents, []⟩ (.path "spiral")).1 ≠ .error .tooDeep ∧
      (Compiler.answer ⟨.ofDocuments documents, []⟩ (.path "spiral")).1 =
        .error (.error (.includeCycle "spiral")) := by
  intro documents body
  have hload : (Loader.ofDocuments documents).load "spiral" = .ok spiral := by decide +kernel
  have hcuts : CutsOut spiral body :=
    ⟨_, _, .conditional "deeper", .here,
      .conditional (by decide +kernel) (by decide +kernel) (by decide +kernel), by decide +kernel⟩
  have hasks : AsksFor body "spiral" :=
    ⟨_, _, .here, ⟨by decide +kernel, by decide +kernel, by decide +kernel⟩, by decide +kernel⟩
  have hcycle : (match (Compiler.answer ⟨.ofDocuments documents, []⟩ (.path "spiral")).1 with
      | .error failure => some failure
      | .ok _ => none) = some (.error (.includeCycle "spiral")) := by decide +kernel
  obtain ⟨-, -, ⟨-, htext, hopen⟩, hanswer⟩ := compiling_ends documents
  refine ⟨.body hcuts, .document hasks List.not_mem_nil hload, htext spiral body hcuts,
    hopen [] "spiral" spiral List.not_mem_nil hload, hanswer [] (.path "spiral"), ?_⟩
  split at hcycle
  · next failure hresult => rw [hresult, Option.some.inj hcycle]
  · cases hcycle

end BraceTemplate
