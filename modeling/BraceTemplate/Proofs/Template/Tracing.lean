import BraceTemplate.Proofs.Template.Growth
import BraceTemplate.Proofs.Template.Splitting

/-!
# The course of a compilation

Reading a line and cutting the blocks out of lines fail or take one step after another. A successful
course is recorded here with all that its steps have checked, so that what holds of compiled nodes
is shown step by step and without running anything. What stands below a node is again a parameter.
-/

namespace BraceTemplate

open CompileM (Yields)

namespace Template

/-! ### Reading -/

/-- One step of reading a line: it takes up the beginning of a text, yields a piece or none, and may
change the node. -/
inductive ReadStep (number : Nat) : List Char → Template → List Piece → List Char → Template → Prop
  | escape {brace : Char} (hbrace : brace = '\x7b' ∨ brace = '\x7d') (rest : List Char)
      (template : Template) :
    ReadStep number ('\\' :: brace :: rest) template [.char brace] rest template
  | char {c : Char} {rest : List Char} {template : Template}
      (hescape : c = '\\' → ∀ brace ∈ rest.head?, brace ≠ '\x7b' ∧ brace ≠ '\x7d')
      (hplain : c = '\x7b' → ∀ content behind, content? rest = some (content, behind) →
        template.meaning content = .plain) :
    ReadStep number (c :: rest) template [.char c] rest template
  | stray {content rest : List Char} {template : Template} {kind : BlockKind}
      (hbraces : BraceFree content) (hmeaning : template.meaning content = .stray kind) :
    ReadStep number ('\x7b' :: (content ++ '\x7d' :: rest)) template [] rest
      { template with ownWarnings := template.ownWarnings ++ [.unmatchedClose kind number] }
  | segment {content rest : List Char} {template : Template} {found : Segment}
      (hbraces : BraceFree content) (hmeaning : template.meaning content = .segment found) :
    ReadStep number ('\x7b' :: (content ++ '\x7d' :: rest)) template [.segment found] rest
      (template.refer found)
  | expression {content rest : List Char} {template changed : Template} {source : String}
      (hbraces : BraceFree content) (hmeaning : template.meaning content = .expression source)
      (hadd : template.addExpression source = .ok changed) :
    ReadStep number ('\x7b' :: (content ++ '\x7d' :: rest)) template
      [.segment (.expression (Expression.idOf source))] rest changed

/-- The steps from the beginning of a line to its end. -/
inductive Reading (number : Nat) : List Char → Template → List Piece → Template → Prop
  | done (template : Template) : Reading number [] template [] template
  | step {cs rest : List Char} {template between changed : Template} {first more : List Piece}
      (hstep : ReadStep number cs template first rest between)
      (hrest : Reading number rest between more changed) :
    Reading number cs template (first ++ more) changed

/-- A reading with a piece in front comes from the reading without it. -/
theorem exists_of_cons_eq_ok {reading : Except Error (List Piece × Template)} {piece : Piece}
    {pieces : List Piece} {changed : Template}
    (h : (do
      let (pieces, changed) ← reading
      return (piece :: pieces, changed)) = .ok (pieces, changed)) :
    ∃ more, reading = .ok (more, changed) ∧ pieces = [piece] ++ more := by
  cases reading with
  | error error => cases h
  | ok read =>
    cases h
    exact ⟨read.1, rfl, rfl⟩

namespace ReadStep

variable {number : Nat} {cs content rest : List Char} {template changed : Template}
  {pieces : List Piece}

/-- A pair of braces that is found is read in one step. -/
theorem of_content? (hcontent : content? cs = some (content, rest))
    (h : BraceFree content →
      ReadStep number ('\x7b' :: (content ++ '\x7d' :: rest)) template pieces rest changed) :
    ReadStep number ('\x7b' :: cs) template pieces rest changed := by
  have hstep := h (braceFree_of_content? hcontent)
  rwa [← eq_of_content? hcontent] at hstep

/-- An opening brace without a partner, or with plain text up to it, is read as a character. -/
theorem char_open (hplain : ∀ content behind, content? cs = some (content, behind) →
      template.meaning content = .plain) :
    ReadStep number ('\x7b' :: cs) template [.char '\x7b'] cs template :=
  .char (fun heq => by cases heq) fun _ => hplain

/-- A character that opens nothing is read as itself, unless it is a backslash before a brace. -/
theorem char_other {c : Char} (hopen : c ≠ '\x7b')
    (hescape : ∀ behind, c = '\\' → cs = '\x7b' :: behind → False)
    (hescape' : ∀ behind, c = '\\' → cs = '\x7d' :: behind → False) :
    ReadStep number (c :: cs) template [.char c] cs template := by
  refine .char (fun heq brace hbrace => ?_) fun heq => absurd heq hopen
  obtain ⟨behind, rfl⟩ := List.head?_eq_some_iff.1 hbrace
  constructor
  · rintro rfl
    exact hescape behind heq rfl
  · rintro rfl
    exact hescape' behind heq rfl

end ReadStep

/-- A line that is read is read step by step. -/
theorem reading_of_readLine {number : Nat} {cs : List Char} {template changed : Template}
    {pieces : List Piece} (h : readLine number cs template = .ok (pieces, changed)) :
    Reading number cs template pieces changed := by
  fun_induction readLine number cs template generalizing pieces with
  | case1 template =>
    cases h
    exact .done _
  | case2 template rest ih =>
    obtain ⟨more, hmore, rfl⟩ := exists_of_cons_eq_ok h
    exact .step (.escape (.inl rfl) rest template) (ih hmore)
  | case3 template rest ih =>
    obtain ⟨more, hmore, rfl⟩ := exists_of_cons_eq_ok h
    exact .step (.escape (.inr rfl) rest template) (ih hmore)
  | case4 template cs hcontent ih =>
    obtain ⟨more, hmore, rfl⟩ := exists_of_cons_eq_ok h
    refine .step (.char_open fun content behind hfound => ?_) (ih hmore)
    rw [hcontent] at hfound
    cases hfound
  | case5 template cs content rest hcontent hmeaning ih =>
    obtain ⟨more, hmore, rfl⟩ := exists_of_cons_eq_ok h
    refine .step (.char_open fun content' behind hfound => ?_) (ih hmore)
    rw [hcontent] at hfound
    cases hfound
    exact hmeaning
  | case6 template cs content rest hcontent kind hmeaning =>
    rename_i ih
    exact .step (.of_content? hcontent fun hbraces => .stray hbraces hmeaning) (ih h)
  | case7 template cs content rest hcontent segment hmeaning ih =>
    obtain ⟨more, hmore, rfl⟩ := exists_of_cons_eq_ok h
    exact .step (.of_content? hcontent fun hbraces => .segment hbraces hmeaning) (ih hmore)
  | case8 template cs content rest hcontent source hmeaning ih =>
    cases hadd : template.addExpression source with
    | error error =>
      rw [hadd] at h
      cases h
    | ok between =>
      rw [hadd] at h
      obtain ⟨more, hmore, rfl⟩ := exists_of_cons_eq_ok h
      exact .step (.of_content? hcontent fun hbraces => .expression hbraces hmeaning hadd)
        (ih between hmore)
  | case9 template c rest hescape hescape' hopen ih =>
    obtain ⟨more, hmore, rfl⟩ := exists_of_cons_eq_ok h
    exact .step (.char_other hopen hescape hescape') (ih hmore)

/-- What every step of reading does, and what two readings in a row do if each of them does it, a
line does when it is read. -/
theorem Reading.keeps {P : Template → List Piece → Template → Prop}
    (hdone : ∀ template, P template [] template)
    (hstep : ∀ number cs template first rest between,
      ReadStep number cs template first rest between → P template first between)
    (happend : ∀ template first between more changed, P template first between →
      P between more changed → P template (first ++ more) changed)
    {number : Nat} {cs : List Char} {template changed : Template} {pieces : List Piece}
    (h : Reading number cs template pieces changed) : P template pieces changed := by
  induction h with
  | done template => exact hdone template
  | step hfirst hrest ih => exact happend _ _ _ _ _ (hstep _ _ _ _ _ _ hfirst) ih

/-- All lines do it as well. -/
theorem keeps_of_readLines {P : Template → List Piece → Template → Prop}
    (hdone : ∀ template, P template [] template)
    (hstep : ∀ number cs template first rest between,
      ReadStep number cs template first rest between → P template first between)
    (happend : ∀ template first between more changed, P template first between →
      P between more changed → P template (first ++ more) changed)
    {number : Nat} {lines : List Line} {template changed : Template} {pieces : List Piece}
    (h : readLines number lines template = .ok (pieces, changed)) : P template pieces changed := by
  induction lines generalizing number template pieces with
  | nil =>
    cases h
    exact hdone _
  | cons line lines ih =>
    obtain ⟨first, between, more, hline, hlines, rfl⟩ := exists_of_readLines_cons h
    exact happend _ _ _ _ _ ((reading_of_readLine hline).keeps hdone hstep happend) (ih hlines)

/-- Only the names, the expressions and the warnings of a node may have changed. -/
structure Retains (template changed : Template) : Prop where
  name : changed.name = template.name
  segments : changed.segments = template.segments
  scope : changed.scope = template.scope
  conditionals : changed.conditionals = template.conditionals
  repetitions : changed.repetitions = template.repetitions
  includes : changed.includes = template.includes

namespace Retains

variable {template between changed : Template}

/-- Every node is retained as it is. -/
theorem refl (template : Template) : template.Retains template :=
  ⟨rfl, rfl, rfl, rfl, rfl, rfl⟩

/-- What two changes in a row retain, both together retain. -/
theorem trans (h : template.Retains between) (h' : between.Retains changed) :
    template.Retains changed :=
  ⟨h'.name.trans h.name, h'.segments.trans h.segments, h'.scope.trans h.scope,
    h'.conditionals.trans h.conditionals, h'.repetitions.trans h.repetitions,
    h'.includes.trans h.includes⟩

/-- The bodies are retained. -/
theorem bodies (h : template.Retains changed) : changed.bodies = template.bodies := by
  funext kind
  cases kind with
  | conditional => exact h.conditionals
  | repetition => exact h.repetitions

end Retains

/-- One step of reading notes a name, an expression or a warning at most. -/
theorem ReadStep.retains {number : Nat} {cs rest : List Char} {template changed : Template}
    {pieces : List Piece} (h : ReadStep number cs template pieces rest changed) :
    template.Retains changed := by
  cases h with
  | escape | char => exact .refl template
  | stray => exact ⟨rfl, rfl, rfl, rfl, rfl, rfl⟩
  | @segment content _ _ found hbraces hmeaning =>
    cases found <;> exact ⟨rfl, rfl, rfl, rfl, rfl, rfl⟩
  | expression hbraces hmeaning hadd =>
    unfold addExpression at hadd
    split at hadd
    · cases hadd
      exact .refl template
    · split at hadd
      · cases hadd
        exact ⟨rfl, rfl, rfl, rfl, rfl, rfl⟩
      · cases hadd

/-- Reading a line leaves segments, bindings, bodies and documents as they are. -/
theorem Reading.retains {number : Nat} {cs : List Char} {template changed : Template}
    {pieces : List Piece} (h : Reading number cs template pieces changed) :
    template.Retains changed :=
  h.keeps (P := fun template _ changed => template.Retains changed) .refl
    (fun _ _ _ _ _ _ => ReadStep.retains) (fun _ _ _ _ _ => .trans)

/-- Reading lines leaves segments, bindings, bodies and documents as they are. -/
theorem retains_of_readLines {number : Nat} {lines : List Line} {template changed : Template}
    {pieces : List Piece} (h : readLines number lines template = .ok (pieces, changed)) :
    template.Retains changed :=
  keeps_of_readLines (P := fun template _ changed => template.Retains changed) .refl
    (fun _ _ _ _ _ _ => ReadStep.retains) (fun _ _ _ _ _ => .trans) h

/-- A node is completed by its segments and its bindings when its lines have been read. -/
theorem exists_of_complete {template completed : Template} {lines : List Line}
    (h : template.complete lines = .ok completed) :
    ∃ pieces read, readLines 1 lines template = .ok (pieces, read) ∧
      completed = { read with segments := Piece.segments pieces }.bindNames := by
  cases hread : readLines 1 lines template with
  | error error =>
    rw [complete, hread] at h
    cases h
  | ok read =>
    rw [complete, hread] at h
    cases h
    exact ⟨read.1, read.2, rfl, rfl⟩

/-! ### Cutting -/

/-- A node gains documents under paths that it does not have yet. -/
inductive GainsDocuments (IsDocument : String → Template → Prop) : Template → Template → Prop
  | done (template : Template) : GainsDocuments IsDocument template template
  | step {template changed : Template} {path : String} {document : Template}
      (hdocument : IsDocument path document) (hmissing : template.include? path = none)
      (hrest : GainsDocuments IsDocument
        { template with includes := Table.insert template.includes path document } changed) :
    GainsDocuments IsDocument template changed

/-- Nothing of the node changes but its documents. -/
theorem GainsDocuments.exists_eq {IsDocument : String → Template → Prop}
    {template changed : Template} (h : GainsDocuments IsDocument template changed) :
    ∃ includes, changed = { template with includes := includes } := by
  induction h with
  | done template => exact ⟨template.includes, by cases template; rfl⟩
  | step hdocument hmissing hrest ih => exact ih

/-- The steps of cutting the blocks out of lines, which have the given number at first, and the
lines that are left. The body of a block has a property that may depend on the lines it was cut
as. -/
inductive Cutting (IsBody : List Line → Template → Prop) (IsDocument : String → Template → Prop) :
    Nat → List Line → Template → List Line → Template → Prop
  | done (number : Nat) (template : Template) :
    Cutting IsBody IsDocument number [] template [] template
  | comment {number : Nat} {line : Line} {rest left : List Line} {template changed : Template}
      (hcomment : opens .comment line = true)
      (hrest : Cutting IsBody IsDocument (number + 1) (cutBlock .comment line rest).rest
        (template.noteCut .comment number (cutBlock .comment line rest)) left changed) :
    Cutting IsBody IsDocument number (line :: rest) template ([] :: left) changed
  | block {number : Nat} {line : Line} {rest left : List Line} {opening : Opening}
      {template body changed : Template} (hopens : opening.OpensOn line)
      (hopening : opening.WellFormed) (hbody : IsBody (cutBlock opening.kind line rest).body body)
      (hrest : Cutting IsBody IsDocument (number + 1) (cutBlock opening.kind line rest).rest
        (opening.addBody
          (template.noteCut opening.kind number (cutBlock opening.kind line rest)) body)
        left changed) :
    Cutting IsBody IsDocument number (line :: rest) template
      (Placeholder.text ⟨opening.placeholderKind, opening.key,
        (template.bodies opening.placeholderKind).count opening.key⟩ :: left) changed
  | plain {number : Nat} {line : Line} {rest left : List Line} {template between changed : Template}
      (hcomment : opens .comment line = false) (hname : listName? line = none)
      (hcondition : condition? line = none)
      (hdocuments : GainsDocuments IsDocument template between)
      (hrest : Cutting IsBody IsDocument (number + 1) rest between left changed) :
    Cutting IsBody IsDocument number (line :: rest) template (line :: left) changed

section Cutting

variable {IsBody : List Line → Template → Prop} {IsDocument : String → Template → Prop}
  {openPaths : List String} {resolve : String → CompileM Template} {Q : Failure → Prop}

/-- Including paths gives a node the documents that it does not have yet. -/
theorem yields_gainsDocuments {paths : List String}
    (hresolve : ∀ path ∈ paths, Yields openPaths (resolve path) (IsDocument path) Q)
    (template : Template) :
    Yields openPaths (addIncludes resolve paths template)
      (GainsDocuments IsDocument template) Q := by
  induction paths generalizing template with
  | nil => exact .pure (.done template)
  | cons path paths ih =>
    have ih := ih fun other hother => hresolve other (List.mem_cons_of_mem _ hother)
    rw [addIncludes]
    split
    · exact ih template
    · next hmissing =>
      refine .bind (hresolve path List.mem_cons_self) fun document hdocument => ?_
      exact (ih _).mono fun changed hchanged =>
        .step hdocument (Option.not_isSome_iff_eq_none.1 hmissing) hchanged

/-- A block is refused only because its condition is no expression. -/
theorem isFault_of_check {opening : Opening} {error : Error} (h : opening.check = .error error) :
    error.IsFault := by
  cases opening with
  | repetition name => cases h
  | conditional source =>
    cases hcompile : Expression.compile source with
    | ok condition =>
      rw [Opening.check, hcompile] at h
      cases h
    | error fault =>
      rw [Opening.check, hcompile] at h
      cases h
      exact ⟨source, fault, rfl⟩

/-- A node is refused in the end only because a source in its lines is no expression. -/
theorem isFault_of_complete {template : Template} {lines : List Line} {error : Error}
    (h : template.complete lines = .error error) : error.IsFault := by
  have hreads : Reads (fun _ => True) (fun _ _ => True) template id (template.complete lines) :=
    reads_complete template lines
  rwa [h] at hreads

/-- Cutting goes step by step or fails. A body is completed from the lines that are left when the
blocks have been cut out of its own lines, so `hbody` tells what it is. -/
theorem yields_cutting (hfault : ∀ error, error.IsFault → Q (.error error))
    (hbody : ∀ name lines left cut body, Cutting IsBody IsDocument 1 lines (empty name) left cut →
      cut.complete left = .ok body → IsBody lines body)
    {lines : List Line}
    (hresolve : ∀ path ∈ documentPaths lines, Yields openPaths (resolve path) (IsDocument path) Q)
    (number : Nat) (template : Template) :
    Yields openPaths (cutLines resolve number lines template)
      (fun cut => Cutting IsBody IsDocument number lines template cut.1 cut.2) Q := by
  induction lines using block_induction generalizing number template with
  | nil =>
    rw [cutLines_nil]
    exact .pure (.done number template)
  | comment line rest hcomment ihRest =>
    have hrest := documentPaths_subset_of_partsOf (partsOf_rest_cutBlock .comment line rest)
    rw [cutLines_comment _ _ _ _ hcomment]
    refine .bind (ihRest (fun path hpath => hresolve path (hrest hpath)) _ _) fun cut hcut => ?_
    exact .pure (.comment hcomment hcut)
  | block line rest opening hopens ihBody ihRest =>
    have hparts := documentPaths_subset_of_partsOf (partsOf_body_cutBlock opening.kind line rest)
    have hrest := documentPaths_subset_of_partsOf (partsOf_rest_cutBlock opening.kind line rest)
    rw [cutLines_opening _ hopens]
    refine .bind
      (.lift (fun _ hcheck => hcheck) fun error herror => hfault error (isFault_of_check herror))
      fun _ hcheck =>
        .bind (P := IsBody (cutBlock opening.kind line rest).body) ?_ fun body hbody => ?_
    · refine .bind (ihBody (fun path hpath => hresolve path (hparts hpath)) _ _) fun cut hcut => ?_
      exact .lift (fun body hcomplete => hbody _ _ _ _ body hcut hcomplete)
        fun error herror => hfault error (isFault_of_complete herror)
    · refine .bind (ihRest (fun path hpath => hresolve path (hrest hpath)) _ _) fun cut hcut => ?_
      exact .pure (.block hopens (Opening.wellFormed_of_opensOn hopens hcheck) hbody hcut)
  | plain line rest hcomment hname hcondition ihRest =>
    rw [cutLines_plain _ _ _ _ hcomment hname hcondition]
    refine .bind (yields_gainsDocuments (fun path hpath => hresolve path ?_) template)
      fun between hbetween => ?_
    · exact List.mem_flatMap.2 ⟨line, List.mem_cons_self, hpath⟩
    refine .bind (ihRest (fun path hpath => hresolve path ?_) _ _) fun cut hcut => ?_
    · obtain ⟨other, hother, hmem⟩ := List.mem_flatMap.1 hpath
      exact List.mem_flatMap.2 ⟨other, List.mem_cons_of_mem _ hother, hmem⟩
    · exact .pure (.plain hcomment hname hcondition hbetween hcut)

/-- To gain documents is to change step by step. -/
theorem GainsDocuments.changes {IsBody : Template → Prop} {template changed : Template}
    (h : GainsDocuments IsDocument template changed) :
    Changes IsBody IsDocument template changed := by
  induction h with
  | done => exact .refl
  | step hdocument hmissing hrest ih => exact .head (.document _ hdocument hmissing) ih

/-- To add the body of a block is one change. -/
theorem change_addBody {IsBody : Template → Prop} {opening : Opening} (h : opening.WellFormed)
    (template : Template) {body : Template} (hbody : IsBody body) :
    Change IsBody IsDocument template (opening.addBody template body) := by
  cases opening with
  | repetition name => exact .repetition template name hbody
  | conditional source =>
    obtain ⟨condition, hcompile⟩ := h.compiles source rfl
    rw [Opening.addBody_conditional hcompile]
    exact .conditional template hcompile hbody

/-- Cutting changes a node step by step. The lines of a body are parts of the lines that are cut,
and no more than these. -/
theorem Cutting.changes {P : Template → Prop} {number : Nat} {lines left : List Line}
    {template changed : Template} (h : Cutting IsBody IsDocument number lines template left changed)
    (hbody : ∀ parts body, PartsOf parts lines → parts.length ≤ lines.length → IsBody parts body →
      P body) : Changes P IsDocument template changed := by
  induction h with
  | done => exact .refl
  | @comment number line rest left template changed hcomment hrest ih =>
    refine (changes_noteCut ..).trans (ih fun parts body hparts hlength => hbody parts body ?_ ?_)
    · exact hparts.trans (partsOf_rest_cutBlock .comment line rest)
    · rw [length_rest_cutBlock] at hlength
      exact Nat.le_succ_of_le hlength
  | @block number line rest left opening template body changed hopens hopening hcut hrest ih =>
    have hgained : P body :=
      hbody _ body (partsOf_body_cutBlock opening.kind line rest) (length_body_cutBlock_le ..) hcut
    have hnoted : Changes P IsDocument template (template.noteCut opening.kind number
        (cutBlock opening.kind line rest)) := changes_noteCut ..
    refine (hnoted.tail (change_addBody hopening _ hgained)).trans ?_
    refine ih fun parts body hparts hlength => hbody parts body ?_ ?_
    · exact hparts.trans (partsOf_rest_cutBlock opening.kind line rest)
    · rw [length_rest_cutBlock] at hlength
      exact Nat.le_succ_of_le hlength
  | @plain number line rest left template between changed hcomment hname hcondition
      hdocuments hrest ih =>
    refine hdocuments.changes.trans (ih fun parts body hparts hlength => hbody parts body ?_ ?_)
    · exact hparts.trans (partsOf_of_subset (List.subset_cons_self line rest))
    · exact Nat.le_succ_of_le hlength

/-! ### Compiling -/

/-- Lines are compiled into a node: their blocks are cut out, and what is left is read. -/
inductive Course (IsBody : List Line → Template → Prop) (IsDocument : String → Template → Prop)
    (lines : List Line) : Template → Prop
  | mk {name : String} {left : List Line} {cut read : Template} {pieces : List Piece}
      (hcutting : Cutting IsBody IsDocument 1 lines (empty name) left cut)
      (hreading : readLines 1 left cut = .ok (pieces, read)) :
    Course IsBody IsDocument lines { read with segments := Piece.segments pieces }.bindNames

/-- Lines are compiled in a course, or compiling them fails. -/
theorem yields_course (hfault : ∀ error, error.IsFault → Q (.error error))
    (hbody : ∀ lines body, Course IsBody IsDocument lines body → IsBody lines body)
    {lines : List Line}
    (hresolve : ∀ path ∈ documentPaths lines, Yields openPaths (resolve path) (IsDocument path) Q)
    (name : String) : Yields openPaths (compileLines resolve name lines) (IsBody lines) Q := by
  have hcompleted :
      ∀ name lines left cut body, Cutting IsBody IsDocument 1 lines (empty name) left cut →
      cut.complete left = .ok body → IsBody lines body := by
    intro name lines left cut body hcutting hcomplete
    obtain ⟨pieces, read, hreading, rfl⟩ := exists_of_complete hcomplete
    exact hbody _ _ (.mk hcutting hreading)
  refine .bind (yields_cutting hfault hcompleted hresolve 1 (empty name)) fun cut hcut => ?_
  exact .lift (fun body hcomplete => hcompleted _ _ _ _ body hcut hcomplete)
    fun error herror => hfault error (isFault_of_complete herror)

/-- A node that lines are compiled into comes from an empty one step by step. Its bodies are made of
parts of the lines, and of no more lines. -/
theorem Course.changes {P : Template → Prop} {lines : List Line} {template : Template}
    (h : Course IsBody IsDocument lines template)
    (hbody : ∀ parts body, PartsOf parts lines → parts.length ≤ lines.length → IsBody parts body →
      P body) : ∃ name, Changes P IsDocument (empty name) template := by
  obtain ⟨hcutting, hreading⟩ := h
  rename_i name left cut read pieces
  have hread : Reads P IsDocument cut Prod.snd (readLines 1 left cut) := reads_readLines 1 left cut
  rw [hreading] at hread
  exact ⟨name, ((hcutting.changes hbody).trans hread).tail (.finish read (Piece.segments pieces))⟩

end Cutting

end Template

end BraceTemplate
