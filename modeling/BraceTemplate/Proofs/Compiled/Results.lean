import BraceTemplate.Proofs.Compiled.Storable
import BraceTemplate.Proofs.Template.Bodies
import BraceTemplate.Proofs.Template.Including
import BraceTemplate.Proofs.Template.Reading

/-!
# Compiling gives what can be stored

Every table that compiling fills keeps distinct names, scopes hold empty texts only, and the natural
numbers in a template are line numbers and indexes that were read from a placeholder. So compiling a
document of fewer than `2 ^ 64` lines gives a storable template, if all included documents do.
-/

namespace BraceTemplate

open CompileM (Ensures)

/-- A computation that succeeds has a first part that does. -/
theorem exists_of_bind_eq_ok {ε α β : Type} {result : Except ε α} {f : α → Except ε β} {b : β}
    (h : result >>= f = .ok b) : ∃ a, result = .ok a ∧ f a = .ok b := by
  cases result with
  | error error => cases h
  | ok a => exact ⟨a, rfl, h⟩

namespace Template

/-! ### Changes of a node -/

/-- An empty node can be stored. -/
theorem storable_empty (name : String) : (empty name).Storable := by
  refine .node ?_ (by simp [empty, children])
  constructor <;> simp [empty, Table.Distinct, Table.names]

/-- A node can be stored with one more warning that can be. -/
theorem storable_warn {template : Template} (h : template.Storable) {warning : Error}
    (hwarning : warning.Storable) :
    Storable { template with ownWarnings := template.ownWarnings ++ [warning] } := by
  refine h.of_children_eq { h.here with warnings := ?_ } rfl
  intro other hother
  rcases List.mem_append.1 hother with hother | hother
  · exact h.here.warnings other hother
  · rw [List.mem_singleton.1 hother]
    exact hwarning

/-- A node can be stored behind a cut, as long as the number of the line fits into a machine
word. -/
theorem storable_noteCut {template : Template} (h : template.Storable) (kind : BlockKind)
    {number : Nat} (hnumber : number < 2 ^ 64) (cut : Cut) :
    (template.noteCut kind number cut).Storable := by
  unfold noteCut
  split
  · exact h
  · exact storable_warn h hnumber

/-- A further body leaves everything else below a node alone. -/
theorem Everywhere.of_gainsBody {P : Template → Prop} {template changed body : Template}
    {kind : PlaceholderKind} {key : String} (h : template.Everywhere P) (hbody : body.Everywhere P)
    (hgains : template.GainsBody changed kind key body) (here : P changed) :
    changed.Everywhere P := by
  refine .node here fun child hchild => ?_
  rcases hgains.mem_children hchild with hold | rfl
  · exact h.of_mem_children hold
  · exact hbody

/-- A node can be stored with the body of a repetition that can be. -/
theorem storable_addRepetition {template body : Template} (h : template.Storable)
    (hbody : body.Storable) (name : String) : (template.addRepetition name body).Storable :=
  h.of_gainsBody hbody (gainsBody_addRepetition template body name)
    { h.here with repetitions_distinct := h.here.repetitions_distinct.append _ _ }

/-- A node can be stored with the body of a conditional that can be. -/
theorem storable_addConditional {template body : Template} (h : template.Storable)
    (hbody : body.Storable) (condition : Expression) :
    (template.addConditional condition body).Storable :=
  h.of_gainsBody hbody (gainsBody_addConditional template body condition)
    { h.here with
      conditionals_distinct := h.here.conditionals_distinct.append _ _
      expressions_distinct := h.here.expressions_distinct.insertNew _ _ }

/-- A node can be stored with a document that can be. -/
theorem storable_include {template document : Template} (h : template.Storable)
    (hdocument : document.Storable) (path : String) :
    Storable { template with includes := Table.insert template.includes path document } := by
  refine .node { h.here with includes_distinct := h.here.includes_distinct.insert _ _ } ?_
  intro child hchild
  simp only [children, List.mem_append] at hchild
  rcases hchild with hblock | hinclude
  · exact h.of_mem_children (by simp only [children, List.mem_append]; exact .inl hblock)
  · obtain ⟨entry, hentry, rfl⟩ := List.mem_map.1 hinclude
    rcases Table.mem_of_mem_insert hentry with hold | rfl
    · exact h.of_mem_children (by
        simp only [children, List.mem_append]
        exact .inr (List.mem_map_of_mem hold))
    · exact hdocument

/-! ### Reading lines -/

/-- A node can be stored with one more name. -/
theorem storable_refer {template : Template} (h : template.Storable) (segment : Segment) :
    (template.refer segment).Storable := by
  cases segment with
  | binding name =>
    exact h.of_children_eq { h.here with names_nodup := nodup_addName h.here.names_nodup name } rfl
  | text | expression | block | inclusion => exact h

/-- A node can be stored with one more expression. -/
theorem storable_addExpression {template changed : Template} (h : template.Storable)
    {source : String} (hadd : template.addExpression source = .ok changed) : changed.Storable := by
  unfold addExpression at hadd
  split at hadd
  · cases hadd
    exact h
  · split at hadd
    · cases hadd
      exact h.of_children_eq
        { h.here with expressions_distinct := h.here.expressions_distinct.insert _ _ } rfl
    · simp at hadd

/-- The segment that a marker means can be stored: an index is read from the marker. -/
theorem storable_of_meaning {template : Template} {content : List Char} {segment : Segment}
    (h : template.meaning content = .segment segment) : segment.Storable := by
  cases refersTo_of_meaning h with
  | block hcontent => exact Placeholder.index_lt_of_ofContent? hcontent
  | inclusion | binding => trivial

/-- All segments among the pieces can be stored. -/
def StorablePieces (pieces : List Piece) : Prop :=
  ∀ segment, Piece.segment segment ∈ pieces → segment.Storable

/-- The segments that pieces are gathered to can be stored if those among the pieces can be. -/
theorem storable_gather {pieces : List Piece} (h : StorablePieces pieces) :
    ∀ segment ∈ (Piece.gather pieces).2, segment.Storable := by
  have hflush : ∀ found : List Char × List Segment, (∀ segment ∈ found.2, segment.Storable) →
      ∀ segment ∈ Piece.flush found, segment.Storable := by
    rintro ⟨text, segments⟩ hsegments segment hmem
    cases text with
    | nil => exact hsegments segment hmem
    | cons c cs =>
      rcases List.mem_cons.1 hmem with rfl | hmem
      · trivial
      · exact hsegments segment hmem
  induction pieces with
  | nil => simp [Piece.gather]
  | cons piece pieces ih =>
    have ih := ih fun segment hsegment => h segment (List.mem_cons_of_mem _ hsegment)
    cases piece with
    | char c => exact ih
    | segment found =>
      intro segment hmem
      rcases List.mem_cons.1 hmem with rfl | hmem
      · exact h _ List.mem_cons_self
      · exact hflush _ ih segment hmem

/-- The segments that pieces make up can be stored if those among the pieces can be. -/
theorem storable_segments {pieces : List Piece} (h : StorablePieces pieces) :
    ∀ segment ∈ Piece.segments pieces, segment.Storable := by
  intro segment hmem
  have hgather := storable_gather h
  unfold Piece.segments Piece.flush at hmem
  split at hmem
  · next heq => exact hgather segment (heq ▸ hmem)
  · next text segments _ heq =>
    rcases List.mem_cons.1 hmem with rfl | hmem
    · trivial
    · exact hgather segment (heq ▸ hmem)

/-- A character may come in front. -/
theorem storablePieces_char {pieces : List Piece} (h : StorablePieces pieces) (c : Char) :
    StorablePieces (.char c :: pieces) := by
  intro segment hsegment
  rcases List.mem_cons.1 hsegment with heq | hmem
  · simp at heq
  · exact h segment hmem

/-- A segment that can be stored may come in front. -/
theorem storablePieces_segment {pieces : List Piece} (h : StorablePieces pieces)
    {segment : Segment} (hsegment : segment.Storable) :
    StorablePieces (.segment segment :: pieces) := by
  intro other hother
  rcases List.mem_cons.1 hother with heq | hmem
  · rw [Piece.segment.inj heq]
    exact hsegment
  · exact h other hmem

/-- Reading a line keeps a node storable and gives pieces that can be stored. -/
theorem storable_readLine {number : Nat} (hnumber : number < 2 ^ 64) {cs : List Char}
    {template changed : Template} {pieces : List Piece} (h : template.Storable)
    (hread : readLine number cs template = .ok (pieces, changed)) :
    changed.Storable ∧ StorablePieces pieces := by
  fun_induction readLine number cs template generalizing pieces changed with
  | case1 =>
    cases hread
    exact ⟨h, by simp [StorablePieces]⟩
  | case2 _ _ ih | case3 _ _ ih | case4 _ _ _ ih | case5 _ _ _ _ _ _ ih | case9 _ _ _ _ _ _ ih =>
    obtain ⟨⟨more, after⟩, hmore, heq⟩ := exists_of_bind_eq_ok hread
    cases heq
    obtain ⟨hafter, hpieces⟩ := ih h hmore
    exact ⟨hafter, storablePieces_char hpieces _⟩
  | case6 =>
    rename_i ih
    exact ih (storable_warn h hnumber) hread
  | case7 template cs content rest hcontent segment hmeaning ih =>
    obtain ⟨⟨more, after⟩, hmore, heq⟩ := exists_of_bind_eq_ok hread
    cases heq
    obtain ⟨hafter, hpieces⟩ := ih (storable_refer h segment) hmore
    exact ⟨hafter, storablePieces_segment hpieces (storable_of_meaning hmeaning)⟩
  | case8 template cs content rest hcontent source hmeaning ih =>
    obtain ⟨between, hadd, hread⟩ := exists_of_bind_eq_ok hread
    obtain ⟨⟨more, after⟩, hmore, heq⟩ := exists_of_bind_eq_ok hread
    cases heq
    obtain ⟨hafter, hpieces⟩ := ih between (storable_addExpression h hadd) hmore
    exact ⟨hafter, storablePieces_segment hpieces trivial⟩

/-- Lines are read into a node that can be stored, as long as their numbers fit into a machine
word. -/
theorem storable_readLines {number : Nat} {lines : List Line} {template changed : Template}
    {pieces : List Piece} (h : template.Storable) (hnumber : number + lines.length ≤ 2 ^ 64)
    (hread : readLines number lines template = .ok (pieces, changed)) :
    changed.Storable ∧ StorablePieces pieces := by
  induction lines generalizing number template pieces with
  | nil =>
    cases hread
    exact ⟨h, by simp [StorablePieces]⟩
  | cons line lines ih =>
    rw [List.length_cons] at hnumber
    obtain ⟨⟨first, between⟩, hfirst, hread⟩ := exists_of_bind_eq_ok hread
    obtain ⟨⟨more, after⟩, hmore, heq⟩ := exists_of_bind_eq_ok hread
    cases heq
    obtain ⟨hbetween, hfirst⟩ := storable_readLine (by omega) h hfirst
    obtain ⟨hafter, hmore⟩ := ih hbetween (by omega) hmore
    refine ⟨hafter, fun segment hsegment => ?_⟩
    rcases List.mem_append.1 hsegment with hsegment | hsegment
    · exact hfirst segment hsegment
    · exact hmore segment hsegment

/-- A node can be stored with its names bound. -/
theorem storable_bindNames {template : Template} (h : template.Storable) :
    template.bindNames.Storable := by
  have hscope : ∀ (names : List String) (scope : Scope), scope.Distinct →
      (∀ entry ∈ scope, entry.2.Storable) →
      (names.foldl (fun scope name => scope.insertNew name (.string "")) scope).Distinct ∧
        ∀ entry ∈ names.foldl (fun scope name => scope.insertNew name (.string "")) scope,
          entry.2.Storable := by
    intro names
    induction names with
    | nil => exact fun scope hdistinct hvalues => ⟨hdistinct, hvalues⟩
    | cons name names ih =>
      intro scope hdistinct hvalues
      refine ih _ (hdistinct.insertNew _ _) fun entry hentry => ?_
      rcases Table.mem_of_mem_insertNew hentry with hold | rfl
      · exact hvalues entry hold
      · exact .string ""
  obtain ⟨hdistinct, hvalues⟩ := hscope template.names template.scope h.here.scope_distinct
    h.here.scope_values
  exact h.of_children_eq { h.here with scope_distinct := hdistinct, scope_values := hvalues } rfl

/-- Completing a node keeps it storable. -/
theorem storable_complete {template changed : Template} {lines : List Line} (h : template.Storable)
    (hlength : lines.length < 2 ^ 64) (hcomplete : template.complete lines = .ok changed) :
    changed.Storable := by
  obtain ⟨⟨pieces, after⟩, hread, heq⟩ := exists_of_bind_eq_ok hcomplete
  cases heq
  obtain ⟨hafter, hpieces⟩ := storable_readLines h (by omega) hread
  exact storable_bindNames
    (hafter.of_children_eq { hafter.here with segments := storable_segments hpieces } rfl)

/-! ### Compiling lines -/

section Compiling

variable {resolve : String → CompileM Template}

/-- A node can be stored with documents that can be. -/
theorem storable_addIncludes (hresolve : ∀ path, Ensures (resolve path) Storable)
    (paths : List String) {template : Template} (h : template.Storable) :
    Ensures (addIncludes resolve paths template) Storable := by
  induction paths generalizing template with
  | nil => exact .pure h
  | cons path paths ih =>
    rw [addIncludes]
    split
    · exact ih h
    · exact .bind (hresolve path) fun document hdocument => ih (storable_include h hdocument path)

/-- Lines compile to a storable node if cutting blocks out of them leaves as many lines and a
storable node. -/
theorem storable_compileLines_of_cutLines {name : String} {lines : List Line}
    (hlength : lines.length < 2 ^ 64)
    (hcut : Ensures (cutLines resolve 1 lines (empty name))
      fun (left, changed) => left.length = lines.length ∧ changed.Storable) :
    Ensures (compileLines resolve name lines) Storable := by
  refine .bind hcut ?_
  rintro ⟨left, changed⟩ ⟨hleft, hchanged⟩
  exact .lift fun _ => storable_complete hchanged (by omega)

/-- Cutting blocks out of lines leaves as many lines and keeps a node storable. -/
theorem storable_cutLines (hresolve : ∀ path, Ensures (resolve path) Storable) (number : Nat)
    (lines : List Line) {template : Template} (h : template.Storable) (hpos : 1 ≤ number)
    (hnumber : number + lines.length ≤ 2 ^ 64) :
    Ensures (cutLines resolve number lines template)
      fun (left, changed) => left.length = lines.length ∧ changed.Storable := by
  induction lines using cut_induction generalizing number template with
  | nil =>
    rw [cutLines_nil]
    exact .pure ⟨rfl, h⟩
  | comment line rest hcomment ihRest =>
    have hlength := length_rest_cutBlock .comment line rest
    rw [List.length_cons] at hnumber
    rw [cutLines_comment _ _ _ _ hcomment]
    refine .bind (ihRest _ (storable_noteCut h _ (by omega) _) (by omega) (by omega)) ?_
    rintro ⟨left, changed⟩ ⟨hleft, hchanged⟩
    exact .pure ⟨by simp [hleft, hlength], hchanged⟩
  | repetition line rest key hcomment hname ihBody ihRest =>
    have hlength := length_rest_cutBlock .repetition line rest
    have hbody := length_body_cutBlock_le .repetition line rest
    rw [List.length_cons] at hnumber
    rw [cutLines_repetition _ _ _ _ hcomment hname]
    refine .bind (storable_compileLines_of_cutLines (by omega)
      (ihBody 1 (storable_empty _) (by omega) (by omega))) fun body hbody => ?_
    refine .bind (ihRest _ (storable_addRepetition (storable_noteCut h _ (by omega) _) hbody _)
      (by omega) (by omega)) ?_
    rintro ⟨left, changed⟩ ⟨hleft, hchanged⟩
    exact .pure ⟨by simp [hleft, hlength], hchanged⟩
  | conditional line rest source hcomment hname hcondition ihBody ihRest =>
    have hlength := length_rest_cutBlock .conditional line rest
    have hbody := length_body_cutBlock_le .conditional line rest
    rw [List.length_cons] at hnumber
    rw [cutLines_conditional _ _ _ _ hcomment hname hcondition]
    refine .bind (P := fun _ => True) (.lift fun _ _ => trivial) fun condition _ => ?_
    refine .bind (storable_compileLines_of_cutLines (by omega)
      (ihBody 1 (storable_empty _) (by omega) (by omega))) fun body hbody => ?_
    refine .bind (ihRest _ (storable_addConditional (storable_noteCut h _ (by omega) _) hbody _)
      (by omega) (by omega)) ?_
    rintro ⟨left, changed⟩ ⟨hleft, hchanged⟩
    exact .pure ⟨by simp [hleft, hlength], hchanged⟩
  | plain line rest hcomment hname hcondition ihRest =>
    rw [List.length_cons] at hnumber
    rw [cutLines_plain _ _ _ _ hcomment hname hcondition]
    refine .bind (storable_addIncludes hresolve _ h) fun template htemplate => ?_
    refine .bind (ihRest _ htemplate (by omega) (by omega)) ?_
    rintro ⟨left, changed⟩ ⟨hleft, hchanged⟩
    exact .pure ⟨by simp [hleft], hchanged⟩

/-- Lines compile to a node that can be stored if there are not too many of them. -/
theorem storable_compileLines (hresolve : ∀ path, Ensures (resolve path) Storable) (name : String)
    {lines : List Line} (hlength : lines.length < 2 ^ 64) :
    Ensures (compileLines resolve name lines) Storable :=
  storable_compileLines_of_cutLines hlength
    (storable_cutLines hresolve 1 lines (storable_empty name) (by omega) (by omega))

/-- A document compiles to a node that can be stored if it does not have too many lines. -/
theorem storable_compileDocument (hresolve : ∀ path, Ensures (resolve path) Storable)
    (path : String) {lines : List Line} (hlength : lines.length < 2 ^ 64) :
    Ensures (compileDocument resolve path lines) Storable := by
  intro openPaths template after hrun
  have hlines := storable_compileLines hresolve path hlength (path :: openPaths)
  unfold compileDocument at hrun
  cases hresult : compileLines resolve path lines (path :: openPaths) with
  | mk result between =>
    rw [hresult] at hrun hlines
    cases hrun
    exact hlines template between rfl

end Compiling

/-- Compiling a path gives a storable template if no document has too many lines. -/
theorem storable_compilePath {loader : Loader}
    (hlength : ∀ path lines, loader.load path = .ok lines → lines.length < 2 ^ 64)
    (depth : Nat) (path : String) : Ensures (compilePath loader depth path) Storable := by
  induction depth generalizing path with
  | zero => exact .throw .tooDeep
  | succ depth ih =>
    intro openPaths template after hrun
    by_cases hmem : path ∈ openPaths
    · rw [compilePath_of_mem hmem] at hrun
      cases hrun
    · cases hload : loader.load path with
      | error error =>
        rw [compilePath_of_error hmem hload] at hrun
        cases hrun
      | ok lines =>
        rw [compilePath_of_lines hmem hload] at hrun
        exact storable_compileDocument ih path (hlength path lines hload) _ _ _ hrun

end Template

end BraceTemplate
