import BraceTemplate.Proofs.Template.Naming
import BraceTemplate.Proofs.Template.Rendering

/-!
# What shows of a node

The text of a segment comes from what the segment refers to. So segments of two nodes have the same
text if what they refer to has, and neither the names of the nodes nor the places at which text was
cut into segments show.
-/

namespace BraceTemplate

namespace Template

/-! ### Segments that are shown alike -/

/-- The value of the expression that a node stores under an id. -/
def valueOf? (template : Template) (id : String) : Option Value :=
  (template.expression? id).map fun expression => expression.evaluate template.scope

/-- Two segments, each of its own node, refer to things that have the same text. -/
inductive ShownAlike (template template' : Template) : Segment → Segment → Prop
  | text (text : String) : ShownAlike template template' (.text text) (.text text)
  | binding {name : String} (h : template.scope.get? name = template'.scope.get? name) :
    ShownAlike template template' (.binding name) (.binding name)
  | expression {id : String} (h : template.valueOf? id = template'.valueOf? id) :
    ShownAlike template template' (.expression id) (.expression id)
  | inclusion {path : String}
      (h : (template.include? path).map recomputed = (template'.include? path).map recomputed) :
    ShownAlike template template' (.inclusion path) (.inclusion path)
  | conditional {id : String} {index index' : Nat}
      (hvalue : template.valueOf? id = template'.valueOf? id)
      (hbody : (template.conditional? id index).map recomputed =
        (template'.conditional? id index').map recomputed) :
    ShownAlike template template' (.block ⟨.conditional, id, index⟩)
      (.block ⟨.conditional, id, index'⟩)
  | repetition {name : String} {index index' : Nat}
      (hscope : template.scope.get? name = template'.scope.get? name)
      (hbody : (template.repetition? name index).map recomputedItems =
        (template'.repetition? name index').map recomputedItems) :
    ShownAlike template template' (.block ⟨.repetition, name, index⟩)
      (.block ⟨.repetition, name, index'⟩)

/-- An expression shows its value, and nothing if the node does not have it. -/
theorem recomputedSegment_expression_map (template : Template) (id : String) :
    recomputedSegment template (.expression id) =
      ((template.valueOf? id).map Value.display).getD "" := by
  rw [recomputedSegment, valueOf?]
  cases template.expression? id <;> rfl

/-- An inclusion shows its document, and nothing if the node does not have it. -/
theorem recomputedSegment_inclusion_map (template : Template) (path : String) :
    recomputedSegment template (.inclusion path) =
      ((template.include? path).map recomputed).getD "" := by
  rw [recomputedSegment_inclusion]
  cases template.include? path <;> rfl

/-- A conditional shows its body if the value of its condition is truthy. -/
theorem recomputedSegment_conditional_map (template : Template) (id : String) (index : Nat) :
    recomputedSegment template (.block ⟨.conditional, id, index⟩) =
      match template.valueOf? id, (template.conditional? id index).map recomputed with
      | some value, some shown => if value.truthy then shown else ""
      | _, _ => "" := by
  rw [recomputedSegment_conditional, valueOf?]
  cases template.expression? id <;> cases template.conditional? id index <;> rfl

/-- A repetition shows its body for the items of its list. -/
theorem recomputedSegment_repetition_map (template : Template) (name : String) (index : Nat) :
    recomputedSegment template (.block ⟨.repetition, name, index⟩) =
      match template.scope.get? name, (template.repetition? name index).map recomputedItems with
      | some (.list items), some shown => shown items
      | _, _ => "" := by
  rw [recomputedSegment_repetition]
  cases template.scope.get? name with
  | none => rfl
  | some value => cases template.repetition? name index <;> cases value <;> rfl

/-- Segments that refer to things with the same text have the same text. -/
theorem ShownAlike.recomputedSegment_eq {template template' : Template} {segment segment' : Segment}
    (h : template.ShownAlike template' segment segment') :
    recomputedSegment template segment = recomputedSegment template' segment' := by
  cases h with
  | text text => rw [recomputedSegment, recomputedSegment]
  | binding h => rw [recomputedSegment, recomputedSegment, h]
  | expression h => rw [recomputedSegment_expression_map, recomputedSegment_expression_map, h]
  | inclusion h => rw [recomputedSegment_inclusion_map, recomputedSegment_inclusion_map, h]
  | conditional hvalue hbody =>
    rw [recomputedSegment_conditional_map, recomputedSegment_conditional_map, hvalue, hbody]
  | repetition hscope hbody =>
    rw [recomputedSegment_repetition_map, recomputedSegment_repetition_map, hscope, hbody]

/-! ### Names of nodes do not show -/

/-- Scopes are changed alike with names and without. -/
theorem unnamed_mapScopes (f : Scope → Scope) (template : Template) :
    (template.mapScopes f).unnamed = template.unnamed.mapScopes f := by
  induction template using children_induction with
  | node template ih =>
    obtain ⟨hconditionals, hrepetitions, hincludes⟩ :=
      tables_congr (f := unnamed ∘ mapScopes f) (g := mapScopes f ∘ unnamed) ih
    rw [unnamed_eq, mapScopes_eq f template, mapScopes_eq, unnamed_eq template]
    simp only [Function.comp_def] at hconditionals hrepetitions hincludes
    simp only [Table.mapValues_mapValues, List.map_map, Function.comp_def, hconditionals,
      hrepetitions, hincludes]

/-- Bindings are set alike with names and without. -/
theorem unnamed_setAll (template : Template) (bindings : Scope) :
    (template.setAll bindings).unnamed = template.unnamed.setAll bindings := by
  rw [setAll_eq_mapScopes, setAll_eq_mapScopes, unnamed_mapScopes]

section Unnamed

variable (template : Template)

/-- Without names a node has the same documents, without their names. -/
theorem include?_unnamed (path : String) :
    template.unnamed.include? path = (template.include? path).map unnamed := by
  rw [unnamed_eq]
  exact Table.get?_mapValues _ template.includes path

/-- Without names a node has the same conditional bodies, without their names. -/
theorem conditional?_unnamed (id : String) (index : Nat) :
    template.unnamed.conditional? id index = (template.conditional? id index).map unnamed := by
  rw [unnamed_eq]
  exact Table.getAt?_mapValues _ template.conditionals id index

/-- Without names a node has the same repeated bodies, without their names. -/
theorem repetition?_unnamed (name : String) (index : Nat) :
    template.unnamed.repetition? name index = (template.repetition? name index).map unnamed := by
  rw [unnamed_eq]
  exact Table.getAt?_mapValues _ template.repetitions name index

/-- A segment has the same text without the names of the nodes, if all nodes below have. -/
theorem shownAlike_unnamed
    (hbelow : ∀ child ∈ template.children, child.unnamed.recomputed = child.recomputed)
    (hitems : ∀ child ∈ template.children,
      recomputedItems child.unnamed = recomputedItems child) (segment : Segment) :
    template.unnamed.ShownAlike template segment segment := by
  have hscope : template.unnamed.scope = template.scope := by rw [unnamed_eq]
  have hvalue : ∀ id, template.unnamed.valueOf? id = template.valueOf? id := by
    intro id
    rw [unnamed_eq]
    rfl
  cases segment with
  | text text => exact .text text
  | binding name => exact .binding (by rw [hscope])
  | expression id => exact .expression (hvalue id)
  | inclusion path =>
    refine .inclusion ?_
    rw [include?_unnamed, Option.map_map]
    exact Option.map_congr fun document hdocument => hbelow _ (mem_children_of_include? hdocument)
  | block placeholder =>
    obtain ⟨kind, key, index⟩ := placeholder
    cases kind with
    | conditional =>
      refine .conditional (hvalue key) ?_
      rw [conditional?_unnamed, Option.map_map]
      exact Option.map_congr fun body hbody => hbelow _ (mem_children_of_conditional? hbody)
    | repetition =>
      refine .repetition (by rw [hscope]) ?_
      rw [repetition?_unnamed, Option.map_map]
      exact Option.map_congr fun body hbody => hitems _ (mem_children_of_repetition? hbody)

end Unnamed

/-- What holds of a node as soon as it holds of its children, whatever is set on them, holds of
every template. -/
@[elab_as_elim]
theorem copies_induction {motive : Template → Prop}
    (node : ∀ template, (∀ child ∈ template.children, ∀ bindings, motive (child.setAll bindings)) →
      motive template)
    (template : Template) : motive template :=
  node template fun child _ bindings => copies_induction node (child.setAll bindings)
termination_by template.height
decreasing_by
  rw [height_setAll]
  exact height_lt_of_mem_children (by assumption)

/-- Bindings may be set in two parts. -/
theorem setAll_append (template : Template) (bindings more : Scope) :
    template.setAll (bindings ++ more) = (template.setAll bindings).setAll more :=
  List.foldl_append

/-- A repetition shows the same without names if the body does with any bindings. -/
theorem recomputedItems_unnamed {body : Template}
    (h :
      ∀ bindings, (body.setAll bindings).unnamed.recomputed = (body.setAll bindings).recomputed) :
    recomputedItems body.unnamed = recomputedItems body := by
  funext items
  induction items generalizing body with
  | nil => rw [recomputedItems, recomputedItems]
  | cons item rest ih =>
    have hrest : ∀ bindings, ((body.setAll item).setAll bindings).unnamed.recomputed =
        ((body.setAll item).setAll bindings).recomputed := by
      intro bindings
      rw [← setAll_append]
      exact h _
    rw [recomputedItems, recomputedItems, ← unnamed_setAll, h item, ih hrest]

/-- The names of the nodes do not show in the text. -/
theorem recomputed_unnamed (template : Template) :
    template.unnamed.recomputed = template.recomputed := by
  induction template using copies_induction with
  | node template ih =>
    have hsegments : template.unnamed.segments = template.segments := by rw [unnamed_eq]
    rw [recomputed, recomputed, hsegments]
    refine congrArg String.join (List.map_congr_left fun segment _ => ?_)
    have halike := shownAlike_unnamed template (fun child hchild => ih child hchild [])
      (fun child hchild => recomputedItems_unnamed (ih child hchild)) segment
    exact halike.recomputedSegment_eq

end Template

/-! ### The text of pieces -/

/-- The text of a piece, given the texts of segments. -/
def Piece.textBy (texts : Segment → String) : Piece → String
  | char c => String.singleton c
  | segment found => texts found

/-- Merging characters into texts does not show. -/
theorem Piece.join_segments {texts : Segment → String} (htexts : ∀ text, texts (.text text) = text)
    (pieces : List Piece) :
    String.join ((segments pieces).map texts) = String.join (pieces.map (textBy texts)) := by
  have hflush : ∀ found : List Char × List Segment, String.join ((flush found).map texts) =
      String.ofList found.1 ++ String.join (found.2.map texts) := by
    rintro ⟨text, segments⟩
    cases text with
    | nil => simp [flush]
    | cons c cs => simp [flush, htexts]
  have hgather : String.ofList (gather pieces).1 ++ String.join ((gather pieces).2.map texts) =
      String.join (pieces.map (textBy texts)) := by
    induction pieces with
    | nil => rfl
    | cons piece pieces ih =>
      cases piece with
      | char c =>
        rw [gather, String.ofList_cons, String.append_assoc, ih, List.map_cons,
          String.join_cons, textBy]
      | segment found => simp [gather, hflush, ih, textBy]
  rw [segments, hflush, hgather]

end BraceTemplate
