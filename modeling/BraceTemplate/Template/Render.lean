import BraceTemplate.Template.Lemmas

/-!
# Rendering

Rendering puts the segments of a node together against its current scope; it never fails. Within one
node the value of an expression is computed once and remembered. The body of a repetition is
rendered once per item of its list: each item is set on a copy of the body, and what an item does
not set keeps the value that an earlier item gave it.
-/

namespace BraceTemplate

namespace Template

/-- The measure of rendering gets smaller from a segment to the segments behind it. -/
private theorem rest_lt (template : Template) (segment : Segment) (rest : List Segment) :
    Prod.Lex (· < ·) (Prod.Lex (· < ·) (· < ·)) (template.height, 0, rest.length)
      (template.height, 0, (segment :: rest).length) :=
  .right _ (.right _ (Nat.lt_succ_self _))

/-- The measure of rendering gets smaller from a node to its children. -/
private theorem child_lt {template child : Template} {m n : Nat × Nat}
    (h : child ∈ template.children) :
    Prod.Lex (· < ·) (Prod.Lex (· < ·) (· < ·)) (child.height, m) (template.height, n) :=
  .left _ _ (height_lt_of_mem_children h)

mutual

/-- The text of a node against its scope. -/
def render (template : Template) : String :=
  renderSegments template template.segments []
termination_by (template.height, 1, 0)

/-- The text of segments of a node, given the results that are remembered. A segment that refers to
something the node does not have has no text. -/
def renderSegments (template : Template) (segments : List Segment) (memo : Memo) : String :=
  match segments with
  | [] => ""
  | .text text :: rest => text ++ renderSegments template rest memo
  | .binding name :: rest =>
    ((template.scope.get? name).map Value.display).getD "" ++ renderSegments template rest memo
  | .expression id :: rest =>
    match template.expression? id with
    | some expression =>
      let (value, memo) := memo.evaluate expression template.scope
      value.display ++ renderSegments template rest memo
    | none => renderSegments template rest memo
  | .inclusion path :: rest =>
    match _ : template.include? path with
    | some document => render document ++ renderSegments template rest memo
    | none => renderSegments template rest memo
  | .block ⟨.conditional, id, index⟩ :: rest =>
    match template.expression? id, _ : template.conditional? id index with
    | some expression, some body =>
      let (value, memo) := memo.evaluate expression template.scope
      (if value.truthy then render body else "") ++ renderSegments template rest memo
    | _, _ => renderSegments template rest memo
  | .block ⟨.repetition, name, index⟩ :: rest =>
    match template.scope.get? name, _ : template.repetition? name index with
    | some (.list items), some body =>
      renderItems body items ++ renderSegments template rest memo
    | _, _ => renderSegments template rest memo
termination_by (template.height, 0, segments.length)
decreasing_by
  · exact rest_lt ..
  · exact rest_lt ..
  · exact rest_lt ..
  · exact rest_lt ..
  · exact child_lt (mem_children_of_include? (by assumption))
  · exact rest_lt ..
  · exact rest_lt ..
  · exact child_lt (mem_children_of_conditional? (by assumption))
  · exact rest_lt ..
  · exact rest_lt ..
  · exact child_lt (mem_children_of_repetition? (by assumption))
  · exact rest_lt ..
  · exact rest_lt ..

/-- The text of a body once per item. Every item is set on top of the earlier ones. -/
def renderItems (body : Template) (items : List Scope) : String :=
  match items with
  | [] => ""
  | item :: rest =>
    let copy := body.setAll item
    render copy ++ renderItems copy rest
termination_by (body.height, 2, items.length)
decreasing_by
  · simpa using .right _ (.left _ _ (by decide))
  · simpa using .right _ (.right _ (Nat.lt_succ_self _))

end

end Template

end BraceTemplate
