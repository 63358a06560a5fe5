import BraceTemplate.Template.Render
import BraceTemplate.Proofs.Template.Expressions
import BraceTemplate.Proofs.Template.Setting

/-!
# Remembered values do not show

Rendering remembers the value of every expression of a node. What it remembers under an id is the
value of the expression that the node stores under this id. So the text is the one that rendering
without a memory gives, where every segment has a text of its own.
-/

namespace BraceTemplate

namespace Template

/-! ### Rendering segment by segment -/

section Segments

variable (template : Template) (rest : List Segment) (memo : Memo)

/-- An inclusion renders its document in front of the other segments. -/
theorem renderSegments_inclusion (path : String) :
    renderSegments template (.inclusion path :: rest) memo =
      ((template.include? path).map render).getD "" ++ renderSegments template rest memo := by
  rw [renderSegments]
  split
  · next document hdocument => rw [hdocument, Option.map_some, Option.getD_some]
  · next hnone => rw [hnone, Option.map_none, Option.getD_none, String.empty_append]

/-- A conditional evaluates its condition with the memory, and renders its body in front of the
other segments if the value is truthy. -/
theorem renderSegments_conditional (id : String) (index : Nat) :
    renderSegments template (.block ⟨.conditional, id, index⟩ :: rest) memo =
      match template.expression? id, template.conditional? id index with
      | some expression, some body =>
        (if (memo.evaluate expression template.scope).1.truthy then body.render else "") ++
          renderSegments template rest (memo.evaluate expression template.scope).2
      | _, _ => renderSegments template rest memo := by
  rw [renderSegments]
  split
  · next expression body hfound hbody => rw [hfound, hbody]
  · next hnone =>
    split
    · next hfound hbody => exact (hnone _ _ hfound hbody).elim
    · rfl

/-- A repetition renders its body for the items of its list, in front of the other segments. -/
theorem renderSegments_repetition (name : String) (index : Nat) :
    renderSegments template (.block ⟨.repetition, name, index⟩ :: rest) memo =
      (match template.scope.get? name, template.repetition? name index with
        | some (.list items), some body => renderItems body items
        | _, _ => "") ++ renderSegments template rest memo := by
  rw [renderSegments]
  split
  · next items body hitem hbody => rw [hitem, hbody]
  · next hnone =>
    split
    · next hitem hbody => exact (hnone _ _ hitem hbody).elim
    · rw [String.empty_append]

end Segments

/-! ### Rendering without a memory -/

mutual

/-- The text of a node: the texts of its segments one after another. -/
def recomputed (template : Template) : String :=
  String.join (template.segments.map (recomputedSegment template))
termination_by (template.height, 1, 0)
decreasing_by exact .right _ (.left _ _ Nat.zero_lt_one)

/-- The text of one segment of a node. It is empty if the segment refers to something the node does
not have. Every expression is evaluated where it stands. -/
def recomputedSegment (template : Template) (segment : Segment) : String :=
  match segment with
  | .text text => text
  | .binding name => ((template.scope.get? name).map Value.display).getD ""
  | .expression id =>
    match template.expression? id with
    | some expression => (expression.evaluate template.scope).display
    | none => ""
  | .inclusion path =>
    match _ : template.include? path with
    | some document => recomputed document
    | none => ""
  | .block ⟨.conditional, id, index⟩ =>
    match template.expression? id, _ : template.conditional? id index with
    | some expression, some body =>
      if (expression.evaluate template.scope).truthy then recomputed body else ""
    | _, _ => ""
  | .block ⟨.repetition, name, index⟩ =>
    match template.scope.get? name, _ : template.repetition? name index with
    | some (.list items), some body => recomputedItems body items
    | _, _ => ""
termination_by (template.height, 0, 0)
decreasing_by
  · exact .left _ _ (height_lt_of_mem_children (mem_children_of_include? (by assumption)))
  · exact .left _ _ (height_lt_of_mem_children (mem_children_of_conditional? (by assumption)))
  · exact .left _ _ (height_lt_of_mem_children (mem_children_of_repetition? (by assumption)))

/-- The text of one copy of a body after the bindings of each item in turn. -/
def recomputedItems (body : Template) (items : List Scope) : String :=
  match items with
  | [] => ""
  | item :: rest => recomputed (body.setAll item) ++ recomputedItems (body.setAll item) rest
termination_by (body.height, 2, items.length)
decreasing_by
  · simpa using .right _ (.left _ _ (by decide))
  · simpa using .right _ (.right _ (Nat.lt_succ_self _))

end

/-- Without a memory an inclusion shows its document. -/
theorem recomputedSegment_inclusion (template : Template) (path : String) :
    recomputedSegment template (.inclusion path) =
      match template.include? path with
      | some document => recomputed document
      | none => "" := by
  rw [recomputedSegment]
  split
  · next document hdocument => rw [hdocument]
  · next hnone => rw [hnone]

/-- Without a memory a conditional shows its body if the value of its condition is truthy. -/
theorem recomputedSegment_conditional (template : Template) (id : String) (index : Nat) :
    recomputedSegment template (.block ⟨.conditional, id, index⟩) =
      match template.expression? id, template.conditional? id index with
      | some expression, some body =>
        if (expression.evaluate template.scope).truthy then recomputed body else ""
      | _, _ => "" := by
  rw [recomputedSegment]
  split
  · next expression body hfound hbody => rw [hfound, hbody]
  · next hnone =>
    split
    · next hfound hbody => exact (hnone _ _ hfound hbody).elim
    · rfl

/-- Without a memory a repetition shows its body for the items of its list. -/
theorem recomputedSegment_repetition (template : Template) (name : String) (index : Nat) :
    recomputedSegment template (.block ⟨.repetition, name, index⟩) =
      match template.scope.get? name, template.repetition? name index with
      | some (.list items), some body => recomputedItems body items
      | _, _ => "" := by
  rw [recomputedSegment]
  split
  · next items body hitem hbody => rw [hitem, hbody]
  · next hnone =>
    split
    · next hitem hbody => exact (hnone _ _ hitem hbody).elim
    · rfl

/-! ### One node -/

/-- A memory of values of the expressions that a node stores, in its scope. -/
def Remembers (template : Template) (memo : Memo) : Prop :=
  memo.Recalls template.scope fun expression =>
    template.expression? expression.id = some expression

/-- Under one id a node stores one expression, so that its memory gives the value of the expression
that is found under an id. -/
theorem Remembers.evaluate {template : Template} {memo : Memo} (h : template.Remembers memo)
    (hkeyed : template.Keyed) {id : String} {expression : Expression}
    (hfound : template.expression? id = some expression) :
    (memo.evaluate expression template.scope).1 = expression.evaluate template.scope ∧
      template.Remembers (memo.evaluate expression template.scope).2 := by
  obtain ⟨rfl, -⟩ := hkeyed.of_expression? hfound
  refine Memo.Recalls.evaluate h (fun expression other hstored hother hid => ?_) hfound
  rw [hid, hother] at hstored
  rw [Option.some.inj hstored]

section Segments

variable {template : Template} (hkeyed : template.Keyed) {rest : List Segment}
  (hrest : ∀ {memo : Memo}, template.Remembers memo →
    renderSegments template rest memo = String.join (rest.map (recomputedSegment template)))
include hkeyed hrest

/-- With a memory that is right, an expression shows its value, and the memory stays right. -/
theorem renderSegments_expression_eq {memo : Memo} (hmemo : template.Remembers memo) (id : String) :
    renderSegments template (.expression id :: rest) memo =
      recomputedSegment template (.expression id) ++
        String.join (rest.map (recomputedSegment template)) := by
  rw [renderSegments, recomputedSegment]
  cases hfound : template.expression? id with
  | none => simp only [hrest hmemo, String.empty_append]
  | some expression =>
    obtain ⟨hvalue, hafter⟩ := hmemo.evaluate hkeyed hfound
    simp only [hrest hafter, hvalue]

/-- With a memory that is right, a conditional decides as without one, and the memory stays
right. -/
theorem renderSegments_conditional_eq {memo : Memo} (hmemo : template.Remembers memo)
    (hbelow : ∀ child ∈ template.children, child.render = child.recomputed)
    (key : String) (index : Nat) :
    renderSegments template (.block ⟨.conditional, key, index⟩ :: rest) memo =
      recomputedSegment template (.block ⟨.conditional, key, index⟩) ++
        String.join (rest.map (recomputedSegment template)) := by
  rw [renderSegments_conditional, recomputedSegment_conditional]
  cases hfound : template.expression? key with
  | none => simp only [hrest hmemo, String.empty_append]
  | some expression =>
    cases hbody : template.conditional? key index with
    | none => simp only [hrest hmemo, String.empty_append]
    | some body =>
      obtain ⟨hvalue, hafter⟩ := hmemo.evaluate hkeyed hfound
      simp only [hrest hafter, hvalue, hbelow body (mem_children_of_conditional? hbody)]

end Segments

/-- Segments of a node have the same text with a memory that is right, if all nodes below the node
have the same text without it. -/
theorem renderSegments_eq {template : Template} (hkeyed : template.Keyed)
    (hbelow : ∀ child ∈ template.children, child.render = child.recomputed)
    (hitems : ∀ child ∈ template.children, ∀ items,
      renderItems child items = recomputedItems child items)
    (segments : List Segment) {memo : Memo} (hmemo : template.Remembers memo) :
    renderSegments template segments memo =
      String.join (segments.map (recomputedSegment template)) := by
  -- The memory changes from segment to segment; that it is right is all that is known of it.
  induction segments generalizing memo with
  | nil =>
    rw [renderSegments]
    rfl
  | cons segment rest ih =>
    rw [List.map_cons, String.join_cons]
    cases segment with
    | text text => rw [renderSegments, recomputedSegment, ih hmemo]
    | binding name => rw [renderSegments, recomputedSegment, ih hmemo]
    | expression id => exact renderSegments_expression_eq hkeyed ih hmemo id
    | inclusion path =>
      rw [renderSegments_inclusion, recomputedSegment_inclusion, ih hmemo]
      cases hdocument : template.include? path with
      | none => rfl
      | some document =>
        rw [Option.map_some, Option.getD_some, hbelow document (mem_children_of_include? hdocument)]
    | block placeholder =>
      obtain ⟨kind, key, index⟩ := placeholder
      cases kind with
      | conditional => exact renderSegments_conditional_eq hkeyed ih hmemo hbelow key index
      | repetition =>
        rw [renderSegments_repetition, recomputedSegment_repetition, ih hmemo]
        congr 1
        split
        · next items body hitem hbody => exact hitems body (mem_children_of_repetition? hbody) items
        · rfl

/-! ### All nodes -/

/-- A template whose expressions are stored under their own ids has the text without a memory. -/
theorem render_eq_recomputed {template : Template} (h : template.Everywhere Keyed) :
    template.render = template.recomputed := by
  induction hheight : template.height using Nat.strongRecOn generalizing template with
  | ind n ih =>
    subst hheight
    have hbelow : ∀ child ∈ template.children, child.render = child.recomputed :=
      fun child hchild => ih _ (height_lt_of_mem_children hchild) (h.of_mem_children hchild) rfl
    have hitems : ∀ child ∈ template.children, ∀ items,
        renderItems child items = recomputedItems child items := by
      intro child hchild items
      -- Items are set on copies of the child, which are as high as the child itself.
      have hlt := height_lt_of_mem_children hchild
      have hkeyed := h.of_mem_children hchild
      clear hchild
      induction items generalizing child with
      | nil => rw [renderItems, recomputedItems]
      | cons item rest ihItems =>
        have hcopy := hkeyed.keyed_setAll item
        have hheight : (child.setAll item).height < template.height := by
          rw [height_setAll]
          exact hlt
        rw [renderItems, recomputedItems, ih _ hheight hcopy rfl, ihItems _ hheight hcopy]
    rw [render, recomputed]
    exact renderSegments_eq h.here hbelow hitems _ (Memo.recalls_nil _ _)

/-- Whatever is set on a compiled template or below it, its text is the one without a memory. -/
theorem render_assignAll {compiler : Compiler} {template : Template}
    (h : compiler.Produces template) (assignments : List Assignment) :
    (template.assignAll assignments).render = (template.assignAll assignments).recomputed := by
  have hcompiled := (everywhere_mapScopes (keyed_mapScopes fun _ => []) template).2
    (h.everywhere grown_keyed)
  refine render_eq_recomputed ((everywhere_mapScopes (keyed_mapScopes fun _ => []) _).1 ?_)
  exact (congrArg (Everywhere Keyed) (withoutScopes_assignAll template assignments)).mpr hcompiled

/-- A receipt that shows the amount of each item, compares it, and shows it again. -/
def receipt : List Line :=
  ["\x7bforeach items\x7d\n", "\x7bprice * n\x7d\n", "\x7bif price*n\x7d\n",
    "!\x7bprice  *n\x7d\n", "\x7b/if\x7d\n", "\x7b/foreach\x7d\n"].map String.toList

/-- All three places of the amount share one expression. -/
theorem render_assignAll_receipt :
    ∃ template, Compiler.Produces ⟨.none, []⟩ template ∧
      (template.repetition? "items" 0).map (fun body => (body.expressions.names,
        (body.conditional? "price*n" 0).map fun inner => inner.expressions.names)) =
          some (["price*n"], some ["price*n"]) ∧
      let assignments := [⟨[], "n", .string "2"⟩, ⟨[("items", 0)], "n", .string "3"⟩,
        ⟨[], "items", .list [[("price", .string "7")], [("n", .string "1")]]⟩]
      (template.assignAll assignments).render = (template.assignAll assignments).recomputed := by
  have hcompiles : ((Compiler.compile ⟨.none, []⟩ "receipt" receipt).1.toOption.map fun template =>
      (template.repetition? "items" 0).map (fun body => (body.expressions.names,
        (body.conditional? "price*n" 0).map fun inner => inner.expressions.names))) =
          some (some (["price*n"], some ["price*n"])) := by decide +kernel
  obtain ⟨template, hrun, hstored⟩ := Option.map_eq_some_iff.1 hcompiles
  have hproduces : Compiler.Produces ⟨.none, []⟩ template := .lines (eq_ok_of_toOption hrun)
  exact ⟨template, hproduces, hstored, render_assignAll hproduces _⟩

end Template

end BraceTemplate
