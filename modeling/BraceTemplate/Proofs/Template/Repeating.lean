import BraceTemplate.Proofs.Expr.Bindings
import BraceTemplate.Proofs.Template.Showing

/-!
# Repetitions

The text of a node depends on the bindings of its scope and of those below it, and not on their
order. The items of a list are set on a copy of the body one after another. So the text for an item
is that of the body in which every node, whatever it is the body of, binds a name as the last of the
items so far that binds it, and as it is stored if none of them does.
-/

namespace BraceTemplate

/-- The value from the last of the items that binds a name. -/
def lastBound? (items : List Scope) (name : String) : Option Value :=
  items.reverse.findSome? fun item => Table.get? item.reverse name

/-- One more item binds a name, or the items before it do. -/
theorem lastBound?_concat (items : List Scope) (item : Scope) (name : String) :
    lastBound? (items ++ [item]) name =
      (Table.get? item.reverse name).or (lastBound? items name) := by
  rw [lastBound?, List.reverse_append, List.reverse_singleton, List.singleton_append,
    List.findSome?_cons, lastBound?]
  cases Table.get? item.reverse name <;> rfl

namespace Template

/-! ### Templates that differ in the order of bindings -/

/-- Two templates are alike: all nodes are the same but for their scopes, and these bind all names
to the same values. -/
structure Alike (template template' : Template) : Prop where
  same : template.withoutScopes = template'.withoutScopes
  binds : ∀ address name, (template.nodeAt? address).map (fun node => node.scope.get? name) =
    (template'.nodeAt? address).map fun node => node.scope.get? name

namespace Alike

variable {template template' : Template}

/-- Nodes that are alike have the same segments. -/
theorem segments (h : template.Alike template') : template.segments = template'.segments := by
  simpa [withoutScopes] using congrArg (fun node => node.segments) h.same

/-- Nodes that are alike have the same expressions. -/
theorem expression? (h : template.Alike template') (id : String) :
    template.expression? id = template'.expression? id := by
  simpa [withoutScopes] using congrArg (fun node => node.expression? id) h.same

/-- Nodes that are alike bind a name to the same value. -/
theorem scope (h : template.Alike template') (name : String) :
    template.scope.get? name = template'.scope.get? name :=
  Option.some.inj (h.binds [] name)

/-- What is the same of nodes that are alike is the same of the nodes that a step leads to. -/
theorem map_child? {α : Type} {f : Template → α} (h : template.Alike template')
    (hbelow : ∀ child ∈ template.children, ∀ child', child.Alike child' → f child = f child')
    (step : Step) : (template.child? step).map f = (template'.child? step).map f := by
  have hsame := congrArg (fun node => node.child? step) h.same
  simp only [withoutScopes, child?_mapScopes] at hsame
  have hbinds := fun address name => h.binds (step :: address) name
  simp only [nodeAt?_cons] at hbinds
  cases hchild : template.child? step with
  | none =>
    rw [hchild] at hsame
    rw [Option.map_eq_none_iff.1 hsame.symm]
  | some child =>
    rw [hchild] at hsame hbinds
    obtain ⟨child', hchild', hsame⟩ := Option.map_eq_some_iff.1 hsame.symm
    rw [hchild'] at hbinds ⊢
    have halike : child.Alike child' := ⟨hsame.symm, hbinds⟩
    exact congrArg some (hbelow child (mem_children_of_child? hchild) child' halike)

/-- Templates that are alike stay so when the same names are set on them. -/
theorem setAll (h : template.Alike template') (bindings : Scope) :
    (template.setAll bindings).Alike (template'.setAll bindings) := by
  rw [setAll_eq_mapScopes, setAll_eq_mapScopes]
  refine ⟨?_, fun address name => ?_⟩
  · rw [withoutScopes, mapScopes_mapScopes, withoutScopes, mapScopes_mapScopes]
    exact h.same
  · have hbinds := congrArg (Option.map fun bound => (Table.get? bindings.reverse name).or bound)
      (h.binds address name)
    simpa only [nodeAt?_mapScopes, Option.map_map, Function.comp_def, scope_mapScopes,
      Table.get?_insertAll] using hbinds

/-- Expressions have the same value in nodes that are alike. -/
theorem evaluate (h : template.Alike template') (memo : Memo) (expression : Expression) :
    memo.evaluate expression template.scope = memo.evaluate expression template'.scope :=
  memo.evaluate_congr fun text _ => h.scope text

section Segments

variable {rest : List Segment} (h : template.Alike template')
  (hrest : ∀ memo, renderSegments template rest memo = renderSegments template' rest memo)
include h hrest

/-- An expression is the same in nodes that are alike, and so is its value. -/
theorem renderSegments_expression_eq (id : String) (memo : Memo) :
    renderSegments template (.expression id :: rest) memo =
      renderSegments template' (.expression id :: rest) memo := by
  rw [renderSegments, renderSegments, h.expression?]
  cases template'.expression? id with
  | none => exact hrest memo
  | some expression => simp only [h.evaluate, hrest]

/-- A conditional shows the same if its condition is the same and the bodies have the same text. -/
theorem renderSegments_conditional_eq
    (hbelow : ∀ child ∈ template.children, ∀ child', child.Alike child' →
      child.render = child'.render) (key : String) (index : Nat) (memo : Memo) :
    renderSegments template (.block ⟨.conditional, key, index⟩ :: rest) memo =
      renderSegments template' (.block ⟨.conditional, key, index⟩ :: rest) memo := by
  rw [renderSegments_conditional, renderSegments_conditional, h.expression?]
  have hbody : (template.conditional? key index).map render =
    (template'.conditional? key index).map render := h.map_child? hbelow (.conditional key index)
  cases template'.expression? key with
  | none => exact hrest memo
  | some expression =>
    cases hfound : template'.conditional? key index with
    | none =>
      rw [hfound, Option.map_none, Option.map_eq_none_iff] at hbody
      simp only [hbody, hrest]
    | some body' =>
      rw [hfound] at hbody
      obtain ⟨body, hbody, hrender⟩ := Option.map_eq_some_iff.1 hbody
      simp only [hbody, h.evaluate, hrest, hrender]

/-- A repetition shows the same if the bodies show the same for all lists of items. -/
theorem renderSegments_repetition_eq
    (hitems : ∀ child ∈ template.children, ∀ child', child.Alike child' → ∀ items,
      renderItems child items = renderItems child' items)
    (key : String) (index : Nat) (memo : Memo) :
    renderSegments template (.block ⟨.repetition, key, index⟩ :: rest) memo =
      renderSegments template' (.block ⟨.repetition, key, index⟩ :: rest) memo := by
  rw [renderSegments_repetition, renderSegments_repetition, h.scope, hrest]
  have hbody : (template.repetition? key index).map renderItems =
    (template'.repetition? key index).map renderItems :=
    h.map_child? (fun child hchild child' halike => funext (hitems child hchild child' halike))
      (.repetition key index)
  cases hfound : template'.repetition? key index with
  | none =>
    rw [hfound, Option.map_none, Option.map_eq_none_iff] at hbody
    rw [hbody]
  | some body' =>
    rw [hfound] at hbody
    obtain ⟨body, hbody, hrender⟩ := Option.map_eq_some_iff.1 hbody
    rw [hbody]
    congr 1
    cases template'.scope.get? key with
    | none => rfl
    | some value =>
      cases value with
      | list items => exact congrFun hrender items
      | _ => rfl

end Segments

/-- If the nodes below have the same text, so have segments of nodes that are alike. -/
theorem renderSegments_eq (h : template.Alike template')
    (hbelow : ∀ child ∈ template.children, ∀ child', child.Alike child' →
      child.render = child'.render)
    (hitems : ∀ child ∈ template.children, ∀ child', child.Alike child' → ∀ items,
      renderItems child items = renderItems child' items)
    (segments : List Segment) (memo : Memo) :
    renderSegments template segments memo = renderSegments template' segments memo := by
  induction segments generalizing memo with
  | nil => rw [renderSegments, renderSegments]
  | cons segment rest ih =>
    cases segment with
    | text text => rw [renderSegments, renderSegments, ih]
    | binding name => rw [renderSegments, renderSegments, h.scope, ih]
    | expression id => exact h.renderSegments_expression_eq ih id memo
    | inclusion path =>
      rw [renderSegments_inclusion, renderSegments_inclusion, ih]
      exact congrArg (fun shown => shown.getD "" ++ _) (h.map_child? hbelow (.inclusion path))
    | block placeholder =>
      obtain ⟨kind, key, index⟩ := placeholder
      cases kind with
      | conditional => exact h.renderSegments_conditional_eq ih hbelow key index memo
      | repetition => exact h.renderSegments_repetition_eq ih hitems key index memo

/-- The bindings of an item are set on both of two bodies that are alike. -/
theorem renderItems_eq {body body' : Template}
    (hcopies : ∀ bindings copy', (body.setAll bindings).Alike copy' →
      (body.setAll bindings).render = copy'.render)
    (h : body.Alike body') (items : List Scope) :
    renderItems body items = renderItems body' items := by
  induction items generalizing body body' with
  | nil => rw [renderItems, renderItems]
  | cons item rest ih =>
    have hitem := hcopies item _ (h.setAll item)
    have hrest : ∀ bindings copy', ((body.setAll item).setAll bindings).Alike copy' →
        ((body.setAll item).setAll bindings).render = copy'.render := by
      intro bindings
      rw [← setAll_append]
      exact hcopies (item ++ bindings)
    rw [renderItems, renderItems, hitem, ih hrest (h.setAll item)]

/-- Templates that are alike have the same text. -/
theorem render_eq (h : template.Alike template') : template.render = template'.render := by
  induction template using copies_induction generalizing template' with
  | node template ih =>
    have hbelow : ∀ child ∈ template.children, ∀ child', child.Alike child' →
        child.render = child'.render := fun child hchild child' halike => ih child hchild [] halike
    have hitems : ∀ child ∈ template.children, ∀ child', child.Alike child' → ∀ items,
        renderItems child items = renderItems child' items := fun child hchild child' halike =>
      renderItems_eq (fun bindings _ => ih child hchild bindings) halike
    rw [render, render, h.segments]
    exact h.renderSegments_eq hbelow hitems _ []

end Alike

/-! ### The copies of a body -/

/-- A copy of a body, changed only in its scopes: every node of it binds a name as the last of the
items that binds it, and as in the body if none of them does. -/
structure OverlaidBy (copy : Template) (items : List Scope) (body : Template) : Prop where
  same : copy.withoutScopes = body.withoutScopes
  binds : ∀ address name, (copy.nodeAt? address).map (fun node => node.scope.get? name) =
    (body.nodeAt? address).map fun node => (lastBound? items name).or (node.scope.get? name)

namespace OverlaidBy

variable {copy copy' body : Template} {items : List Scope}

/-- Without items a body is its own copy. -/
theorem nil (body : Template) : body.OverlaidBy [] body :=
  ⟨rfl, fun _ _ => rfl⟩

/-- A further item goes on top of the earlier ones. -/
theorem setAll (h : copy.OverlaidBy items body) (item : Scope) :
    (copy.setAll item).OverlaidBy (items ++ [item]) body := by
  rw [setAll_eq_mapScopes]
  refine ⟨?_, fun address name => ?_⟩
  · rw [withoutScopes, mapScopes_mapScopes]
    exact h.same
  · have hbinds := congrArg (Option.map fun bound => (Table.get? item.reverse name).or bound)
      (h.binds address name)
    simpa only [nodeAt?_mapScopes, Option.map_map, Function.comp_def, scope_mapScopes,
      Table.get?_insertAll, lastBound?_concat, Option.or_assoc] using hbinds

/-- There is a copy for any items. -/
theorem foldl_setAll (items : List Scope) (body : Template) :
    (items.foldl Template.setAll body).OverlaidBy items body := by
  induction items using List.reverseRecOn with
  | nil => exact nil body
  | append_singleton items item ih =>
    rw [List.foldl_append]
    exact ih.setAll item

/-- All copies for the same items have the same text. -/
theorem render_eq (h : copy.OverlaidBy items body) (h' : copy'.OverlaidBy items body) :
    copy.render = copy'.render :=
  Alike.render_eq ⟨h.same.trans h'.same.symm, fun address name =>
    (h.binds address name).trans (h'.binds address name).symm⟩

/-- From a copy for the items so far, the text for the items that are left is that of the copies for
all items up to each of them. -/
theorem renderItems_eq {earlier rest : List Scope} (h : copy.OverlaidBy earlier body)
    {shown : Nat → Template}
    (hshown : ∀ k < rest.length, (shown k).OverlaidBy (earlier ++ rest.take (k + 1)) body) :
    renderItems copy rest =
      String.join ((List.range rest.length).map fun k => (shown k).render) := by
  induction rest generalizing copy earlier shown with
  | nil =>
    rw [renderItems]
    rfl
  | cons item rest ih =>
    have hnext := h.setAll item
    have hfirst : (shown 0).render = (copy.setAll item).render :=
      (hshown 0 (Nat.zero_lt_succ _)).render_eq hnext
    have hrest : renderItems (copy.setAll item) rest =
        String.join ((List.range rest.length).map fun k => (shown (k + 1)).render) := by
      refine ih hnext fun k hk => ?_
      have hlater := hshown (k + 1) (Nat.succ_lt_succ hk)
      rwa [List.take_succ_cons, List.append_cons] at hlater
    rw [renderItems, hrest, ← hfirst, List.length_cons, List.range_succ_eq_map, List.map_cons,
      List.map_map, String.join_cons]
    rfl

end OverlaidBy

/-- A repetition over a list shows, for each of its items, the stored body with the items so far
laid over every scope in it: what an item binds holds for the later ones too until one of them binds
it again, and what no item so far binds is as it is stored. -/
theorem renderSegments_repetition_overlaid {template body : Template} {name : String} {index : Nat}
    {items : List Scope} (hitems : template.scope.get? name = some (.list items))
    (hbody : template.repetition? name index = some body) :
    (∀ k < items.length, ∃ copy, OverlaidBy copy (items.take (k + 1)) body) ∧
      ∀ shown : Nat → Template,
        (∀ k < items.length, (shown k).OverlaidBy (items.take (k + 1)) body) →
        ∀ rest memo, renderSegments template (.block ⟨.repetition, name, index⟩ :: rest) memo =
          String.join ((List.range items.length).map fun k => (shown k).render) ++
            renderSegments template rest memo := by
  refine ⟨fun k _ => ⟨_, .foldl_setAll (items.take (k + 1)) body⟩, fun shown hshown rest memo => ?_⟩
  rw [renderSegments_repetition, hitems, hbody]
  dsimp only
  rw [(OverlaidBy.nil body).renderItems_eq hshown]

/-- The fare of a journey, which is marked if it is reduced. The stored fare is a single one. -/
def fare : Template where
  name := "fare"
  segments := [.binding "from", .binding "kind", .block ⟨.conditional, "reduced", 0⟩]
  expressions := [("reduced", ⟨"reduced", "reduced", [.literal "reduced"]⟩)]
  scope := [("kind", .string "single")]
  conditionals := [("reduced", [{ name := "mark", segments := [.binding "kind", .text "*"] }])]

/-- A list of fares, of which the first one is reduced and the second one is a return. -/
def fares : Template where
  name := "fares"
  segments := [.block ⟨.repetition, "fares", 0⟩]
  scope := [("fares", .list [[("from", .string "A"), ("reduced", .bool true)],
    [("kind", .string "return")], [("from", .string "B"), ("reduced", .bool false)]])]
  repetitions := [("fares", [fare])]

/-- The second fare starts where the first one does, and it is reduced too; the third one is still a
return. -/
theorem renderSegments_repetition_overlaid_fares :
    ∃ items, fares.scope.get? "fares" = some (.list items) ∧
      fares.repetition? "fares" 0 = some fare ∧
      (["from", "kind", "reduced"].map (lastBound? (items.take 2)) =
        [some (.string "A"), some (.string "return"), some (.bool true)]) ∧
      ∃ shown : Nat → Template,
        (∀ k < items.length, (shown k).OverlaidBy (items.take (k + 1)) fare) ∧
        fares.render = String.join ((List.range items.length).map fun k => (shown k).render) := by
  refine ⟨_, rfl, rfl, rfl, fun k => _, fun k _ => .foldl_setAll _ fare, ?_⟩
  rw [render, fares,
    (renderSegments_repetition_overlaid rfl rfl).2 _ fun k _ => .foldl_setAll _ fare,
    renderSegments, String.append_empty]

end Template

end BraceTemplate
