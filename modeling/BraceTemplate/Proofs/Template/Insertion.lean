import BraceTemplate.Proofs.Expr.Bindings
import BraceTemplate.Proofs.Template.Rendering

/-!
# Inserted values are inert

A name that no expression reads and no repetition runs over is only ever inserted. Then the text of
a template consists of parts that do not depend on the value of the name, with the text of the value
between them, and of one part only if the name has no place in the template.
-/

namespace BraceTemplate

/-! ### Texts with a varying part -/

/-- Texts that have fixed parts, and the text `shown` between any two of them. There is one part
only unless the condition holds. -/
def Spliced {α : Type} (condition : Prop) (shown text : α → String) : Prop :=
  ∃ first rest, (rest ≠ [] → condition) ∧ ∀ a, text a = (shown a).intercalate (first :: rest)

namespace Spliced

variable {α : Type} {condition : Prop} {shown text text' : α → String}

/-- A text that does not vary is a single part. -/
theorem const (fixed : String) : Spliced condition shown fun _ => fixed :=
  ⟨fixed, [], fun h => absurd rfl h, fun _ => String.intercalate_singleton.symm⟩

/-- The shown text itself has two empty parts. -/
theorem of_shown (h : condition) : Spliced condition shown shown :=
  ⟨"", [""], fun _ => h, fun a => by
    rw [String.intercalate_cons_cons, String.intercalate_singleton, String.empty_append,
      String.append_empty]⟩

/-- What equals a text with fixed parts has them. -/
theorem congr (h : Spliced condition shown text) (heq : ∀ a, text' a = text a) :
    Spliced condition shown text' :=
  funext heq ▸ h

/-- The last part of the one text and the first part of the other one become one part. -/
theorem append (h : Spliced condition shown text) (h' : Spliced condition shown text') :
    Spliced condition shown fun a => text a ++ text' a := by
  obtain ⟨first, rest, hrest, htext⟩ := h
  obtain ⟨first', rest', hrest', htext'⟩ := h'
  induction rest generalizing first text with
  | nil =>
    refine ⟨first ++ first', rest', hrest', fun a => ?_⟩
    dsimp only
    rw [htext, htext', String.intercalate_singleton, String.intercalate_cons_append]
  | cons next rest ih =>
    have hcondition := hrest (List.cons_ne_nil next rest)
    obtain ⟨joined, more, -, hjoined⟩ := ih next (fun _ => hcondition) fun a => rfl
    refine ⟨first, joined :: more, fun _ => hcondition, fun a => ?_⟩
    dsimp only
    rw [htext, String.intercalate_cons_cons, String.intercalate_cons_cons, ← hjoined,
      String.append_assoc]

/-- If the text between the parts does not vary, nothing does. -/
theorem of_const {fixed : String} (h : Spliced condition (fun _ => fixed) text) :
    Spliced condition shown text := by
  obtain ⟨first, rest, -, htext⟩ := h
  exact (const (fixed.intercalate (first :: rest))).congr htext

end Spliced

/-! ### Scopes that differ in one binding -/

/-- Changes of scopes that agree with a base on all names but one, and bind this one to values whose
texts are `shown`, as far as the condition holds. -/
structure Vary {α : Type} (condition : Prop) (name : String) (base : Scope → Scope)
    (change : α → Scope → Scope) (shown : α → String) : Prop where
  agree : ∀ a scope other, other ≠ name → (change a scope).get? other = (base scope).get? other
  display : condition → ∀ a scope,
    (((change a scope).get? name).map Value.display).getD "" = shown a

namespace Vary

variable {α : Type} {condition : Prop} {name : String} {base : Scope → Scope}
  {change : α → Scope → Scope} {shown : α → String}

/-- A name that is set in all scopes may be the one that varies; then it does so no longer. -/
theorem insert (h : Vary condition name base change shown) (other : String) (value : Value) :
    Vary condition name (fun scope => (base scope).insert other value)
      (fun a scope => (change a scope).insert other value)
      (if other = name then fun _ => value.display else shown) := by
  refine ⟨fun a scope third hthird => ?_, fun hcondition a scope => ?_⟩
  · by_cases hother : third = other
    · subst hother
      rw [Table.get?_insert_self, Table.get?_insert_self]
    · rw [Table.get?_insert_of_ne _ hother, Table.get?_insert_of_ne _ hother,
        h.agree a scope third hthird]
  · by_cases hother : other = name
    · subst hother
      rw [Table.get?_insert_self, if_pos rfl]
      rfl
    · rw [Table.get?_insert_of_ne _ (Ne.symm hother), if_neg hother]
      exact h.display hcondition a scope

/-- After the bindings of an item the name varies as before or no longer. -/
theorem insertAll (h : Vary condition name base change shown) (item : Scope) :
    ∃ shown', Vary condition name (fun scope => (base scope).insertAll item)
        (fun a scope => (change a scope).insertAll item) shown' ∧
      ∀ text, Spliced condition shown' text → Spliced condition shown text := by
  induction item generalizing base change shown with
  | nil => exact ⟨shown, h, fun _ htext => htext⟩
  | cons binding item ih =>
    obtain ⟨shown', hvary, htexts⟩ := ih (h.insert binding.1 binding.2)
    refine ⟨shown', hvary, fun text htext => ?_⟩
    have hbinding := htexts text htext
    by_cases hname : binding.1 = name
    · rw [if_pos hname] at hbinding
      exact hbinding.of_const
    · rw [if_neg hname] at hbinding
      exact hbinding

end Vary

namespace Template

/-! ### Rendering with one name varied -/

/-- No expression of a node reads the name, and no repetition runs over it. -/
structure OnlyInserts (name : String) (node : Template) : Prop where
  no_literal : ∀ entry ∈ node.expressions, .literal name ∉ entry.2.atoms
  no_list : ∀ index, .block ⟨.repetition, name, index⟩ ∉ node.segments

section Varied

variable {α : Type} {condition : Prop} {name : String} {base : Scope → Scope}
  {change : α → Scope → Scope} {shown : α → String}

/-- What is known of a template below which a name varies: its text has fixed parts, whatever else
is done to the scopes. -/
def SplicesAt (α : Type) (condition : Prop) (name : String) (template : Template) : Prop :=
  ∀ {base : Scope → Scope} {change : α → Scope → Scope} {shown : α → String},
    Vary condition name base change shown →
      Spliced condition shown fun a => (template.mapScopes (change a)).render

/-- A repetition over a list that does not vary has fixed parts if its body does. -/
theorem spliced_renderItems {body : Template} (hbody : SplicesAt α condition name body)
    (hvary : Vary condition name base change shown) (items : List Scope) :
    Spliced condition shown fun a => renderItems (body.mapScopes (change a)) items := by
  induction items generalizing base change shown with
  | nil => exact (Spliced.const "").congr fun a => by rw [renderItems]
  | cons item rest ih =>
    -- The item may rebind the name, and then it does not vary in this copy and the later ones.
    obtain ⟨shown', hitem, htexts⟩ := hvary.insertAll item
    refine htexts _ (((hbody hitem).append (ih hitem)).congr fun a => ?_)
    rw [renderItems, setAll_eq_mapScopes, mapScopes_mapScopes]

/-! ### One segment -/

section Segment

variable {template : Template}

/-- The value of an expression does not vary with a name that it does not read. -/
theorem evaluate_mapScopes (hvary : Vary condition name base change shown)
    (hinserts : template.OnlyInserts name) {id : String} {expression : Expression}
    (hfound : template.expression? id = some expression) (memo : Memo) (a : α) :
    memo.evaluate expression (change a template.scope) =
      memo.evaluate expression (base template.scope) := by
  refine memo.evaluate_congr fun text htext => hvary.agree a template.scope text ?_
  rintro rfl
  exact hinserts.no_literal _ (Table.mem_of_get? hfound) htext

/-- The text of a segment has fixed parts, and what is remembered behind the segment does not
vary. -/
def SplicesSegment (condition : Prop) (change : α → Scope → Scope) (shown : α → String)
    (template : Template) (memo : Memo) (segment : Segment) : Prop :=
  ∃ text after, Spliced condition shown text ∧ ∀ a rest,
    renderSegments (template.mapScopes (change a)) (segment :: rest) memo =
      text a ++ renderSegments (template.mapScopes (change a)) rest after

namespace SplicesSegment

variable {memo : Memo} {segment : Segment}

/-- A segment that shows nothing and leaves what is remembered as it is. -/
theorem of_skipped (h : ∀ a rest,
    renderSegments (template.mapScopes (change a)) (segment :: rest) memo =
      renderSegments (template.mapScopes (change a)) rest memo) :
    SplicesSegment condition change shown template memo segment :=
  ⟨fun _ => "", memo, .const "", fun a rest => by rw [h, String.empty_append]⟩

/-- The name itself shows the text that varies, and every other name a fixed one. -/
theorem binding (hvary : Vary condition name base change shown) {other : String}
    (hplace : other = name → condition) :
    SplicesSegment condition change shown template memo (.binding other) := by
  by_cases hother : other = name
  · subst hother
    refine ⟨shown, memo, .of_shown (hplace rfl), fun a rest => ?_⟩
    rw [renderSegments, scope_mapScopes, hvary.display (hplace rfl)]
  · let bound := (((base template.scope).get? other).map Value.display).getD ""
    refine ⟨fun _ => bound, memo, .const bound, fun a rest => ?_⟩
    rw [renderSegments, scope_mapScopes, hvary.agree a _ other hother]

/-- An expression that does not read the name has a fixed value. -/
theorem expression (hinserts : template.OnlyInserts name)
    (hvary : Vary condition name base change shown) (id : String) :
    SplicesSegment condition change shown template memo (.expression id) := by
  cases hfound : template.expression? id with
  | none => exact .of_skipped fun a rest => by rw [renderSegments, expression?_mapScopes, hfound]
  | some expression =>
    let evaluated := memo.evaluate expression (base template.scope)
    refine ⟨_, evaluated.2, .const evaluated.1.display, fun a rest => ?_⟩
    rw [renderSegments, expression?_mapScopes, hfound]
    simp only [scope_mapScopes, evaluate_mapScopes hvary hinserts hfound, evaluated]

/-- An included document shows what it does on its own. -/
theorem inclusion (hbelow : ∀ child ∈ template.children, SplicesAt α condition name child)
    (hvary : Vary condition name base change shown) (path : String) :
    SplicesSegment condition change shown template memo (.inclusion path) := by
  cases hdocument : template.include? path with
  | none =>
    refine .of_skipped fun a rest => ?_
    rw [renderSegments_inclusion, include?_mapScopes, hdocument]
    exact String.empty_append
  | some document =>
    refine ⟨_, memo, hbelow document (mem_children_of_include? hdocument) hvary, fun a rest => ?_⟩
    rw [renderSegments_inclusion, include?_mapScopes, hdocument]
    rfl

/-- A condition that does not read the name holds for all its values or for none of them. -/
theorem conditional (hinserts : template.OnlyInserts name)
    (hbelow : ∀ child ∈ template.children, SplicesAt α condition name child)
    (hvary : Vary condition name base change shown) (key : String) (index : Nat) :
    SplicesSegment condition change shown template memo (.block ⟨.conditional, key, index⟩) := by
  cases hfound : template.expression? key with
  | none =>
    refine .of_skipped fun a rest => ?_
    rw [renderSegments_conditional, expression?_mapScopes, hfound]
  | some expression =>
    cases hbody : template.conditional? key index with
    | none =>
      refine .of_skipped fun a rest => ?_
      rw [renderSegments_conditional, expression?_mapScopes, conditional?_mapScopes, hfound, hbody]
      rfl
    | some body =>
      let evaluated := memo.evaluate expression (base template.scope)
      have hspliced := hbelow body (mem_children_of_conditional? hbody) hvary
      refine ⟨fun a => if evaluated.1.truthy then (body.mapScopes (change a)).render else "",
        evaluated.2, ?_, fun a rest => ?_⟩
      · split
        · exact hspliced
        · exact .const ""
      · rw [renderSegments_conditional, expression?_mapScopes, conditional?_mapScopes, hfound,
          hbody]
        simp only [Option.map_some, scope_mapScopes, evaluate_mapScopes hvary hinserts hfound,
          evaluated]

/-- A repetition runs over a list that does not vary, and so do the copies of its body. -/
theorem repetition (hbelow : ∀ child ∈ template.children, SplicesAt α condition name child)
    (hvary : Vary condition name base change shown) {key : String} (hkey : key ≠ name)
    (index : Nat) :
    SplicesSegment condition change shown template memo (.block ⟨.repetition, key, index⟩) := by
  cases hbody : template.repetition? key index with
  | none =>
    refine .of_skipped fun a rest => ?_
    rw [renderSegments_repetition, repetition?_mapScopes, hbody, Option.map_none]
    split
    · next hnone => cases hnone
    · rfl
  | some body =>
    have hspliced : SplicesAt α condition name body :=
      hbelow body (mem_children_of_repetition? hbody)
    by_cases hlist : ∃ items, (base template.scope).get? key = some (.list items)
    · obtain ⟨items, hitems⟩ := hlist
      refine ⟨fun a => renderItems (body.mapScopes (change a)) items, memo,
        spliced_renderItems hspliced hvary items, fun a rest => ?_⟩
      rw [renderSegments_repetition, scope_mapScopes, hvary.agree a _ key hkey,
        repetition?_mapScopes, hbody, hitems, Option.map_some]
    · refine .of_skipped fun a rest => ?_
      rw [renderSegments_repetition, scope_mapScopes, hvary.agree a _ key hkey]
      split
      · next items _ hitems _ => exact absurd ⟨items, hitems⟩ hlist
      · rfl

end SplicesSegment

/-- Every segment of a node that only inserts the name has a text with fixed parts. -/
theorem splicesSegment_of_mem (hinserts : template.OnlyInserts name)
    (hbelow : ∀ child ∈ template.children, SplicesAt α condition name child)
    (hvary : Vary condition name base change shown) {segment : Segment}
    (hsegment : segment ∈ template.segments) (hplace : segment = .binding name → condition)
    (memo : Memo) : SplicesSegment condition change shown template memo segment := by
  cases segment with
  | text text => exact ⟨_, memo, .const text, fun a rest => by rw [renderSegments]⟩
  | binding other => exact .binding hvary fun hother => hplace (by rw [hother])
  | expression id => exact .expression hinserts hvary id
  | inclusion path => exact .inclusion hbelow hvary path
  | block placeholder =>
    obtain ⟨kind, key, index⟩ := placeholder
    cases kind with
    | conditional => exact .conditional hinserts hbelow hvary key index
    | repetition =>
      have hkey : key ≠ name := by
        rintro rfl
        exact hinserts.no_list index hsegment
      exact .repetition hbelow hvary hkey index

end Segment

/-! ### Whole templates -/

/-- If the name is only inserted, and the condition holds where it is, the text of a template has
fixed parts, however the other names are bound. -/
theorem splicesAt (template : Template) (hinserts : template.Everywhere (OnlyInserts name))
    (hplace : template.Everywhere fun node => .binding name ∈ node.segments → condition) :
    SplicesAt α condition name template := by
  induction template using children_induction with
  | node template ih =>
    intro base change shown hvary
    have hbelow : ∀ child ∈ template.children, SplicesAt α condition name child :=
      fun child hchild =>
        ih child hchild (hinserts.of_mem_children hchild) (hplace.of_mem_children hchild)
    have hsegments : ∀ segments ⊆ template.segments, ∀ memo, Spliced condition shown fun a =>
        renderSegments (template.mapScopes (change a)) segments memo := by
      intro segments hsubset
      induction segments with
      | nil =>
        intro memo
        exact (Spliced.const "").congr fun a => by rw [renderSegments]
      | cons segment rest ihRest =>
        intro memo
        have hmem := hsubset List.mem_cons_self
        obtain ⟨text, after, htext, heq⟩ := splicesSegment_of_mem hinserts.here hbelow hvary hmem
          (fun hbinding => hplace.here (hbinding ▸ hmem)) memo
        have hrest := ihRest (fun _ hother => hsubset (List.mem_cons_of_mem _ hother)) after
        exact (htext.append hrest).congr fun a => heq a rest
    refine (hsegments _ (List.Subset.refl _) []).congr fun a => ?_
    rw [render, segments_mapScopes]

end Varied

/-- A name that is only inserted shows where it stands and nowhere else: there are texts, the same
for all values of the name, between which the text of the value stands when it is set. There is only
one of them, and it is the text without the name being set, if the name has no place in any node. -/
theorem render_set_eq_intercalate {template : Template} {name : String}
    (h : template.Everywhere (OnlyInserts name)) :
    ∃ first rest,
      (∀ value, (template.set name value).render = value.display.intercalate (first :: rest)) ∧
      ((template.Everywhere fun node => .binding name ∉ node.segments) →
        rest = [] ∧ ∀ value, (template.set name value).render = template.render) := by
  by_cases hunplaced : template.Everywhere fun node => .binding name ∉ node.segments
  · -- Without a place the name may as well be left unset, which varies no text.
    let change : Option Value → Scope → Scope := fun value scope =>
      value.elim scope (scope.insert name)
    have hvary : Vary False name (fun scope => scope) change fun _ => "" := by
      refine ⟨fun value scope other hother => ?_, fun hfalse => hfalse.elim⟩
      cases value with
      | none => rfl
      | some value => exact Table.get?_insert_of_ne scope hother value
    obtain ⟨first, rest, hrest, htext⟩ :=
      splicesAt template h (hunplaced.mono fun _ hnode hmem => hnode hmem) hvary
    obtain rfl : rest = [] := by_contra hrest
    simp only [String.intercalate_singleton] at htext
    have hset : ∀ value, (template.set name value).render = first := fun value => htext (some value)
    have hunset : template.render = first :=
      (congrArg render (mapScopes_id template)).symm.trans (htext none)
    refine ⟨first, [], fun value => ?_, fun _ => ⟨rfl, fun value => ?_⟩⟩
    · rw [hset, String.intercalate_singleton]
    · rw [hset, hunset]
  · have hvary : Vary True name (fun scope => scope) (fun value scope => scope.insert name value)
        Value.display := by
      refine ⟨fun value scope other hother => Table.get?_insert_of_ne scope hother value, ?_⟩
      intro _ value scope
      rw [Table.get?_insert_self]
      rfl
    obtain ⟨first, rest, -, htext⟩ := splicesAt template h (h.mono fun _ _ _ => trivial) hvary
    exact ⟨first, rest, htext, fun hplaced => absurd hplaced hunplaced⟩

/-- A row of a list, which shows a name and the value of an expression. -/
def row : Template where
  name := "row"
  segments := [.binding "x", .expression "y", .text ","]
  expressions := [("y", ⟨"y", "y", [.literal "y"]⟩)]

/-- A list that shows a name, itself and by its rows, one of which rebinds it. -/
def roster : Template where
  name := "roster"
  segments := [.binding "x", .text "|", .block ⟨.repetition, "rows", 0⟩]
  scope := [("rows", .list [[("y", .string "1")], [("x", .string "own")], []])]
  repetitions := [("rows", [row])]

/-- What holds of the roster and of its row holds everywhere in the roster. -/
theorem everywhere_roster {P : Template → Prop} (hroster : P roster) (hrow : P row) :
    roster.Everywhere P := by
  refine .node hroster fun child hchild => ?_
  obtain rfl : child = row := by simpa [children, roster] using hchild
  exact .node hrow fun child hchild => by simp [children, row] at hchild

/-- One name has places in the list and its rows, the other one has none. -/
theorem render_set_eq_intercalate_roster :
    roster.Everywhere (OnlyInserts "x") ∧ roster.Everywhere (OnlyInserts "z") ∧
      (∃ first rest, ∀ value,
        (roster.set "x" value).render = value.display.intercalate (first :: rest)) ∧
      ∀ value, (roster.set "z" value).render = roster.render := by
  have hx : roster.Everywhere (OnlyInserts "x") :=
    everywhere_roster ⟨by simp [roster], by simp [roster]⟩ ⟨by simp [row], by simp [row]⟩
  have hz : roster.Everywhere (OnlyInserts "z") :=
    everywhere_roster ⟨by simp [roster], by simp [roster]⟩ ⟨by simp [row], by simp [row]⟩
  have hunplaced : roster.Everywhere fun node => .binding "z" ∉ node.segments :=
    everywhere_roster (by simp [roster]) (by simp [row])
  obtain ⟨first, rest, htext, -⟩ := render_set_eq_intercalate hx
  obtain ⟨_, _, -, hsame⟩ := render_set_eq_intercalate hz
  exact ⟨hx, hz, ⟨first, rest, htext⟩, (hsame hunplaced).2⟩

end Template

end BraceTemplate
