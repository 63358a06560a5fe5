import BraceTemplate.Proofs.Compiled.Storable
import BraceTemplate.Proofs.Json.Decoding

/-!
# Compiled texts hold the whole template

A storable template is read back from its compiled text with every field of every node and every
order of entries. The printed JSON is parsed again as it was, and each type's decoder undoes its
encoder as soon as it may enter as many levels as the encoding has.
-/

namespace BraceTemplate

open Json (text? index? fields? variant? unit? variant?_object fields?_object)

/-! ### Encodings are printed faithfully -/

section WellFormed

open Json.WellFormed (objectNil objectCons arrayMap objectMap)

/-- An atom is printed with nothing but texts. -/
theorem wellFormed_atom (atom : Atom) : atom.encode.WellFormed := by
  cases atom with
  | literal text => exact objectCons (.string _) objectNil
  | operator op => exact objectCons (.string _) objectNil

/-- An expression is printed with nothing but texts. -/
theorem wellFormed_expression (expression : Expression) : expression.encode.WellFormed := by
  have hatoms := arrayMap fun atom (_ : atom ∈ expression.atoms) => wellFormed_atom atom
  exact objectCons (.string _) (objectCons (.string _) (objectCons hatoms objectNil))

/-- A placeholder is printed with texts and the numeral of its index. -/
theorem wellFormed_placeholder (placeholder : Placeholder) :
    placeholder.encode.WellFormed :=
  objectCons (.string _) (objectCons (.string _) (objectCons (wellFormed_encodeNat _) objectNil))

/-- A segment is printed with texts and numerals. -/
theorem wellFormed_segment (segment : Segment) : segment.encode.WellFormed := by
  cases segment with
  | text | binding | expression | inclusion => exact objectCons (.string _) objectNil
  | block placeholder => exact objectCons (wellFormed_placeholder placeholder) objectNil

/-- A warning is printed with texts and the numeral of its line. -/
theorem wellFormed_error (warning : Error) : warning.encode.WellFormed := by
  cases warning with
  | badExpression source offset message =>
    exact objectCons (objectCons (.string _) (objectCons (wellFormed_encodeNat _)
      (objectCons (.string _) objectNil))) objectNil
  | unclosedBlock kind line | unmatchedClose kind line =>
    exact objectCons (objectCons (.string _) (objectCons (wellFormed_encodeNat _) objectNil))
      objectNil
  | includeNotFound path reason =>
    exact objectCons (objectCons (.string _) (objectCons (.string _) objectNil)) objectNil
  | includeCycle path => exact objectCons (objectCons (.string _) objectNil) objectNil
  | undecodable reason => exact objectCons (.string _) objectNil

/-- A value that can be stored is printed with texts and numerals, as none of its numbers is
infinite or NaN. -/
theorem wellFormed_value {value : Value} (h : value.Storable) : value.encode.WellFormed := by
  induction h with
  | null => exact .string _
  | bool b => exact objectCons (.bool b) objectNil
  | number h => exact objectCons (wellFormed_encodeFloat h) objectNil
  | string text => exact objectCons (.string text) objectNil
  | list hdistinct hvalues ih =>
    rw [Value.encode, Value.encodeItems_eq_map]
    refine objectCons (arrayMap fun item hitem => ?_) objectNil
    exact objectMap fun entry hentry => ih item hitem entry hentry

/-- The encoding of a storable template has well-formed numerals only. -/
theorem wellFormed_template {template : Template} (h : template.Storable) :
    template.encode.WellFormed := by
  induction h with
  | @node template here below ih =>
    obtain ⟨node, conditionals, repetitions, includes⟩ := template
    have hsegments := arrayMap fun segment (_ : segment ∈ node.segments) =>
      wellFormed_segment segment
    have hexpressions := objectMap fun entry (_ : entry ∈ node.expressions) =>
      wellFormed_expression entry.2
    have hblocks : ∀ {blocks : List (String × List Template)},
        (∀ entry ∈ blocks, ∀ body ∈ entry.2, body.encode.WellFormed) →
        (Json.object (Template.encodeBlocks blocks)).WellFormed := by
      intro blocks hbodies
      rw [Template.encodeBlocks_eq_map]
      refine .object (List.forall_mem_map.2 fun entry hentry => ?_)
      exact arrayMap fun body hbody => hbodies entry hentry body hbody
    have hconditionals := hblocks fun entry hentry body hbody =>
      ih body (Template.mem_children_of_conditionals hentry hbody)
    have hrepetitions := hblocks fun entry hentry body hbody =>
      ih body (Template.mem_children_of_repetitions hentry hbody)
    have hincludes := objectMap fun entry (hentry : entry ∈ includes) =>
      ih entry.2 (Template.mem_children_of_includes hentry)
    have hnames := arrayMap fun name (_ : name ∈ node.names) => .string name
    have hscope := objectMap fun entry (hentry : entry ∈ node.scope) =>
      wellFormed_value (here.scope_values entry hentry)
    have hwarnings := arrayMap fun warning (_ : warning ∈ node.ownWarnings) =>
      wellFormed_error warning
    rw [Template.encode, Template.encodeIncludes_eq_map, Value.encodeBindings_eq_map]
    exact objectCons (.string _) (objectCons hsegments (objectCons hexpressions
      (objectCons hconditionals (objectCons hrepetitions (objectCons hincludes
        (objectCons hnames (objectCons hscope (objectCons hwarnings objectNil))))))))

end WellFormed

/-! ### Decoding the parts of a node -/

/-- A variant without data is read from its name. -/
theorem unit?_string {α : Type} {named : String → Option α} {tag : String} {value : α}
    (h : named tag = some value) (levels : Nat) : unit? levels named (.string tag) = some value :=
  h

/-- An operator is read back from its name. -/
theorem ofName?_operator (op : Operator) : Operator.ofName? op.name = some op := by
  cases op <;> decide

/-- A kind of placeholder is read back from its name. -/
theorem ofName?_placeholderKind (kind : PlaceholderKind) :
    PlaceholderKind.ofName? kind.name = some kind := by
  cases kind <;> decide

/-- A kind of block is read back from its name. -/
theorem ofName?_blockKind (kind : BlockKind) : BlockKind.ofName? kind.name = some kind := by
  cases kind <;> decide

/-- An atom is read back as it was. -/
theorem decode?_atom {atom : Atom} {n : Nat} (h : atom.encode.levels ≤ n) :
    Atom.decode? n atom.encode = some atom := by
  cases atom with
  | literal text =>
    obtain ⟨k, rfl, -, hvariant⟩ := variant?_object h
    rw [Atom.decode?, Atom.encode, hvariant]
    rfl
  | operator op =>
    obtain ⟨k, rfl, -, hvariant⟩ := variant?_object h
    rw [Atom.decode?, Atom.encode, hvariant]
    simp only [unit?_string (ofName?_operator op), Option.map_some]

/-- An expression is read back as it was. -/
theorem decode?_expression {expression : Expression} {n : Nat}
    (h : expression.encode.levels ≤ n) :
    Expression.decode? n expression.encode = some expression := by
  obtain ⟨k, rfl, hmembers⟩ := Json.exists_of_levels_object_le h
  have hatoms : Json.listOf k (fun l _ => Atom.decode? l)
      (.array (expression.atoms.map Atom.encode)) = some expression.atoms :=
    Json.listOf_map _ _ (hmembers ("atoms", _) (by simp)) fun atom _ l _ hl => decode?_atom hl
  have hfields : fields? ["source", "id", "atoms"] expression.encode =
      some [some (.string expression.source), some (.string expression.id),
        some (.array (expression.atoms.map Atom.encode))] :=
    fields?_object rfl (by decide)
  simp only [Expression.decode?, hfields, text?, hatoms, Option.bind_eq_bind, Option.bind_some,
    Option.pure_def]

/-- A placeholder whose index fits into a machine word is read back as it was. -/
theorem decode?_placeholder {placeholder : Placeholder} (hindex : placeholder.index < 2 ^ 64)
    {n : Nat} (h : placeholder.encode.levels ≤ n) :
    Placeholder.decode? n placeholder.encode = some placeholder := by
  obtain ⟨k, rfl, -⟩ := Json.exists_of_levels_object_le h
  have hfields : fields? ["kind", "key", "index"] placeholder.encode =
      some [some (.string placeholder.kind.name), some (.string placeholder.key),
        some (encodeNat placeholder.index)] :=
    fields?_object rfl (by decide)
  simp only [Placeholder.decode?, hfields, text?, unit?_string (ofName?_placeholderKind _),
    index?_encodeNat hindex, Option.bind_eq_bind, Option.bind_some, Option.pure_def]

/-- A segment that can be stored is read back as it was. -/
theorem decode?_segment {segment : Segment} (hsegment : segment.Storable) {n : Nat}
    (h : segment.encode.levels ≤ n) : Segment.decode? n segment.encode = some segment := by
  cases segment with
  | text | binding | expression | inclusion =>
    obtain ⟨k, rfl, -, hvariant⟩ := variant?_object h
    rw [Segment.decode?, Segment.encode, hvariant]
    rfl
  | block placeholder =>
    obtain ⟨k, rfl, hcontent, hvariant⟩ := variant?_object h
    rw [Segment.decode?, Segment.encode, hvariant]
    simp only [decode?_placeholder hsegment hcontent, Option.map_some]

/-- A kind of block and the number of a line are read back from an object of both. -/
theorem decodePlace?_object {α : Type} {make : BlockKind → Nat → α} {kind : BlockKind} {line : Nat}
    (hline : line < 2 ^ 64) {n : Nat}
    (h : (Json.object [("kind", .string kind.name), ("line", encodeNat line)]).levels ≤ n) :
    decodePlace? make n (.object [("kind", .string kind.name), ("line", encodeNat line)]) =
      some (make kind line) := by
  obtain ⟨k, rfl, -⟩ := Json.exists_of_levels_object_le h
  have hfields : fields? ["kind", "line"]
      (.object [("kind", .string kind.name), ("line", encodeNat line)]) =
      some [some (.string kind.name), some (encodeNat line)] :=
    fields?_object rfl (by decide)
  simp only [decodePlace?, hfields, unit?_string (ofName?_blockKind _), index?_encodeNat hline,
    Option.bind_eq_bind, Option.bind_some, Option.pure_def]

/-- A warning that can be stored is read back as it was. -/
theorem decode?_error {warning : Error} (hwarning : warning.Storable) {n : Nat}
    (h : warning.encode.levels ≤ n) : Error.decode? n warning.encode = some warning := by
  cases warning with
  | badExpression source offset message =>
    obtain ⟨k, rfl, hcontent, hvariant⟩ := variant?_object h
    obtain ⟨k, rfl, -⟩ := Json.exists_of_levels_object_le hcontent
    have hfields : fields? ["expression", "offset", "message"]
        (.object [("expression", .string source), ("offset", encodeNat offset),
          ("message", .string message)]) =
        some [some (.string source), some (encodeNat offset), some (.string message)] :=
      fields?_object rfl (by decide)
    rw [Error.decode?, Error.encode, hvariant]
    simp only [hfields, text?, index?_encodeNat hwarning, Option.bind_eq_bind, Option.bind_some,
      Option.pure_def]
  | unclosedBlock kind line | unmatchedClose kind line =>
    obtain ⟨k, rfl, hcontent, hvariant⟩ := variant?_object h
    rw [Error.decode?, Error.encode, hvariant]
    exact decodePlace?_object hwarning hcontent
  | includeNotFound path reason =>
    obtain ⟨k, rfl, hcontent, hvariant⟩ := variant?_object h
    obtain ⟨k, rfl, -⟩ := Json.exists_of_levels_object_le hcontent
    have hfields : fields? ["path", "reason"]
        (.object [("path", .string path), ("reason", .string reason)]) =
        some [some (.string path), some (.string reason)] :=
      fields?_object rfl (by decide)
    rw [Error.decode?, Error.encode, hvariant]
    simp only [hfields, text?, Option.bind_eq_bind, Option.bind_some, Option.pure_def]
  | includeCycle path =>
    obtain ⟨k, rfl, hcontent, hvariant⟩ := variant?_object h
    obtain ⟨k, rfl, -⟩ := Json.exists_of_levels_object_le hcontent
    have hfields : fields? ["path"] (.object [("path", .string path)]) =
        some [some (.string path)] :=
      fields?_object rfl (by decide)
    rw [Error.decode?, Error.encode, hvariant]
    simp only [hfields, text?, Option.map_some]
  | undecodable reason =>
    obtain ⟨k, rfl, -, hvariant⟩ := variant?_object h
    rw [Error.decode?, Error.encode, hvariant]
    rfl

/-- A value that can be stored is read back as it was, lists and all. -/
theorem decode?_value {value : Value} (hvalue : value.Storable) {n : Nat}
    (h : value.encode.levels ≤ n) : Value.decode? n value.encode = some value := by
  induction hvalue generalizing n with
  | null =>
    rw [Value.decode?, Value.encode]
    rfl
  | bool b =>
    obtain ⟨k, rfl, -, -⟩ := variant?_object h
    rw [Value.decode?, Value.encode]
    rfl
  | number hx =>
    obtain ⟨k, rfl, -, -⟩ := variant?_object h
    rw [Value.decode?, Value.encode]
    simp [variant?, double?_encodeFloat hx]
  | string text =>
    obtain ⟨k, rfl, -, -⟩ := variant?_object h
    rw [Value.decode?, Value.encode]
    rfl
  | @list items hdistinct hvalues ih =>
    obtain ⟨k, rfl, hcontent, -⟩ := variant?_object h
    rw [Value.encodeItems_eq_map] at hcontent
    have hitems : Json.listOf k (fun l _ => Json.tableOf l fun k _ => Value.decode? k)
        (.array (Value.encodeItems items)) = some items := by
      rw [Value.encodeItems_eq_map]
      refine Json.listOf_map _ _ hcontent fun item hitem l _ hl => ?_
      refine Json.tableOf_map _ _ (hdistinct item hitem) hl fun entry hentry l' _ hl' => ?_
      exact ih item hitem entry hentry hl'
    rw [Value.decode?, Value.encode]
    simp [variant?, hitems]

/-! ### Decoding templates -/

namespace Template

/-- A table of bodies is read back if each of the bodies is. -/
theorem decode?_bodies {blocks : List (String × List Template)} (hdistinct : Table.Distinct blocks)
    {n : Nat} (hlevels : (Json.object (encodeBlocks blocks)).levels ≤ n)
    (h : ∀ entry ∈ blocks, ∀ body ∈ entry.2, ∀ l < n, body.encode.levels ≤ l →
      decode? l body.encode = some body) :
    Json.tableOf n (fun l _ => Json.listOf l fun k _ => decode? k)
      (.object (encodeBlocks blocks)) = some blocks := by
  rw [encodeBlocks_eq_map] at hlevels ⊢
  refine Json.tableOf_map _ (fun bodies => Json.array (bodies.map encode)) hdistinct hlevels
    fun entry hentry l hl hbodies => ?_
  refine Json.listOf_map _ _ hbodies fun body hbody k hk hbodyLevels => ?_
  exact h entry hentry body hbody k (by omega) hbodyLevels

/-- A storable template is decoded from its encoding as soon as all levels may be entered. -/
theorem decode?_encode {template : Template} (h : template.Storable) {n : Nat}
    (hlevels : template.encode.levels ≤ n) : decode? n template.encode = some template := by
  induction h generalizing n with
  | @node template here below ih =>
    obtain ⟨node, conditionals, repetitions, includes⟩ := template
    have hfields : fields? templateFields (encode ⟨node, conditionals, repetitions, includes⟩) =
        some [some (.string node.name), some (.array (node.segments.map Segment.encode)),
          some (.object (node.expressions.map fun entry => (entry.1, entry.2.encode))),
          some (.object (encodeBlocks conditionals)), some (.object (encodeBlocks repetitions)),
          some (.object (encodeIncludes includes)), some (.array (node.names.map Json.string)),
          some (.object (Value.encodeBindings node.scope)),
          some (.array (node.ownWarnings.map Error.encode))] := by
      rw [encode]
      exact fields?_object rfl (by decide)
    rw [encode] at hlevels
    obtain ⟨k, rfl, hmembers⟩ := Json.exists_of_levels_object_le hlevels
    simp only [List.forall_mem_cons, List.not_mem_nil, false_implies, implies_true, and_true]
      at hmembers
    obtain ⟨-, hsegments, hexpressions, hconditionals, hrepetitions, hincludes, hnames, hscope,
      hwarnings⟩ := hmembers
    rw [encodeIncludes_eq_map] at hincludes
    rw [Value.encodeBindings_eq_map] at hscope
    have hsegments := Json.listOf_map (fun l _ => Segment.decode? l) _ hsegments
      fun segment hsegment l _ hl => decode?_segment (here.segments segment hsegment) hl
    have hexpressions := Json.tableOf_map (fun l _ => Expression.decode? l) _
      here.expressions_distinct hexpressions fun entry _ l _ hl => decode?_expression hl
    have hconditionals := decode?_bodies here.conditionals_distinct hconditionals
      fun entry hentry body hbody l _ hl =>
        ih body (mem_children_of_conditionals hentry hbody) hl
    have hrepetitions := decode?_bodies here.repetitions_distinct hrepetitions
      fun entry hentry body hbody l _ hl =>
        ih body (mem_children_of_repetitions hentry hbody) hl
    have hincludes := Json.tableOf_map (fun l _ => decode? l) _ here.includes_distinct
      hincludes fun entry hentry l _ hl => ih entry.2 (mem_children_of_includes hentry) hl
    have hnames := Json.listOf_map (fun _ _ => text?) _ hnames fun name _ l _ _ => rfl
    have hscope := Json.tableOf_map (fun l _ => Value.decode? l) _ here.scope_distinct hscope
      fun entry hentry l _ hl => decode?_value (here.scope_values entry hentry) hl
    have hwarnings := Json.listOf_map (fun l _ => Error.decode? l) _ hwarnings
      fun warning hwarning l _ hl => decode?_error (here.warnings warning hwarning) hl
    have hset : node.names.foldl addName [] = node.names :=
      @foldl_addName [] _ here.names_nodup
    rw [← encodeIncludes_eq_map] at hincludes
    rw [← Value.encodeBindings_eq_map] at hscope
    rw [decode?.eq_def, hfields]
    simp only [text?, decodeScope?, hsegments, hexpressions, hconditionals, hrepetitions, hincludes,
      hnames, hscope, hwarnings, hset, Option.bind_eq_bind, Option.bind_some, Option.pure_def]

/-- The compiled text of a storable template is the encoding of the template. -/
theorem parse?_toCompiled {template : Template} (h : template.Storable) :
    Json.parse? template.toCompiled = some template.encode :=
  Json.parse?_print (wellFormed_template h)

/-- Reading the compiled text of a template gives back the template, with the order of all tables
and sets. Its tables and sets have distinct names and its natural numbers fit into 64 bits, its
numbers read back from the digits that are written, and its JSON is not nested more deeply than a
decoder may go. -/
theorem ofCompiled_toCompiled {template : Template} (h : template.Storable)
    (hlevels : template.encode.levels ≤ Json.levelLimit) :
    ofCompiled template.toCompiled = .ok template := by
  rw [ofCompiled, parse?_toCompiled h]
  simp only [decode?_encode h hlevels]

/-- A document with a list of scopes, a conditional and a warning inside the conditional. -/
def invoice : Template where
  name := "invoice"
  segments := [.text "Dear \"Zoë\"\n", .binding "rows", .block ⟨.conditional, "e8", 0⟩]
  names := ["rows"]
  scope := [("rows", .list [[("price", .number 1.5), ("tags", .list [[], []])], []])]
  conditionals :=
    [("e8", [{ name := "invoice/if", ownWarnings := [.unclosedBlock .repetition 7] }])]

/-- The invoice can be stored. -/
theorem storable_invoice : invoice.Storable := by
  have hprice : (Value.number 1.5).Storable := .number (by decide +kernel)
  have htags : (Value.list [[], []]).Storable :=
    .list (by simp [Table.Distinct, Table.names]) (by simp)
  have hrows : (Value.list [[("price", .number 1.5), ("tags", .list [[], []])], []]).Storable := by
    refine .list ?_ ?_
    · simp [Table.Distinct, Table.names]
    · simp only [List.forall_mem_cons, List.not_mem_nil, false_implies, implies_true, and_true]
      exact ⟨hprice, htags⟩
  have hbody : Template.StorableNode
      { name := "invoice/if", ownWarnings := [.unclosedBlock .repetition 7] } := by
    constructor <;> simp [Table.Distinct, Table.names, Error.Storable]
  refine .node ?_ ?_
  · constructor <;> simp [invoice, Table.Distinct, Table.names, Segment.Storable, hrows]
  · intro child hchild
    obtain rfl :
      child = { name := "invoice/if", ownWarnings := [.unclosedBlock .repetition 7] } := by
      simpa [invoice, children] using hchild
    exact .node hbody (by simp [children])

/-- The invoice is read back from its compiled text. -/
theorem ofCompiled_toCompiled_invoice :
    invoice.Storable ∧ invoice.encode.levels ≤ Json.levelLimit ∧
      ofCompiled invoice.toCompiled = .ok invoice := by
  have hlevels : invoice.encode.levels ≤ Json.levelLimit := by decide +kernel
  exact ⟨storable_invoice, hlevels, ofCompiled_toCompiled storable_invoice hlevels⟩

end Template

end BraceTemplate
