import BraceTemplate.Proofs.Template.Calling
import BraceTemplate.Proofs.Template.Coherence

/-!
# Where an expression comes from

A node compiles the source of an expression unless it has the id of the source already. What it has
under an id comes from a condition of one of its blocks or from an expression in its own lines. So
the source of an expression is accepted, or another one of the same node that differs from it in
blanks is.
-/

namespace BraceTemplate

open Relation (ReflTransGen)

/-- The source of an expression that may have to be compiled. -/
def Meaning.source? : Meaning → Option String
  | expression source => some source
  | _ => none

/-- The id of an expression that a segment refers to. -/
def Segment.expressionId? : Segment → Option String
  | expression id => some id
  | _ => none

/-- The ids that pieces refer to, in their order. -/
def Piece.expressionIds (pieces : List Piece) : List String :=
  (pieces.filterMap segment?).filterMap Segment.expressionId?

/-- Pieces refer to what those in front refer to, and then to what the others refer to. -/
theorem Piece.expressionIds_append (pieces more : List Piece) :
    expressionIds (pieces ++ more) = expressionIds pieces ++ expressionIds more := by
  rw [expressionIds, List.filterMap_append, List.filterMap_append]
  rfl

/-- A block that is cut out of lines has the condition. -/
def Tests (lines : List Line) (source : String) : Prop :=
  ∃ line rest, Meets line rest lines ∧ (Opening.conditional source).OpensOn line

namespace Template

/-- The sources of the expressions in a text as a node reads it, in their order. -/
def sourcesIn (template : Template) (cs : List Char) : List String :=
  (contents cs).filterMap fun content => (template.meaning content).source?

/-- A source stands for an expression in a line that no block of the node covers. -/
def Emits (node : Template) (lines : List Line) (source : String) : Prop :=
  ∃ line rest, Meets line rest lines ∧ Plain line ∧ source ∈ node.sourcesIn line

/-! ### Reading -/

/-- What is taken for the source of an expression has the characters of one. -/
theorem isExpressionSource_of_meaning {template : Template} {content : List Char} {source : String}
    (h : (template.meaning content).source? = some source) :
    isExpressionSource content = true := by
  have hmeans := means_meaning template content
  generalize template.meaning content = meaning at h hmeans
  cases hmeans with
  | expression hsource => exact hsource
  | plain | stray | block | inclusion | binding => cases h

/-- The text of a placeholder is no expression, because there is a colon in it. -/
theorem sourcesIn_placeholder {placeholder : Placeholder} (h : BraceFree placeholder.key.toList)
    (template : Template) : template.sourcesIn placeholder.text = [] := by
  have hcontents : contents placeholder.text = [placeholder.content] := by
    have hbraces := Placeholder.braceFree_content_of_key h
    rw [Placeholder.text, List.cons_append, contents_open, content?_append hbraces,
      contents_append hbraces]
    rfl
  have hcolon : ':' ∈ placeholder.content := by simp [Placeholder.content]
  rw [sourcesIn, hcontents, List.filterMap_eq_nil_iff]
  intro content hcontent
  obtain rfl := List.mem_singleton.1 hcontent
  rw [Option.eq_none_iff_forall_ne_some]
  intro source hsource
  have hallowed := isExpressionSource_of_meaning hsource
  rw [isExpressionSource, Bool.and_eq_true, List.all_eq_true] at hallowed
  exact absurd (hallowed.2 _ hcolon) (by decide)

/-- What braces mean depends on bodies and documents alone. -/
theorem Retains.meaning_eq {template changed : Template} (h : template.Retains changed)
    (content : List Char) : changed.meaning content = template.meaning content := by
  have hbody : ∀ placeholder, changed.hasBody placeholder = template.hasBody placeholder := by
    intro placeholder
    rw [hasBody_eq_isSome_body?, hasBody_eq_isSome_body?, body?, body?, h.bodies]
  have hincluded : changed.includedPath? content = template.includedPath? content := by
    unfold includedPath? include?
    rw [h.includes]
  unfold meaning
  simp only [hbody, hincluded]

/-- Which expressions stand in a text depends on bodies and documents alone. -/
theorem Retains.sourcesIn_eq {template changed : Template} (h : template.Retains changed) :
    changed.sourcesIn = template.sourcesIn := by
  funext cs
  simp only [sourcesIn, h.meaning_eq]

/-- The text between a pair of braces is the first content in a text that starts with the pair. -/
theorem contents_marker {content : List Char} (hbraces : BraceFree content) (rest : List Char) :
    contents ('\x7b' :: (content ++ '\x7d' :: rest)) = content :: contents rest := by
  rw [contents_open, content?_append hbraces, contents_append hbraces]
  rfl

/-- An expression is the first source in a text that starts with it in braces. -/
theorem sourcesIn_expression {template : Template} {content : List Char} {source : String}
    (hbraces : BraceFree content) (hmeaning : template.meaning content = .expression source)
    (rest : List Char) :
    template.sourcesIn ('\x7b' :: (content ++ '\x7d' :: rest)) =
      source :: template.sourcesIn rest := by
  rw [sourcesIn, contents_marker hbraces, List.filterMap_cons, hmeaning]
  rfl

/-- Braces around anything but an expression add no source to those of the text behind them. -/
theorem sourcesIn_marker {template : Template} {content : List Char} (hbraces : BraceFree content)
    (hmeaning : (template.meaning content).source? = none) (rest : List Char) :
    template.sourcesIn ('\x7b' :: (content ++ '\x7d' :: rest)) = template.sourcesIn rest := by
  rw [sourcesIn, contents_marker hbraces, List.filterMap_cons, hmeaning]
  rfl

/-- A character that is read as itself adds no source to those of the text behind it. -/
theorem sourcesIn_char {template : Template} {c : Char} {rest : List Char}
    (hescape : c = '\\' → ∀ brace, rest.head? = some brace → brace ≠ '\x7b' ∧ brace ≠ '\x7d')
    (hplain : c = '\x7b' → ∀ content behind, content? rest = some (content, behind) →
      template.meaning content = .plain) :
    template.sourcesIn (c :: rest) = template.sourcesIn rest := by
  by_cases hopen : c = '\x7b'
  · subst hopen
    rw [sourcesIn, contents_open]
    cases hcontent : content? rest with
    | none => rfl
    | some found =>
      obtain ⟨content, behind⟩ := found
      have hmeaning := hplain rfl content behind hcontent
      simp [sourcesIn, hmeaning, Meaning.source?]
  · have hnext : ∀ brace cs, c = '\\' → rest = brace :: cs → brace ≠ '\x7b' ∧ brace ≠ '\x7d' :=
      fun brace cs hc hrest => hescape hc brace (by rw [hrest]; rfl)
    have hcontents : contents (c :: rest) = contents rest := by
      rw [contents]
      · exact fun cs hc hrest => (hnext _ cs hc hrest).1 rfl
      · exact fun cs hc hrest => (hnext _ cs hc hrest).2 rfl
      · exact hopen
    rw [sourcesIn, hcontents]
    rfl

/-- An expression is added to a node under its id, and what was there stays. -/
theorem mem_expressions_of_addExpression {source : String} {template changed : Template}
    (hadd : template.addExpression source = .ok changed) :
    ∀ entry ∈ changed.expressions,
      entry ∈ template.expressions ∨ entry.2.source = source := by
  intro entry hentry
  unfold addExpression at hadd
  split at hadd
  · cases hadd
    exact .inl hentry
  · split at hadd
    · next expression hcompile =>
      cases hadd
      refine (Table.mem_of_mem_insert hentry).imp_right ?_
      rintro rfl
      exact (Expression.of_compile hcompile).1
    · cases hadd

/-- What one step reads of the expressions in a text, and what it adds to the node. -/
theorem ReadStep.sources {number : Nat} {cs rest : List Char} {template changed : Template}
    {pieces : List Piece} (h : ReadStep number cs template pieces rest changed) :
    ∃ sources, template.sourcesIn cs = sources ++ template.sourcesIn rest ∧
      Piece.expressionIds pieces = sources.map Expression.idOf ∧
      ∀ entry ∈ changed.expressions, entry ∈ template.expressions ∨ entry.2.source ∈ sources := by
  cases h with
  | escape hbrace =>
    refine ⟨[], ?_, rfl, fun entry hentry => .inl hentry⟩
    rcases hbrace with rfl | rfl <;> rfl
  | char hescape hplain =>
    exact ⟨[], sourcesIn_char hescape hplain, rfl, fun entry hentry => .inl hentry⟩
  | stray hbraces hmeaning =>
    refine ⟨[], sourcesIn_marker hbraces ?_ rest, rfl, fun entry hentry => .inl hentry⟩
    rw [hmeaning]
    rfl
  | @segment content _ _ found hbraces hmeaning =>
    refine ⟨[], sourcesIn_marker hbraces ?_ rest, ?_, fun entry hentry => .inl ?_⟩
    · rw [hmeaning]
      rfl
    · cases refersTo_of_meaning hmeaning <;> rfl
    · cases found <;> exact hentry
  | expression hbraces hmeaning hadd =>
    refine ⟨[_], sourcesIn_expression hbraces hmeaning rest, rfl, fun entry hentry => ?_⟩
    exact (mem_expressions_of_addExpression hadd entry hentry).imp_right List.mem_singleton.2

/-- A line that is read yields the expressions in it, and what the node gains comes from one of
them. -/
theorem Reading.sources {number : Nat} {cs : List Char} {template changed : Template}
    {pieces : List Piece} (h : Reading number cs template pieces changed) :
    Piece.expressionIds pieces = (template.sourcesIn cs).map Expression.idOf ∧
      ∀ entry ∈ changed.expressions,
        entry ∈ template.expressions ∨ entry.2.source ∈ template.sourcesIn cs := by
  induction h with
  | done => exact ⟨rfl, fun entry hentry => .inl hentry⟩
  | step hstep hrest ih =>
    obtain ⟨sources, hsplit, hids, hgained⟩ := hstep.sources
    rw [hstep.retains.sourcesIn_eq] at ih
    rw [hsplit]
    constructor
    · rw [Piece.expressionIds_append, hids, ih.1, List.map_append]
    · intro entry hentry
      rcases ih.2 entry hentry with hbetween | hlater
      · exact (hgained entry hbetween).imp_right fun hsource => List.mem_append_left _ hsource
      · exact .inr (List.mem_append_right _ hlater)

/-- Lines that are read yield the expressions in them, and what the node gains comes from one of
these. -/
theorem sources_of_readLines {number : Nat} {lines : List Line} {template changed : Template}
    {pieces : List Piece} (h : readLines number lines template = .ok (pieces, changed)) :
    Piece.expressionIds pieces = (lines.flatMap template.sourcesIn).map Expression.idOf ∧
      ∀ entry ∈ changed.expressions,
        entry ∈ template.expressions ∨ entry.2.source ∈ lines.flatMap template.sourcesIn := by
  induction lines generalizing number template pieces with
  | nil =>
    cases h
    exact ⟨rfl, fun entry hentry => .inl hentry⟩
  | cons line lines ih =>
    obtain ⟨first, between, more, hline, hlines, rfl⟩ := exists_of_readLines_cons h
    obtain ⟨hids, hgained⟩ := (reading_of_readLine hline).sources
    have ih := ih hlines
    rw [(reading_of_readLine hline).retains.sourcesIn_eq] at ih
    rw [List.flatMap_cons]
    constructor
    · rw [Piece.expressionIds_append, hids, ih.1, List.map_append]
    · intro entry hentry
      rcases ih.2 entry hentry with hbetween | hlater
      · exact (hgained entry hbetween).imp_right fun hsource => List.mem_append_left _ hsource
      · exact .inr (List.mem_append_right _ hlater)

/-! ### Cutting -/

section Cutting

variable {IsBody : List Line → Template → Prop} {IsDocument : String → Template → Prop}

/-- Cutting adds the conditions of blocks to a node and no other expressions. -/
theorem Cutting.sources {number : Nat} {lines left : List Line} {template changed : Template}
    (h : Cutting IsBody IsDocument number lines template left changed) :
    ∀ entry ∈ changed.expressions, entry ∈ template.expressions ∨ Tests lines entry.2.source := by
  induction h with
  | done => exact fun entry hentry => .inl hentry
  | comment hcomment hrest ih =>
    intro entry hentry
    rw [expressions_noteCut] at ih
    refine (ih entry hentry).imp_right ?_
    rintro ⟨line, rest, hmeets, hopens⟩
    exact ⟨line, rest, .comment hcomment hmeets, hopens⟩
  | @block number first others left opening template body changed hopens hopening hbody hrest ih =>
    intro entry hentry
    rcases ih entry hentry with hbefore | ⟨line, rest, hmeets, hopens'⟩
    · -- A body of a repetition brings no expression, and that of a conditional its condition.
      cases opening with
      | repetition name => exact .inl (expressions_noteCut template _ _ _ ▸ hbefore)
      | conditional source =>
        obtain ⟨condition, hcompile⟩ := hopening.compiles source rfl
        rw [Opening.addBody_conditional hcompile] at hbefore
        rcases Table.mem_of_mem_insertNew hbefore with hold | rfl
        · exact .inl (expressions_noteCut template _ _ _ ▸ hold)
        · rw [(Expression.of_compile hcompile).1]
          exact .inr ⟨first, others, .here, hopens⟩
    · exact .inr ⟨line, rest, .block hopens hmeets, hopens'⟩
  | plain hcomment hname hcondition hdocuments hrest ih =>
    intro entry hentry
    obtain ⟨includes, rfl⟩ := hdocuments.exists_eq
    refine (ih entry hentry).imp_right ?_
    rintro ⟨line, rest, hmeets, hopens⟩
    exact ⟨line, rest, .plain ⟨hcomment, hname, hcondition⟩ hmeets, hopens⟩

/-! ### Compiled nodes -/

variable {lines : List Line} {node : Template}

/-- The expressions in the lines that are left are those in the lines that no block covers. -/
theorem Cutting.mem_sources_iff {left : List Line} {template cut : Template}
    (h : Cutting IsBody IsDocument 1 lines template left cut) (node : Template) (source : String) :
    source ∈ left.flatMap node.sourcesIn ↔ node.Emits lines source := by
  rw [List.mem_flatMap]
  constructor
  · rintro ⟨line, hline, hsource⟩
    obtain ⟨n, hn⟩ := List.mem_iff_getElem?.1 hline
    rcases h.left_cases hn with rfl | ⟨placeholder, hkey, rfl⟩ | ⟨rest, ⟨hmeets, -⟩, hplain⟩
    · cases hsource
    · rw [sourcesIn_placeholder hkey] at hsource
      cases hsource
    · exact ⟨line, rest, hmeets, hplain, hsource⟩
  · rintro ⟨line, rest, hmeets, hplain, hsource⟩
    exact ⟨line, h.mem_left hmeets hplain, hsource⟩

/-- The expressions of a compiled node are those in its own lines, and what it has under an id comes
from one of them or from a condition. -/
theorem Course.sources (h : Course IsBody IsDocument lines node) :
    (∀ id, .expression id ∈ node.segments ↔
      ∃ source, node.Emits lines source ∧ Expression.idOf source = id) ∧
    ∀ entry ∈ node.expressions,
      Tests lines entry.2.source ∨ node.Emits lines entry.2.source := by
  obtain ⟨hcutting, hreading⟩ := h
  rename_i name left cut read pieces
  obtain ⟨hids, hgained⟩ := sources_of_readLines hreading
  have hsame :
      { read with segments := Piece.segments pieces }.bindNames.sourcesIn = cut.sourcesIn :=
    (retains_of_readLines hreading).sourcesIn_eq
  rw [← hsame] at hids hgained
  constructor
  · intro id
    have hsegments : id ∈ Piece.expressionIds pieces ↔ .expression id ∈ Piece.segments pieces := by
      rw [Piece.expressionIds, ← Piece.filterMap_segments_of_text fun _ => rfl, List.mem_filterMap]
      constructor
      · rintro ⟨segment, hsegment, hid⟩
        cases segment with
        | expression other => exact Option.some.inj hid ▸ hsegment
        | text | binding | block | inclusion => cases hid
      · exact fun hsegment => ⟨_, hsegment, rfl⟩
    change .expression id ∈ Piece.segments pieces ↔ _
    rw [← hsegments, hids, List.mem_map]
    simp only [hcutting.mem_sources_iff]
  · intro entry hentry
    rcases hgained entry hentry with hcut | hsource
    · exact .inl ((hcutting.sources entry hcut).resolve_left List.not_mem_nil)
    · exact .inr ((hcutting.mem_sources_iff _ _).1 hsource)

/-- A compiled node has every expression under its own id. -/
theorem Course.keyed (h : Course IsBody IsDocument lines node) : node.Keyed := by
  obtain ⟨name, hchanges⟩ := h.changes (P := fun _ => True) fun _ _ _ _ _ => trivial
  exact hchanges.keeps (fun _ _ => Change.keyed) (by simp [Keyed, empty])

/-- All expressions in the lines of a node that its blocks do not cover are expression segments of
it, each under the id of its source. The source is accepted, or another source in the node is which
has the same id: a condition of one of the blocks or another expression. -/
structure Sourced (node : Template) (lines : List Line) : Prop where
  refers : ∀ id, .expression id ∈ node.segments ↔
    ∃ source, node.Emits lines source ∧ Expression.idOf source = id
  accepted : ∀ source, node.Emits lines source →
    (∃ expression, Expression.compile source = .ok expression) ∨
      ∃ other, other ≠ source ∧ Expression.idOf other = Expression.idOf source ∧
        (∃ expression, Expression.compile other = .ok expression) ∧
        (Tests lines other ∨ node.Emits lines other)

/-- The lines that a node is compiled from say where its expressions come from. -/
theorem Course.sourced (h : Course IsBody IsDocument lines node) : node.Sourced lines := by
  obtain ⟨hids, hstored⟩ := h.sources
  refine ⟨hids, fun source hsource => ?_⟩
  -- The node has an expression under the id of the source: that of the source, or another one.
  obtain ⟨expression, hfound⟩ := Option.isSome_iff_exists.1
    (h.coherent.expression _ ((hids _).2 ⟨source, hsource, rfl⟩))
  obtain ⟨hid, hcompile⟩ := h.keyed.of_expression? hfound
  by_cases hsame : expression.source = source
  · exact .inl ⟨expression, hsame ▸ hcompile⟩
  · refine .inr ⟨expression.source, hsame, ?_, ⟨expression, hcompile⟩, ?_⟩
    · rw [← (Expression.of_compile hcompile).2.1, hid]
    · exact hstored _ (Table.mem_of_get? hfound)

end Cutting

/-- The same holds of every node that is compiled on the way. -/
theorem Compiles.sourced {loader : Loader} {depth : Nat} {openPaths : List String}
    {lines : List Line}
    {node : Template} (h : Compiles (compilePath loader depth) openPaths lines node) :
    node.Sourced lines :=
  (h.course fun path => restores_compilePath loader depth path openPaths).sourced

end Template

namespace Compiler

open Template

/-- Every node of a template is compiled from lines, and all lines that are compiled on the way give
a node. The sources of its expressions are accepted, or they share their ids with others in the node
that are. -/
theorem accepted_or_shared {compiler : Compiler} {name : String} {lines : List Line}
    {template : Template} (hrun : (compiler.compile name lines).1 = .ok template) :
    (∀ address node, template.nodeAt? address = some node → ∃ depth openPaths lines,
      Compiles (Template.compilePath compiler.loader depth) openPaths lines node ∧
        node.Sourced lines) ∧
    ∀ call, ReflTransGen (Calls compiler.loader) (compiler.openPaths, lines) call →
      ∃ depth node address,
        Compiles (Template.compilePath compiler.loader depth) call.1 call.2 node ∧
        template.nodeAt? address = some node ∧ node.Sourced call.2 := by
  have hcompiles : Compiles (Template.compilePath compiler.loader compiler.loader.depth)
      compiler.openPaths lines template :=
    .of_ok (fun path => restores_compilePath _ _ path _) hrun
  constructor
  · intro address node hnode
    obtain ⟨depth, openPaths, own, hown⟩ := hcompiles.of_nodeAt? hnode
    exact ⟨depth, openPaths, own, hown, hown.sourced⟩
  · intro call hcalls
    obtain ⟨depth, node, address, hnode, haddress⟩ := hcompiles.exists_node hcalls
    exact ⟨depth, node, address, hnode, haddress, hnode.sourced⟩

/-- A body with a condition that is written without the blank that stands in an expression behind
it. -/
def tally : List Line :=
  ["\x7bif ab\x7d\n", "x\n", "\x7b/if\x7d\n", "\x7ba b\x7d\x7bc + 1\x7d\n"].map String.toList

/-- The last line of the body is met behind the block. -/
theorem meets_tally :
    Meets "\x7ba b\x7d\x7bc + 1\x7d\n".toList [] tally ∧
      Plain "\x7ba b\x7d\x7bc + 1\x7d\n".toList := by
  have hopens : (Opening.conditional "ab").OpensOn "\x7bif ab\x7d\n".toList :=
    .conditional (by decide +kernel) (by decide +kernel) (by decide +kernel)
  have hplain : Plain "\x7ba b\x7d\x7bc + 1\x7d\n".toList :=
    ⟨by decide +kernel, by decide +kernel, by decide +kernel⟩
  have hempty : Plain [] := ⟨by decide +kernel, by decide +kernel, by decide +kernel⟩
  exact ⟨.block hopens (.plain hempty (.plain hempty .here)), hplain⟩

/-- The body is compiled for a repetition around it. -/
theorem accepted_or_shared_tally :
    let compiler : Compiler := ⟨.none, []⟩
    let lines := ["\x7bforeach rows\x7d\n".toList] ++ tally ++ ["\x7b/foreach\x7d\n".toList]
    ∃ template, (compiler.compile "page" lines).1 = .ok template ∧
      (∃ depth openPaths lines,
        Compiles (Template.compilePath compiler.loader depth) openPaths lines
        template ∧ template.Sourced lines) ∧
      Calls compiler.loader (compiler.openPaths, lines) ([], tally) ∧
      ∃ depth node address, Compiles (Template.compilePath compiler.loader depth) [] tally node ∧
        template.nodeAt? address = some node ∧ node.Sourced tally := by
  intro compiler lines
  have hcompile : (compiler.compile "page" lines).1.toOption.isSome = true := by decide +kernel
  obtain ⟨template, htemplate⟩ := Option.isSome_iff_exists.1 hcompile
  have hrun := eq_ok_of_toOption htemplate
  have hopens : (Opening.repetition "rows").OpensOn "\x7bforeach rows\x7d\n".toList :=
    .repetition (by decide +kernel) (by decide +kernel)
  have hcall : Calls compiler.loader (compiler.openPaths, lines) ([], tally) :=
    .body ⟨_, _, _, .here, hopens, by decide +kernel⟩
  obtain ⟨hnodes, hcalls⟩ := accepted_or_shared hrun
  exact ⟨template, hrun, hnodes [] template rfl, hcall, hcalls _ (.single hcall)⟩

/-- The condition makes a node take an expression that is not accepted, and that is an error without
it. -/
theorem emits_not_accepted_of_condition :
    ∃ template, (Compiler.compile ⟨.none, []⟩ "template" tally).1 = .ok template ∧
      template.Emits tally "a b" ∧ .expression "ab" ∈ template.segments ∧
      (∀ expression, Expression.compile "a b" ≠ .ok expression) ∧
      ∀ other, (Compiler.compile ⟨.none, []⟩ "template" (tally.drop 3)).1 ≠ .ok other := by
  have hcompile : ((Compiler.compile ⟨.none, []⟩ "template" tally).1.toOption.map fun template =>
      (template.sourcesIn "\x7ba b\x7d\x7bc + 1\x7d\n".toList,
        template.segments.contains (.expression "ab"))) =
        some (["a b", "c + 1"], true) := by decide +kernel
  obtain ⟨template, htemplate, hread⟩ := Option.map_eq_some_iff.1 hcompile
  obtain ⟨hsources, hsegments⟩ := Prod.mk.inj hread
  refine ⟨template, eq_ok_of_toOption htemplate, ⟨_, _, meets_tally.1, meets_tally.2, ?_⟩,
    List.contains_iff_mem.1 hsegments, fun expression hok => ?_, fun other hok => ?_⟩
  · rw [hsources]
    exact List.mem_cons_self
  · have hfault : (Expression.compile "a b").toOption = none := by decide +kernel
    rw [hok] at hfault
    cases hfault
  · have hfailure :
      (Compiler.compile ⟨.none, []⟩ "template" (tally.drop 3)).1.toOption.isSome = false := by
      decide +kernel
    rw [hok] at hfailure
    cases hfailure

end Compiler

end BraceTemplate
