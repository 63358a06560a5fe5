import BraceTemplate.Proofs.Template.Cycles
import BraceTemplate.Proofs.Template.Tracing

/-!
# Every block keeps its place

Where a block is cut out its placeholder is left, and from its text it is read again. In text that
is free of the beginnings of placeholders nothing else is read as one. So the blocks of a node stand
in its segments just as often and in the same order as they were cut out, whatever they overlap
with.
-/

namespace BraceTemplate

open CompileM (Yields)

/-- The indexes of placeholders of one kind and key, in their order. -/
def indexes (kind : PlaceholderKind) (key : String) (placeholders : List Placeholder) : List Nat :=
  placeholders.filterMap fun placeholder =>
    if placeholder.kind = kind ∧ placeholder.key = key then some placeholder.index else none

/-- The index of the first placeholder comes first if it is of the kind and key. -/
theorem indexes_cons (kind : PlaceholderKind) (key : String) (placeholder : Placeholder)
    (placeholders : List Placeholder) :
    indexes kind key (placeholder :: placeholders) =
      (if placeholder.kind = kind ∧ placeholder.key = key then [placeholder.index] else []) ++
        indexes kind key placeholders := by
  unfold indexes
  rw [List.filterMap_cons]
  split <;> split <;> simp_all

/-- Every placeholder has its index among those of its kind and key. -/
theorem mem_indexes {placeholder : Placeholder} {placeholders : List Placeholder}
    (h : placeholder ∈ placeholders) :
    placeholder.index ∈ indexes placeholder.kind placeholder.key placeholders :=
  List.mem_filterMap.2 ⟨placeholder, h, if_pos ⟨rfl, rfl⟩⟩

namespace Template

/-- The blocks in the segments of a node are its bodies, each once and in their order. -/
def Numbered (template : Template) : Prop :=
  ∀ kind key, indexes kind key (template.segments.filterMap Segment.placeholder?) =
    List.range ((template.bodies kind).count key)

/-! ### Cutting -/

/-- Lines that consist of placeholders, and of text that is free of the beginnings of
placeholders. -/
inductive Leaves : List Line → List Placeholder → Prop
  | nil : Leaves [] []
  | text {line : Line} {lines : List Line} {placeholders : List Placeholder} (hline : Unmarked line)
      (hlines : Leaves lines placeholders) : Leaves (line :: lines) placeholders
  | block {placeholder : Placeholder} {lines : List Line} {placeholders : List Placeholder}
      (hreadable : placeholder.Readable) (hlines : Leaves lines placeholders) :
    Leaves (placeholder.text :: lines) (placeholder :: placeholders)

/-- Documents that are gained are no bodies. -/
theorem GainsDocuments.bodies {IsDocument : String → Template → Prop} {template changed : Template}
    (h : GainsDocuments IsDocument template changed) : changed.bodies = template.bodies := by
  obtain ⟨includes, rfl⟩ := h.exists_eq
  funext kind
  cases kind <;> rfl

/-- Behind a block only parts of lines are left and empty ones, so that no placeholder is new. -/
theorem unmarked_rest_cutBlock {kind : BlockKind} {line : Line} {rest : List Line}
    (h : ∀ other ∈ line :: rest, Unmarked other) :
    ∀ other ∈ (cutBlock kind line rest).rest, Unmarked other := by
  intro other hother
  obtain ⟨whole, hwhole, hinfix⟩ := partsOf_rest_cutBlock kind line rest other hother
  exact (h whole hwhole).of_part hinfix

/-- A body that is gained comes behind those of its kind and key, and its index is their number. -/
theorem GainsBody.range_append_indexes {template changed body : Template}
    {own : PlaceholderKind} {name : String} (h : template.GainsBody changed own name body)
    (placeholders : List Placeholder) (kind : PlaceholderKind) (key : String) :
    List.range ((template.bodies kind).count key) ++
        indexes kind key (⟨own, name, (template.bodies own).count name⟩ :: placeholders) =
      List.range ((changed.bodies kind).count key) ++ indexes kind key placeholders := by
  rw [indexes_cons, h.count]
  by_cases hsame : kind = own ∧ key = name
  · obtain ⟨rfl, rfl⟩ := hsame
    rw [if_pos ⟨rfl, rfl⟩, if_pos ⟨rfl, rfl⟩, List.range_succ, List.append_assoc]
  · rw [if_neg hsame, if_neg fun hboth => hsame ⟨hboth.1.symm, hboth.2.symm⟩]
    rfl

/-- Cutting leaves the placeholders of the bodies that it adds to a node, in their order. -/
theorem Cutting.leaves {IsBody : List Line → Template → Prop}
    {IsDocument : String → Template → Prop}
    {number : Nat} {lines left : List Line} {template changed : Template}
    (h : Cutting IsBody IsDocument number lines template left changed)
    (hunmarked : ∀ line ∈ lines, Unmarked line)
    (hroom : ∀ kind key, (template.bodies kind).count key + lines.length < 2 ^ 64) :
    ∃ placeholders, Leaves left placeholders ∧ ∀ kind key,
      List.range ((template.bodies kind).count key) ++ indexes kind key placeholders =
        List.range ((changed.bodies kind).count key) := by
  induction h with
  | done => exact ⟨[], .nil, fun _ _ => List.append_nil _⟩
  | @comment number line rest left template changed hcomment hcut ih =>
    obtain ⟨placeholders, hleaves, hrange⟩ :=
      ih (unmarked_rest_cutBlock hunmarked) fun kind key => by
        rw [bodies_noteCut, length_rest_cutBlock]
        exact Nat.lt_of_succ_lt (hroom kind key)
    rw [bodies_noteCut] at hrange
    exact ⟨placeholders, .text (by decide) hleaves, hrange⟩
  | @block number line rest left opening template body changed hopens hopening hbody hcut ih =>
    have hgains := Opening.gainsBody_addBody hopening
      (template.noteCut opening.kind number (cutBlock opening.kind line rest)) body
    have hcount := hgains.count
    rw [bodies_noteCut] at hcount
    obtain ⟨placeholders, hleaves, hrange⟩ :=
      ih (unmarked_rest_cutBlock hunmarked) fun kind key => by
        have hlength := hroom kind key
        rw [hcount, length_rest_cutBlock]
        rw [List.length_cons] at hlength
        split <;> omega
    refine ⟨_ :: placeholders, .block ⟨?_, ?_, ?_⟩ hleaves, fun kind key => ?_⟩
    · exact Opening.key_ne_nil hopening
    · exact Opening.braceFree_key hopening
    · exact Nat.lt_of_le_of_lt (Nat.le_add_right _ _) (hroom _ _)
    · have hindexes := hgains.range_append_indexes placeholders kind key
      rw [bodies_noteCut] at hindexes
      exact hindexes.trans (hrange kind key)
  | @plain number line rest left template between changed hcomment hname hcondition
      hdocuments hcut ih =>
    obtain ⟨placeholders, hleaves, hrange⟩ :=
      ih (fun other hother => hunmarked other (List.mem_cons_of_mem _ hother)) fun kind key => by
        rw [hdocuments.bodies]
        exact Nat.lt_of_succ_lt (hroom kind key)
    rw [hdocuments.bodies] at hrange
    exact ⟨placeholders, .text (hunmarked line List.mem_cons_self) hleaves, hrange⟩

/-! ### Reading -/

/-- In text without placeholders none is read. -/
theorem Reading.placeholders_of_unmarked {number : Nat} {cs : List Char}
    {template changed : Template}
    {pieces : List Piece} (h : Reading number cs template pieces changed)
    (hunmarked : Unmarked cs) : pieces.filterMap Piece.placeholder? = [] := by
  induction h with
  | done => rfl
  | @step cs rest template between changed first more hstep hrest ih =>
    have hbehind : rest <:+: cs ∧ first.filterMap Piece.placeholder? = [] := by
      cases hstep with
      | escape hbrace rest => exact ⟨(List.suffix_append [_, _] rest).isInfix, rfl⟩
      | char => exact ⟨(List.suffix_cons _ rest).isInfix, rfl⟩
      | @stray content | @expression content =>
        exact ⟨⟨'\x7b' :: (content ++ ['\x7d']), [], by simp⟩, rfl⟩
      | @segment content _ _ found hbraces hmeaning =>
        refine ⟨⟨'\x7b' :: (content ++ ['\x7d']), [], by simp⟩, ?_⟩
        cases refersTo_of_meaning hmeaning with
        | block hcontent => rw [hunmarked.ofContent?_eq_none] at hcontent; cases hcontent
        | inclusion | binding => rfl
    rw [List.filterMap_append, hbehind.2, ih (hunmarked.of_part hbehind.1)]
    rfl

/-- A node that retains its bodies has the same ones. -/
theorem Retains.hasBody {template changed : Template} (h : template.Retains changed)
    (placeholder : Placeholder) : changed.hasBody placeholder = template.hasBody placeholder := by
  rw [hasBody_eq_isSome_body?, hasBody_eq_isSome_body?, body?, body?, h.bodies]

/-- Where a node has the bodies of all placeholders that are left, just these are read. -/
theorem Leaves.placeholders_of_readLines {lines : List Line} {placeholders : List Placeholder}
    (h : Leaves lines placeholders) {number : Nat} {template changed : Template}
    {pieces : List Piece}
    (hbodies : ∀ placeholder ∈ placeholders, template.hasBody placeholder = true)
    (hread : readLines number lines template = .ok (pieces, changed)) :
    pieces.filterMap Piece.placeholder? = placeholders := by
  induction h generalizing number template pieces with
  | nil =>
    cases hread
    rfl
  | text hline hlines ih =>
    obtain ⟨first, between, more, hfirst, hmore, rfl⟩ := exists_of_readLines_cons hread
    have hretains := (reading_of_readLine hfirst).retains
    have hbetween := fun placeholder hmem =>
      (hretains.hasBody placeholder).trans (hbodies placeholder hmem)
    rw [List.filterMap_append, (reading_of_readLine hfirst).placeholders_of_unmarked hline,
      ih hbetween hmore]
    rfl
  | block hreadable hlines ih =>
    obtain ⟨first, between, more, hfirst, hmore, rfl⟩ := exists_of_readLines_cons hread
    rw [readLine_text hreadable (hbodies _ List.mem_cons_self)] at hfirst
    cases hfirst
    rw [List.filterMap_append,
      ih (fun placeholder hmem => hbodies placeholder (List.mem_cons_of_mem _ hmem)) hmore]
    rfl

/-! ### Compiled nodes -/

/-- A node that lines without placeholders are compiled into is numbered, whatever stands below
it. -/
theorem Course.numbered {IsBody : List Line → Template → Prop}
    {IsDocument : String → Template → Prop}
    {lines : List Line} {template : Template} (h : Course IsBody IsDocument lines template)
    (hunmarked : ∀ line ∈ lines, Unmarked line) (hlength : lines.length < 2 ^ 64) :
    template.Numbered := by
  obtain ⟨hcutting, hreading⟩ := h
  rename_i name left cut read pieces
  have hempty : ∀ kind key, ((empty name).bodies kind).count key = 0 := by
    intro kind key
    cases kind <;> rfl
  obtain ⟨placeholders, hleaves, hrange⟩ := hcutting.leaves hunmarked fun kind key => by
    rw [hempty, Nat.zero_add]
    exact hlength
  have hindexes : ∀ kind key, indexes kind key placeholders =
      List.range ((cut.bodies kind).count key) := by
    intro kind key
    rw [← hrange, hempty]
    rfl
  have hbodies : ∀ placeholder ∈ placeholders, cut.hasBody placeholder = true := by
    intro placeholder hmem
    have hindex := mem_indexes hmem
    rw [hindexes, List.mem_range] at hindex
    rw [hasBody_eq_isSome_body?]
    exact Table.isSome_getAt?_iff.2 hindex
  intro kind key
  have hfound : indexes kind key ((Piece.segments pieces).filterMap Segment.placeholder?) =
      List.range ((read.bodies kind).count key) := by
    rw [Piece.filterMap_segments, hleaves.placeholders_of_readLines hbodies hreading, hindexes,
      (retains_of_readLines hreading).bodies]
  cases kind <;> exact hfound

/-- All nodes of a template are numbered, except in its included documents. -/
def NumberedOutside (template : Template) : Prop :=
  ∀ address node, template.nodeAt? address = some node → inclusions address = [] → node.Numbered

/-- A numbered node is numbered throughout if everything below it is, documents aside. -/
theorem numberedOutside_of_below {template : Template} (hnumbered : template.Numbered)
    (hbelow : template.Below NumberedOutside fun _ _ => True) : template.NumberedOutside := by
  intro address node hnode houtside
  cases address with
  | nil =>
    cases hnode
    exact hnumbered
  | cons step address =>
    obtain ⟨child, hchild, hrest⟩ := Option.bind_eq_some_iff.1 hnode
    cases step with
    | repetition name index =>
      exact hbelow.bodies .repetition child (Table.mem_flatMap_of_getAt? hchild) address node
        hrest houtside
    | conditional id index =>
      exact hbelow.bodies .conditional child (Table.mem_flatMap_of_getAt? hchild) address node
        hrest houtside
    | inclusion path => cases houtside

/-- A body is made of parts of the lines around it, so it has no placeholders if they have none. -/
theorem Course.numberedOutside {IsDocument : String → Template → Prop} {lines : List Line}
    {template : Template}
    (h : Course (fun lines body => (∀ line ∈ lines, Unmarked line) → lines.length < 2 ^ 64 →
      body.NumberedOutside) IsDocument lines template)
    (hunmarked : ∀ line ∈ lines, Unmarked line) (hlength : lines.length < 2 ^ 64) :
    template.NumberedOutside := by
  obtain ⟨name, hchanges⟩ : ∃ name, Changes NumberedOutside IsDocument (empty name) template := by
    refine h.changes fun parts body hparts hle hbody => ?_
    refine hbody (fun part hpart => ?_) (Nat.lt_of_le_of_lt hle hlength)
    obtain ⟨line, hline, hinfix⟩ := hparts part hpart
    exact (hunmarked line hline).of_part hinfix
  exact numberedOutside_of_below (h.numbered hunmarked hlength)
    ⟨hchanges.below.bodies, fun _ _ => trivial⟩

end Template

namespace Compiler

open Template

/-- In every node that lines without placeholders are compiled into, included documents apart, the
blocks of one kind and key are its bodies from the first to the last. -/
theorem numbered_of_compile {compiler : Compiler} {name : String} {lines : List Line}
    {template : Template} (hrun : (compiler.compile name lines).1 = .ok template)
    (hunmarked : ∀ line ∈ lines, Unmarked line) (hlength : lines.length < 2 ^ 64) :
    ∀ address node, template.nodeAt? address = some node → inclusions address = [] →
      ∀ kind key, indexes kind key (node.segments.filterMap Segment.placeholder?) =
        List.range ((node.bodies kind).count key) := by
  have hyields : Yields compiler.openPaths (Template.compileLines compiler.resolve name lines)
      (fun template : Template => (∀ line ∈ lines, Unmarked line) → lines.length < 2 ^ 64 →
        template.NumberedOutside) fun _ => True :=
    @yields_course _ (fun _ _ => True) compiler.openPaths compiler.resolve _ (fun _ _ => trivial)
      (fun _ _ hcourse => hcourse.numberedOutside) lines
      (fun path _ =>
        (restores_compilePath compiler.loader compiler.loader.depth path _).yields) name
  exact hyields.of_ok hrun hunmarked hlength

/-- Blocks on one line, blocks that overlap, and one that has no end. -/
theorem numbered_of_compile_overlap :
    let compiler : Compiler := ⟨.none, []⟩
    let lines :=
      ["\x7bif a\x7d1\x7b/if\x7d\n", "\x7bif a\x7d\n", "\x7bforeach b\x7d\n", "\x7b/if\x7d\n",
      "\x7b/foreach\x7d\n", "\x7bif a\x7d\n", "2\n"].map String.toList
    ∃ template, (compiler.compile "page" lines).1 = .ok template ∧
      (∀ line ∈ lines, Unmarked line) ∧ lines.length < 2 ^ 64 ∧
      Table.count template.conditionals "a" = 3 ∧
      indexes .conditional "a" (template.segments.filterMap Segment.placeholder?) = [0, 1, 2] := by
  intro compiler lines
  have hcompile : (compiler.compile "page" lines).1.toOption.map (fun template =>
      Table.count template.conditionals "a") = some 3 := by decide +kernel
  obtain ⟨template, htemplate, hcount⟩ := Option.map_eq_some_iff.1 hcompile
  have hunmarked : ∀ line ∈ lines, Unmarked line := by decide +kernel
  have hlength : lines.length < 2 ^ 64 := by decide
  have hnumbered :=
    numbered_of_compile (eq_ok_of_toOption htemplate) hunmarked hlength [] template rfl rfl
    .conditional "a"
  refine ⟨template, eq_ok_of_toOption htemplate, hunmarked, hlength, hcount, hnumbered.trans ?_⟩
  change List.range (Table.count template.conditionals "a") = _
  rw [hcount]
  rfl

end Compiler

end BraceTemplate
