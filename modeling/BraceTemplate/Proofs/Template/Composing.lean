import BraceTemplate.Proofs.Expr.Bindings
import BraceTemplate.Proofs.Template.Hosting
import BraceTemplate.Proofs.Template.Showing

/-!
# Documents behind each other

A document whose blocks all end has the same text in front of another one as on its own, and so has
the other one behind it. The node of both has what either node has: the bodies of the second
document are counted behind those of the first, and what both refer to they share.
-/

namespace BraceTemplate

open CompileM (AgreeAt)

namespace Template

/-! ### What a part shows within the whole -/

/-- Under an id that both nodes have they store expressions with the same atoms. -/
def SameAtoms (first second : Template) : Prop :=
  ∀ id expression expression', first.expression? id = some expression →
    second.expression? id = some expression' → expression.atoms = expression'.atoms

/-- To store the same atoms is symmetric. -/
theorem SameAtoms.symm {first second : Template} (h : first.SameAtoms second) :
    second.SameAtoms first :=
  fun id expression expression' hexpression hexpression' =>
    (h id expression' expression hexpression' hexpression).symm

/-- A node that has been read, with the segments that the pieces make up and its bindings. -/
def assembled (read : Template) (pieces : List Piece) : Template :=
  { read with segments := Piece.segments pieces }.bindNames

/-- The text of an assembled node is the text of its pieces. -/
theorem recomputed_assembled (read : Template) (pieces : List Piece) (f : Scope → Scope) :
    ((read.assembled pieces).mapScopes f).recomputed =
      String.join (pieces.map
        (Piece.textBy (recomputedSegment ((read.assembled pieces).mapScopes f)))) := by
  rw [recomputed, segments_mapScopes]
  exact Piece.join_segments (fun text => by rw [recomputedSegment]) pieces

namespace Hosts

variable {offset : Offset} {other part whole : Template}

/-- An expression of the part has the same value in the whole, whichever of them was met first. -/
theorem valueOf?_mapScopes (h : Hosts offset other part whole) (hatoms : part.SameAtoms other)
    {f : Scope → Scope} (hscope : ∀ name, (f whole.scope).get? name = (f part.scope).get? name)
    {id : String} (hstored : (part.expression? id).isSome = true) :
    (whole.mapScopes f).valueOf? id = (part.mapScopes f).valueOf? id := by
  obtain ⟨expression, hexpression⟩ := Option.isSome_iff_exists.1 hstored
  obtain ⟨expression', hexpression'⟩ := Option.isSome_iff_exists.1 (h.stored id hstored)
  have hsame : expression'.atoms = expression.atoms := by
    rcases h.expression? id expression' hexpression' with hpart | hother
    · rw [Option.some.inj (hexpression.symm.trans hpart)]
    · exact (hatoms id expression expression' hexpression hother).symm
  have hvalue : expression'.evaluate (f whole.scope) = expression.evaluate (f part.scope) := by
    rw [Expression.evaluate_congr fun text _ => hscope text, Expression.evaluate,
      Expression.evaluate, hsame]
  rw [valueOf?, valueOf?, expression?_mapScopes, expression?_mapScopes, scope_mapScopes,
    scope_mapScopes, hexpression, hexpression', Option.map_some, Option.map_some, hvalue]

/-- What a segment of the part refers to has the same text in the whole, where names are bound
alike. -/
theorem shownAlike_behind (h : Hosts offset other part whole) (hatoms : part.SameAtoms other)
    {f : Scope → Scope} (hscope : ∀ name, (f whole.scope).get? name = (f part.scope).get? name)
    {segment : Segment} (hhas : part.Has segment) :
    (whole.mapScopes f).ShownAlike (part.mapScopes f) (segment.behind offset) segment := by
  have hscope' :
      ∀ name, (whole.mapScopes f).scope.get? name = (part.mapScopes f).scope.get? name := by
    intro name
    rw [scope_mapScopes, scope_mapScopes, hscope]
  cases segment with
  | text text => exact .text text
  | binding name => exact .binding (hscope' name)
  | expression id => exact .expression (h.valueOf?_mapScopes hatoms hscope hhas)
  | inclusion path =>
    obtain ⟨document, hdocument⟩ := Option.isSome_iff_exists.1 hhas
    refine .inclusion ?_
    rw [include?_mapScopes, include?_mapScopes, hdocument, h.include? path document hdocument]
  | block placeholder =>
    obtain ⟨kind, key, index⟩ := placeholder
    obtain ⟨body, hbody⟩ := Option.isSome_iff_exists.1 hhas.1
    obtain ⟨copy, hcopy, hsame⟩ := h.body? _ body hbody
    have hunnamed : (copy.mapScopes f).unnamed = (body.mapScopes f).unnamed := by
      rw [unnamed_mapScopes, unnamed_mapScopes, hsame]
    cases kind with
    | conditional =>
      have hbody : part.conditional? key index = some body := hbody
      have hcopy : whole.conditional? key (offset .conditional key + index) = some copy := hcopy
      refine .conditional (h.valueOf?_mapScopes hatoms hscope (hhas.2 rfl)) ?_
      rw [conditional?_mapScopes, conditional?_mapScopes, hbody]
      rw [hcopy, Option.map_some, Option.map_some, Option.map_some, Option.map_some,
        ← recomputed_unnamed, hunnamed, recomputed_unnamed]
    | repetition =>
      have hbody : part.repetition? key index = some body := hbody
      have hcopy : whole.repetition? key (offset .repetition key + index) = some copy := hcopy
      refine .repetition (hscope' key) ?_
      rw [repetition?_mapScopes, repetition?_mapScopes, hbody]
      rw [hcopy, Option.map_some, Option.map_some, Option.map_some, Option.map_some,
        ← recomputedItems_unnamed fun _ => recomputed_unnamed _, hunnamed,
        recomputedItems_unnamed fun _ => recomputed_unnamed _]

/-- When both nodes are assembled the whole still has what the part has. -/
theorem assembled (h : Hosts offset other part whole) (pieces pieces' pieces'' : List Piece) :
    Hosts offset (other.assembled pieces) (part.assembled pieces') (whole.assembled pieces'') :=
  ⟨h.body?, h.include?, h.stored, h.expression?, h.names⟩

/-- The pieces of the part have the same text in the whole, where names are bound alike. -/
theorem join_behind (h : Hosts offset other part whole) (hatoms : part.SameAtoms other)
    {f : Scope → Scope} (hscope : ∀ name, (f whole.scope).get? name = (f part.scope).get? name)
    {pieces : List Piece} (hhas : ∀ segment, .segment segment ∈ pieces → part.Has segment) :
    String.join ((pieces.map (Piece.behind offset)).map
        (Piece.textBy (recomputedSegment (whole.mapScopes f)))) =
      String.join (pieces.map (Piece.textBy (recomputedSegment (part.mapScopes f)))) := by
  rw [List.map_map]
  refine congrArg String.join (List.map_congr_left fun piece hpiece => ?_)
  cases piece with
  | char c => rfl
  | segment segment =>
    exact (h.shownAlike_behind hatoms hscope (hhas segment hpiece)).recomputedSegment_eq

end Hosts

/-! ### Compiling in stages -/

section Stages

variable {resolve : String → CompileM Template} {openPaths : List String}

/-- The stages of compiling lines: the blocks are cut out of them, and what is left is read. -/
structure Stages (resolve : String → CompileM Template) (openPaths : List String) (name : String)
    (lines left : List Line) (cut : Template) (pieces : List Piece) (read : Template) : Prop where
  cutting : cutLines resolve 1 lines (empty name) openPaths = (.ok (left, cut), openPaths)
  reading : readLines 1 left cut = .ok (pieces, read)

variable {name name' : String} {lines left more left' : List Line} {cut read cut' read' : Template}
  {pieces pieces' : List Piece}

/-- Lines compile to the node that their stages assemble. -/
theorem Stages.compileLines_eq (h : Stages resolve openPaths name lines left cut pieces read) :
    compileLines resolve name lines openPaths = (.ok (read.assembled pieces), openPaths) := by
  rw [compileLines, CompileM.bind_apply, h.cutting]
  dsimp only
  rw [complete, h.reading]
  rfl

variable (hrestores : ∀ path, AgreeAt openPaths (resolve path) (resolve path))
include hrestores

/-- Lines that compile go through all stages. -/
theorem exists_stages {template : Template}
    (hrun : (compileLines resolve name lines openPaths).1 = .ok template) :
    ∃ left cut pieces read, Stages resolve openPaths name lines left cut pieces read ∧
      template = read.assembled pieces := by
  rw [compileLines, CompileM.bind_apply] at hrun
  rcases yields_changes_cutLines hrestores 1 lines (empty name) with
    ⟨⟨left, cut⟩, hcut, -⟩ | ⟨failure, hfails, -⟩
  · rw [hcut] at hrun
    dsimp only at hrun
    cases hread : readLines 1 left cut with
    | error error =>
      rw [complete, hread] at hrun
      cases hrun
    | ok read =>
      rw [complete, hread] at hrun
      cases hrun
      exact ⟨left, cut, read.1, read.2, ⟨hcut, hread⟩, rfl⟩
  · rw [hfails] at hrun
    cases hrun

/-- The node has what the segments that have been read refer to. -/
theorem Stages.has (h : Stages resolve openPaths name lines left cut pieces read)
    (segment : Segment)
    (hsegment : .segment segment ∈ pieces) : (read.assembled pieces).Has segment := by
  have hguarded := (changes_of_cutLines hrestores h.cutting).guarded (guarded_empty name)
  have hread := readsHad_readLines hguarded 1 left pieces read h.reading segment hsegment
  have hfinish : Change (fun _ => True) (fun _ _ => True) read (read.assembled pieces) :=
    .finish read (Piece.segments pieces)
  exact hread.of_grows hfinish.grows

omit hrestores in
/-- Before anything is cut, there is nothing that the whole would have to have. -/
theorem aligned_empty {whole other : Template} (name : String)
    (hexpression : ∀ id expression, whole.expression? id = some expression →
      other.expression? id = some expression)
    (hnames : whole.names ⊆ other.names)
    (hresolved : ∀ path document, whole.include? path = some document →
      resolve path openPaths = (.ok document, openPaths)) :
    Aligned resolve openPaths (fun kind key => (whole.bodies kind).count key) other (empty name)
      whole where
  body? placeholder body hbody := by
    obtain ⟨kind, key, index⟩ := placeholder
    cases kind <;> cases hbody
  include? path document hdocument := by cases hdocument
  stored id hid := by cases hid
  expression? id expression hfound := .inr (hexpression id expression hfound)
  names name hname := .inr (hnames hname)
  count kind key := by cases kind <;> rfl
  resolved := hresolved

/-- Where all blocks of a document end, the node of the document and of another one behind it has
what each of their nodes has, and what has been read is what has been read of each. -/
theorem Stages.append (h : Stages resolve openPaths name lines left cut pieces read)
    (h' : Stages resolve openPaths name' more left' cut' pieces' read') (hclosed : Closed lines)
    (hunmarked : ∀ line ∈ lines ++ more, Unmarked line) (hlength : (lines ++ more).length < 2 ^ 64)
    (whole : String) :
    ∃ offset offset' left'' cut'' pieces'' read'',
      Stages resolve openPaths whole (lines ++ more) left'' cut'' pieces'' read'' ∧
      pieces'' = pieces.map (Piece.behind offset) ++ pieces'.map (Piece.behind offset') ∧
      Hosts offset read' read read'' ∧ Hosts offset' read read' read'' := by
  rw [List.length_append] at hlength
  -- The first document is cut into an empty node, and the second one into what this becomes.
  have hempty : ∀ kind key, ((empty whole).bodies kind).count key = 0 := by
    intro kind key
    cases kind <;> rfl
  have hstart : Aligned resolve openPaths _ (empty name) (empty name) (empty whole) :=
    aligned_empty name (fun _ _ => id) (List.Subset.refl _) fun _ _ hfound => by cases hfound
  obtain ⟨⟨leftFirst, cutFirst⟩, hcutFirst, hfirst⟩ :=
    (cutsAlike hrestores (fun line hline => hunmarked line (List.mem_append_left _ hline)) _ _
      hstart (fun kind key => by rw [hempty]; omega) 1 1).of_ok (congrArg Prod.fst h.cutting)
  have hnext : Aligned resolve openPaths _ cut (empty name') cutFirst :=
    aligned_empty name'
      (fun id expression hfound => (hfirst.aligned.expression? id expression hfound).resolve_right
        fun hnone => by cases hnone)
      (fun found hfound => (hfirst.aligned.names found hfound).resolve_right List.not_mem_nil)
      hfirst.aligned.resolved
  have hcounts : ∀ kind key, (cutFirst.bodies kind).count key + more.length < 2 ^ 64 := by
    intro kind key
    have hcount := hfirst.count_le kind key
    rw [hempty] at hcount
    dsimp only at hcount
    omega
  obtain ⟨⟨leftSecond, cutSecond⟩, hcutSecond, hsecond⟩ :=
    (cutsAlike hrestores (fun line hline => hunmarked line (List.mem_append_right _ hline)) _ _
      hnext hcounts 1 (1 + lines.length)).of_ok (congrArg Prod.fst h'.cutting)
  have hcutting : cutLines resolve 1 (lines ++ more) (empty whole) openPaths =
      (.ok (leftFirst ++ leftSecond, cutSecond), openPaths) := by
    rw [cutLines_append resolve hclosed, CompileM.bind_apply, hcutFirst]
    dsimp only
    rw [CompileM.bind_apply, hcutSecond]
    rfl
  -- Both are read in the node that has been cut: the first one, and then the second one.
  have hosts := hfirst.aligned.toHosts.of_grows (changes_of_cutLines hrestores hcutSecond).grows
    hsecond.aligned.toHosts
  obtain ⟨readFirst, hreadFirst, hostsFirst⟩ :=
    readsAlike_readLines hfirst.lines hosts 1 1 pieces read h.reading
  have hosts' := hsecond.aligned.toHosts.of_grows (changes_of_readLines hreadFirst).grows hostsFirst
  obtain ⟨readSecond, hreadSecond, hostsSecond⟩ :=
    readsAlike_readLines hsecond.lines hosts' 1 (1 + leftFirst.length) pieces' read' h'.reading
  exact ⟨_, _, _, _, _, readSecond, ⟨hcutting, readLines_append hreadFirst hreadSecond⟩, rfl,
    hostsFirst.of_grows (changes_of_readLines hreadSecond).grows hostsSecond, hostsSecond⟩

end Stages

end Template

namespace Compiler

open Template

variable {compiler : Compiler} {name name' : String} {lines more : List Line}
  {first second : Template}

/-- A template that a compiler gives binds no names but its own. -/
theorem Produces.scoped {template : Template} (h : compiler.Produces template) : template.Scoped :=
  (h.everywhere grown_scoped).here

/-- Whatever is set on a compiled template, its text is the one without a memory. -/
theorem Produces.render_setAll {template : Template} (h : compiler.Produces template)
    (bindings : Scope) : (template.setAll bindings).render =
      (template.mapScopes fun scope => scope.insertAll bindings).recomputed := by
  rw [← setAll_eq_mapScopes]
  exact render_eq_recomputed ((h.everywhere grown_keyed).keyed_setAll bindings)

/-- Where the names of two nodes are bound, everything is bound alike in the one that has what both
have and in each of them. -/
theorem get?_insertAll_of_hosts {offset : Offset} {other part both : Template}
    (h : Hosts offset other part both) (hboth : both.Scoped) (hpart : part.Scoped)
    {bindings : Scope}
    (hbound : part.names ⊆ bindings.names) (hbound' : other.names ⊆ bindings.names)
    (name : String) :
    (both.scope.insertAll bindings).get? name = (part.scope.insertAll bindings).get? name := by
  refine Table.get?_insertAll_congr ?_
  by_cases hname : name ∈ bindings.names
  · exact .inl hname
  · right
    rw [hpart name fun hmem => hname (hbound hmem)]
    exact hboth name fun hmem => hname ((h.names name hmem).elim (@hbound name) (@hbound' name))

/-- A document whose blocks all end and another one behind it do not change each other: both
together compile, and their text is the text of the one followed by that of the other, whatever the
names of both are bound to. Indices of placeholders have to fit, so there are fewer than `2 ^ 64`
lines. -/
theorem render_append (hfirst : (compiler.compile name lines).1 = .ok first)
    (hsecond : (compiler.compile name' more).1 = .ok second)
    (hclosed : ∀ kind number, .unclosedBlock kind number ∉ first.ownWarnings)
    (hunmarked : ∀ line ∈ lines ++ more, Unmarked line) (hatoms : first.SameAtoms second)
    (hlength : (lines ++ more).length < 2 ^ 64) (whole : String) :
    ∃ both, compiler.compile whole (lines ++ more) = (.ok both, compiler) ∧
      ∀ bindings : Scope, first.names ⊆ bindings.names → second.names ⊆ bindings.names →
        (both.setAll bindings).render =
          (first.setAll bindings).render ++ (second.setAll bindings).render := by
  have hrestores :
      ∀ path, AgreeAt compiler.openPaths (compiler.resolve path) (compiler.resolve path) :=
    fun path => restores_compilePath compiler.loader compiler.loader.depth path compiler.openPaths
  have hproduces : compiler.Produces first := .lines hfirst
  have hproduces' : compiler.Produces second := .lines hsecond
  obtain ⟨left, cut, pieces, read, hstages, rfl⟩ := exists_stages hrestores hfirst
  obtain ⟨left', cut', pieces', read', hstages', rfl⟩ := exists_stages hrestores hsecond
  have hend : Closed lines :=
    (ensures_warnsUnclosed compiler.resolve lines 1 (empty name) _ _ _ hstages.cutting).2
      fun kind number hmem =>
        hclosed kind number ((changes_of_readLines hstages.reading).grows.ownWarnings hmem)
  obtain ⟨offset, offset', left'', cut'', pieces'', read'', hboth, hpieces, hosts, hosts'⟩ :=
    hstages.append hrestores hstages' hend hunmarked hlength whole
  have hrun :
      compiler.compile whole (lines ++ more) = (.ok (read''.assembled pieces''), compiler) := by
    rw [compile, run]
    exact congrArg (fun outcome => (outcome.1, { compiler with openPaths := outcome.2 }))
      hboth.compileLines_eq
  have hproduces'' : compiler.Produces _ := .lines (congrArg Prod.fst hrun)
  refine ⟨_, hrun, fun bindings hbound hbound' => ?_⟩
  have hosts := hosts.assembled pieces' pieces pieces''
  have hosts' := hosts'.assembled pieces pieces' pieces''
  have hscope := get?_insertAll_of_hosts hosts hproduces''.scoped hproduces.scoped hbound hbound'
  have hscope' := get?_insertAll_of_hosts hosts' hproduces''.scoped hproduces'.scoped hbound' hbound
  rw [hproduces.render_setAll, hproduces'.render_setAll, hproduces''.render_setAll,
    recomputed_assembled, recomputed_assembled, recomputed_assembled, hpieces, List.map_append,
    String.join_append, ← hpieces]
  congr 1
  · exact hosts.join_behind hatoms hscope (hstages.has hrestores)
  · exact hosts'.join_behind hatoms.symm hscope' (hstages'.has hrestores)

/-- A list with a total, and a document that it includes. -/
def pageHead : List Line :=
  ["\x7btitle\x7d:\n", "\x7bforeach items\x7d\n", "\x7bname\x7d \n", "\x7b/foreach\x7d\n",
    "\x7bif n > 1\x7d\n", "\x7bn * 2\x7d\n", "\x7b/if\x7d\n",
    "\x7binclude part\x7d\x7bn*2\x7d\n"].map String.toList

/-- Lines that repeat what the list refers to, with other blanks, and end in a block without an
end. -/
def pageTail : List Line :=
  ["\x7binclude part\x7d\x7bn\x7d\n", "\x7bforeach items\x7d\n", "[\x7bname\x7d]\n",
    "\x7b/foreach\x7d\n", "\x7bn  * 2\x7d\n", "\x7bif n>1\x7d\n", "many\n"].map String.toList

/-- The lines share two expressions, a document, and the keys of their blocks. -/
theorem render_append_page :
    let compiler : Compiler := ⟨.ofDocuments [("part", "<\x7bn\x7d>")], []⟩
    ∃ head tail both, (compiler.compile "head" pageHead).1 = .ok head ∧
      (compiler.compile "tail" pageTail).1 = .ok tail ∧
      (∀ kind number, .unclosedBlock kind number ∉ head.ownWarnings) ∧
      tail.ownWarnings = [.unclosedBlock .conditional 6] ∧
      (∀ line ∈ pageHead ++ pageTail, Unmarked line) ∧ head.SameAtoms tail ∧
      (pageHead ++ pageTail).length < 2 ^ 64 ∧
      compiler.compile "page" (pageHead ++ pageTail) = (.ok both, compiler) ∧
      ∀ title n items, let bindings := [("title", title), ("n", n), ("items", items)]
        (both.setAll bindings).render =
          (head.setAll bindings).render ++ (tail.setAll bindings).render := by
  intro compiler
  have hhead : (compiler.compile "head" pageHead).1.toOption.map (fun template =>
      (template.names, template.ownWarnings, template.expressions)) =
    some (["title"], [], [
      ("n>1", ⟨"n > 1", "n>1", [.literal "n", .literal "1", .operator .greater]⟩),
      ("n*2", ⟨"n*2", "n*2", [.literal "n", .literal "2", .operator .mul]⟩)]) := by decide +kernel
  have htail : (compiler.compile "tail" pageTail).1.toOption.map (fun template =>
      (template.names, template.ownWarnings, template.expressions)) =
    some (["n"], [.unclosedBlock .conditional 6], [
      ("n>1", ⟨"n>1", "n>1", [.literal "n", .literal "1", .operator .greater]⟩),
      ("n*2", ⟨"n  * 2", "n*2", [.literal "n", .literal "2", .operator .mul]⟩)]) := by
        decide +kernel
  obtain ⟨head, hhead, hheadParts⟩ := Option.map_eq_some_iff.1 hhead
  obtain ⟨tail, htail, htailParts⟩ := Option.map_eq_some_iff.1 htail
  simp only [Prod.mk.injEq] at hheadParts htailParts
  obtain ⟨hnames, hwarnings, hexpressions⟩ := hheadParts
  obtain ⟨hnames', hwarnings', hexpressions'⟩ := htailParts
  have hclosed : ∀ kind number, .unclosedBlock kind number ∉ head.ownWarnings := by simp [hwarnings]
  have hunmarked : ∀ line ∈ pageHead ++ pageTail, Unmarked line := by decide +kernel
  have hatoms : head.SameAtoms tail := by
    have hentries : ∀ entry ∈ head.expressions, ∀ entry' ∈ tail.expressions, entry.1 = entry'.1 →
        entry.2.atoms = entry'.2.atoms := by
      rw [hexpressions, hexpressions']
      decide
    exact fun id _ _ hexpression hexpression' => hentries _ (Table.mem_of_get? hexpression) _
      (Table.mem_of_get? hexpression') rfl
  have hlength : (pageHead ++ pageTail).length < 2 ^ 64 := by decide
  obtain ⟨both, hboth, hrender⟩ := render_append (eq_ok_of_toOption hhead) (eq_ok_of_toOption htail)
    hclosed hunmarked hatoms hlength "page"
  refine ⟨head, tail, both, eq_ok_of_toOption hhead, eq_ok_of_toOption htail, hclosed, hwarnings',
    hunmarked, hatoms, hlength, hboth, fun title n items => hrender _ ?_ ?_⟩
  · rw [hnames]
    simp [Table.names]
  · rw [hnames']
    simp [Table.names]

end Compiler

end BraceTemplate
