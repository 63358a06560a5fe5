import BraceTemplate.Proofs.Template.Expressions
import BraceTemplate.Proofs.Template.Tracing

/-!
# Compiled nodes are coherent

What the segments of a compiled node refer to is there: the tables of the node are filled while its
blocks are cut out and its lines are read, and nothing is lost again. The names of the node and its
bindings are those of its segments, and what is text stands in one segment wherever it can.
-/

namespace BraceTemplate

/-- The name that a segment stands for. -/
def Segment.name? : Segment → Option String
  | binding name => some name
  | _ => none

/-- Whether a segment is a text. -/
def Segment.isText : Segment → Bool
  | text _ => true
  | _ => false

namespace Template

/-- A node has what its segments refer to, every entry of its tables belongs where it is, and its
names, its bindings and its texts are just those that its lines have brought. -/
structure Coherent (template : Template) : Prop where
  expression : ∀ id, .expression id ∈ template.segments → (template.expression? id).isSome = true
  conditional : ∀ key index, .block ⟨.conditional, key, index⟩ ∈ template.segments →
    (template.expression? key).isSome = true ∧ index < Table.count template.conditionals key
  repetition : ∀ name index, .block ⟨.repetition, name, index⟩ ∈ template.segments →
    index < Table.count template.repetitions name
  inclusion : ∀ path, .inclusion path ∈ template.segments → (template.include? path).isSome = true
  keyed : ∀ entry ∈ template.expressions, entry.1 = entry.2.id
  guarded : ∀ entry ∈ template.conditionals, (template.expression? entry.1).isSome = true
  names : template.names = (template.segments.filterMap Segment.name?).eraseDups
  scope : template.scope = template.names.map fun name => (name, .string "")
  texts_ne_empty : .text "" ∉ template.segments
  texts_apart : template.segments.IsChain fun first second =>
    ¬ (first.isText = true ∧ second.isText = true)

end Template

/-! ### Texts -/

namespace Piece

/-- Segments in which no text is empty and no two texts stand side by side. -/
def Merged (segments : List Segment) : Prop :=
  .text "" ∉ segments ∧
    segments.IsChain fun first second => ¬ (first.isText = true ∧ second.isText = true)

/-- A segment may come in front unless it is an empty text, or a text in front of another one. -/
theorem merged_cons {first : Segment} {segments : List Segment} (h : Merged segments)
    (hne : first ≠ .text "")
    (hapart : ∀ second ∈ segments.head?, ¬ (first.isText = true ∧ second.isText = true)) :
    Merged (first :: segments) := by
  refine ⟨fun hmem => ?_, List.isChain_cons.2 ⟨hapart, h.2⟩⟩
  rcases List.mem_cons.1 hmem with heq | hmem
  · exact hne heq.symm
  · exact h.1 hmem

/-- The text that is gathered last may come in front of a segment that is no text. -/
theorem merged_flush {text : List Char} {segments : List Segment} (h : Merged segments)
    (hhead : ∀ second ∈ segments.head?, second.isText = false) :
    Merged (flush (text, segments)) := by
  cases text with
  | nil => exact h
  | cons c cs =>
    refine merged_cons h (fun heq => ?_) fun second hsecond hboth => ?_
    · exact absurd (congrArg String.toList (Segment.text.inj heq)) (by simp)
    · rw [hhead second hsecond] at hboth
      cases hboth.2

/-- Characters that follow each other make up one text, and segments in between are no texts. -/
theorem merged_gather {pieces : List Piece} (h : ∀ text, .segment (.text text) ∉ pieces) :
    Merged (gather pieces).2 ∧ ∀ second ∈ (gather pieces).2.head?, second.isText = false := by
  induction pieces with
  | nil => exact ⟨⟨List.not_mem_nil, .nil⟩, fun second hsecond => by cases hsecond⟩
  | cons piece pieces ih =>
    have ih := ih fun text hmem => h text (List.mem_cons_of_mem _ hmem)
    cases piece with
    | char c => exact ih
    | segment found =>
      have hfound : found.isText = false := by
        cases found with
        | text text => exact absurd List.mem_cons_self (h text)
        | binding | expression | block | inclusion => rfl
      refine ⟨merged_cons (merged_flush ih.1 ih.2) (fun heq => ?_) fun second _ hboth => ?_, ?_⟩
      · rw [heq] at hfound
        cases hfound
      · rw [hfound] at hboth
        cases hboth.1
      · intro second hsecond
        cases hsecond
        exact hfound

/-- Pieces without texts make up segments that are merged. -/
theorem merged_segments {pieces : List Piece} (h : ∀ text, .segment (.text text) ∉ pieces) :
    Merged (segments pieces) :=
  merged_flush (merged_gather h).1 (merged_gather h).2

/-- A segment that is no text has been read as such. -/
theorem mem_of_mem_segments {pieces : List Piece} {found : Segment} (h : found ∈ segments pieces)
    (htext : found.isText = false) : .segment found ∈ pieces := by
  have hfilter := filterMap_segments_of_text
    (f := fun segment => if segment.isText then none else some segment) (fun _ => rfl) pieces
  have hmem : found ∈ (segments pieces).filterMap
      fun segment => if segment.isText then none else some segment :=
    List.mem_filterMap.2 ⟨found, h, by rw [htext]; rfl⟩
  rw [hfilter, List.mem_filterMap] at hmem
  obtain ⟨segment, hsegment, hkept⟩ := hmem
  obtain ⟨piece, hpiece, hsome⟩ := List.mem_filterMap.1 hsegment
  split at hkept
  · cases hkept
  · cases hkept
    cases piece with
    | char c => cases hsome
    | segment other =>
      cases hsome
      exact hpiece

end Piece

namespace Template

/-! ### Reading -/

/-- No step of reading yields a text; it yields characters. -/
theorem ReadStep.text_notMem {number : Nat} {cs rest : List Char} {template changed : Template}
    {pieces : List Piece} (h : ReadStep number cs template pieces rest changed) (text : String) :
    .segment (.text text) ∉ pieces := by
  cases h with
  | escape | char | stray | expression => simp
  | segment hbraces hmeaning =>
    cases refersTo_of_meaning hmeaning <;> simp

/-- Reading yields texts as characters only. -/
theorem text_notMem_of_readLines {number : Nat} {lines : List Line} {template changed : Template}
    {pieces : List Piece} (h : readLines number lines template = .ok (pieces, changed)) :
    ∀ text, .segment (.text text) ∉ pieces :=
  keeps_of_readLines (P := fun _ pieces _ => ∀ text, .segment (.text text) ∉ pieces)
    (fun _ _ => List.not_mem_nil) (fun _ _ _ _ _ _ => ReadStep.text_notMem)
    (fun _ _ _ _ _ hfirst hmore text hmem =>
      (List.mem_append.1 hmem).elim (hfirst text) (hmore text)) h

/-- The names that pieces bring, in their order. -/
def pieceNames (pieces : List Piece) : List String :=
  (pieces.filterMap Piece.segment?).filterMap Segment.name?

/-- A step of reading notes the names that its piece brings. -/
theorem ReadStep.names {number : Nat} {cs rest : List Char} {template changed : Template}
    {pieces : List Piece} (h : ReadStep number cs template pieces rest changed) :
    changed.names = (pieceNames pieces).foldl addName template.names := by
  cases h with
  | escape | char | stray => rfl
  | @segment content _ _ found => cases found <;> rfl
  | expression hbraces hmeaning hadd =>
    unfold addExpression at hadd
    split at hadd
    · cases hadd
      rfl
    · split at hadd
      · cases hadd
        rfl
      · cases hadd

/-- Reading lines notes the names that their pieces bring, in their order. -/
theorem names_of_readLines {number : Nat} {lines : List Line} {template changed : Template}
    {pieces : List Piece} (h : readLines number lines template = .ok (pieces, changed)) :
    changed.names = (pieceNames pieces).foldl addName template.names :=
  keeps_of_readLines
    (P := fun template pieces changed =>
      changed.names = (pieceNames pieces).foldl addName template.names)
    (fun _ => rfl) (fun _ _ _ _ _ _ => ReadStep.names)
    (fun _ _ _ _ _ hfirst hmore => by
      rw [hmore, hfirst, pieceNames, pieceNames, pieceNames, List.filterMap_append,
        List.filterMap_append, List.foldl_append]) h

/-! ### Cutting -/

section Cutting

variable {IsBody : List Line → Template → Prop} {IsDocument : String → Template → Prop}
  {template changed : Template}

/-- Cutting leaves the names and the bindings of a node to reading. -/
theorem Cutting.bindings {number : Nat} {lines left : List Line}
    (h : Cutting IsBody IsDocument number lines template left changed) :
    changed.names = template.names ∧ changed.scope = template.scope := by
  have hnoted : ∀ (template : Template) kind number cut,
      (template.noteCut kind number cut).names = template.names ∧
        (template.noteCut kind number cut).scope = template.scope := by
    intro template kind number cut
    unfold noteCut
    split <;> exact ⟨rfl, rfl⟩
  induction h with
  | done => exact ⟨rfl, rfl⟩
  | comment hcomment hrest ih => exact ⟨ih.1.trans (hnoted ..).1, ih.2.trans (hnoted ..).2⟩
  | @block number line rest left opening template body changed hopens hopening hbody hrest ih =>
    have hadded : ∀ template : Template, (opening.addBody template body).names = template.names ∧
        (opening.addBody template body).scope = template.scope := by
      intro template
      unfold Opening.addBody
      split
      · exact ⟨rfl, rfl⟩
      · split <;> exact ⟨rfl, rfl⟩
    exact ⟨ih.1.trans ((hadded _).1.trans (hnoted ..).1),
      ih.2.trans ((hadded _).2.trans (hnoted ..).2)⟩
  | plain hcomment hname hcondition hdocuments hrest ih =>
    have hkept : ∀ {template between : Template}, GainsDocuments IsDocument template between →
        between.names = template.names ∧ between.scope = template.scope := by
      intro template between hgains
      induction hgains with
      | done => exact ⟨rfl, rfl⟩
      | step _ _ _ ih => exact ih
    exact ⟨ih.1.trans (hkept hdocuments).1, ih.2.trans (hkept hdocuments).2⟩

end Cutting

/-! ### Compiled nodes -/

variable {IsBody : List Line → Template → Prop} {IsDocument : String → Template → Prop}

/-- A node that lines are compiled into is coherent, whatever stands below it. -/
theorem Course.coherent {lines : List Line} {template : Template}
    (h : Course IsBody IsDocument lines template) : template.Coherent := by
  obtain ⟨start, hchanges⟩ := h.changes (P := fun _ => True) fun _ _ _ _ _ => trivial
  obtain ⟨hcutting, hreading⟩ := h
  rename_i name left cut read pieces
  have hguarded := hchanges.guarded (guarded_empty start)
  have hkeyed := hchanges.keeps (fun _ _ => Change.keyed) (by simp [Keyed, empty])
  have hcut := (hcutting.changes (P := fun _ => True) fun _ _ _ _ _ => trivial).guarded
    (guarded_empty name)
  have hhas : ∀ segment ∈ Piece.segments pieces, segment.isText = false → read.Has segment :=
    fun segment hsegment htext =>
      readsHad_readLines hcut 1 left pieces read hreading segment
        (Piece.mem_of_mem_segments hsegment htext)
  have hnames : read.names = ((Piece.segments pieces).filterMap Segment.name?).eraseDups := by
    rw [names_of_readLines hreading, hcutting.bindings.1,
      Piece.filterMap_segments_of_text fun _ => rfl]
    exact foldl_addName_nil _
  have hmerged := Piece.merged_segments (text_notMem_of_readLines hreading)
  constructor
  · exact fun id hmem => hhas _ hmem rfl
  · intro key index hmem
    obtain ⟨hbody, hcondition⟩ := hhas _ hmem rfl
    exact ⟨hcondition rfl, Table.isSome_getAt?_iff.1 hbody⟩
  · exact fun name index hmem => Table.isSome_getAt?_iff.1 (hhas _ hmem rfl).1
  · exact fun path hmem => hhas _ hmem rfl
  · exact fun entry hentry => (hkeyed entry hentry).1
  · exact fun entry hentry =>
      hguarded entry.1 (List.lookup_isSome_iff.2 ⟨entry, hentry, beq_self_eq_true _⟩)
  · exact hnames
  · change read.names.foldl _ read.scope = _
    rw [(retains_of_readLines hreading).scope, hcutting.bindings.2]
    refine (@Table.foldl_insertNew _ [] _ ?_ _).trans (List.nil_append _)
    rw [hnames]
    exact nodup_eraseDups _
  · exact hmerged.1
  · exact hmerged.2

/-- Lines compile to coherent nodes only, if the documents that they include are coherent. -/
theorem fromDocuments_coherent : FromDocuments (Everywhere Coherent) := by
  intro resolve hresolve name lines openPaths
  refine @yields_course (fun _ => Everywhere Coherent) (fun _ => Everywhere Coherent) openPaths
    resolve _ (fun _ _ => trivial) (fun lines body hcourse => ?_) lines
    (fun path _ => hresolve path openPaths) name
  obtain ⟨start, hchanges⟩ := hcourse.changes fun _ _ _ _ hbody => hbody
  refine .node hcourse.coherent fun child hchild => ?_
  rcases mem_children_iff.1 hchild with ⟨kind, hbody⟩ | hdocument
  · exact hchanges.below.bodies kind child hbody
  · obtain ⟨entry, hentry, rfl⟩ := List.mem_map.1 hdocument
    exact hchanges.below.documents entry hentry

end Template

namespace Compiler

/-- Every node of every template that a compiler gives, for any lines, documents and open paths, is
coherent. -/
theorem everywhere_coherent {compiler : Compiler} {template : Template}
    (h : compiler.Produces template) : template.Everywhere Template.Coherent :=
  h.of_fromDocuments Template.fromDocuments_coherent

/-- Text between the blocks looks like the places of two bodies, only one of which is there. -/
theorem everywhere_coherent_menu :
    let compiler : Compiler := ⟨.ofDocuments [("part", "<\x7bn\x7d>")], ["menu"]⟩
    let lines := ["\x7bb\x7d\x7ba\x7d\x7bb\x7d\x7bn + 1\x7d\n", "\x7bif n+1\x7d!\x7b/if\x7d\n",
      "\x7bif:n+1:0\x7d\x7bif:n+1:1\x7d\n", "\x7bforeach a\x7d\x7bc\x7d\x7b/foreach\x7d\n",
      "\x7binclude part\x7d\n"].map String.toList
    ∃ template, (compiler.compile "page" lines).1 = .ok template ∧
      (template.names, template.segments) = (["b", "a"],
        [.binding "b", .binding "a", .binding "b", .expression "n+1", .text "\n",
          .block ⟨.conditional, "n+1", 0⟩, .block ⟨.conditional, "n+1", 0⟩,
          .text "\x7bif:n+1:1\x7d\n", .block ⟨.repetition, "a", 0⟩, .inclusion "part",
          .text "\n"]) ∧
      template.Everywhere Template.Coherent := by
  intro compiler lines
  have hrun : (compiler.compile "page" lines).1.toOption.map (fun template =>
      (template.names, template.segments)) = some (["b", "a"],
        [.binding "b", .binding "a", .binding "b", .expression "n+1", .text "\n",
          .block ⟨.conditional, "n+1", 0⟩, .block ⟨.conditional, "n+1", 0⟩,
          .text "\x7bif:n+1:1\x7d\n", .block ⟨.repetition, "a", 0⟩, .inclusion "part",
          .text "\n"]) := by decide +kernel
  obtain ⟨template, htemplate, hparts⟩ := Option.map_eq_some_iff.1 hrun
  exact ⟨template, eq_ok_of_toOption htemplate, hparts,
    everywhere_coherent (.lines (eq_ok_of_toOption htemplate))⟩

end Compiler

end BraceTemplate
