import BraceTemplate.Template.Lemmas
import BraceTemplate.Proofs.Expr.Identity
import BraceTemplate.Proofs.Template.Bodies
import BraceTemplate.Proofs.Template.Compiling
import BraceTemplate.Proofs.Template.Outline

/-!
# Placeholders in place of blocks

In the order of a document, every block leaves the placeholder that counts the earlier blocks of its
kind and key, and its body is compiled into the node under that placeholder. Cutting the blocks out
of the lines does exactly this, and reading what is left finds exactly these placeholders.
-/

namespace BraceTemplate

/-! ### Sources that compile -/

namespace Expression

/-- A compiled expression has the id of its source. -/
theorem id_of_compile {source : String} {expression : Expression}
    (h : compile source = .ok expression) : expression.id = idOf source :=
  (of_compile h).2.1

/-- A blank source cannot be compiled. -/
theorem exists_not_blank_of_compile {source : String} {expression : Expression}
    (h : compile source = .ok expression) : ∃ c ∈ source.toList, isBlank c = false := by
  by_cases hblank : ∀ c ∈ source.toList, isBlank c = true
  · have hscan : Token.scan source = [] := by
      have hlexemes := Token.lexemes_of_blank hblank
      rw [Token.lexemes, List.map_eq_nil_iff] at hlexemes
      exact hlexemes
    have hatoms : atomsOf source = .error ⟨.empty, 0⟩ := by
      rw [atomsOf, hscan]
      rfl
    rw [compile, hatoms] at h
    cases h
  · simpa using hblank

end Expression

/-! ### Numbering blocks -/

namespace Opening

/-- The placeholder of a block: its index is the number of earlier blocks of its kind and key. -/
def placeholder (earlier : List Opening) (opening : Opening) : Placeholder :=
  ⟨opening.placeholderKind, opening.key,
    earlier.countP fun other =>
      other.placeholderKind = opening.placeholderKind ∧ other.key = opening.key⟩

/-- Puts the body of the block into a node. -/
def addBody (opening : Opening) (template body : Template) : Template :=
  match opening with
  | repetition name => template.addRepetition name body
  | conditional source =>
    match Expression.compile source with
    | .ok condition => template.addConditional condition body
    | .error _ => template

/-- The body of a conditional is added under its compiled condition. -/
theorem addBody_conditional {source : String} {condition : Expression}
    (h : Expression.compile source = .ok condition) (template body : Template) :
    (conditional source).addBody template body = template.addConditional condition body := by
  rw [addBody, h]

/-- To add the body of a block is to gain it under the key of the block. -/
theorem gainsBody_addBody {opening : Opening} (h : opening.WellFormed) (template body : Template) :
    template.GainsBody (opening.addBody template body) opening.placeholderKind
      opening.key body := by
  cases opening with
  | repetition name => exact Template.gainsBody_addRepetition template body name
  | conditional source =>
    obtain ⟨condition, hcompile⟩ := h.compiles source rfl
    rw [addBody_conditional hcompile, key, ← Expression.id_of_compile hcompile]
    exact Template.gainsBody_addConditional template body condition

/-- The key of a block is not empty. -/
theorem key_ne_nil {opening : Opening} (h : opening.WellFormed) : opening.key.toList ≠ [] := by
  cases opening with
  | repetition name => exact h.argument_ne_nil
  | conditional source =>
    obtain ⟨expression, hcompile⟩ := h.compiles source rfl
    obtain ⟨c, hc, hblank⟩ := Expression.exists_not_blank_of_compile hcompile
    have hmem : c ∈ (Expression.idOf source).toList := by
      rw [Expression.idOf, String.toList_ofList, List.mem_filter]
      exact ⟨hc, by rw [hblank]; rfl⟩
    exact List.ne_nil_of_mem hmem

/-- There are no braces in the key of a block. -/
theorem braceFree_key {opening : Opening} (h : opening.WellFormed) :
    BraceFree opening.key.toList := by
  have hargument : BraceFree opening.argument.toList := by
    intro c hc
    have hallowed := h.allowed c hc
    constructor
    · rintro rfl
      rw [opening.allowed_brace.1] at hallowed
      cases hallowed
    · rintro rfl
      rw [opening.allowed_brace.2] at hallowed
      cases hallowed
  cases opening with
  | repetition name => exact hargument
  | conditional source =>
    intro c hc
    rw [key, Expression.idOf, String.toList_ofList] at hc
    exact hargument c (List.mem_filter.1 hc).1

/-- The placeholder of a block can be read back if there are not too many blocks in front. -/
theorem readable_placeholder {opening : Opening} (h : opening.WellFormed) {earlier : List Opening}
    (hlength : earlier.length < 2 ^ 64) : (opening.placeholder earlier).Readable :=
  ⟨key_ne_nil h, braceFree_key h, Nat.lt_of_le_of_lt List.countP_le_length hlength⟩

end Opening

namespace Outline

/-- The blocks that are not nested in another one, each with its placeholder. -/
def placed : (earlier : List Opening) → Outline → List (Placeholder × Outline)
  | _, done => []
  | earlier, line _ rest => placed earlier rest
  | earlier, block opening body rest =>
    (opening.placeholder earlier, body) :: placed (earlier ++ [opening]) rest

/-- The lines that are left when the blocks have been cut out. -/
def remaining : (earlier : List Opening) → Outline → List Line
  | _, done => []
  | earlier, line text rest => text :: remaining earlier rest
  | earlier, block opening body rest =>
    (opening.placeholder earlier).text ::
      (List.replicate (body.lines.length + 1) [] ++ remaining (earlier ++ [opening]) rest)

end Outline

/-! ### Cutting the lines of a document -/

namespace Template

variable (resolve : String → CompileM Template)

/-- Empty lines stay, and lines are counted on behind them. -/
theorem cutLines_replicate (count number : Nat) (rest : List Line) (template : Template) :
    cutLines resolve number (List.replicate count [] ++ rest) template = (do
      let (left, changed) ← cutLines resolve (number + count) rest template
      return (List.replicate count [] ++ left, changed)) := by
  induction count generalizing number with
  | zero => simp
  | succ count ih =>
    rw [List.replicate_succ, List.cons_append, cutLines_plain _ _ _ _ rfl rfl rfl]
    have hpaths : includePaths [] = [] := rfl
    rw [hpaths, addIncludes, pure_bind, ih]
    simp [Nat.add_assoc, Nat.add_comm 1]

/-- An empty line makes no difference to a document without any other line. -/
theorem compileLines_emptyLine (name : String) :
    compileLines resolve name [[]] = compileLines resolve name [] := by
  have hcut := cutLines_replicate resolve 1 1 [] (.empty name)
  rw [cutLines_nil, pure_bind] at hcut
  rw [compileLines, compileLines, cutLines_nil, pure_bind]
  change (cutLines resolve 1 (List.replicate 1 [] ++ []) (.empty name) >>= _) = _
  have hread : (empty name).complete (List.replicate 1 [] ++ []) = (empty name).complete [] := by
    rw [complete, complete, readLines_replicate]
    rfl
  rw [hcut]
  exact congrArg CompileM.lift hread

/-- A plain line is left as it is. -/
theorem cutLines_plainLine {line : Line} (hline : PlainLine line) (number : Nat) (rest : List Line)
    (template : Template) :
    cutLines resolve number (line :: rest) template = (do
      let (left, changed) ← cutLines resolve (number + 1) rest template
      return (line :: left, changed)) := by
  rw [cutLines_plain _ _ _ _ hline.no_comment hline.no_list hline.no_condition, hline.no_include,
    addIncludes, pure_bind]

/-- A node has as many bodies of each kind and key as there are earlier openings of them. -/
def Counts (template : Template) (earlier : List Opening) : Prop :=
  ∀ kind key, (template.bodies kind).count key =
    earlier.countP fun other => other.placeholderKind = kind ∧ other.key = key

/-- An empty node has no bodies, and there are no earlier openings. -/
theorem counts_empty (name : String) : (empty name).Counts [] := by
  intro kind key
  cases kind <;> rfl

/-- A body that is added is counted as that of one more opening. -/
theorem Counts.addBody {template : Template} {earlier : List Opening} (h : template.Counts earlier)
    {opening : Opening} (hopening : opening.WellFormed) (body : Template) :
    (opening.addBody template body).Counts (earlier ++ [opening]) := by
  intro kind key
  rw [(Opening.gainsBody_addBody hopening template body).count, h, List.countP_append,
    List.countP_singleton]
  have hsymm : (kind = opening.placeholderKind ∧ key = opening.key) ↔
      (opening.placeholderKind = kind ∧ opening.key = key) := by
    constructor
    · rintro ⟨rfl, rfl⟩
      exact ⟨rfl, rfl⟩
    · rintro ⟨rfl, rfl⟩
      exact ⟨rfl, rfl⟩
  simp only [hsymm, decide_eq_true_eq]

/-- A block leaves its placeholder and empty lines behind, and its body is compiled. -/
theorem cutLines_block {opening : Opening} (hopening : opening.WellFormed) {body : Outline}
    (hbody : body.WellFormed) {template : Template} {earlier : List Opening}
    (hcounts : template.Counts earlier) (number : Nat) (rest : List Line) :
    cutLines resolve number (opening.line :: (body.lines ++ opening.closing :: rest)) template = (do
      let child ← compileLines resolve
        (bodyName template.name (opening.placeholder earlier)) body.lines
      let (left, changed) ← cutLines resolve (number + 1 + (body.lines.length + 1)) rest
        (opening.addBody template child)
      return ((opening.placeholder earlier).text ::
        (List.replicate (body.lines.length + 1) [] ++ left), changed)) := by
  have hcut := Outline.cutBlock_line hopening hbody rest
  have hcompile : ∀ name, compileLines resolve name
      (if body.lines = [] then [[]] else body.lines) = compileLines resolve name body.lines := by
    intro name
    split
    · next hnil => rw [hnil, compileLines_emptyLine]
    · rfl
  have hplaceholder : opening.placeholder earlier = ⟨opening.placeholderKind, opening.key,
      (template.bodies opening.placeholderKind).count opening.key⟩ := by
    rw [hcounts, Opening.placeholder]
  have hcomment : opens .comment opening.line = false := by
    rw [Opening.opens_line hopening]
    cases opening <;> rfl
  rw [hplaceholder]
  cases opening with
  | repetition name =>
    rw [cutLines_repetition _ _ _ _ hcomment (Opening.listName?_line hopening)]
    simp only [Opening.kind] at hcut
    dsimp only
    rw [hcut]
    simp only [hcompile, cutLines_replicate, bind_assoc, pure_bind]
    rfl
  | conditional source =>
    obtain ⟨condition, hcondition⟩ := hopening.compiles source rfl
    rw [cutLines_conditional _ _ _ _ hcomment (Opening.listName?_line_conditional hopening)
      (Opening.condition?_line hopening), hcondition]
    simp only [Opening.kind] at hcut
    dsimp only
    rw [hcut]
    simp only [hcompile, cutLines_replicate, bind_assoc, pure_bind, Except.mapError, CompileM.lift,
      Expression.id_of_compile hcondition, Opening.addBody_conditional hcondition]
    rfl

/-- Compiles the bodies of the blocks of a document into a node, one after another. -/
def compileBodies (resolve : String → CompileM Template) :
    (earlier : List Opening) → Outline → Template → CompileM Template
  | _, .done, template => return template
  | earlier, .line _ rest, template => compileBodies resolve earlier rest template
  | earlier, .block opening body rest, template => do
    let child ← compileLines resolve
      (bodyName template.name (opening.placeholder earlier)) body.lines
    compileBodies resolve (earlier ++ [opening]) rest (opening.addBody template child)

/-- Cutting the blocks out of a document compiles their bodies in order and leaves placeholders in
their places. -/
theorem cutLines_lines {outline : Outline} (h : outline.WellFormed) {template : Template}
    {earlier : List Opening} (hcounts : template.Counts earlier) (number : Nat) :
    cutLines resolve number outline.lines template = (do
      let changed ← compileBodies resolve earlier outline template
      return (outline.remaining earlier, changed)) := by
  induction h generalizing template earlier number with
  | done =>
    rw [Outline.lines, cutLines_nil, compileBodies, pure_bind]
    rfl
  | @line text rest htext hrest ih =>
    rw [Outline.lines, cutLines_plainLine resolve htext, ih hcounts]
    simp only [bind_assoc, pure_bind]
    rfl
  | @block opening body rest hopening hbody hrest ihBody ihRest =>
    rw [Outline.lines, cutLines_block resolve hopening hbody hcounts]
    simp only [ihRest (hcounts.addBody hopening _), bind_assoc, pure_bind, compileBodies]
    rfl

/-- What compiling the bodies of a document makes of a node: every block has its body at its
placeholder, and nothing else has changed. -/
structure Filled (earlier : List Opening) (outline : Outline)
    (template changed : Template) : Prop where
  includes : changed.includes = template.includes
  ownWarnings : changed.ownWarnings = template.ownWarnings
  kept : ∀ placeholder child, template.body? placeholder = some child →
    changed.body? placeholder = some child
  placed : ∀ entry ∈ outline.placed earlier, ∃ child, changed.body? entry.1 = some child ∧
    compileLines resolve (bodyName template.name entry.1) entry.2.lines = pure child
  children : ∀ child ∈ changed.children, child ∈ template.children ∨ child.warnings = []

/-- The bodies of a document can be compiled one after another, and each of them goes to its
placeholder. Bodies that are added later leave those in front where they are. -/
theorem exists_compileBodies {outline : Outline} (h : outline.WellFormed) {template : Template}
    {earlier : List Opening} (hcounts : template.Counts earlier)
    (hbodies : ∀ entry ∈ outline.placed earlier, ∃ child,
      compileLines resolve (bodyName template.name entry.1) entry.2.lines = pure child ∧
        child.warnings = []) :
    ∃ changed, compileBodies resolve earlier outline template = pure changed ∧
      template.Filled resolve earlier outline changed := by
  induction h generalizing template earlier with
  | done =>
    refine ⟨template, rfl, rfl, rfl, fun _ _ hchild => hchild, ?_, fun _ hchild => .inl hchild⟩
    intro entry hentry
    cases hentry
  | @line text rest htext hrest ih =>
    obtain ⟨changed, hcompile, hfilled⟩ := ih hcounts hbodies
    exact ⟨changed, hcompile, { hfilled with placed := hfilled.placed }⟩
  | @block opening body rest hopening hbody hrest ihBody ihRest =>
    obtain ⟨child, hchild, hwarnings⟩ := hbodies _ List.mem_cons_self
    have hgains := Opening.gainsBody_addBody hopening template child
    have hrestBodies : ∀ entry ∈ rest.placed (earlier ++ [opening]), ∃ other,
        compileLines resolve (bodyName (opening.addBody template child).name entry.1)
          entry.2.lines = pure other ∧ other.warnings = [] := by
      intro entry hentry
      rw [hgains.name]
      exact hbodies entry (List.mem_cons_of_mem _ hentry)
    obtain ⟨changed, hcompile, hfilled⟩ := ihRest (hcounts.addBody hopening child) hrestBodies
    refine ⟨changed, ?_, hfilled.includes.trans hgains.includes,
      hfilled.ownWarnings.trans hgains.ownWarnings, ?_, ?_, ?_⟩
    · rw [compileBodies, hchild, pure_bind, hcompile]
    · exact fun placeholder other hother => hfilled.kept _ _ (hgains.body?_of_some hother)
    · intro entry hentry
      rcases List.mem_cons.1 hentry with rfl | hentry
      · have hself := hgains.body?_self
        rw [hcounts] at hself
        exact ⟨child, hfilled.kept _ _ hself, hchild⟩
      · obtain ⟨other, hother, hsame⟩ := hfilled.placed entry hentry
        rw [hgains.name] at hsame
        exact ⟨other, hother, hsame⟩
    · intro other hother
      rcases hfilled.children other hother with hold | hquiet
      · rcases hgains.mem_children hold with hold | rfl
        · exact .inl hold
        · exact .inr hwarnings
      · exact .inr hquiet

/-! ### Reading what is left -/

/-- A node that keeps its blocks has the same body at every placeholder. -/
theorem KeepsBlocks.body? {template changed : Template} (h : template.KeepsBlocks changed)
    (placeholder : Placeholder) : changed.body? placeholder = template.body? placeholder := by
  rw [Template.body?, Template.body?]
  cases placeholder.kind with
  | conditional => rw [bodies, bodies, h.conditionals]
  | repetition => rw [bodies, bodies, h.repetitions]

/-- Reading what is left of a document finds the placeholders of its blocks in their order. -/
theorem readLines_remaining {outline : Outline} (h : outline.WellFormed) {template : Template}
    {earlier : List Opening} (hincludes : template.includes = [])
    (hplaced : ∀ entry ∈ outline.placed earlier,
      entry.1.Readable ∧ template.hasBody entry.1 = true) (number : Nat) :
    ∃ pieces changed,
      readLines number (outline.remaining earlier) template = .ok (pieces, changed) ∧
        template.KeepsBlocks changed ∧
        pieces.filterMap Piece.placeholder? = (outline.placed earlier).map Prod.fst := by
  induction h generalizing template earlier number with
  | done => exact ⟨[], template, rfl, .refl template, rfl⟩
  | @line text rest htext hrest ih =>
    obtain ⟨pieces, between, hread, hkeeps, hnone⟩ :=
      readLine_plain htext.toPlainText number hincludes
    have hplacedRest : ∀ entry ∈ rest.placed earlier,
        entry.1.Readable ∧ between.hasBody entry.1 = true := by
      intro entry hentry
      rw [hkeeps.hasBody]
      exact hplaced entry hentry
    obtain ⟨more, changed, hmore, hkeepsMore, hblocks⟩ :=
      ih (hkeeps.includes.trans hincludes) hplacedRest (number + 1)
    refine ⟨pieces ++ more, changed, readLines_cons hread hmore, hkeeps.trans hkeepsMore, ?_⟩
    rw [List.filterMap_append, hnone, hblocks]
    rfl
  | @block opening body rest hopening hbody hrest ihBody ihRest =>
    obtain ⟨hreadable, hhas⟩ := hplaced _ List.mem_cons_self
    have hread := readLine_text hreadable hhas number
    obtain ⟨more, changed, hmore, hkeeps, hblocks⟩ := ihRest hincludes
      (fun entry hentry => hplaced entry (List.mem_cons_of_mem _ hentry))
      (number + 1 + (body.lines.length + 1))
    rw [← readLines_replicate] at hmore
    refine ⟨_, changed, readLines_cons hread hmore, hkeeps, ?_⟩
    rw [List.filterMap_append, hblocks]
    rfl

/-- Where the bodies of its blocks compile, a document compiles without a warning. Its blocks are
found in their order, and each one has the body that is compiled from its lines. -/
theorem exists_compileLines {outline : Outline} (h : outline.WellFormed) {name : String}
    (hreadable : ∀ entry ∈ outline.placed [], entry.1.Readable)
    (hbodies : ∀ entry ∈ outline.placed [], ∃ child,
      compileLines resolve (bodyName name entry.1) entry.2.lines = pure child ∧
        child.warnings = []) :
    ∃ template, compileLines resolve name outline.lines = pure template ∧
      template.warnings = [] ∧
      template.segments.filterMap Segment.placeholder? = (outline.placed []).map Prod.fst ∧
      ∀ entry ∈ outline.placed [], ∃ child, template.body? entry.1 = some child ∧
        compileLines resolve (bodyName name entry.1) entry.2.lines = pure child := by
  obtain ⟨filled, hcompile, hfilled⟩ := exists_compileBodies resolve h (counts_empty name) hbodies
  have hplaced : ∀ entry ∈ outline.placed [],
      entry.1.Readable ∧ filled.hasBody entry.1 = true := by
    intro entry hentry
    obtain ⟨child, hchild, -⟩ := hfilled.placed entry hentry
    rw [hasBody_eq_isSome_body?, hchild]
    exact ⟨hreadable entry hentry, rfl⟩
  obtain ⟨pieces, read, hread, hkeeps, hblocks⟩ :=
    readLines_remaining h hfilled.includes hplaced 1
  have hall : filled.KeepsBlocks (bindNames { read with segments := Piece.segments pieces }) :=
    hkeeps.trans ⟨rfl, rfl, rfl, rfl⟩
  refine ⟨bindNames { read with segments := Piece.segments pieces }, ?_, ?_, ?_, ?_⟩
  · rw [compileLines, cutLines_lines _ h (counts_empty name), hcompile, pure_bind, pure_bind]
    dsimp only
    rw [complete, hread]
    rfl
  · have hquiet : ∀ child ∈ filled.children, child.warnings = [] := by
      intro child hchild
      rcases hfilled.children child hchild with hnone | hwarnings
      · cases hnone
      · exact hwarnings
    rw [warnings_eq, hall.ownWarnings, hall.children, hfilled.ownWarnings,
      List.flatMap_eq_nil_iff.2 hquiet]
    rfl
  · change (Piece.segments pieces).filterMap Segment.placeholder? = _
    rw [Piece.filterMap_segments, hblocks]
  · intro entry hentry
    rw [hall.body?]
    exact hfilled.placed entry hentry

end Template

end BraceTemplate
