import BraceTemplate.Proofs.Template.Naming
import BraceTemplate.Proofs.Template.Placing

/-!
# The blocks of a document are recovered

Whatever blocks a document nests, compiling its lines gives a template of the same structure without
a warning. The blocks of a node are those of the document in their order, and the body of each one
is what its lines are compiled to when they are a document of their own, and so on at every depth.
-/

namespace BraceTemplate

open Template

namespace Outline

/-- A template has the structure of a document: its blocks are those of the document, numbered by
kind and key, and the body of each block is compiled from the lines of that block, up to the names
of nodes, and has the structure of the block in turn. -/
inductive Recovered (compiler : Compiler) : Outline → Template → Prop
  | node {outline : Outline} {template : Template}
      (placeholders : template.segments.filterMap Segment.placeholder? =
        (outline.placed []).map Prod.fst)
      (bodies : ∀ entry ∈ outline.placed [], ∃ child, template.body? entry.1 = some child ∧
        ∀ name, ∃ document, compiler.compile name entry.2.lines = (.ok document, compiler) ∧
          child.unnamed = document.unnamed)
      (below : ∀ entry ∈ outline.placed [], ∀ child, template.body? entry.1 = some child →
        Recovered compiler entry.2 child) :
      Recovered compiler outline template

/-- A block that is not nested has a placeholder that can be read back, and its body is a smaller
document. -/
theorem of_mem_placed {outline : Outline} (h : outline.WellFormed) {earlier : List Opening}
    (hlength : earlier.length + outline.lines.length ≤ 2 ^ 64) {entry : Placeholder × Outline}
    (hentry : entry ∈ outline.placed earlier) :
    entry.1.Readable ∧ entry.2.WellFormed ∧ entry.2.lines.length < outline.lines.length := by
  induction h generalizing earlier with
  | done => cases hentry
  | @line text rest htext hrest ih =>
    rw [lines, List.length_cons] at hlength ⊢
    obtain ⟨hreadable, hbody, hlt⟩ := ih (by omega) hentry
    exact ⟨hreadable, hbody, by omega⟩
  | @block opening body rest hopening hbody hrest ihBody ihRest =>
    have hlines : (block opening body rest).lines.length =
        body.lines.length + rest.lines.length + 2 := by
      simp only [lines, List.length_cons, List.length_append]
      omega
    rw [hlines] at hlength ⊢
    rcases List.mem_cons.1 hentry with rfl | hentry
    · exact ⟨Opening.readable_placeholder hopening (by omega), hbody, by dsimp only; omega⟩
    · have hrestLength : (earlier ++ [opening]).length + rest.lines.length ≤ 2 ^ 64 := by
        rw [List.length_append, List.length_singleton]
        omega
      obtain ⟨hreadable, hinner, hlt⟩ := ihRest hrestLength hentry
      exact ⟨hreadable, hinner, by omega⟩

/-- A compilation of lines that does nothing but give a template gives it whatever is open. -/
theorem compile_of_pure {compiler : Compiler} {name : String} {lines : List Line}
    {template : Template}
    (h : Template.compileLines compiler.resolve name lines = pure template) :
    compiler.compile name lines = (.ok template, compiler) := by
  rw [Compiler.compile, h]
  rfl

/-- The induction is on the nesting: the body of a block has fewer lines than the document. -/
theorem exists_recovered (compiler : Compiler) (name : String) {outline : Outline}
    (h : outline.WellFormed) (hlength : outline.lines.length < 2 ^ 64) :
    ∃ template, Template.compileLines compiler.resolve name outline.lines = pure template ∧
      template.warnings = [] ∧ outline.Recovered compiler template := by
  have hmem : ∀ entry ∈ outline.placed [],
      entry.1.Readable ∧ entry.2.WellFormed ∧ entry.2.lines.length < outline.lines.length := by
    intro entry hentry
    exact of_mem_placed h (by simpa using Nat.le_of_lt hlength) hentry
  have hbodies : ∀ entry ∈ outline.placed [], ∀ name, ∃ child,
      Template.compileLines compiler.resolve name entry.2.lines = pure child ∧ child.warnings = [] ∧
        entry.2.Recovered compiler child := by
    intro entry hentry name
    obtain ⟨-, hbody, hlt⟩ := hmem entry hentry
    exact exists_recovered compiler name hbody (by omega)
  have hchildren : ∀ entry ∈ outline.placed [], ∃ child,
      Template.compileLines compiler.resolve (bodyName name entry.1) entry.2.lines = pure child ∧
        child.warnings = [] := by
    intro entry hentry
    obtain ⟨child, hchild, hwarnings, -⟩ := hbodies entry hentry (bodyName name entry.1)
    exact ⟨child, hchild, hwarnings⟩
  obtain ⟨template, hcompile, hwarnings, hblocks, hfound⟩ :=
    exists_compileLines compiler.resolve h (fun entry hentry => (hmem entry hentry).1) hchildren
  refine ⟨template, hcompile, hwarnings, .node hblocks ?_ ?_⟩
  · intro entry hentry
    obtain ⟨child, hchild, hsame⟩ := hfound entry hentry
    refine ⟨child, hchild, fun other => ?_⟩
    obtain ⟨document, hdocument, -⟩ := hbodies entry hentry other
    have hnames := compileLines_unnamed compiler.resolve (bodyName name entry.1) other entry.2.lines
    rw [hsame, hdocument, map_pure, map_pure] at hnames
    exact ⟨document, compile_of_pure hdocument, CompileM.pure_inj hnames⟩
  · intro entry hentry child hchild
    obtain ⟨found, hbody, hsame⟩ := hfound entry hentry
    obtain rfl := Option.some.inj (hchild.symm.trans hbody)
    obtain ⟨other, hother, -, hrecovered⟩ := hbodies entry hentry (bodyName name entry.1)
    obtain rfl := CompileM.pure_inj (hsame.symm.trans hother)
    exact hrecovered
termination_by outline.lines.length

/-- Whatever blocks a document of plain lines nests, compiling it succeeds without a warning in any
node, and the template has the structure of the document at every depth. -/
theorem compile_lines (compiler : Compiler) (name : String) {outline : Outline}
    (h : outline.WellFormed) (hlength : outline.lines.length < 2 ^ 64) :
    ∃ template, compiler.compile name outline.lines = (.ok template, compiler) ∧
      template.warnings = [] ∧ outline.Recovered compiler template := by
  obtain ⟨template, hcompile, hwarnings, hrecovered⟩ := exists_recovered compiler name h hlength
  exact ⟨template, compile_of_pure hcompile, hwarnings, hrecovered⟩

/-- A letter with nested blocks, a block without lines, and two conditions that differ in blanks
only. -/
def letter : Outline :=
  let entries := line "\x7bname\x7d: \x7bprice*2\x7d \\\x7b\n".toList
    (block (.conditional "late") (line "!\n".toList done) done)
  line "Dear \x7bname\x7d,\n".toList
    (block (.conditional "total > 1") (block (.repetition "items") entries done)
      (block (.repetition "items") done
        (block (.conditional "total>1") (line "Thanks\n".toList done) done)))

/-- The letter has three blocks, two of them under one condition, and all of them are recovered with
their bodies. -/
theorem compile_lines_letter :
    letter.WellFormed ∧ letter.lines.length < 2 ^ 64 ∧
      (letter.placed []).map Prod.fst =
        [⟨.conditional, "total>1", 0⟩, ⟨.repetition, "items", 0⟩, ⟨.conditional, "total>1", 1⟩] ∧
      ∃ template, Compiler.compile ⟨.none, []⟩ "letter" letter.lines = (.ok template, ⟨.none, []⟩) ∧
        template.warnings = [] ∧ letter.Recovered ⟨.none, []⟩ template := by
  have hletter : letter.WellFormed := by decide +kernel
  have hlength : letter.lines.length < 2 ^ 64 := by decide
  exact ⟨hletter, hlength, by decide +kernel, compile_lines ⟨.none, []⟩ "letter" hletter hlength⟩

end Outline

end BraceTemplate
