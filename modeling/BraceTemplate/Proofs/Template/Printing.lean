import BraceTemplate.Proofs.Expr.Identity
import BraceTemplate.Proofs.Template.Backslashes
import BraceTemplate.Proofs.Template.Tracing

/-!
# Segments printed again

Reading a line into segments neither drops a character nor makes one up. Printed in order, text as
it is and everything else as its marker, the segments are the line in which no backslash escapes a
brace any more; only blanks inside of expressions and behind the word of an include marker are not
kept. This leaves aside closing markers, of which a warning is all that is left, and what looks like
a placeholder.
-/

namespace BraceTemplate

open Token (withoutBlanks withoutBlanks_append withoutBlanks_eq_nil_iff)

/-- The text that a segment is printed as: a text as it is, everything else as its marker. -/
def Segment.printed : Segment → List Char
  | .text chars => chars.toList
  | found => found.written

/-- A name is printed between braces. -/
theorem Segment.printed_binding (name : String) :
    (binding name).printed = '\x7b' :: (name.toList ++ ['\x7d']) := rfl

/-- An expression is printed between braces by its id. -/
theorem Segment.printed_expression (id : String) :
    (expression id).printed = '\x7b' :: (id.toList ++ ['\x7d']) := rfl

namespace Piece

/-- The text that a piece is printed as. -/
def printed : Piece → List Char
  | char c => [c]
  | segment found => found.printed

/-- Text that is gathered in front of segments is printed in front of them. -/
theorem flatMap_printed_flush (gathered : List Char × List Segment) :
    (flush gathered).flatMap Segment.printed =
      gathered.1 ++ gathered.2.flatMap Segment.printed := by
  obtain ⟨text, segments⟩ := gathered
  cases text with
  | nil => rfl
  | cons c cs => rw [flush, List.flatMap_cons, Segment.printed, String.toList_ofList]; simp

/-- To gather characters into texts does not change what pieces are printed as. -/
theorem flatMap_printed_gather (pieces : List Piece) :
    (gather pieces).1 ++ (gather pieces).2.flatMap Segment.printed = pieces.flatMap printed := by
  induction pieces with
  | nil => rfl
  | cons piece pieces ih =>
    cases piece with
    | char c => simp [gather, printed, ← ih]
    | segment found =>
      rw [gather, List.nil_append, List.flatMap_cons, flatMap_printed_flush, ih]; rfl

/-- Putting characters together to text segments changes nothing in what is printed. -/
theorem flatMap_printed_segments (pieces : List Piece) :
    (segments pieces).flatMap Segment.printed = pieces.flatMap printed := by
  rw [segments, flatMap_printed_flush, flatMap_printed_gather]

/-- Characters are printed as they are. -/
theorem flatMap_printed_chars (text : List Char) : (text.map char).flatMap printed = text := by
  rw [List.flatMap_map]
  exact List.flatMap_singleton' text

/-- Finished segments stay as they are, whatever pieces follow them. -/
theorem segments_map_segment_append (finished : List Segment) (pieces : List Piece) :
    segments (finished.map segment ++ pieces) = finished ++ segments pieces := by
  induction finished with
  | nil => rfl
  | cons found finished ih => rw [List.cons_append, ← ih]; rfl

end Piece

/-! ### Escapes -/

/-- A backslash escapes the brace behind it, and every other character stands for itself. -/
theorem unescape_cons {c : Char} {cs : List Char}
    (h : c = '\\' → ∀ brace ∈ cs.head?, brace ≠ '\x7b' ∧ brace ≠ '\x7d') :
    unescape (c :: cs) = c :: unescape cs := by
  rw [unescape]
  · rintro rest rfl rfl
    exact (h rfl _ rfl).1 rfl
  · rintro rest rfl rfl
    exact (h rfl _ rfl).2 rfl

/-- In front of the first backslash nothing is taken away. -/
theorem unescape_append {cs : List Char} (h : '\\' ∉ cs) (rest : List Char) :
    unescape (cs ++ rest) = cs ++ unescape rest := by
  induction cs with
  | nil => rfl
  | cons c cs ih =>
    rw [List.mem_cons, not_or] at h
    rw [List.cons_append, unescape_cons fun heq => absurd heq.symm h.1, ih h.2]
    rfl

/-! ### Reading -/

namespace Template

/-- A line without closing markers and without what looks like a placeholder. -/
structure Keepable (line : Line) : Prop where
  no_closing : closes .conditional line = false ∧ closes .repetition line = false
  no_placeholder : Unmarked line

instance (line : Line) : Decidable (Keepable line) :=
  decidable_of_iff
    ((closes .conditional line = false ∧ closes .repetition line = false) ∧ Unmarked line)
    ⟨fun h => ⟨h.1, h.2⟩, fun h => ⟨h.no_closing, h.no_placeholder⟩⟩

/-- A part of a line that can be kept can be kept. -/
theorem Keepable.of_part {line part : Line} (h : Keepable line) (hpart : part <:+: line) :
    Keepable part where
  no_closing :=
    ⟨occursIn_eq_false_of_part h.no_closing.1 hpart, occursIn_eq_false_of_part h.no_closing.2 hpart⟩
  no_placeholder := h.no_placeholder.of_part hpart

/-- No backslash stands in the content of braces, and a segment is printed as a pair of braces with
this content, apart from blanks. -/
structure Reprints (content : List Char) (found : Segment) : Prop where
  no_backslash : '\\' ∉ content
  printed :
    ∃ inner, found.printed = '\x7b' :: (inner ++ ['\x7d']) ∧
      withoutBlanks inner = withoutBlanks content

section Braces

variable {template : Template} {content rest : List Char}

/-- An inclusion is printed with a single blank in front of its path, whichever blank it was written
with. -/
theorem reprints_inclusion {blank : Char} {path : String} (hblank : isBlank blank = true)
    (hpath : isPath path.toList = true) :
    Reprints ("include".toList ++ blank :: path.toList) (.inclusion path) := by
  rw [isPath, Bool.and_eq_true, List.all_eq_true] at hpath
  refine ⟨?_, "include".toList ++ ' ' :: path.toList, rfl, ?_⟩
  · rw [List.mem_append, List.mem_cons]
    rintro (hword | rfl | hmem)
    · exact absurd hword (by decide)
    · exact absurd hblank (by decide)
    · exact absurd (hpath.2 _ hmem) (by decide)
  · rw [withoutBlanks_append, withoutBlanks_append, withoutBlanks, withoutBlanks, withoutBlanks,
      List.filter_cons_of_neg (by decide), List.filter_cons_of_neg (by rw [hblank]; decide)]

/-- What is read from braces on a line that can be kept is printed again, apart from blanks. -/
theorem reprints_of_meaning_segment {found : Segment}
    (h : template.meaning content = .segment found)
    (hline : Keepable ('\x7b' :: (content ++ '\x7d' :: rest))) : Reprints content found := by
  have hmeans := means_meaning template content
  rw [h] at hmeans
  cases hmeans with
  | block hcontent =>
    rw [hline.no_placeholder.ofContent?_eq_none] at hcontent
    cases hcontent
  | inclusion hcontent hblank hpath =>
    rw [hcontent]
    exact reprints_inclusion hblank hpath
  | binding hname =>
    rw [isName, Bool.and_eq_true, List.all_eq_true] at hname
    refine ⟨fun hmem => absurd (hname.2 _ hmem) (by decide), content, ?_, rfl⟩
    rw [Segment.printed_binding, String.toList_ofList]

/-- An expression is printed again without the blanks in its source. -/
theorem reprints_of_meaning_expression {source : String}
    (h : template.meaning content = .expression source) :
    Reprints content (.expression (Expression.idOf source)) := by
  have hmeans := means_meaning template content
  rw [h] at hmeans
  cases hmeans with
  | expression hsource =>
    rw [isExpressionSource, Bool.and_eq_true, List.all_eq_true] at hsource
    refine ⟨fun hmem => absurd (hsource.2 _ hmem) (by decide), withoutBlanks content, ?_, ?_⟩
    · rw [Segment.printed_expression, Expression.idOf, String.toList_ofList, String.toList_ofList,
        withoutBlanks]
    · simp only [withoutBlanks, List.filter_filter, Bool.and_self]

/-- A line on which a closing marker is met without its block cannot be kept. -/
theorem not_keepable_of_meaning_stray {kind : BlockKind}
    (h : template.meaning content = .stray kind) :
    ¬Keepable ('\x7b' :: (content ++ '\x7d' :: rest)) := by
  rintro ⟨hclosing, -⟩
  obtain ⟨hkind, hcontent⟩ := closing_of_meaning h
  have hmarker :
      '\x7b' :: '/' :: kind.word.toList ++ ['\x7d'] <:+: '\x7b' :: (content ++ '\x7d' :: rest) :=
    ⟨[], rest, by simp [hcontent]⟩
  have hcloses := occursIn_iff.2 hmarker
  cases kind with
  | conditional => exact Bool.false_ne_true (hclosing.1.symm.trans hcloses)
  | repetition => exact Bool.false_ne_true (hclosing.2.symm.trans hcloses)
  | comment => exact hkind rfl

/-- A segment in the place of its marker is printed as the marker is without its blanks. -/
theorem Reprints.printed_append {found : Segment} (h : Reprints content found) (rest : List Char) :
    withoutBlanks (found.printed ++ unescape rest) =
      withoutBlanks (unescape ('\x7b' :: (content ++ '\x7d' :: rest))) := by
  obtain ⟨inner, hprinted, hinner⟩ := h.printed
  have hmarker : '\\' ∉ '\x7b' :: (content ++ ['\x7d']) := by
    simp [h.no_backslash]
  have hunescape := unescape_append hmarker rest
  rw [List.cons_append, List.append_assoc, List.singleton_append] at hunescape
  rw [hunescape, hprinted, ← List.singleton_append, ← List.singleton_append (l := content ++ _)]
  simp only [withoutBlanks_append, hinner]

end Braces

/-- One step prints what it takes up. What it leaves is a part of the text. -/
theorem ReadStep.printed {number : Nat} {cs rest : List Char} {template changed : Template}
    {first : List Piece} (h : ReadStep number cs template first rest changed)
    (hline : Keepable cs) :
    rest <:+ cs ∧
      withoutBlanks (first.flatMap Piece.printed ++ unescape rest) =
        withoutBlanks (unescape cs) := by
  cases h with
  | escape hbrace =>
    refine ⟨⟨['\\', _], rfl⟩, ?_⟩
    obtain rfl | rfl := hbrace <;> rfl
  | char hescape => exact ⟨List.suffix_cons _ _, by rw [unescape_cons hescape]; rfl⟩
  | stray hbraces hmeaning => exact absurd hline (not_keepable_of_meaning_stray hmeaning)
  | @segment content _ _ found hbraces hmeaning =>
    refine ⟨⟨'\x7b' :: (content ++ ['\x7d']), by simp⟩, ?_⟩
    rw [List.flatMap_singleton]
    exact (reprints_of_meaning_segment hmeaning hline).printed_append _
  | @expression content _ _ _ source hbraces hmeaning =>
    refine ⟨⟨'\x7b' :: (content ++ ['\x7d']), by simp⟩, ?_⟩
    rw [List.flatMap_singleton]
    exact (reprints_of_meaning_expression hmeaning).printed_append _

/-- A whole line is printed as what its backslashes leave of it. -/
theorem Reading.printed {number : Nat} {cs : List Char} {template changed : Template}
    {pieces : List Piece} (h : Reading number cs template pieces changed) (hline : Keepable cs) :
    withoutBlanks (pieces.flatMap Piece.printed) = withoutBlanks (unescape cs) := by
  induction h with
  | done => rfl
  | step hstep hrest ih =>
    -- what the step leaves is a part of the text, so it is keepable as well
    obtain ⟨hsuffix, hprinted⟩ := hstep.printed hline
    rw [← hprinted, List.flatMap_append, withoutBlanks_append, withoutBlanks_append,
      ih (hline.of_part hsuffix.isInfix)]

/-- Reading a line without closing markers and placeholders loses nothing and makes up nothing.
Whatever segments are finished and whatever text is pending in front of it, the segments stay as
they are, and the text with all that the line adds to it is printed, apart from blanks, as the text
and the line without the backslashes in front of its braces. -/
theorem printed_readLine {number : Nat} {line : Line} {template changed : Template}
    {pieces : List Piece}
    (hline : Keepable line) (h : readLine number line template = .ok (pieces, changed))
    (finished : List Segment) (pending : List Char) :
    ∃ added, Piece.segments (finished.map .segment ++ (pending.map .char ++ pieces)) =
      finished ++ added ∧
      withoutBlanks (added.flatMap Segment.printed) = withoutBlanks (pending ++ unescape line) := by
  refine ⟨Piece.segments (pending.map .char ++ pieces), Piece.segments_map_segment_append _ _, ?_⟩
  rw [Piece.flatMap_printed_segments, List.flatMap_append, Piece.flatMap_printed_chars,
    withoutBlanks_append, withoutBlanks_append, (reading_of_readLine h).printed hline]

/-- Nested braces, one of them without meaning, backslashes with and without a brace behind them, an
expression with blanks and a document of the node, behind a finished segment and a pending text. -/
theorem printed_readLine_braces :
    let line :=
      "\\\x7ba\\\x7d\\ \x7b\x7bx\x7d \x7b?\x7d\x7b a + 1\x7d\x7binclude\tb.txt\x7d\x7d\x7b\n".toList
    let template := { empty "page" with includes := [("b.txt", empty "b.txt")] }
    Keepable line ∧ ∃ pieces changed, readLine 1 line template = .ok (pieces, changed) ∧
      ∃ added, Piece.segments ([.segment (.binding "y")] ++ (['c', ' '].map .char ++ pieces)) =
          [.binding "y"] ++ added ∧
        added.length = 6 ∧
        withoutBlanks (added.flatMap Segment.printed) =
          "c\x7ba\x7d\\\x7b\x7bx\x7d\x7b?\x7d\x7ba+1\x7d\x7bincludeb.txt\x7d\x7d\x7b".toList := by
  intro line template
  have hline : Keepable line := by decide +kernel
  have hcount : (readLine 1 line template).toOption.map (fun read => (Piece.segments
      (['c', ' '].map .char ++ read.1)).length) = some 6 := by decide +kernel
  cases h : readLine 1 line template with
  | error error =>
    rw [h] at hcount
    cases hcount
  | ok read =>
    obtain ⟨pieces, changed⟩ := read
    rw [h] at hcount
    obtain ⟨added, hadded, hprinted⟩ := printed_readLine hline h [.binding "y"] ['c', ' ']
    rw [Piece.segments_map_segment_append] at hadded
    obtain rfl := List.append_cancel_left hadded
    exact ⟨hline, pieces, changed, rfl, _, hadded, Option.some.inj hcount,
      hprinted.trans (by decide +kernel)⟩

/-- Lines that are read into a node one after another are printed as they are, too. -/
theorem printed_readLines {lines : List Line} (hlines : ∀ line ∈ lines, Keepable line)
    {number : Nat} {template changed : Template} {pieces : List Piece}
    (h : readLines number lines template = .ok (pieces, changed)) :
    withoutBlanks (pieces.flatMap Piece.printed) = withoutBlanks (lines.flatMap unescape) := by
  induction lines generalizing number template pieces with
  | nil =>
    cases h
    rfl
  | cons line lines ih =>
    rw [List.forall_mem_cons] at hlines
    obtain ⟨first, between, more, hline, hmore, rfl⟩ := exists_of_readLines_cons h
    rw [List.flatMap_append, List.flatMap_cons, withoutBlanks_append, withoutBlanks_append,
      ih hlines.2 hmore, (reading_of_readLine hline).printed hlines.1]

/-- The segments of a complete node are printed as the lines that it has been completed by. -/
theorem printed_complete {lines : List Line} (hlines : ∀ line ∈ lines, Keepable line)
    {template changed : Template} (h : template.complete lines = .ok changed) :
    withoutBlanks (changed.segments.flatMap Segment.printed) =
      withoutBlanks (lines.flatMap unescape) := by
  obtain ⟨pieces, between, hread, rfl⟩ := exists_of_complete h
  exact (congrArg withoutBlanks (Piece.flatMap_printed_segments pieces)).trans
    (printed_readLines hlines hread)

end Template

end BraceTemplate
