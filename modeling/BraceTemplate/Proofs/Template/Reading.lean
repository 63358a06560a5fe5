import Mathlib.Data.Bool.AllAny
import BraceTemplate.Proofs.Template.Placeholders
import BraceTemplate.Template.Piece

/-!
# Reading plain text and placeholders

Text in which nothing looks like a placeholder or a closing marker is read without a warning and
yields no block. The placeholder of a body that the node has is read back from its own text.
-/

namespace BraceTemplate

/-- To occur in a text is to be a part of it. -/
theorem occursIn_iff {needle cs : List Char} : occursIn needle cs = true ↔ needle <:+: cs := by
  induction cs with
  | nil => rw [occursIn, List.isEmpty_iff, List.infix_nil]
  | cons c cs ih =>
    rw [occursIn, Bool.or_eq_true, List.isPrefixOf_iff_prefix, ih, List.infix_cons_iff]

/-- What does not occur in a text is no part of it. -/
theorem occursIn_eq_false_iff {needle cs : List Char} :
    occursIn needle cs = false ↔ ¬ needle <:+: cs := by
  rw [← occursIn_iff, Bool.not_eq_true]

/-- What does not occur in a text occurs in no part of it. -/
theorem occursIn_eq_false_of_part {needle cs part : List Char} (h : occursIn needle cs = false)
    (hpart : part <:+: cs) : occursIn needle part = false := by
  rw [occursIn_eq_false_iff] at h ⊢
  exact fun hoccurs => h (hoccurs.trans hpart)

/-! ### Contents of braces -/

/-- No character of the text is a brace. -/
def BraceFree (cs : List Char) : Prop :=
  ∀ c ∈ cs, c ≠ '\x7b' ∧ c ≠ '\x7d'

/-- Text without braces, up to a closing one, is the content of a pair. -/
theorem content?_append {content : List Char} (h : BraceFree content) (rest : List Char) :
    content? (content ++ '\x7d' :: rest) = some (content, rest) := by
  induction content with
  | nil => simp [content?]
  | cons c content ih =>
    obtain ⟨hopen, hclose⟩ := h c List.mem_cons_self
    rw [List.cons_append, content?, if_neg hclose, if_neg hopen,
      ih fun d hd => h d (List.mem_cons_of_mem _ hd)]
    rfl

/-- The content of a pair of braces has no braces in it. -/
theorem braceFree_of_content? {cs content rest : List Char}
    (h : content? cs = some (content, rest)) : BraceFree content := by
  induction cs generalizing content with
  | nil => simp [content?] at h
  | cons c cs ih =>
    unfold content? at h
    split at h
    · cases h
      simp [BraceFree]
    · next hclose =>
      split at h
      · simp at h
      · next hopen =>
        obtain ⟨⟨inner, left⟩, hinner, heq⟩ := Option.map_eq_some_iff.1 h
        cases heq
        intro d hd
        rcases List.mem_cons.1 hd with rfl | hd
        · exact ⟨hopen, hclose⟩
        · exact ih hinner d hd

/-- The contents of the pairs of braces in a text. A brace behind a backslash is no brace. -/
def contents : List Char → List (List Char)
  | [] => []
  | '\\' :: '\x7b' :: cs => contents cs
  | '\\' :: '\x7d' :: cs => contents cs
  | '\x7b' :: cs => ((content? cs).map Prod.fst).toList ++ contents cs
  | _ :: cs => contents cs

/-- An opening brace contributes the content of its pair, if it has one. -/
theorem contents_open (cs : List Char) :
    contents ('\x7b' :: cs) = ((content? cs).map Prod.fst).toList ++ contents cs := by
  rw [contents]

/-- There are no pairs of braces within the content of a pair. -/
theorem contents_append {content : List Char} (h : BraceFree content) (rest : List Char) :
    contents (content ++ '\x7d' :: rest) = contents rest := by
  induction content with
  | nil => rw [List.nil_append, contents] <;> simp
  | cons c content ih =>
    have ih := ih fun d hd => h d (List.mem_cons_of_mem _ hd)
    obtain ⟨hopen, -⟩ := h c List.mem_cons_self
    cases content with
    | nil =>
      by_cases hescape : c = '\\'
      · subst hescape
        rfl
      · rw [List.cons_append, contents]
        · exact ih
        all_goals simp_all
    | cons d content =>
      obtain ⟨hnext, hnext'⟩ := h d (by simp)
      rw [List.cons_append, contents]
      · exact ih
      all_goals simp_all

/-! ### Placeholders -/

namespace Placeholder

/-- A placeholder whose text can be read back: the key is not empty and free of braces, and the
index is small enough. -/
structure Readable (placeholder : Placeholder) : Prop where
  key_ne_nil : placeholder.key.toList ≠ []
  key_braceFree : BraceFree placeholder.key.toList
  index_lt : placeholder.index < 2 ^ 64

/-- A placeholder that can be read back is read from what it writes between braces. -/
theorem ofContent?_content {placeholder : Placeholder} (h : placeholder.Readable) :
    ofContent? placeholder.content = some placeholder := by
  have hkey : placeholder.key ≠ "" := fun hempty => h.key_ne_nil (by rw [hempty]; rfl)
  exact ofContent?_eq_some_iff.2 ⟨hkey, h.index_lt, _, indexText_digits placeholder.index, rfl⟩

/-- What a placeholder writes has no braces if its key has none. -/
theorem braceFree_content_of_key {placeholder : Placeholder}
    (h : BraceFree placeholder.key.toList) : BraceFree placeholder.content := by
  have htag : ∀ c ∈ placeholder.kind.tag.toList, c ≠ '\x7b' ∧ c ≠ '\x7d' := by
    cases placeholder.kind with
    | conditional => exact List.all_iff_forall_prop.1 (by decide)
    | repetition => exact List.all_iff_forall_prop.1 (by decide)
  intro c hc
  simp only [content, List.mem_append, List.mem_cons, List.mem_map] at hc
  rcases hc with (hc | rfl | hc) | rfl | ⟨digit, -, rfl⟩
  · exact htag c hc
  · decide
  · exact h c hc
  · decide
  · have hdigit := digit.toChar_notMem
    simp only [List.mem_cons, not_or] at hdigit
    exact ⟨hdigit.2.2.1, hdigit.2.2.2.1⟩

/-- What a placeholder that can be read back writes has no braces. -/
theorem braceFree_content {placeholder : Placeholder} (h : placeholder.Readable) :
    BraceFree placeholder.content :=
  braceFree_content_of_key h.key_braceFree

/-- An index that is read fits into a machine word. -/
theorem index_lt_of_ofContent? {cs : List Char} {placeholder : Placeholder}
    (h : ofContent? cs = some placeholder) : placeholder.index < 2 ^ 64 :=
  (ofContent?_eq_some_iff.1 h).2.1

/-- What is read as a placeholder begins with the tag of its kind and a colon. -/
theorem eq_of_ofContent? {cs : List Char} {placeholder : Placeholder}
    (h : ofContent? cs = some placeholder) :
    ∃ more, cs = placeholder.kind.tag.toList ++ ':' :: more := by
  obtain ⟨-, -, numeral, -, rfl⟩ := ofContent?_eq_some_iff.1 h
  exact ⟨_, List.append_assoc ..⟩

end Placeholder

/-! ### Plain text -/

/-- Text without what looks like a placeholder. -/
def Unmarked (cs : List Char) : Prop :=
  occursIn "\x7bif:".toList cs = false ∧ occursIn "\x7bfor:".toList cs = false

instance : DecidablePred Unmarked := fun _ => inferInstanceAs (Decidable (_ ∧ _))

/-- In a part of a text there is no placeholder if there is none in the text. -/
theorem Unmarked.of_part {cs part : List Char} (h : Unmarked cs) (hpart : part <:+: cs) :
    Unmarked part :=
  ⟨occursIn_eq_false_of_part h.1 hpart, occursIn_eq_false_of_part h.2 hpart⟩

/-- The content of braces in text without placeholders is no placeholder. -/
theorem Unmarked.ofContent?_eq_none {content rest : List Char}
    (h : Unmarked ('\x7b' :: (content ++ '\x7d' :: rest))) :
    Placeholder.ofContent? content = none := by
  rw [Option.eq_none_iff_forall_ne_some]
  intro placeholder hfound
  obtain ⟨more, rfl⟩ := Placeholder.eq_of_ofContent? hfound
  have htag : '\x7b' :: placeholder.kind.tag.toList ++ [':'] <+:
      '\x7b' :: (placeholder.kind.tag.toList ++ ':' :: more ++ '\x7d' :: rest) :=
    ⟨more ++ '\x7d' :: rest, by simp⟩
  have hoccurs := occursIn_iff.2 htag.isInfix
  obtain ⟨hconditional, hrepetition⟩ := h
  cases hkind : placeholder.kind with
  | conditional => simp_all [PlaceholderKind.tag]
  | repetition => simp_all [PlaceholderKind.tag]

/-- A node without included documents refers by names and expressions only, apart from
placeholders. -/
theorem Template.meaning_of_includes_nil {template : Template} {content : List Char}
    (hplaceholder : Placeholder.ofContent? content = none) (hconditional : content ≠ "/if".toList)
    (hrepetition : content ≠ "/foreach".toList) (hincludes : template.includes = []) :
    template.meaning content =
      if isName content then .segment (.binding (String.ofList content))
      else if isExpressionSource content then .expression (String.ofList content)
      else .plain := by
  have hincluded : template.includedPath? content = none := by
    unfold Template.includedPath?
    split
    · simp [Template.include?, hincludes, Table.get?]
    · rfl
  unfold Template.meaning
  rw [hplaceholder]
  dsimp only
  rw [if_neg hconditional, if_neg hrepetition, hincluded]

/-- Text without closing markers and without what looks like a placeholder, in which everything that
looks like an expression can be compiled. -/
structure PlainText (cs : List Char) : Prop where
  no_closing : closes .conditional cs = false ∧ closes .repetition cs = false
  no_placeholder : Unmarked cs
  compiles : ∀ content ∈ contents cs, isExpressionSource content = true →
    ∃ expression, Expression.compile (String.ofList content) = .ok expression

/-- Compiling a source decides whether it can be compiled. -/
instance decidableCompiles (source : String) :
    Decidable (∃ expression, Expression.compile source = .ok expression) :=
  match Expression.compile source with
  | .ok expression => isTrue ⟨expression, rfl⟩
  | .error _ => isFalse fun ⟨_, hcompile⟩ => by cases hcompile

namespace PlainText

variable {cs : List Char}

instance : Decidable (PlainText cs) :=
  decidable_of_iff
    ((closes .conditional cs = false ∧ closes .repetition cs = false) ∧
      Unmarked cs ∧
      ∀ content ∈ contents cs, isExpressionSource content = true →
        ∃ expression, Expression.compile (String.ofList content) = .ok expression)
    ⟨fun h => ⟨h.1, h.2.1, h.2.2⟩, fun h => ⟨h.no_closing, h.no_placeholder, h.compiles⟩⟩

/-- The end of a plain text is plain if no content of braces is new in it. -/
theorem of_suffix (h : PlainText cs) {rest : List Char} (hsuffix : rest <:+ cs)
    (hcontents : contents rest ⊆ contents cs) : PlainText rest where
  no_closing :=
    ⟨occursIn_eq_false_of_part h.no_closing.1 hsuffix.isInfix,
      occursIn_eq_false_of_part h.no_closing.2 hsuffix.isInfix⟩
  no_placeholder := h.no_placeholder.of_part hsuffix.isInfix
  compiles content hcontent := h.compiles content (hcontents hcontent)

/-- What stands behind a pair of braces is plain text too. -/
theorem behind {content rest : List Char} (h : PlainText ('\x7b' :: (content ++ '\x7d' :: rest)))
    (hbraces : BraceFree content) : PlainText rest := by
  refine h.of_suffix ⟨'\x7b' :: content ++ ['\x7d'], by simp⟩ ?_
  rw [contents_open, contents_append hbraces]
  exact List.subset_append_right _ _

/-- In plain text an expression between braces can be compiled. -/
theorem compiles_content {content rest : List Char}
    (h : PlainText ('\x7b' :: (content ++ '\x7d' :: rest))) (hbraces : BraceFree content)
    (hsource : isExpressionSource content = true) :
    ∃ expression, Expression.compile (String.ofList content) = .ok expression := by
  refine h.compiles content ?_ hsource
  rw [contents_open, content?_append hbraces]
  exact List.mem_append_left _ (List.mem_singleton_self content)

section Meaning

variable {content rest : List Char} {template : Template}

/-- In plain text nothing between braces is a closing marker. -/
theorem content_ne_closing (h : PlainText ('\x7b' :: (content ++ '\x7d' :: rest))) :
    content ≠ "/if".toList ∧ content ≠ "/foreach".toList := by
  have hclosing : occursIn ('\x7b' :: content ++ ['\x7d']) ('\x7b' :: (content ++ '\x7d' :: rest)) =
      true := by
    refine occursIn_iff.2 (List.IsPrefix.isInfix ⟨rest, by simp⟩)
  have hnone := h.no_closing
  constructor
  · rintro rfl
    simp_all [closes, BlockKind.word]
  · rintro rfl
    simp_all [closes, BlockKind.word]

/-- Whatever the node has, the content of braces in plain text is no placeholder and closes no
block, and a node without included documents has none that it refers to. -/
theorem meaning_eq (h : PlainText ('\x7b' :: (content ++ '\x7d' :: rest)))
    (hincludes : template.includes = []) :
    template.meaning content =
      if isName content then .segment (.binding (String.ofList content))
      else if isExpressionSource content then .expression (String.ofList content)
      else .plain :=
  Template.meaning_of_includes_nil h.no_placeholder.ofContent?_eq_none h.content_ne_closing.1
    h.content_ne_closing.2 hincludes

/-- In plain text nothing is a closing marker without its block. -/
theorem meaning_ne_stray (h : PlainText ('\x7b' :: (content ++ '\x7d' :: rest)))
    (hincludes : template.includes = []) (kind : BlockKind) :
    template.meaning content ≠ .stray kind := by
  rw [h.meaning_eq hincludes]
  split
  · simp
  · split <;> simp

/-- Without documents, a pair of braces in plain text can only refer to a name. -/
theorem eq_binding_of_meaning (h : PlainText ('\x7b' :: (content ++ '\x7d' :: rest)))
    (hincludes : template.includes = []) {segment : Segment}
    (hmeaning : template.meaning content = .segment segment) :
    segment = .binding (String.ofList content) := by
  rw [h.meaning_eq hincludes] at hmeaning
  split at hmeaning
  · exact (Meaning.segment.inj hmeaning).symm
  · split at hmeaning <;> simp at hmeaning

/-- Without documents, an expression in plain text is the content of its braces. -/
theorem eq_source_of_meaning (h : PlainText ('\x7b' :: (content ++ '\x7d' :: rest)))
    (hincludes : template.includes = []) {source : String}
    (hmeaning : template.meaning content = .expression source) :
    isExpressionSource content = true ∧ source = String.ofList content := by
  rw [h.meaning_eq hincludes] at hmeaning
  split at hmeaning
  · simp at hmeaning
  · split at hmeaning
    · next hsource => exact ⟨hsource, (Meaning.expression.inj hmeaning).symm⟩
    · simp at hmeaning

end Meaning

end PlainText

/-! ### Meanings -/

namespace Template

/-- What the content of braces is like for each meaning that it can have in a node. -/
inductive Means (template : Template) (content : List Char) : Meaning → Prop
  | plain : Means template content .plain
  | stray {kind : BlockKind} (hkind : kind ≠ .comment)
      (hclosing : content = '/' :: kind.word.toList) :
    Means template content (.stray kind)
  | block {placeholder : Placeholder} (hcontent : Placeholder.ofContent? content = some placeholder)
      (hbody : template.hasBody placeholder = true) :
      Means template content (.segment (.block placeholder))
  | inclusion {blank : Char} {path : String}
      (hcontent : content = "include".toList ++ blank :: path.toList)
      (hblank : isBlank blank = true) (hpath : isPath path.toList = true)
      (hdocument : (template.include? path).isSome = true) :
    Means template content (.segment (.inclusion path))
  | binding (hname : isName content = true) :
    Means template content (.segment (.binding (String.ofList content)))
  | expression (hsource : isExpressionSource content = true) :
    Means template content (.expression (String.ofList content))

/-- A path is found between braces if the marker stands there and the node has the document. -/
theorem means_inclusion {template : Template} {content : List Char} {path : String}
    (h : template.includedPath? content = some path) :
    template.Means content (.segment (.inclusion path)) := by
  unfold includedPath? at h
  split at h
  · next blank rest hprefix =>
    split at h
    · next hfound =>
      cases h
      simp only [Bool.and_eq_true] at hfound
      obtain ⟨⟨hblank, hpath⟩, hdocument⟩ := hfound
      have hcontent := eq_of_afterPrefix? hprefix
      rw [← String.toList_ofList (l := rest)] at hcontent hpath
      exact .inclusion hcontent hblank hpath hdocument
    · cases h
  · cases h

/-- Every meaning that the content of braces is given is borne out by what the content is like. -/
theorem means_meaning (template : Template) (content : List Char) :
    template.Means content (template.meaning content) := by
  unfold meaning
  split
  · next placeholder hcontent =>
    split
    · next hbody => exact .block hcontent hbody
    · exact .plain
  · split
    · next hclosing => exact .stray (by decide) hclosing
    · split
      · next hclosing => exact .stray (by decide) hclosing
      · split
        · next path hpath => exact means_inclusion hpath
        · split
          · next hname => exact .binding hname
          · split
            · next hsource => exact .expression hsource
            · exact .plain

/-- What closes a block is the marker of a conditional or a repetition. -/
theorem closing_of_meaning {template : Template} {content : List Char} {kind : BlockKind}
    (h : template.meaning content = .stray kind) :
    kind ≠ .comment ∧ content = '/' :: kind.word.toList := by
  have hmeans := means_meaning template content
  rw [h] at hmeans
  cases hmeans with
  | stray hkind hclosing => exact ⟨hkind, hclosing⟩

/-- What the content of braces refers to in a node: a body or a document that the node has, or a
name. -/
inductive RefersTo (template : Template) (content : List Char) : Segment → Prop
  | block {placeholder : Placeholder} (hcontent : Placeholder.ofContent? content = some placeholder)
      (hbody : template.hasBody placeholder = true) : RefersTo template content (.block placeholder)
  | inclusion {path : String} (hpath : (template.include? path).isSome = true) :
    RefersTo template content (.inclusion path)
  | binding : RefersTo template content (.binding (String.ofList content))

/-- A segment that is found between braces is one that the node can show. -/
theorem refersTo_of_meaning {template : Template} {content : List Char} {segment : Segment}
    (h : template.meaning content = .segment segment) : template.RefersTo content segment := by
  have hmeans := means_meaning template content
  rw [h] at hmeans
  cases hmeans with
  | block hcontent hbody => exact .block hcontent hbody
  | inclusion hcontent hblank hpath hdocument => exact .inclusion hdocument
  | binding hname => exact .binding

end Template

/-! ### Reading a line -/

/-- The placeholder of the block that a segment stands for. -/
def Segment.placeholder? : Segment → Option Placeholder
  | block placeholder => some placeholder
  | _ => none

/-- The placeholder of the block that a piece stands for. -/
def Piece.placeholder? : Piece → Option Placeholder
  | char _ => none
  | segment found => found.placeholder?

/-- The segment that a piece is, unless it is a character. -/
def Piece.segment? : Piece → Option Segment
  | char _ => none
  | segment found => some found

/-- Merging characters into texts neither loses nor moves any other segment. -/
theorem Piece.filterMap_segments_of_text {α : Type} {f : Segment → Option α}
    (hf : ∀ text, f (.text text) = none) (pieces : List Piece) :
    (segments pieces).filterMap f = (pieces.filterMap segment?).filterMap f := by
  have hflush : ∀ found : List Char × List Segment,
      (flush found).filterMap f = found.2.filterMap f := by
    rintro ⟨text, segments⟩
    cases text with
    | nil => rfl
    | cons c cs => exact List.filterMap_cons_none (hf _)
  have hgather :
      ∀ pieces, (gather pieces).2.filterMap f = (pieces.filterMap segment?).filterMap f := by
    intro pieces
    induction pieces with
    | nil => rfl
    | cons piece pieces ih =>
      cases piece with
      | char c => exact ih
      | segment found =>
        simp only [gather, segment?, List.filterMap_cons, hflush, ih]
  rw [segments, hflush, hgather]

/-- Merging characters into texts loses no block. -/
theorem Piece.filterMap_segments (pieces : List Piece) :
    (segments pieces).filterMap Segment.placeholder? = pieces.filterMap placeholder? := by
  have hplaceholder :
      ∀ piece : Piece, piece.placeholder? = piece.segment?.bind Segment.placeholder? := by
    rintro (c | found) <;> rfl
  rw [filterMap_segments_of_text fun _ => rfl, List.filterMap_filterMap]
  simp only [← hplaceholder]

namespace Template

/-- A change of a node that leaves its bodies, its documents and its warnings as they are. -/
structure KeepsBlocks (template changed : Template) : Prop where
  conditionals : changed.conditionals = template.conditionals
  repetitions : changed.repetitions = template.repetitions
  includes : changed.includes = template.includes
  ownWarnings : changed.ownWarnings = template.ownWarnings

namespace KeepsBlocks

variable {template changed final : Template}

/-- A node keeps what it has. -/
theorem refl (template : Template) : template.KeepsBlocks template :=
  ⟨rfl, rfl, rfl, rfl⟩

/-- What two changes in a row keep, both together keep. -/
theorem trans (h : template.KeepsBlocks changed) (h' : changed.KeepsBlocks final) :
    template.KeepsBlocks final :=
  ⟨h'.conditionals.trans h.conditionals, h'.repetitions.trans h.repetitions,
    h'.includes.trans h.includes, h'.ownWarnings.trans h.ownWarnings⟩

/-- The nodes below are kept. -/
theorem children (h : template.KeepsBlocks changed) : changed.children = template.children := by
  rw [Template.children, Template.children, h.conditionals, h.repetitions, h.includes]

/-- Bodies are neither gained nor lost. -/
theorem hasBody (h : template.KeepsBlocks changed) (placeholder : Placeholder) :
    changed.hasBody placeholder = template.hasBody placeholder := by
  rw [Template.hasBody, Template.hasBody, conditional?, conditional?, repetition?, repetition?,
    h.conditionals, h.repetitions]

end KeepsBlocks

/-- An expression that can be compiled can be added, and blocks are kept. -/
theorem exists_addExpression {source : String}
    (h : ∃ expression, Expression.compile source = .ok expression) (template : Template) :
    ∃ changed, template.addExpression source = .ok changed ∧ template.KeepsBlocks changed := by
  obtain ⟨expression, hcompile⟩ := h
  rw [addExpression]
  split
  · exact ⟨template, rfl, .refl template⟩
  · rw [hcompile]
    exact ⟨_, rfl, rfl, rfl, rfl, rfl⟩

/-- Reading succeeds without a warning and finds no block. -/
def FindsNoBlock (template : Template) (reading : Except Error (List Piece × Template)) : Prop :=
  ∃ pieces changed, reading = .ok (pieces, changed) ∧ template.KeepsBlocks changed ∧
    pieces.filterMap Piece.placeholder? = []

namespace FindsNoBlock

variable {template between : Template} {reading : Except Error (List Piece × Template)}

/-- A piece that is no block may come in front. -/
theorem cons (h : template.FindsNoBlock reading) (piece : Piece)
    (hpiece : piece.placeholder? = none) : template.FindsNoBlock (do
      let (pieces, changed) ← reading
      return (piece :: pieces, changed)) := by
  obtain ⟨pieces, changed, rfl, hkeeps, hnone⟩ := h
  refine ⟨piece :: pieces, changed, rfl, hkeeps, ?_⟩
  rw [List.filterMap_cons, hpiece]
  exact hnone

/-- Reading finds no block in a node if it finds none after a change that keeps the blocks. -/
theorem of_keepsBlocks (h : between.FindsNoBlock reading) (hkeeps : template.KeepsBlocks between) :
    template.FindsNoBlock reading := by
  obtain ⟨pieces, changed, hread, hchanged, hnone⟩ := h
  exact ⟨pieces, changed, hread, hkeeps.trans hchanged, hnone⟩

end FindsNoBlock

/-- Plain text is read without a warning, and no block is found in it. -/
theorem readLine_plain {cs : List Char} (h : PlainText cs) (number : Nat) {template : Template}
    (hincludes : template.includes = []) : template.FindsNoBlock (readLine number cs template) := by
  fun_induction readLine number cs template with
  | case1 template => exact ⟨[], template, rfl, .refl template, rfl⟩
  | case2 template rest ih =>
    have hrest : PlainText rest := h.of_suffix ⟨['\\', '\x7b'], rfl⟩ (by rw [contents]; simp)
    exact (ih hrest hincludes).cons _ rfl
  | case3 template rest ih =>
    have hrest : PlainText rest := h.of_suffix ⟨['\\', '\x7d'], rfl⟩ (by rw [contents]; simp)
    exact (ih hrest hincludes).cons _ rfl
  | case4 template cs hcontent ih =>
    have hrest : PlainText cs := h.of_suffix ⟨['\x7b'], rfl⟩ (by rw [contents_open]; simp)
    exact (ih hrest hincludes).cons _ rfl
  | case5 template cs content rest hcontent hmeaning ih =>
    have hrest : PlainText cs := h.of_suffix ⟨['\x7b'], rfl⟩ (by rw [contents_open]; simp)
    exact (ih hrest hincludes).cons _ rfl
  | case6 template cs content rest hcontent kind hmeaning =>
    rw [eq_of_content? hcontent] at h
    exact absurd hmeaning (h.meaning_ne_stray hincludes kind)
  | case7 template cs content rest hcontent segment hmeaning ih =>
    rw [eq_of_content? hcontent] at h
    obtain rfl := h.eq_binding_of_meaning hincludes hmeaning
    have hrest := ih (h.behind (braceFree_of_content? hcontent)) hincludes
    have hkeeps : template.KeepsBlocks (template.refer (.binding (String.ofList content))) :=
      ⟨rfl, rfl, rfl, rfl⟩
    exact (hrest.of_keepsBlocks hkeeps).cons (.segment (.binding _)) rfl
  | case8 template cs content rest hcontent source hmeaning ih =>
    have hbraces := braceFree_of_content? hcontent
    rw [eq_of_content? hcontent] at h
    obtain ⟨hshape, rfl⟩ := h.eq_source_of_meaning hincludes hmeaning
    obtain ⟨between, hadd, hkeeps⟩ :=
      exists_addExpression (h.compiles_content hbraces hshape) template
    have hrest := ih between (h.behind hbraces) (hkeeps.includes.trans hincludes)
    rw [hadd]
    exact (hrest.of_keepsBlocks hkeeps).cons (.segment (.expression _)) rfl
  | case9 template c rest hescape hescape' hopen ih =>
    have hrest : PlainText rest := h.of_suffix ⟨[c], rfl⟩ (by rw [contents] <;> simp_all)
    exact (ih hrest hincludes).cons _ rfl

/-- An opening brace without a closing one is read as a character. -/
theorem readLine_open_of_none {cs : List Char} (h : content? cs = none) (number : Nat)
    (template : Template) :
    readLine number ('\x7b' :: cs) template = (do
      let (pieces, changed) ← readLine number cs template
      return (.char '\x7b' :: pieces, changed)) := by
  rw [readLine]
  split
  · rfl
  · next hsome => simp [h] at hsome

/-- A pair of braces is read by the meaning of its content in the node. -/
theorem readLine_open_of_some {cs content rest : List Char}
    (h : content? cs = some (content, rest)) (number : Nat) (template : Template) :
    readLine number ('\x7b' :: cs) template =
      match template.meaning content with
      | .plain => do
        let (pieces, changed) ← readLine number cs template
        return (.char '\x7b' :: pieces, changed)
      | .stray kind =>
        readLine number rest
          { template with
            ownWarnings := template.ownWarnings ++ [.unmatchedClose kind number] }
      | .segment segment => do
        let (pieces, changed) ← readLine number rest (template.refer segment)
        return (.segment segment :: pieces, changed)
      | .expression source => do
        let between ← template.addExpression source
        let (pieces, changed) ← readLine number rest between
        return (.segment (.expression (Expression.idOf source)) :: pieces, changed) := by
  rw [readLine]
  split
  · next hnone => simp [h] at hnone
  · next hsome =>
    rw [h] at hsome
    cases hsome
    rfl

/-- The placeholder of a body that the node has is read back from its text. -/
theorem readLine_text {placeholder : Placeholder} (h : placeholder.Readable) {template : Template}
    (hbody : template.hasBody placeholder = true) (number : Nat) :
    readLine number placeholder.text template =
      .ok ([.segment (.block placeholder)], template) := by
  have hcontent := content?_append (Placeholder.braceFree_content h) []
  have hmeaning : template.meaning placeholder.content = .segment (.block placeholder) := by
    rw [meaning, Placeholder.ofContent?_content h]
    exact if_pos hbody
  rw [Placeholder.text, List.cons_append, readLine_open_of_some hcontent, hmeaning]
  simp only [readLine]
  rfl

/-! ### Reading all lines -/

/-- Lines are read one after another, each into the node that the one before leaves. -/
theorem readLines_cons {number : Nat} {line : Line} {lines : List Line}
    {template between changed : Template} {pieces more : List Piece}
    (hline : readLine number line template = .ok (pieces, between))
    (hlines : readLines (number + 1) lines between = .ok (more, changed)) :
    readLines number (line :: lines) template = .ok (pieces ++ more, changed) := by
  rw [readLines, hline]
  change (do
    let (more, changed) ← readLines (number + 1) lines between
    return (pieces ++ more, changed)) = _
  rw [hlines]
  rfl

/-- Lines that are read are read one after another. -/
theorem exists_of_readLines_cons {number : Nat} {line : Line} {lines : List Line}
    {template changed : Template} {pieces : List Piece}
    (h : readLines number (line :: lines) template = .ok (pieces, changed)) :
    ∃ first between more, readLine number line template = .ok (first, between) ∧
      readLines (number + 1) lines between = .ok (more, changed) ∧ pieces = first ++ more := by
  cases hline : readLine number line template with
  | error error =>
    rw [readLines, hline] at h
    cases h
  | ok read =>
    obtain ⟨first, between⟩ := read
    cases hlines : readLines (number + 1) lines between with
    | error error =>
      rw [readLines, hline] at h
      change (do
        let (more, changed) ← readLines (number + 1) lines between
        return (first ++ more, changed)) = _ at h
      rw [hlines] at h
      cases h
    | ok read =>
      obtain ⟨more, after⟩ := read
      cases (readLines_cons hline hlines).symm.trans h
      exact ⟨first, between, more, rfl, hlines, rfl⟩

/-- Further lines are read behind those in front of them, into the node that these leave. -/
theorem readLines_append {number : Nat} {lines more : List Line}
    {template between changed : Template}
    {pieces pieces' : List Piece} (hlines : readLines number lines template = .ok (pieces, between))
    (hmore : readLines (number + lines.length) more between = .ok (pieces', changed)) :
    readLines number (lines ++ more) template = .ok (pieces ++ pieces', changed) := by
  induction lines generalizing number template pieces with
  | nil =>
    cases hlines
    exact hmore
  | cons line lines ih =>
    obtain ⟨first, after, rest, hline, hrest, rfl⟩ := exists_of_readLines_cons hlines
    rw [List.length_cons, Nat.add_comm lines.length, ← Nat.add_assoc] at hmore
    rw [List.append_assoc]
    exact readLines_cons hline (ih hrest hmore)

/-- Empty lines are read into nothing. -/
theorem readLines_replicate (count number : Nat) (lines : List Line) (template : Template) :
    readLines number (List.replicate count [] ++ lines) template =
      readLines (number + count) lines template := by
  induction count generalizing number with
  | zero => rfl
  | succ count ih =>
    rw [List.replicate_succ, List.cons_append, readLines, readLine]
    change (do
      let (more, changed) ← readLines (number + 1) (List.replicate count [] ++ lines) template
      return ([] ++ more, changed)) = _
    rw [ih, Nat.add_assoc, Nat.add_comm 1]
    cases readLines (number + (count + 1)) lines template <;> rfl

end Template

end BraceTemplate
