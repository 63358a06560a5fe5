import BraceTemplate.Template.Render
import BraceTemplate.Proofs.Template.Splitting

/-!
# Writing segments down

Segments are written as text from which they are read again. A backslash in front of every brace
keeps text from being read as anything else, so that neither a marker of a block nor one of a
segment begins in it, and none reaches from a segment into it. Thus every text has a form that
renders to it.
-/

namespace BraceTemplate

/-- The text with a backslash in front of every brace. -/
def escape (cs : List Char) : List Char :=
  cs.flatMap fun c => if c = '\x7b' ∨ c = '\x7d' then ['\\', c] else [c]

namespace Segment

/-- The text that a segment is written as. -/
def written : Segment → List Char
  | .text chars => escape chars.toList
  | .binding name => '\x7b' :: (name.toList ++ ['\x7d'])
  | .expression id => '\x7b' :: (id.toList ++ ['\x7d'])
  | .block placeholder => placeholder.text
  | .inclusion path => "\x7binclude ".toList ++ path.toList ++ ['\x7d']

/-- What stands between the braces of a name, or of an expression that is neither a name nor the
beginning of a comment. -/
inductive Marked : List Char → Segment → Prop
  | binding {name : String} (hname : isName name.toList = true) : Marked name.toList (.binding name)
  | expression {id : String}
      (hchars : ∀ c ∈ id.toList, isExpressionChar c = true ∧ isBlank c = false)
      (hcompiles : ∃ expression, Expression.compile id = .ok expression)
      (hname : isName id.toList = false) (hstar : id.toList.head? ≠ some '*') :
    Marked id.toList (.expression id)

/-- Segments that need neither a block nor a document. -/
inductive Writable : Segment → Prop
  | text {text : String} (hne : text ≠ "") : Writable (.text text)
  | marked {content : List Char} {found : Segment} (h : Marked content found) : Writable found

/-- A text is followed by no other text, and if it ends in a backslash by nothing at all. -/
def MayPrecede : Segment → Segment → Prop
  | .text _, .text _ => False
  | .text chars, _ => chars.toList.getLast? ≠ some '\\'
  | _, _ => True

namespace Marked

variable {content : List Char} {found : Segment}

/-- The characters of a name are characters of expressions that are no blanks. -/
theorem chars (h : Marked content found) :
    ∀ c ∈ content, isExpressionChar c = true ∧ isBlank c = false := by
  cases h with
  | expression hchars => exact hchars
  | @binding name hname =>
    intro c hc
    rw [isName, Bool.and_eq_true, List.all_eq_true] at hname
    have hchar := hname.2 c hc
    have hword : Token.isWordChar c = true := by
      rw [isNameChar, Bool.or_eq_true] at hchar
      rw [Token.isWordChar, Bool.or_eq_true, Bool.or_eq_true]
      exact .inl hchar
    refine ⟨?_, Token.isBlank_eq_false_of_isWordChar hword⟩
    rw [isNameChar, Bool.or_eq_true] at hchar
    rw [isExpressionChar]
    rcases hchar with halphanum | hunderscore
    · rw [halphanum]
      rfl
    · obtain rfl : c = '_' := eq_of_beq hunderscore
      decide

/-- Between the braces of a segment there are only characters of expressions, and no blanks. -/
theorem notMem {c : Char} (h : Marked content found)
    (hc : isExpressionChar c = false ∨ isBlank c = true) : c ∉ content := by
  intro hmem
  obtain ⟨hchar, hblank⟩ := h.chars c hmem
  rcases hc with hc | hc
  · rw [hchar] at hc
    cases hc
  · rw [hblank] at hc
    cases hc

/-- A segment that is written down stays on one line. -/
theorem lineFeed_notMem (h : Marked content found) :
    '\n' ∉ '\x7b' :: (content ++ ['\x7d']) := by
  have hcontent : '\n' ∉ content := h.notMem (.inr (by decide))
  simp [hcontent]

/-- Between the braces of a segment there are no others. -/
theorem braceFree (h : Marked content found) : BraceFree content := by
  intro c hc
  constructor
  · rintro rfl
    exact h.notMem (.inl (by decide)) hc
  · rintro rfl
    exact h.notMem (.inl (by decide)) hc

/-- What stands between the braces of a segment does not begin a comment. -/
theorem head_ne_star (h : Marked content found) : content.head? ≠ some '*' := by
  cases h with
  | expression _ _ _ hstar => exact hstar
  | @binding name hname =>
    intro hhead
    obtain ⟨more, hmore⟩ := List.head?_eq_some_iff.1 hhead
    rw [hmore] at hname
    exact absurd hname (by simp [isName, isNameChar])

/-- Without documents, the braces of a segment have only three meanings left. -/
theorem meaning_eq (h : Marked content found) {template : Template}
    (hincludes : template.includes = []) :
    template.meaning content =
      if isName content then .segment (.binding (String.ofList content))
      else if isExpressionSource content then .expression (String.ofList content)
      else .plain := by
  refine Template.meaning_of_includes_nil ?_ ?_ ?_ hincludes
  · rw [Option.eq_none_iff_forall_ne_some]
    intro placeholder hfound
    obtain ⟨more, rfl⟩ := Placeholder.eq_of_ofContent? hfound
    exact h.notMem (c := ':') (.inl (by decide)) (by simp)
  -- No name has a slash in it, and the closing markers of blocks are no expressions.
  all_goals
    rintro rfl
    generalize hcontent : String.toList _ = content at h
    cases h with
    | binding hname =>
      rw [← hcontent] at hname
      exact absurd hname (by decide)
    | expression _ hcompiles =>
      rw [← String.toList_inj.1 hcontent] at hcompiles
      exact absurd hcompiles (by decide +kernel)

/-- What is between the braces is read as the segment again. -/
theorem exists_readLine (h : Marked content found) (number : Nat) {template : Template}
    (hincludes : template.includes = []) : ∃ between, template.KeepsBlocks between ∧
      ∀ line, Template.readLine number ('\x7b' :: (content ++ '\x7d' :: line)) template = (do
        let (pieces, changed) ← Template.readLine number line between
        return (.segment found :: pieces, changed)) := by
  have hbraces := h.braceFree
  have hmeaning := h.meaning_eq hincludes
  cases h with
  | @binding name hname =>
    rw [if_pos hname] at hmeaning
    refine ⟨template.refer (.binding name), ⟨rfl, rfl, rfl, rfl⟩, fun line => ?_⟩
    rw [Template.readLine_open_of_some (content?_append hbraces line), hmeaning,
      String.ofList_toList]
  | @expression id hchars hcompiles hname =>
    have hsource : isExpressionSource id.toList = true := by
      obtain ⟨expression, hcompile⟩ := hcompiles
      obtain ⟨c, hc, hblank⟩ := Expression.exists_not_blank_of_compile hcompile
      rw [isExpressionSource, Bool.and_eq_true, Bool.not_eq_true', List.isEmpty_eq_false_iff,
        List.all_eq_true]
      refine ⟨fun htrim => ?_, fun d hd => (hchars d hd).1⟩
      rw [Token.isBlank_of_trim_eq_nil htrim c hc] at hblank
      cases hblank
    have hid : Expression.idOf id = id := by
      rw [Expression.idOf, List.filter_eq_self.2 fun c hc => by simp [(hchars c hc).2],
        String.ofList_toList]
    obtain ⟨between, hadd, hkeeps⟩ := Template.exists_addExpression hcompiles template
    refine ⟨between, hkeeps, fun line => ?_⟩
    rw [hname, if_neg Bool.false_ne_true, if_pos hsource, String.ofList_toList] at hmeaning
    rw [Template.readLine_open_of_some (content?_append hbraces line), hmeaning]
    dsimp only
    rw [hadd, hid]
    rfl

end Marked

end Segment

/-! ### Lines -/

/-- A text begins as its first line does. -/
theorem head?_headD_splitLines (cs : List Char) : ((splitLines cs).headD []).head? = cs.head? := by
  cases cs with
  | nil => rfl
  | cons c cs =>
    unfold splitLines
    split
    · rfl
    · split <;> rfl

/-- Text without a line feed belongs to the line that begins behind it. -/
theorem splitLines_append {text : List Char} (hne : text ≠ []) (hfeed : '\n' ∉ text)
    (rest : List Char) :
    splitLines (text ++ rest) = (text ++ (splitLines rest).headD []) :: (splitLines rest).tail := by
  induction text with
  | nil => exact absurd rfl hne
  | cons c text ih =>
    rw [List.mem_cons, not_or] at hfeed
    rw [List.cons_append, splitLines, if_neg fun heq => hfeed.1 heq.symm]
    cases text with
    | nil =>
      rw [List.nil_append]
      cases splitLines rest <;> rfl
    | cons d text =>
      rw [ih (by simp) hfeed.2]
      rfl

/-- A line is a part of its text. -/
theorem infix_of_mem_splitLines {line : Line} {cs : List Char} (h : line ∈ splitLines cs) :
    line <:+: cs := by
  have hpart := List.infix_of_mem_flatten h
  rwa [flatten_splitLines] at hpart

/-- What begins with a character does not begin in text without it. -/
theorem infix_of_notMem {c : Char} {cs text rest : List Char} (h : c ∉ text)
    (hpart : c :: cs <:+: text ++ rest) : c :: cs <:+: rest := by
  induction text with
  | nil => exact hpart
  | cons d text ih =>
    rw [List.mem_cons, not_or] at h
    rcases List.infix_cons_iff.1 hpart with hprefix | hpart
    · exact absurd (List.cons_prefix_cons.1 hprefix).1 h.1
    · exact ih h.2 hpart

namespace Template

/-- One more piece in front is read from the line that begins with it. -/
theorem readLines_splitLines_append {text rest : List Char} (hne : text ≠ []) (hfeed : '\n' ∉ text)
    {number : Nat} {piece : Piece} {pieces : List Piece} {template between changed : Template}
    (hread : ∀ line, line.head? = rest.head? → readLine number (text ++ line) template = (do
      let (pieces, changed) ← readLine number line between
      return (piece :: pieces, changed)))
    (hrest : readLines number (splitLines rest) between = .ok (pieces, changed)) :
    readLines number (splitLines (text ++ rest)) template = .ok (piece :: pieces, changed) := by
  have hhead := head?_headD_splitLines rest
  rw [splitLines_append hne hfeed]
  cases hlines : splitLines rest with
  | nil =>
    rw [hlines] at hrest hhead
    cases hrest
    have hline := hread [] hhead
    have hpure : (pure ([], between) : Except Error (List Piece × Template)) =
      .ok ([], between) := rfl
    rw [readLine, hpure] at hline
    exact readLines_cons hline rfl
  | cons line lines =>
    rw [hlines] at hrest hhead
    obtain ⟨first, between', more, hfirst, hmore, rfl⟩ := exists_of_readLines_cons hrest
    have hline := hread line hhead
    rw [hfirst] at hline
    exact readLines_cons hline hmore

end Template

/-! ### Pieces that are written down -/

/-- Pieces are written as a text. A backslash that is no part of an escape is not followed by a
brace. -/
inductive Written : List Piece → List Char → Prop
  | nil : Written [] []
  | char {c : Char} {pieces : List Piece} {cs : List Char} (hplain : c ≠ '\x7b' ∧ c ≠ '\x7d')
      (hescape : c = '\\' → ∀ brace ∈ cs.head?, brace ≠ '\x7b' ∧ brace ≠ '\x7d')
      (hrest : Written pieces cs) : Written (.char c :: pieces) (c :: cs)
  | brace {c : Char} {pieces : List Piece} {cs : List Char} (hbrace : c = '\x7b' ∨ c = '\x7d')
      (hrest : Written pieces cs) : Written (.char c :: pieces) ('\\' :: c :: cs)
  | segment {content : List Char} {found : Segment} {pieces : List Piece} {cs : List Char}
      (hfound : found.Marked content) (hrest : Written pieces cs) :
    Written (.segment found :: pieces) ('\x7b' :: (content ++ '\x7d' :: cs))

namespace Written

variable {pieces : List Piece} {cs : List Char}

/-- A closing brace that comes first belongs to an escape. -/
theorem getLast?_of_brace (h : Written pieces cs) {content more : List Char}
    (heq : cs = content ++ '\x7d' :: more) (hbraces : BraceFree content) :
    content.getLast? = some '\\' := by
  induction h generalizing content with
  | nil => exact absurd heq (by simp)
  | @char c pieces cs hplain hescape hrest ih =>
    cases content with
    | nil => exact absurd (List.cons.inj heq).1 hplain.2
    | cons d content =>
      obtain ⟨rfl, hcs⟩ := List.cons.inj heq
      have hlast := ih hcs fun e he => hbraces e (List.mem_cons_of_mem _ he)
      rw [List.getLast?_cons, hlast]
      rfl
  | @brace c pieces cs hbrace hrest ih =>
    cases content with
    | nil => exact absurd (List.cons.inj heq).1 (by decide)
    | cons d content =>
      obtain ⟨rfl, hcs⟩ := List.cons.inj heq
      cases content with
      | nil => rfl
      | cons d content =>
        obtain ⟨rfl, -⟩ := List.cons.inj hcs
        obtain ⟨hopen, hclose⟩ := hbraces c (by simp)
        exact absurd hbrace (not_or.2 ⟨hopen, hclose⟩)
  | segment hfound hrest ih =>
    cases content with
    | nil => exact absurd (List.cons.inj heq).1 (by decide)
    | cons d content =>
      obtain ⟨rfl, -⟩ := List.cons.inj heq
      exact absurd rfl (hbraces '\x7b' List.mem_cons_self).1

/-- Braces that belong together are those of a segment, unless the closing one is escaped. -/
theorem content_of_infix (h : Written pieces cs) {content : List Char}
    (hpart : '\x7b' :: (content ++ ['\x7d']) <:+: cs) (hbraces : BraceFree content) :
    content.getLast? = some '\\' ∨ ∃ found : Segment, found.Marked content := by
  induction h with
  | nil => exact absurd (List.infix_nil.1 hpart) (by simp)
  | @char c pieces cs hplain hescape hrest ih =>
    rcases List.infix_cons_iff.1 hpart with hprefix | hpart
    · exact absurd (List.cons_prefix_cons.1 hprefix).1.symm hplain.1
    · exact ih hpart
  | @brace c pieces cs hbrace hrest ih =>
    rcases List.infix_cons_iff.1 hpart with hprefix | hpart
    · exact absurd (List.cons_prefix_cons.1 hprefix).1 (by decide)
    · rcases List.infix_cons_iff.1 hpart with hprefix | hpart
      · obtain ⟨-, more, hmore⟩ := List.cons_prefix_cons.1 hprefix
        rw [List.append_assoc] at hmore
        exact .inl (hrest.getLast?_of_brace hmore.symm hbraces)
      · exact ih hpart
  | @segment inner found pieces cs hfound hrest ih =>
    rcases List.infix_cons_iff.1 hpart with hprefix | hpart
    · obtain ⟨-, more, hmore⟩ := List.cons_prefix_cons.1 hprefix
      rw [List.append_assoc] at hmore
      have hcontent := congrArg content? hmore
      rw [List.singleton_append, content?_append hbraces,
        content?_append hfound.braceFree] at hcontent
      cases hcontent
      exact .inr ⟨found, hfound⟩
    · have hclose : '\x7b' ∉ inner ++ ['\x7d'] := by
        rw [List.mem_append, not_or]
        exact ⟨fun hmem => (hfound.braceFree _ hmem).1 rfl, by decide⟩
      rw [List.append_cons inner] at hpart
      exact ih (infix_of_notMem hclose hpart)

/-! ### No block opens -/

/-- There is a blank behind the word of a marker, but none in a name or in the id of an
expression. -/
theorem arguments_eq_nil (h : Written pieces cs) {line : Line} (hline : line ∈ splitLines cs)
    {word : String} {allowed : Char → Bool} (hword : BraceFree word.toList)
    (hbraces : allowed '\x7b' = false ∧ allowed '\x7d' = false) (hescape : allowed '\\' = false) :
    arguments word allowed line = [] := by
  rw [List.eq_nil_iff_forall_not_mem]
  intro argument hargument
  obtain ⟨suffix, hsuffix, hfound⟩ := mem_arguments_iff.1 hargument
  obtain ⟨blank, more, rfl, hblank, hne, hallowed⟩ := (argumentAt?_eq_some_iff hbraces.2).1 hfound
  have hfree : BraceFree (word.toList ++ blank :: argument) := by
    intro c hc
    rcases List.mem_append.1 hc with hc | hc
    · exact hword c hc
    · constructor
      · rintro rfl
        rcases List.mem_cons.1 hc with rfl | hc
        · exact absurd hblank (by decide)
        · rw [hallowed _ hc] at hbraces
          cases hbraces.1
      · rintro rfl
        rcases List.mem_cons.1 hc with rfl | hc
        · exact absurd hblank (by decide)
        · rw [hallowed _ hc] at hbraces
          cases hbraces.2
  have hpart : '\x7b' :: (word.toList ++ blank :: argument ++ ['\x7d']) <:+: cs := by
    refine List.IsInfix.trans ⟨[], more, ?_⟩ (hsuffix.isInfix.trans (infix_of_mem_splitLines hline))
    simp
  rcases h.content_of_infix hpart hfree with hlast | ⟨found, hmarked⟩
  · obtain ⟨c, hc⟩ := Option.isSome_iff_exists.1 (List.getLast?_isSome.2 hne)
    obtain rfl : c = '\\' := by simpa [List.getLast?_append, List.getLast?_cons, hc] using hlast
    rw [hallowed _ (List.mem_of_getLast? hc)] at hescape
    cases hescape
  · exact hmarked.notMem (.inr hblank) (by simp)

/-- A line begins with an unescaped brace only where a segment begins, and this is no comment. -/
theorem opens_comment (h : Written pieces cs) :
    ∀ line ∈ splitLines cs, opens .comment line = false := by
  have hstep : ∀ {text rest : List Char}, text ≠ [] → '\n' ∉ text →
      (∀ line, opens .comment (text ++ line) = false) →
      (∀ line ∈ splitLines rest, opens .comment line = false) →
      ∀ line ∈ splitLines (text ++ rest), opens .comment line = false := by
    intro text rest hne hfeed htext hrest line hline
    rw [splitLines_append hne hfeed] at hline
    rcases List.mem_cons.1 hline with rfl | hline
    · exact htext _
    · exact hrest line (List.mem_of_mem_tail hline)
  have hother : ∀ {c : Char}, c ≠ '\x7b' → ∀ line, opens .comment (c :: line) = false := by
    intro c hc line
    rw [opens, List.isPrefixOf_cons_cons, beq_false_of_ne fun heq => hc heq.symm]
    rfl
  induction h with
  | nil => exact fun line hline => by cases hline
  | @char c pieces cs hplain hescape hrest ih =>
    by_cases hfeed : c = '\n'
    · subst hfeed
      rw [splitLines, if_pos rfl]
      exact List.forall_mem_cons.2 ⟨hother hplain.1 [], ih⟩
    · exact hstep (List.cons_ne_nil c []) (fun hmem => hfeed (List.mem_singleton.1 hmem).symm)
        (hother hplain.1) ih
  | @brace c pieces cs hbrace hrest ih =>
    refine @hstep ['\\', c] cs (List.cons_ne_nil _ _) ?_
      (fun line => hother (by decide) (c :: line)) ih
    rcases hbrace with rfl | rfl <;> decide
  | @segment content found pieces cs hfound hrest ih =>
    have hstar : ∀ line, opens .comment ('\x7b' :: (content ++ ['\x7d']) ++ line) = false := by
      intro line
      cases content with
      | nil => rfl
      | cons d content =>
        have hd : d ≠ '*' := fun heq => hfound.head_ne_star (by rw [heq]; rfl)
        simp [opens, List.isPrefixOf, hd.symm]
    have hlines := hstep (List.cons_ne_nil _ _) hfound.lineFeed_notMem hstar ih
    simpa using hlines

/-! ### Reading -/

open Template

/-- A character that is no brace is read as itself. A backslash may stand before anything but a
brace. -/
theorem readLine_char {c : Char} {line : List Char} (hopen : c ≠ '\x7b')
    (hescape : c = '\\' → ∀ brace ∈ line.head?, brace ≠ '\x7b' ∧ brace ≠ '\x7d')
    (number : Nat) (template : Template) :
    readLine number (c :: line) template = (do
      let (pieces, changed) ← readLine number line template
      return (.char c :: pieces, changed)) := by
  rw [readLine]
  · rintro rest rfl rfl
    exact (hescape rfl '\x7b' rfl).1 rfl
  · rintro rest rfl rfl
    exact (hescape rfl '\x7d' rfl).2 rfl
  · exact hopen

/-- What is written down is read again, piece by piece. -/
theorem exists_readLines (h : Written pieces cs) (number : Nat) {template : Template}
    (hincludes : template.includes = []) : ∃ changed,
      readLines number (splitLines cs) template = .ok (pieces, changed) ∧
        template.KeepsBlocks changed := by
  induction h generalizing number template with
  | nil => exact ⟨template, rfl, .refl template⟩
  | @char c pieces cs hplain hescape hrest ih =>
    by_cases hfeed : c = '\n'
    · subst hfeed
      obtain ⟨changed, hlines, hkeeps⟩ := ih (number + 1) hincludes
      refine ⟨changed, ?_, hkeeps⟩
      have hline :=
        @readLine_char '\n' [] hplain.1 (fun heq => absurd heq (by decide)) number template
      rw [readLine] at hline
      rw [splitLines, if_pos rfl]
      exact readLines_cons hline hlines
    · obtain ⟨changed, hlines, hkeeps⟩ := ih number hincludes
      exact ⟨changed, readLines_splitLines_append (List.cons_ne_nil c [])
        (fun hmem => hfeed (List.mem_singleton.1 hmem).symm)
        (fun line hhead => readLine_char hplain.1 (hhead ▸ hescape) number template) hlines, hkeeps⟩
  | @brace c pieces cs hbrace hrest ih =>
    obtain ⟨changed, hlines, hkeeps⟩ := ih number hincludes
    refine ⟨changed, ?_, hkeeps⟩
    refine @readLines_splitLines_append ['\\', c] cs (List.cons_ne_nil _ _) ?_ number _ pieces
      template template changed (fun line _ => ?_) hlines
    · rcases hbrace with rfl | rfl <;> decide
    · rcases hbrace with rfl | rfl
      · rw [List.cons_append, List.singleton_append, readLine]
      · rw [List.cons_append, List.singleton_append, readLine]
  | @segment content found pieces cs hfound hrest ih =>
    obtain ⟨between, hkeeps, hread⟩ := hfound.exists_readLine number hincludes
    obtain ⟨changed, hlines, hkeeps'⟩ := ih number (hkeeps.includes.trans hincludes)
    refine ⟨changed, ?_, hkeeps.trans hkeeps'⟩
    have hwhole : ∀ rest, '\x7b' :: (content ++ ['\x7d']) ++ rest =
        '\x7b' :: (content ++ '\x7d' :: rest) := fun rest => by simp
    rw [← hwhole]
    refine readLines_splitLines_append (List.cons_ne_nil _ _) hfound.lineFeed_notMem
      (fun line _ => ?_) hlines
    rw [hwhole]
    exact hread line

/-- No block opens and no document is included in what is written down. -/
theorem inert (h : Written pieces cs) : ∀ line ∈ splitLines cs, Inert line := by
  intro line hline
  have hnone : ∀ {word : String} {allowed : Char → Bool}, word ∈ ["if", "foreach", "include"] →
      allowed '\x7b' = false ∧ allowed '\x7d' = false → allowed '\\' = false →
      arguments word allowed line = [] := by
    intro word allowed hword hbraces hescape
    have hfree : BraceFree word.toList := List.all_iff_forall_prop.1 (by revert word; decide)
    exact h.arguments_eq_nil hline hfree hbraces hescape
  exact inert_of_arguments_eq_nil (h.opens_comment line hline)
    (hnone (by decide) (by decide) (by decide))
    (hnone (by decide) (by decide) (by decide)) (hnone (by decide) (by decide) (by decide))

/-- What is written down compiles to the segments that its pieces make up. -/
theorem exists_compileText (h : Written pieces cs) (loader : Loader) :
    ∃ template, compileText loader (String.ofList cs) = .ok template ∧ template.warnings = [] ∧
      template.segments = Piece.segments pieces := by
  obtain ⟨read, hread, hkeeps⟩ := @exists_readLines _ _ h 1 (empty "template") rfl
  have hall :
      (empty "template").KeepsBlocks (bindNames { read with segments := Piece.segments pieces }) :=
    hkeeps.trans ⟨rfl, rfl, rfl, rfl⟩
  refine ⟨bindNames { read with segments := Piece.segments pieces }, ?_, ?_, rfl⟩
  · have hrun : ∀ resolve, Template.compileLines resolve "template" (splitLines cs) =
        pure (bindNames { read with segments := Piece.segments pieces }) := by
      intro resolve
      rw [Template.compileLines, cutLines_of_inert resolve h.inert, pure_bind]
      dsimp only
      rw [complete, hread]
      rfl
    rw [compileText, String.toList_ofList, BraceTemplate.compileLines, Compiler.compile, hrun]
    rfl
  · rw [warnings_eq, hall.ownWarnings, hall.children]
    rfl

/-- A text is written down character by character. -/
theorem escape {text : List Char} (h : Written pieces cs)
    (hend : text.getLast? = some '\\' → ∀ brace ∈ cs.head?, brace ≠ '\x7b' ∧ brace ≠ '\x7d') :
    Written (text.map .char ++ pieces) (BraceTemplate.escape text ++ cs) := by
  induction text with
  | nil => exact h
  | cons c text ih =>
    have hrest : Written (text.map .char ++ pieces) (BraceTemplate.escape text ++ cs) := by
      refine ih fun hlast => hend ?_
      rw [List.getLast?_cons, hlast]
      rfl
    rw [BraceTemplate.escape, List.flatMap_cons]
    by_cases hbrace : c = '\x7b' ∨ c = '\x7d'
    · rw [if_pos hbrace]
      exact .brace hbrace hrest
    · rw [if_neg hbrace]
      refine .char (not_or.1 hbrace) ?_ hrest
      rintro rfl brace hhead
      -- What follows the backslash is the next character or the backslash in front of it.
      cases text with
      | nil => exact hend rfl brace hhead
      | cons d text =>
        rw [List.flatMap_cons] at hhead
        split at hhead
        · cases hhead
          decide
        · next hplain =>
          cases hhead
          exact not_or.1 hplain

end Written

/-! ### Segments -/

/-- Characters are gathered into the text that comes first. -/
theorem Piece.gather_chars (text : List Char) (pieces : List Piece) :
    gather (text.map char ++ pieces) = (text ++ (gather pieces).1, (gather pieces).2) := by
  induction text with
  | nil => rfl
  | cons c text ih =>
    rw [List.map_cons, List.cons_append, gather, ih]
    rfl

namespace Segment

/-- The pieces that a segment is read as. -/
def pieces : Segment → List Piece
  | .text chars => chars.toList.map .char
  | found => [.segment found]

/-- A segment between braces is written as one pair and read as one piece. -/
theorem Marked.written_eq {content : List Char} {found : Segment} (h : Marked content found) :
    found.pieces = [.segment found] ∧ found.written = '\x7b' :: (content ++ ['\x7d']) := by
  cases h <;> exact ⟨rfl, rfl⟩

/-- Segments that may stand side by side are written one after another. -/
theorem written_segments {segments : List Segment} (hwritable : ∀ found ∈ segments, found.Writable)
    (hchain : segments.IsChain MayPrecede) :
    Written (segments.flatMap pieces) (segments.flatMap written) := by
  induction segments with
  | nil => exact .nil
  | cons found segments ih =>
    rw [List.isChain_cons] at hchain
    obtain ⟨hfound, hsegments⟩ := List.forall_mem_cons.1 hwritable
    have hrest := ih hsegments hchain.2
    rw [List.flatMap_cons, List.flatMap_cons]
    cases hfound with
    | @text chars hne =>
      refine hrest.escape fun hlast brace hhead => ?_
      cases segments with
      | nil => cases hhead
      | cons second segments =>
        have hprecedes := hchain.1 second rfl
        cases second with
        | text => exact absurd hprecedes id
        | binding | expression | block | inclusion => exact absurd hlast hprecedes
    | marked hmarked =>
      obtain ⟨hpieces, hbraces⟩ := hmarked.written_eq
      have hwritten := Written.segment hmarked hrest
      rw [hpieces, hbraces, List.singleton_append, List.cons_append, List.append_assoc,
        List.singleton_append]
      exact hwritten

/-- The pieces make up the segments again. -/
theorem segments_pieces {segments : List Segment} (hwritable : ∀ found ∈ segments, found.Writable)
    (hchain : segments.IsChain MayPrecede) :
    Piece.segments (segments.flatMap pieces) = segments := by
  induction segments with
  | nil => rfl
  | cons found segments ih =>
    rw [List.isChain_cons] at hchain
    obtain ⟨hfound, hsegments⟩ := List.forall_mem_cons.1 hwritable
    have hrest := ih hsegments hchain.2
    rw [List.flatMap_cons]
    cases hfound with
    | @text chars hne =>
      have hgather : Piece.gather (segments.flatMap pieces) = ([], segments) := by
        have hfirst : (Piece.gather (segments.flatMap pieces)).1 = [] := by
          cases segments with
          | nil => rfl
          | cons second segments =>
            have hprecedes := hchain.1 second rfl
            cases second with
            | text => exact absurd hprecedes id
            | binding | expression | block | inclusion => rfl
        refine Prod.ext hfirst ?_
        rw [Piece.segments, show Piece.gather _ = ([], _) from Prod.ext hfirst rfl] at hrest
        exact hrest
      rw [pieces, Piece.segments, Piece.gather_chars, hgather, List.append_nil]
      cases hlist : chars.toList with
      | nil => exact absurd (String.toList_inj.1 hlist) hne
      | cons c cs =>
        rw [Piece.flush, ← hlist, String.ofList_toList]
        simp
    | marked hmarked =>
      cases hmarked <;> exact congrArg _ hrest

/-- Segments that are written down are read again when the text is compiled, and every text has an
escaped form that renders to it. -/
theorem compileText_written :
    (∀ segments : List Segment, (∀ found ∈ segments, found.Writable) → segments.IsChain MayPrecede →
      ∃ template, compileText .none (String.ofList (segments.flatMap written)) = .ok template ∧
        template.warnings = [] ∧ template.segments = segments) ∧
    ∀ text : String, ∃ template,
      compileText .none (String.ofList (escape text.toList)) = .ok template ∧
      template.warnings = [] ∧ template.render = text := by
  constructor
  · intro segments hwritable hchain
    have hcompile := (written_segments hwritable hchain).exists_compileText .none
    rwa [segments_pieces hwritable hchain] at hcompile
  · intro text
    have hwritten : Written (text.toList.map .char) (escape text.toList) := by
      have hescape := @Written.escape [] [] text.toList .nil fun _ brace hhead => by cases hhead
      rwa [List.append_nil, List.append_nil] at hescape
    obtain ⟨template, hcompile, hwarnings, hsegments⟩ := hwritten.exists_compileText .none
    refine ⟨template, hcompile, hwarnings, ?_⟩
    have hgather := Piece.gather_chars text.toList []
    rw [List.append_nil, Piece.gather, List.append_nil] at hgather
    rw [Template.render, hsegments, Piece.segments, hgather]
    cases hlist : text.toList with
    | nil =>
      rw [Piece.flush, Template.renderSegments]
      exact (String.toList_inj.1 hlist).symm
    | cons c cs =>
      rw [Piece.flush, Template.renderSegments, Template.renderSegments, ← hlist,
        String.ofList_toList]
      · exact String.append_empty
      · simp

/-- Texts that look like markers, beside a name that is the word of one. -/
theorem compileText_written_imitation :
    let segments : List Segment :=
      [.text "\x7bif a\x7d\\\n\x7b* \x7b", .binding "foreach", .expression "a+1>=b",
      .text "*\x7d\\"]
    let text := "\\\x7bif a\\\x7d\\\n\\\x7b* \\\x7b\x7bforeach\x7d\x7ba+1>=b\x7d*\\\x7d\\"
    (∀ found ∈ segments, found.Writable) ∧ segments.IsChain MayPrecede ∧
      String.ofList (segments.flatMap written) = text ∧
      ∃ template, compileText .none text = .ok template ∧ template.warnings = [] ∧
        template.segments = segments := by
  intro segments text
  -- The characters are checked one by one, not by an instance for all characters there are.
  have hall : ("a+1>=b".toList.all fun c => isExpressionChar c && !isBlank c) = true := by
    decide +kernel
  have hchars : ∀ c ∈ "a+1>=b".toList, isExpressionChar c = true ∧ isBlank c = false := by
    simpa only [List.all_eq_true, Bool.and_eq_true, Bool.not_eq_true'] using hall
  have hwritable : ∀ found ∈ segments, found.Writable := by
    refine List.forall_mem_cons.2 ⟨.text (by decide), List.forall_mem_cons.2 ⟨.marked (.binding ?_),
      List.forall_mem_cons.2 ⟨.marked (.expression hchars ?_ ?_ ?_),
        List.forall_mem_singleton.2 (.text (by decide))⟩⟩⟩ <;> decide +kernel
  have hchain : segments.IsChain MayPrecede := by simp [segments, MayPrecede]
  have htext : String.ofList (segments.flatMap written) = text := by decide +kernel
  exact ⟨hwritable, hchain, htext, htext ▸ compileText_written.1 segments hwritable hchain⟩

end Segment

end BraceTemplate
