import BraceTemplate.Proofs.Template.Calling

/-!
# Where warnings point to

A node counts the lines that it is compiled from. A warning of its own names the line of these in
which the marker stands that it is about. The lines of a body are parts of lines of the document
that follow each other there, so that the line of the document is found by adding the number of
lines in front of the body.
-/

namespace BraceTemplate

open CompileM (AgreeAt)

/-! ### Markers in parts of a line -/

/-- Whether the opening marker of a block stands in a line. -/
def hasOpening : BlockKind → Line → Bool
  | .comment, line => occursIn ['\x7b', '*'] line
  | kind, line => opens kind line

/-- The closing marker of a block. -/
def closingMarker (kind : BlockKind) : List Char :=
  '\x7b' :: '/' :: kind.word.toList ++ ['\x7d']

/-- The marker that a warning is about stands in the line that it names, if lines are counted behind
the first `offset` ones. -/
inductive Error.Located (lines : List Line) (offset : Nat) : Error → Prop
  | unclosed {kind : BlockKind} {n : Nat} {line : Line} (hline : lines[offset + n]? = some line)
      (hmarker : hasOpening kind line = true) : Located lines offset (.unclosedBlock kind (n + 1))
  | unmatched {kind : BlockKind} {n : Nat} {line : Line} (hline : lines[offset + n]? = some line)
      (hmarker : occursIn (closingMarker kind) line = true) :
    Located lines offset (.unmatchedClose kind (n + 1))

section Parts

variable {part line : Line}

/-- What occurs in a part of a line occurs in the line. -/
theorem occursIn_of_part {needle : List Char} (h : occursIn needle part = true)
    (hpart : part <:+: line) : occursIn needle line = true :=
  occursIn_iff.2 ((occursIn_iff.1 h).trans hpart)

/-- A marker with an argument that stands in a part of a line stands in the line. -/
theorem isSome_argument?_of_part {word : String} {allowed : Char → Bool}
    (hbrace : allowed '\x7d' = false) (h : (argument? word allowed part).isSome = true)
    (hpart : part <:+: line) : (argument? word allowed line).isSome = true := by
  obtain ⟨argument, hargument⟩ := Option.isSome_iff_exists.1 h
  have hmem := arguments_subset_of_part hbrace hpart (List.mem_of_head? hargument)
  cases hfound : arguments word allowed line with
  | nil => rw [hfound] at hmem; cases hmem
  | cons first others => rw [argument?, hfound]; rfl

/-- An opening marker in a part of a line is one in the line. -/
theorem hasOpening_of_part {kind : BlockKind} (h : hasOpening kind part = true)
    (hpart : part <:+: line) : hasOpening kind line = true := by
  cases kind with
  | comment => exact occursIn_of_part h hpart
  | conditional =>
    simp only [hasOpening, opens, condition?, Option.isSome_map] at h ⊢
    exact isSome_argument?_of_part (by decide) h hpart
  | repetition =>
    simp only [hasOpening, opens, listName?, Option.isSome_map] at h ⊢
    exact isSome_argument?_of_part (by decide) h hpart

/-- On a line that opens a block the opening marker of its kind stands. -/
theorem hasOpening_of_opens {kind : BlockKind} (h : opens kind line = true) :
    hasOpening kind line = true := by
  cases kind with
  | comment => exact occursIn_iff.2 (List.isPrefixOf_iff_prefix.1 h).isInfix
  | conditional | repetition => exact h

end Parts

/-! ### Parts of lines in their places -/

/-- Every one of some lines is a part of the line that stands `offset` places further on in
others. -/
def PartsAt (offset : Nat) (parts lines : List Line) : Prop :=
  ∀ n part, parts[n]? = some part → ∃ line, lines[offset + n]? = some line ∧ part <:+: line

namespace PartsAt

variable {offset more : Nat} {parts between lines : List Line}

/-- Lines are in their own places. -/
theorem refl (lines : List Line) : PartsAt 0 lines lines :=
  fun n part hpart => ⟨part, by rwa [Nat.zero_add], List.infix_refl part⟩

/-- Places add up over parts of parts. -/
theorem trans (h : PartsAt more parts between) (h' : PartsAt offset between lines) :
    PartsAt (offset + more) parts lines := by
  intro n part hpart
  obtain ⟨whole, hwhole, hinfix⟩ := h n part hpart
  obtain ⟨line, hline, hinfix'⟩ := h' _ whole hwhole
  exact ⟨line, by rwa [Nat.add_assoc], hinfix.trans hinfix'⟩

/-- What is located in parts is located in the lines that they are parts of. -/
theorem located (h : PartsAt offset parts lines) {warning : Error}
    (hlocated : warning.Located parts 0) : warning.Located lines offset := by
  cases hlocated with
  | unclosed hpart hmarker =>
    rw [Nat.zero_add] at hpart
    obtain ⟨line, hline, hinfix⟩ := h _ _ hpart
    exact .unclosed hline (hasOpening_of_part hmarker hinfix)
  | unmatched hpart hmarker =>
    rw [Nat.zero_add] at hpart
    obtain ⟨line, hline, hinfix⟩ := h _ _ hpart
    exact .unmatched hline (occursIn_of_part hmarker hinfix)

end PartsAt

/-! ### Bodies in their places -/

/-- How many lines further on the body begins than its block: it begins on the same line if the
block ends there. -/
def bodyOffset (kind : BlockKind) (line : Line) (rest : List Line) : Nat :=
  if endDistance? kind 0 (line :: rest) = some 0 then 0 else 1

section Blocks

variable (kind : BlockKind) (line : Line) (rest : List Line)

/-- The lines behind the first one are one place further on. -/
theorem partsAt_cons : PartsAt 1 rest (line :: rest) :=
  fun n part hpart => ⟨part, by rwa [Nat.add_comm, List.getElem?_cons_succ], List.infix_refl part⟩

/-- The body of a block is made of parts of the lines from its offset on. -/
theorem partsAt_body_cutBlock :
    PartsAt (bodyOffset kind line rest) (cutBlock kind line rest).body (line :: rest) := by
  intro n part hpart
  unfold bodyOffset
  unfold cutBlock at hpart
  split at hpart
  · next hdistance =>
    rw [hdistance, if_neg (by simp)]
    exact partsAt_cons line rest n part hpart
  · next hdistance =>
    -- The block ends on the line on which it opens, and its body is one part of this line.
    have hlength := length_inlineBody_le line
    obtain ⟨hlt, -⟩ := List.getElem?_eq_some_iff.1 hpart
    obtain rfl : n = 0 := by
      dsimp only at hlt
      omega
    obtain ⟨whole, hwhole, hinfix⟩ := partsOf_inlineBody line part (List.mem_of_getElem? hpart)
    obtain rfl := List.mem_singleton.1 hwhole
    exact ⟨whole, by rw [hdistance, if_pos rfl]; rfl, hinfix⟩
  · next hdistance =>
    have hlt := endDistance?_lt_length hdistance
    cases rest with
    | nil => simp at hlt
    | cons next rest =>
      cases n with
      | zero =>
        obtain rfl : closingPart next = part := Option.some.inj hpart
        exact ⟨next, by rw [hdistance, if_neg (by simp)]; rfl, infix_closingPart next⟩
      | succ n => cases hpart
  · next further hdistance =>
    rw [hdistance, if_neg (by simp)]
    dsimp only at hpart
    rw [List.getElem?_take] at hpart
    split at hpart
    · exact partsAt_cons line rest n part hpart
    · cases hpart

/-- What is left of a line behind the opening of a block is nothing or the line itself. -/
theorem getElem?_rest_cutBlock {n : Nat} {part : Line}
    (h : (cutBlock kind line rest).rest[n]? = some part) : part = [] ∨ rest[n]? = some part := by
  unfold cutBlock at h
  split at h
  · exact .inl (List.eq_of_mem_replicate (List.mem_of_getElem? h))
  · exact .inr h
  · cases n with
    | zero => exact .inl (Option.some.inj h).symm
    | succ n => exact .inr (by rwa [List.getElem?_cons_succ, List.getElem?_tail] at h)
  · next further hdistance =>
    dsimp only at h
    rw [List.getElem?_append, List.length_replicate] at h
    split at h
    · exact .inl (List.eq_of_mem_replicate (List.mem_of_getElem? h))
    · rw [List.getElem?_drop, Nat.add_sub_of_le (by omega)] at h
      exact .inr h

/-- The lines behind a block stay in their places, or are empty. -/
theorem partsAt_rest_cutBlock : PartsAt 1 (cutBlock kind line rest).rest (line :: rest) := by
  intro n part hpart
  rw [Nat.add_comm, List.getElem?_cons_succ]
  rcases getElem?_rest_cutBlock kind line rest hpart with rfl | hkept
  · obtain ⟨hlt, -⟩ := List.getElem?_eq_some_iff.1 hpart
    rw [length_rest_cutBlock] at hlt
    exact ⟨rest[n], List.getElem?_eq_getElem hlt, List.nil_infix⟩
  · exact ⟨part, hkept, List.infix_refl part⟩

end Blocks

/-- The lines from one that is met on are parts of lines further on. -/
theorem Meets.exists_partsAt {line : Line} {rest lines : List Line} (h : Meets line rest lines) :
    ∃ n, n + 1 + rest.length = lines.length ∧ PartsAt n (line :: rest) lines := by
  induction h with
  | here => exact ⟨0, MeetsAt.here.2, .refl _⟩
  | @comment first others hcomment hrest ih =>
    obtain ⟨n, hlength, hparts⟩ := ih
    rw [length_rest_cutBlock] at hlength
    exact ⟨1 + n, by rw [List.length_cons]; omega, hparts.trans (partsAt_rest_cutBlock _ _ _)⟩
  | @block first others opening hopens hrest ih =>
    obtain ⟨n, hlength, hparts⟩ := ih
    rw [length_rest_cutBlock] at hlength
    exact ⟨1 + n, by rw [List.length_cons]; omega, hparts.trans (partsAt_rest_cutBlock _ _ _)⟩
  | @plain first others hplain hrest ih =>
    obtain ⟨n, hlength, hparts⟩ := ih
    exact ⟨1 + n, by rw [List.length_cons]; omega, hparts.trans (partsAt_cons first others)⟩

/-- The number of lines in front of them tells where. -/
theorem MeetsAt.partsAt {n : Nat} {line : Line} {rest lines : List Line}
    (h : MeetsAt n line rest lines) : PartsAt n (line :: rest) lines := by
  obtain ⟨hmeets, hplace⟩ := h
  obtain ⟨other, hother, hparts⟩ := hmeets.exists_partsAt
  obtain rfl : other = n := by omega
  exact hparts

/-- A body is cut out of lines, and begins behind the first `offset` of them. -/
def CutsOutAt (lines : List Line) (offset : Nat) (body : List Line) : Prop :=
  ∃ n line rest, ∃ opening : Opening, MeetsAt n line rest lines ∧ opening.OpensOn line ∧
    body = (cutBlock opening.kind line rest).body ∧ offset = n + bodyOffset opening.kind line rest

/-- A body is made of parts of the lines that it is cut out of, in the places behind its offset. -/
theorem CutsOutAt.partsAt {lines body : List Line} {offset : Nat}
    (h : CutsOutAt lines offset body) : PartsAt offset body lines := by
  obtain ⟨n, line, rest, opening, hmeets, hopens, rfl, rfl⟩ := h
  exact (partsAt_body_cutBlock _ _ _).trans hmeets.partsAt

/-- One line more in front of the lines is one more in front of the body. -/
theorem CutsOutAt.behind {first : Line} {others lines body : List Line} {offset : Nat}
    (h : CutsOutAt lines offset body)
    (hbehind : ∀ {n line rest}, MeetsAt n line rest lines →
      MeetsAt (n + 1) line rest (first :: others)) :
    CutsOutAt (first :: others) (offset + 1) body := by
  obtain ⟨n, line, rest, opening, hmeets, hopens, rfl, rfl⟩ := h
  exact ⟨n + 1, line, rest, opening, hbehind hmeets, hopens, rfl, Nat.add_right_comm ..⟩

/-- Lines are compiled on the way: the given lines themselves, or a body that is cut out of such
ones. The first `offset` of the given lines stand in front of them. -/
inductive NestedAt (lines : List Line) : Nat → List Line → Prop
  | whole : NestedAt lines 0 lines
  | body {offset more : Nat} {own body : List Line} (howner : NestedAt lines offset own)
      (hcuts : CutsOutAt own more body) : NestedAt lines (offset + more) body

/-- Lines that are compiled on the way are parts of the given ones. -/
theorem NestedAt.partsAt {lines own : List Line} {offset : Nat} (h : NestedAt lines offset own) :
    PartsAt offset own lines := by
  induction h with
  | whole => exact .refl lines
  | body howner hcuts ih => exact hcuts.partsAt.trans ih

namespace Template

/-! ### Cutting -/

section Cutting

variable {IsBody : List Line → Template → Prop} {IsDocument : String → Template → Prop}
  {number : Nat} {lines left : List Line} {template changed : Template}

/-- A cut adds at most one warning: that its block is not closed. -/
theorem mem_ownWarnings_noteCut {kind : BlockKind} {cut : Cut} {warning : Error}
    (h : warning ∈ (template.noteCut kind number cut).ownWarnings) :
    warning ∈ template.ownWarnings ∨ warning = .unclosedBlock kind number := by
  unfold noteCut at h
  split at h
  · exact .inl h
  · exact (List.mem_append.1 h).imp_right List.mem_singleton.1

/-- Cutting warns of blocks without an end, with the number of the line on which they open. -/
theorem Cutting.ownWarnings (h : Cutting IsBody IsDocument number lines template left changed) :
    ∀ warning ∈ changed.ownWarnings, warning ∈ template.ownWarnings ∨
      ∃ kind n line rest, warning = .unclosedBlock kind (number + n) ∧ MeetsAt n line rest lines ∧
        opens kind line = true := by
  induction h with
  | done => exact fun warning hwarning => .inl hwarning
  | @comment number first others left template changed hcomment hrest ih =>
    intro warning hwarning
    rcases ih warning hwarning with hbefore | ⟨kind, n, line, rest, rfl, hmeets, hopens⟩
    · refine (mem_ownWarnings_noteCut hbefore).imp_right ?_
      rintro rfl
      exact ⟨.comment, 0, first, others, rfl, .here, hcomment⟩
    · exact .inr ⟨kind, n + 1, line, rest, by rw [Nat.add_right_comm, Nat.add_assoc],
        hmeets.comment hcomment, hopens⟩
  | @block number first others left opening template body changed hopens hopening hbody hrest ih =>
    intro warning hwarning
    rcases ih warning hwarning with hbefore | ⟨kind, n, line, rest, rfl, hmeets, hopens'⟩
    · rw [(Opening.gainsBody_addBody hopening _ body).ownWarnings] at hbefore
      refine (mem_ownWarnings_noteCut hbefore).imp_right ?_
      rintro rfl
      exact ⟨opening.kind, 0, first, others, rfl, .here, Opening.opens_kind_of_opensOn hopens⟩
    · exact .inr ⟨kind, n + 1, line, rest, by rw [Nat.add_right_comm, Nat.add_assoc],
        hmeets.block hopens, hopens'⟩
  | @plain number first others left template between changed hcomment hname hcondition
      hdocuments hrest ih =>
    intro warning hwarning
    obtain ⟨includes, rfl⟩ := hdocuments.exists_eq
    refine (ih warning hwarning).imp_right ?_
    rintro ⟨kind, n, line, rest, rfl, hmeets, hopens⟩
    exact ⟨kind, n + 1, line, rest, by rw [Nat.add_right_comm, Nat.add_assoc],
      hmeets.plain ⟨hcomment, hname, hcondition⟩, hopens⟩

end Cutting

/-! ### Reading -/

section Reading

variable {number : Nat} {template changed : Template} {pieces : List Piece}

/-- One step of reading takes up a beginning of the text, and warns only if this closes a block. -/
theorem ReadStep.ownWarnings {cs rest : List Char}
    (h : ReadStep number cs template pieces rest changed) :
    rest <:+ cs ∧ ∀ warning ∈ changed.ownWarnings, warning ∈ template.ownWarnings ∨
      ∃ kind, warning = .unmatchedClose kind number ∧ occursIn (closingMarker kind) cs = true := by
  cases h with
  | escape hbrace => exact ⟨⟨['\\', _], rfl⟩, fun warning hwarning => .inl hwarning⟩
  | char => exact ⟨List.suffix_cons _ _, fun warning hwarning => .inl hwarning⟩
  | @stray content _ _ kind hbraces hmeaning =>
    refine ⟨⟨'\x7b' :: (content ++ ['\x7d']), by simp⟩, fun warning hwarning => ?_⟩
    refine (List.mem_append.1 hwarning).imp_right fun hnew => ⟨kind, List.mem_singleton.1 hnew, ?_⟩
    rw [(closing_of_meaning hmeaning).2]
    exact occursIn_iff.2 ⟨[], rest, by simp [closingMarker]⟩
  | @segment content _ _ found hbraces hmeaning =>
    refine ⟨⟨'\x7b' :: (content ++ ['\x7d']), by simp⟩, fun warning hwarning => .inl ?_⟩
    cases found <;> exact hwarning
  | @expression content _ _ _ source hbraces hmeaning hadd =>
    refine ⟨⟨'\x7b' :: (content ++ ['\x7d']), by simp⟩, fun warning hwarning => .inl ?_⟩
    unfold addExpression at hadd
    split at hadd
    · cases hadd
      exact hwarning
    · split at hadd <;> cases hadd
      exact hwarning

/-- Reading a line adds no warning but those about closing markers that stand in it. -/
theorem Reading.ownWarnings {cs : List Char} (h : Reading number cs template pieces changed) :
    ∀ warning ∈ changed.ownWarnings, warning ∈ template.ownWarnings ∨
      ∃ kind, warning = .unmatchedClose kind number ∧ occursIn (closingMarker kind) cs = true := by
  induction h with
  | done => exact fun warning hwarning => .inl hwarning
  | step hstep hrest ih =>
    obtain ⟨hsuffix, hfirst⟩ := hstep.ownWarnings
    intro warning hwarning
    rcases ih warning hwarning with hbetween | ⟨kind, rfl, hcloses⟩
    · exact hfirst warning hbetween
    · exact .inr ⟨kind, rfl, occursIn_of_part hcloses hsuffix.isInfix⟩

/-- Reading lines adds no warning but those about closing markers, each with the number of the line
in which the marker stands. -/
theorem ownWarnings_of_readLines {lines : List Line}
    (h : readLines number lines template = .ok (pieces, changed)) :
    ∀ warning ∈ changed.ownWarnings, warning ∈ template.ownWarnings ∨
      ∃ kind n line, warning = .unmatchedClose kind (number + n) ∧ lines[n]? = some line ∧
        occursIn (closingMarker kind) line = true := by
  induction lines generalizing number template pieces with
  | nil =>
    cases h
    exact fun warning hwarning => .inl hwarning
  | cons line lines ih =>
    obtain ⟨first, between, more, hline, hlines, rfl⟩ := exists_of_readLines_cons h
    intro warning hwarning
    rcases ih hlines warning hwarning with hbetween | ⟨kind, n, other, rfl, hother, hcloses⟩
    · refine ((reading_of_readLine hline).ownWarnings warning hbetween).imp_right ?_
      rintro ⟨kind, rfl, hcloses⟩
      exact ⟨kind, 0, line, rfl, rfl, hcloses⟩
    · exact .inr ⟨kind, 1 + n, other, by rw [Nat.add_assoc],
        by rwa [Nat.add_comm, List.getElem?_cons_succ], hcloses⟩

end Reading

/-! ### Compiled nodes -/

/-- In the text of a placeholder stands no closing marker. -/
theorem occursIn_placeholder {placeholder : Placeholder} (h : BraceFree placeholder.key.toList)
    (kind : BlockKind) : occursIn (closingMarker kind) placeholder.text = false := by
  have hbraces := Placeholder.braceFree_content_of_key h
  have hslash : ∀ more, placeholder.content ++ ['\x7d'] ≠ '/' :: more := by
    intro more heq
    cases hkind : placeholder.kind <;> simp [Placeholder.content, hkind, PlaceholderKind.tag] at heq
  rw [occursIn_eq_false_iff]
  intro hinfix
  rcases List.infix_cons_iff.1 hinfix with ⟨more, heq⟩ | hinfix
  · exact hslash _ (List.cons.inj heq).2.symm
  · have hmem : '\x7b' ∈ placeholder.content ++ ['\x7d'] := hinfix.subset List.mem_cons_self
    rcases List.mem_append.1 hmem with hmem | hmem
    · exact (hbraces _ hmem).1 rfl
    · exact absurd (List.mem_singleton.1 hmem) (by decide)

section Nodes

variable {IsBody : List Line → Template → Prop} {IsDocument : String → Template → Prop}
  {lines : List Line} {node : Template}

/-- The warnings of a node name the right lines of those that it is compiled from. -/
theorem Course.located (h : Course IsBody IsDocument lines node) :
    ∀ warning ∈ node.ownWarnings, warning.Located lines 0 := by
  have hline : ∀ {n : Nat} {line : Line} {rest : List Line}, MeetsAt n line rest lines →
      ∃ whole, lines[0 + n]? = some whole ∧ line <:+: whole := fun hmeets =>
    Nat.zero_add _ ▸ hmeets.partsAt 0 _ rfl
  obtain ⟨hcutting, hreading⟩ := h
  rename_i name left cut read pieces
  intro warning hwarning
  rcases ownWarnings_of_readLines hreading warning hwarning with
    hcut | ⟨kind, n, line, rfl, hleft, hmarker⟩
  · rcases hcutting.ownWarnings warning hcut with
      hempty | ⟨kind, n, line, rest, rfl, hmeets, hopens⟩
    · cases hempty
    · obtain ⟨whole, hwhole, hinfix⟩ := hline hmeets
      rw [Nat.add_comm]
      exact .unclosed hwhole (hasOpening_of_part (hasOpening_of_opens hopens) hinfix)
  · rcases hcutting.left_cases hleft with rfl | ⟨placeholder, hkey, rfl⟩ | ⟨rest, hmeets, -⟩
    · cases hmarker
    · rw [occursIn_placeholder hkey] at hmarker
      cases hmarker
    · obtain ⟨whole, hwhole, hinfix⟩ := hline hmeets
      rw [Nat.add_comm]
      exact .unmatched hwhole (occursIn_of_part hmarker hinfix)

/-- What stands below a node that has gained documents was there before or is one of them. -/
theorem GainsDocuments.children_cases {template changed : Template}
    (h : GainsDocuments IsDocument template changed) {child : Template}
    (hchild : child ∈ changed.children) :
    child ∈ template.children ∨ ∃ path, IsDocument path child := by
  induction h with
  | done => exact .inl hchild
  | @step template changed path document hdocument hmissing hrest ih =>
    rcases ih hchild with hbetween | hfound
    · rcases mem_children_iff.1 hbetween with hbody | hincluded
      · exact .inl (mem_children_iff.2 (.inl hbody))
      · obtain ⟨entry, hentry, rfl⟩ := List.mem_map.1 hincluded
        rcases Table.mem_of_mem_insert hentry with hold | rfl
        · exact .inl (mem_children_of_includes hold)
        · exact .inr ⟨path, hdocument⟩
    · exact .inr hfound

/-- Cutting adds bodies that were cut out of the lines, and included documents. -/
theorem Cutting.children_cases {number : Nat} {left : List Line} {template changed : Template}
    (h : Cutting IsBody IsDocument number lines template left changed) {child : Template}
    (hchild : child ∈ changed.children) : child ∈ template.children ∨
      (∃ offset body, CutsOutAt lines offset body ∧ IsBody body child) ∨
        ∃ path, IsDocument path child := by
  induction h with
  | done => exact .inl hchild
  | @comment number first others left template changed hcomment hrest ih =>
    rw [children_noteCut] at ih
    refine (ih hchild).imp_right (Or.imp_left ?_)
    rintro ⟨offset, body, hcuts, hbody⟩
    exact ⟨_, body, hcuts.behind fun hmeets => hmeets.comment hcomment, hbody⟩
  | @block number first others left opening template body changed hopens hopening hbody hrest ih =>
    rcases ih hchild with hbefore | ⟨offset, own, hcuts, hown⟩ | hdocument
    · rcases (Opening.gainsBody_addBody hopening _ body).mem_children hbefore with hold | rfl
      · exact .inl (children_noteCut template _ _ _ ▸ hold)
      · exact .inr (.inl ⟨_, _, ⟨0, first, others, opening, .here, hopens, rfl, rfl⟩, hbody⟩)
    · exact .inr (.inl ⟨_, own, hcuts.behind fun hmeets => hmeets.block hopens, hown⟩)
    · exact .inr (.inr hdocument)
  | @plain number first others left template between changed hcomment hname hcondition
      hdocuments hrest ih =>
    rcases ih hchild with hbefore | ⟨offset, own, hcuts, hown⟩ | hdocument
    · exact (hdocuments.children_cases hbefore).imp_right .inr
    · exact .inr (.inl ⟨_, own,
        hcuts.behind fun hmeets => hmeets.plain ⟨hcomment, hname, hcondition⟩, hown⟩)
    · exact .inr (.inr hdocument)

/-- What stands below a compiled node is a body that was cut out of its lines, or an included
document. -/
theorem Course.children_cases (h : Course IsBody IsDocument lines node) {child : Template}
    (hchild : child ∈ node.children) :
    (∃ offset body, CutsOutAt lines offset body ∧ IsBody body child) ∨
      ∃ path, IsDocument path child := by
  obtain ⟨hcutting, hreading⟩ := h
  rename_i name left cut read pieces
  have hretains := retains_of_readLines hreading
  change child ∈ read.children at hchild
  rw [children, hretains.conditionals, hretains.repetitions, hretains.includes] at hchild
  exact (hcutting.children_cases hchild).resolve_left List.not_mem_nil

end Nodes

/-! ### Whole documents -/

/-- Without a loader no document can be included. -/
theorem compilePath_none (depth : Nat) (path : String) (document : Template) :
    compilePath .none depth path [] ≠ (.ok document, []) := by
  intro hrun
  cases depth with
  | zero => cases hrun
  | succ depth =>
    rw [compilePath_of_error List.not_mem_nil rfl] at hrun
    cases hrun

/-- Without included documents every warning is one of a node below that is compiled from nested
lines. -/
theorem Compiles.exists_nested {depth : Nat} {lines own : List Line} {template : Template}
    {offset : Nat}
    (h : Compiles (compilePath .none depth) [] own template)
    (hkeys : template.Everywhere KeysDistinct) (hnested : NestedAt lines offset own) :
    ∀ warning ∈ template.warnings, ∃ offset own address node, NestedAt lines offset own ∧
      Compiles (compilePath .none depth) [] own node ∧ template.nodeAt? address = some node ∧
      warning ∈ node.ownWarnings := by
  induction template using children_induction generalizing own offset with
  | node template ih =>
    intro warning hwarning
    rw [warnings_eq, List.mem_append, List.mem_flatMap] at hwarning
    rcases hwarning with hown | ⟨child, hchild, hbelow⟩
    · exact ⟨offset, own, [], template, hnested, h, rfl, hown⟩
    · have hcourse := h.course fun path => restores_compilePath .none depth path []
      rcases hcourse.children_cases hchild with ⟨more, body, hcuts, hbody⟩ | ⟨path, hdocument⟩
      · obtain ⟨step, hstep⟩ := hkeys.here.exists_child? hchild
        obtain ⟨offset, own, address, node, hlines, hnode, haddress, hown⟩ :=
          ih child hchild hbody (hkeys.of_mem_children hchild) (hnested.body hcuts) warning hbelow
        exact ⟨offset, own, step :: address, node, hlines, hnode,
          by rw [nodeAt?_cons, hstep, Option.bind_some, haddress], hown⟩
      · exact absurd hdocument (compilePath_none depth path child)

end Template

open Template

/-- The warnings of a node name the right lines of those that it is compiled from. So those of the
root name the right lines of the text, and those of a body the right ones behind the lines in front
of it. -/
theorem located_of_mem_warnings {text : String} {template : Template}
    (h : compileText .none text = .ok template) :
    (∀ warning ∈ template.ownWarnings, warning.Located (splitLines text.toList) 0) ∧
    ∀ warning ∈ template.warnings, ∃ offset own name address node,
      NestedAt (splitLines text.toList) offset own ∧
      (Compiler.compile ⟨.none, []⟩ name own).1 = .ok node ∧
      template.nodeAt? address = some node ∧ warning ∈ node.ownWarnings ∧
      warning.Located own 0 ∧ warning.Located (splitLines text.toList) offset := by
  have hrestores := fun path => restores_compilePath .none Loader.none.depth path []
  have hcompiles :
      Compiles (compilePath .none Loader.none.depth) [] (splitLines text.toList) template :=
    .of_ok hrestores h
  have hproduces : Compiler.Produces ⟨.none, []⟩ template := .lines h
  have hkeys := hproduces.everywhere grown_keysDistinct
  refine ⟨(hcompiles.course hrestores).located, fun warning hwarning => ?_⟩
  obtain ⟨offset, own, address, node, hnested, hnode, haddress, hown⟩ :=
    hcompiles.exists_nested hkeys .whole warning hwarning
  have hlocated := (hnode.course hrestores).located warning hown
  obtain ⟨name, hrun⟩ := hnode
  exact ⟨offset, own, name, address, node, hnested, congrArg Prod.fst hrun, haddress,
    hown, hlocated, hnested.partsAt.located hlocated⟩

/-- The body of the conditional closes a repetition that it has not opened, and opens one that it
does not close. -/
def askew : String :=
  "x\n\x7bif a\x7d\n\x7b/foreach\x7d\n\x7bforeach b\x7d\n\x7b/if\x7d\n"

/-- In the skewed text every warning is counted from the beginning of the body that it belongs
to. -/
theorem located_of_mem_warnings_askew :
    ∃ template, compileText .none askew = .ok template ∧
      (∀ warning ∈ template.ownWarnings, warning.Located (splitLines askew.toList) 0) ∧
      ∀ warning ∈ template.warnings, ∃ offset own name address node,
        NestedAt (splitLines askew.toList) offset own ∧
        (Compiler.compile ⟨.none, []⟩ name own).1 = .ok node ∧
        template.nodeAt? address = some node ∧ warning ∈ node.ownWarnings ∧
        warning.Located own 0 ∧ warning.Located (splitLines askew.toList) offset := by
  have hcompile : (compileText .none askew).toOption.isSome = true := by decide +kernel
  obtain ⟨template, htemplate⟩ := Option.isSome_iff_exists.1 hcompile
  have hrun := eq_ok_of_toOption htemplate
  exact ⟨template, hrun, located_of_mem_warnings hrun⟩

/-- The markers stand in the third and in the fourth line of the text, and in the first and in the
second one of the body. -/
theorem warnings_askew :
    ∃ template, compileText .none askew = .ok template ∧
      .unmatchedClose .repetition 1 ∈ template.warnings ∧
      .unclosedBlock .repetition 2 ∈ template.warnings ∧
      ¬ Error.Located (splitLines askew.toList) 0 (.unmatchedClose .repetition 1) ∧
      ¬ Error.Located (splitLines askew.toList) 0 (.unclosedBlock .repetition 2) := by
  have hcompile : ((compileText .none askew).toOption.bind fun template =>
      (template.conditional? "a" 0).map (·.ownWarnings)) =
        some [.unclosedBlock .repetition 2, .unmatchedClose .repetition 1] := by decide +kernel
  obtain ⟨template, htemplate, hchild⟩ := Option.bind_eq_some_iff.1 hcompile
  obtain ⟨child, hchild, hown⟩ := Option.map_eq_some_iff.1 hchild
  have hbelow : ∀ warning ∈ child.ownWarnings, warning ∈ template.warnings := by
    intro warning hwarning
    rw [warnings_eq, List.mem_append, List.mem_flatMap]
    refine .inr ⟨child, mem_children_of_conditional? hchild, ?_⟩
    rw [warnings_eq]
    exact List.mem_append_left _ hwarning
  rw [hown] at hbelow
  refine ⟨template, eq_ok_of_toOption htemplate, hbelow _ (by simp), hbelow _ (by simp), ?_, ?_⟩
  · intro hlocated
    cases hlocated with
    | unmatched hline hmarker =>
      obtain rfl := Option.some.inj hline
      exact absurd hmarker (by decide +kernel)
  · intro hlocated
    cases hlocated with
    | unclosed hline hmarker =>
      obtain rfl := Option.some.inj hline
      exact absurd hmarker (by decide +kernel)

end BraceTemplate
