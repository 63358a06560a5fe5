import BraceTemplate.Template.Cut

/-!
# Opening markers in a line

A line has the marker `{word argument}` wherever the marker stands in it, whatever follows. So parts
of a line have no other markers than the line, and the same goes for all lines of a block body,
since these are parts of the lines that the block covers.
-/

namespace BraceTemplate

/-! ### Markers at the beginning of a text -/

/-- Behind a prefix the rest is left. -/
theorem afterPrefix?_append (word rest : List Char) :
    afterPrefix? word (word ++ rest) = some rest := by
  induction word with
  | nil => rfl
  | cons c word ih => rw [List.cons_append, afterPrefix?, if_pos rfl, ih]

/-- A text is taken up to the first character that does not pass. -/
theorem takeWhile_append_of_stop {p : Char → Bool} {c : Char} {argument : List Char}
    (hargument : ∀ c ∈ argument, p c = true) (hstop : p c = false) (more : List Char) :
    (argument ++ c :: more).takeWhile p = argument ∧
      (argument ++ c :: more).dropWhile p = c :: more := by
  rw [List.takeWhile_append_of_pos hargument, List.dropWhile_append_of_pos hargument,
    List.takeWhile_cons_of_neg (by simp [hstop]), List.dropWhile_cons_of_neg (by simp [hstop])]
  simp

/-- A text begins with a marker if it begins with the word, a blank, an argument of allowed
characters and a closing brace. -/
theorem argumentAt?_eq_some_iff {word : String} {allowed : Char → Bool} {cs argument : List Char}
    (hbrace : allowed '\x7d' = false) :
    argumentAt? word allowed cs = some argument ↔
      ∃ blank more, cs = '\x7b' :: word.toList ++ blank :: (argument ++ '\x7d' :: more) ∧
        isBlank blank = true ∧ argument ≠ [] ∧ ∀ c ∈ argument, allowed c = true := by
  constructor
  · intro h
    unfold argumentAt? at h
    split at h
    · next blank rest hprefix =>
      simp only [Option.ite_none_right_eq_some, Option.some.injEq, Bool.and_eq_true,
        Bool.not_eq_true', List.isEmpty_eq_false_iff, beq_iff_eq] at h
      obtain ⟨⟨⟨hblank, hne⟩, hclose⟩, rfl⟩ := h
      obtain ⟨more, hmore⟩ := List.head?_eq_some_iff.1 hclose
      refine ⟨blank, more, ?_, hblank, hne, ?_⟩
      · rw [← hmore, List.takeWhile_append_dropWhile]
        exact eq_of_afterPrefix? hprefix
      · intro c hc
        exact List.all_eq_true.1 List.all_takeWhile c hc
    · simp at h
  · rintro ⟨blank, more, rfl, hblank, hne, hargument⟩
    have hsplit := takeWhile_append_of_stop hargument hbrace more
    rw [argumentAt?, afterPrefix?_append]
    simp [hsplit, hblank, hne]

/-! ### Markers anywhere in a text -/

/-- The arguments in a text are those of the markers that begin in it. -/
theorem mem_arguments_iff {word : String} {allowed : Char → Bool} {cs argument : List Char} :
    argument ∈ arguments word allowed cs ↔
      ∃ suffix, suffix <:+ cs ∧ argumentAt? word allowed suffix = some argument := by
  induction cs with
  | nil =>
    simp only [arguments, List.not_mem_nil, List.suffix_nil, false_iff, not_exists, not_and]
    rintro suffix rfl
    simp [argumentAt?, afterPrefix?]
  | cons c cs ih =>
    have hcons : argument ∈ arguments word allowed (c :: cs) ↔
        argumentAt? word allowed (c :: cs) = some argument ∨
          argument ∈ arguments word allowed cs := by
      rw [arguments]
      split
      · next found hfound => simp [hfound, eq_comm]
      · next hnone => simp [hnone]
    rw [hcons, ih]
    constructor
    · rintro (hhere | ⟨suffix, hsuffix, hfound⟩)
      · exact ⟨_, List.suffix_refl _, hhere⟩
      · exact ⟨suffix, hsuffix.trans (List.suffix_cons c cs), hfound⟩
    · rintro ⟨suffix, hsuffix, hfound⟩
      rcases List.suffix_cons_iff.1 hsuffix with rfl | hsuffix
      · exact .inl hfound
      · exact .inr ⟨suffix, hsuffix, hfound⟩

/-- A part of a text has no other markers than the text. -/
theorem arguments_subset_of_part {word : String} {allowed : Char → Bool} {part cs : List Char}
    (hbrace : allowed '\x7d' = false) (h : part <:+: cs) :
    arguments word allowed part ⊆ arguments word allowed cs := by
  intro argument hargument
  obtain ⟨before, after, rfl⟩ := h
  obtain ⟨suffix, ⟨skipped, rfl⟩, hfound⟩ := mem_arguments_iff.1 hargument
  obtain ⟨blank, more, rfl, hblank, hne, hallowed⟩ := (argumentAt?_eq_some_iff hbrace).1 hfound
  refine mem_arguments_iff.2
    ⟨'\x7b' :: word.toList ++ blank :: (argument ++ '\x7d' :: more) ++ after,
    ⟨before ++ skipped, by simp⟩, ?_⟩
  refine (argumentAt?_eq_some_iff hbrace).2 ⟨blank, more ++ after, by simp, hblank, hne, hallowed⟩

/-- The paths that the include markers of lines name. -/
def documentPaths (lines : List Line) : List String :=
  lines.flatMap includePaths

/-- A part of a line includes no further documents. -/
theorem includePaths_subset_of_part {part line : Line} (h : part <:+: line) :
    includePaths part ⊆ includePaths line :=
  List.map_subset _ (arguments_subset_of_part (by decide) h)

/-- The content of an include marker is the word, a blank and a path. -/
theorem mem_includePaths_of_content {content path : List Char} {blank : Char}
    (hcontent : content = "include".toList ++ blank :: path) (hblank : isBlank blank = true)
    (hpath : isPath path = true) (rest : List Char) :
    String.ofList path ∈ includePaths ('\x7b' :: (content ++ '\x7d' :: rest)) := by
  rw [isPath, Bool.and_eq_true, Bool.not_eq_true', List.isEmpty_eq_false_iff,
    List.all_eq_true] at hpath
  refine List.mem_map_of_mem (mem_arguments_iff.2 ⟨_, List.suffix_refl _, ?_⟩)
  refine (argumentAt?_eq_some_iff (by decide)).2 ⟨blank, rest, ?_, hblank, hpath.1, hpath.2⟩
  rw [hcontent]
  simp

/-! ### Lines of a block -/

/-- Every line of the one list is a part of a line of the other one. -/
def PartsOf (parts lines : List Line) : Prop :=
  ∀ part ∈ parts, ∃ line ∈ lines, part <:+: line

/-- Parts of parts are parts. -/
theorem PartsOf.trans {parts between lines : List Line} (h : PartsOf parts between)
    (h' : PartsOf between lines) : PartsOf parts lines := by
  intro part hpart
  obtain ⟨whole, hwhole, hinfix⟩ := h part hpart
  obtain ⟨line, hline, hinfix'⟩ := h' whole hwhole
  exact ⟨line, hline, hinfix.trans hinfix'⟩

/-- Parts of lines ask for no further documents. -/
theorem documentPaths_subset_of_partsOf {parts lines : List Line} (h : PartsOf parts lines) :
    documentPaths parts ⊆ documentPaths lines := by
  intro path hpath
  obtain ⟨part, hpart, hmem⟩ := List.mem_flatMap.1 hpath
  obtain ⟨line, hline, hinfix⟩ := h part hpart
  exact List.mem_flatMap.2 ⟨line, hline, includePaths_subset_of_part hinfix hmem⟩

/-- A body within a line is a part of the line. -/
theorem partsOf_inlineBody (line : Line) : PartsOf (inlineBody line) [line] := by
  intro part hpart
  refine ⟨line, List.mem_singleton_self line, ?_⟩
  unfold inlineBody at hpart
  split at hpart
  · next before rest hfirst =>
    split at hpart
    · next body after hlast =>
      obtain rfl := List.mem_singleton.1 hpart
      rw [eq_of_splitFirst? hfirst, eq_of_splitLast? hlast]
      exact ⟨before ++ ['\x7d'], '\x7b' :: after, by simp⟩
    · simp at hpart
  · simp at hpart

/-- The part of a closing line that belongs to the body is a part of the line. -/
theorem infix_closingPart (line : Line) : closingPart line <:+: line := by
  unfold closingPart
  split
  · next body after hlast =>
    rw [eq_of_splitLast? hlast]
    exact ⟨[], '\x7b' :: after, by simp⟩
  · exact List.nil_infix

/-- Some of the lines are parts of the lines. -/
theorem partsOf_of_subset {parts lines : List Line} (h : parts ⊆ lines) : PartsOf parts lines :=
  fun part hpart => ⟨part, h hpart, List.infix_refl part⟩

/-- The body of a block is made of parts of the lines that the block covers. -/
theorem partsOf_body_cutBlock (kind : BlockKind) (line : Line) (rest : List Line) :
    PartsOf (cutBlock kind line rest).body (line :: rest) := by
  unfold cutBlock
  split
  · exact partsOf_of_subset (List.subset_cons_self line rest)
  · intro part hpart
    obtain ⟨whole, hwhole, hinfix⟩ := partsOf_inlineBody line part hpart
    obtain rfl := List.mem_singleton.1 hwhole
    exact ⟨whole, List.mem_cons_self, hinfix⟩
  · intro part hpart
    obtain rfl := List.mem_singleton.1 hpart
    cases rest with
    | nil => exact ⟨line, List.mem_cons_self, List.nil_infix⟩
    | cons next rest => exact ⟨next, by simp, infix_closingPart next⟩
  · exact partsOf_of_subset fun part hpart => List.mem_cons_of_mem _ (List.mem_of_mem_take hpart)

/-- The lines behind a block are left as they are or empty. -/
theorem partsOf_rest_cutBlock (kind : BlockKind) (line : Line) (rest : List Line) :
    PartsOf (cutBlock kind line rest).rest (line :: rest) := by
  have hempty : ∀ part : Line, part = [] → ∃ whole ∈ line :: rest, part <:+: whole := by
    rintro part rfl
    exact ⟨line, List.mem_cons_self, List.nil_infix⟩
  have hkept : ∀ part ∈ rest, ∃ whole ∈ line :: rest, part <:+: whole := fun part hpart =>
    ⟨part, List.mem_cons_of_mem _ hpart, List.infix_refl part⟩
  intro part hpart
  unfold cutBlock at hpart
  split at hpart
  · exact hempty part (List.eq_of_mem_replicate hpart)
  · exact hkept part hpart
  · rcases List.mem_cons.1 hpart with hnil | hpart
    · exact hempty part hnil
    · exact hkept part (List.mem_of_mem_tail hpart)
  · rcases List.mem_append.1 hpart with hnil | hpart
    · exact hempty part (List.eq_of_mem_replicate hnil)
    · exact hkept part (List.mem_of_mem_drop hpart)

end BraceTemplate
