import BraceTemplate.Proofs.Template.Escaping
import BraceTemplate.Proofs.Template.Growth
import BraceTemplate.Proofs.Template.Splitting

/-!
# Backslashes in front of opening braces

Where lines are read into segments a backslash takes the meaning from the brace behind it. The
markers that open a block or include a document are looked for in a line as it stands, and there a
backslash does not count. So lines in which every opening brace stands behind a backslash are text,
but only as long as no such marker is found in them; a backslash in front of the closing braces sees
to that.
-/

namespace BraceTemplate

open CompileM (Yields)

/-- In a line every occurrence of a brace stands directly behind a backslash. The first character
counts as standing behind a line feed. -/
def Escapes (brace : Char) (line : Line) : Prop :=
  ('\n' :: line).IsChain fun c d => d = brace → c = '\\'

instance (brace : Char) (line : Line) : Decidable (Escapes brace line) :=
  inferInstanceAs (Decidable (('\n' :: line).IsChain fun c d => d = brace → c = '\\'))

/-- The text with every backslash left out that stands in front of a brace. -/
def unescape : List Char → List Char
  | [] => []
  | '\\' :: '\x7b' :: cs => '\x7b' :: unescape cs
  | '\\' :: '\x7d' :: cs => '\x7d' :: unescape cs
  | c :: cs => c :: unescape cs

namespace Escapes

variable {line : Line}

/-- A comment opens with a brace that nothing stands in front of. -/
theorem opens_comment (h : Escapes '\x7b' line) : opens .comment line = false := by
  cases line with
  | nil => rfl
  | cons c line =>
    have hne : c ≠ '\x7b' := fun heq => absurd ((List.isChain_cons_cons.1 h).1 heq) (by decide)
    rw [opens, List.isPrefixOf_cons_cons, beq_false_of_ne hne.symm]
    rfl

/-- A marker without a backslash in front of its closing brace is none if all of these have one. -/
theorem arguments_eq_nil (h : Escapes '\x7d' line) {word : String} {allowed : Char → Bool}
    (hbrace : allowed '\x7d' = false) (hescape : allowed '\\' = false) :
    arguments word allowed line = [] := by
  rw [List.eq_nil_iff_forall_not_mem]
  intro argument hargument
  obtain ⟨suffix, ⟨before, rfl⟩, hfound⟩ := mem_arguments_iff.1 hargument
  obtain ⟨blank, more, rfl, -, hne, hallowed⟩ := (argumentAt?_eq_some_iff hbrace).1 hfound
  obtain ⟨init, last, rfl⟩ := (List.eq_nil_or_concat' argument).resolve_left hne
  have hpart : [last, '\x7d'] <:+: '\n' :: (before ++ ('\x7b' :: word.toList ++
      blank :: (init ++ [last] ++ '\x7d' :: more))) :=
    ⟨'\n' :: (before ++ '\x7b' :: word.toList ++ blank :: init), more, by simp⟩
  have hpair := List.IsChain.infix h hpart
  obtain rfl : last = '\\' := List.isChain_pair.1 hpair rfl
  rw [hallowed '\\' (by simp)] at hescape
  cases hescape

/-- What stands behind a character is escaped on its own, unless it begins with a brace that the
character escapes. -/
theorem of_isChain {brace c : Char} {cs : List Char}
    (h : (c :: cs).IsChain fun c d => d = brace → c = '\\')
    (hc : c = '\\' → cs.head? ≠ some brace) : Escapes brace cs := by
  rw [List.isChain_cons] at h
  refine List.isChain_cons.2 ⟨fun d hd heq => ?_, h.2⟩
  subst heq
  exact absurd hd (hc (h.1 d hd rfl))

/-- A line whose braces are all escaped does nothing. -/
theorem inert (hopen : Escapes '\x7b' line) (hclose : Escapes '\x7d' line) : Inert line :=
  inert_of_arguments_eq_nil hopen.opens_comment (hclose.arguments_eq_nil (by decide) (by decide))
    (hclose.arguments_eq_nil (by decide) (by decide))
    (hclose.arguments_eq_nil (by decide) (by decide))

end Escapes

namespace Template

/-! ### Reading -/

/-- Every character is read as text, as no brace is left that could open a marker. -/
theorem readLine_of_escapes {cs : List Char} (h : Escapes '\x7b' cs) (number : Nat)
    (template : Template) :
    readLine number cs template = .ok ((unescape cs).map .char, template) := by
  fun_induction unescape cs with
  | case1 => rw [readLine]; rfl
  | case2 cs ih | case3 cs ih =>
    have hbehind := (List.isChain_cons_cons.1 (List.isChain_cons_cons.1 h).2).2
    rw [readLine, ih (Escapes.of_isChain hbehind fun heq => absurd heq (by decide))]
    rfl
  | case4 c cs hopen hclose ih =>
    have hne : c ≠ '\x7b' := fun heq => absurd ((List.isChain_cons_cons.1 h).1 heq) (by decide)
    have hrest : Escapes '\x7b' cs := by
      refine Escapes.of_isChain (List.isChain_cons_cons.1 h).2 fun hc hhead => ?_
      obtain ⟨rest, rfl⟩ := List.head?_eq_some_iff.1 hhead
      exact hopen rest hc rfl
    rw [readLine, ih hrest]
    · rfl
    · exact hopen
    · exact hclose
    · exact hne

/-- Lines without a brace that opens are read as their characters, the backslashes in front of
braces left out. -/
theorem readLines_of_escapes {lines : List Line} (h : ∀ line ∈ lines, Escapes '\x7b' line)
    (number : Nat) (template : Template) :
    readLines number lines template = .ok ((lines.flatMap unescape).map .char, template) := by
  induction lines generalizing number with
  | nil => rfl
  | cons line lines ih =>
    rw [List.forall_mem_cons] at h
    rw [List.flatMap_cons, List.map_append]
    exact readLines_cons (readLine_of_escapes h.1 number template) (ih h.2 (number + 1))

/-- Characters make up a text that does not depend on the node. -/
theorem renderSegments_chars (template : Template) (text : List Char) :
    template.renderSegments (Piece.segments (text.map .char)) [] = String.ofList text := by
  have hgather := Piece.gather_chars text []
  rw [List.append_nil, Piece.gather, List.append_nil] at hgather
  rw [Piece.segments, hgather]
  cases text with
  | nil => rw [Piece.flush, renderSegments]
  | cons c cs =>
    rw [Piece.flush, renderSegments, renderSegments]
    · exact String.append_empty
    · simp

/-! ### Cutting -/

/-- Something has been compiled into a node: the body of a block or a document. -/
def Extended (template : Template) : Prop :=
  (∃ placeholder, (template.body? placeholder).isSome = true) ∨
    ∃ path, (template.include? path).isSome = true

/-- A node into which something has been compiled stays so while it grows. -/
theorem Extended.of_grows {before after : Template} (h : before.Extended)
    (hgrows : before.Grows after) : after.Extended := by
  rcases h with ⟨placeholder, hbody⟩ | ⟨path, hdocument⟩
  · exact .inl ⟨placeholder, hgrows.isSome_body? hbody⟩
  · exact .inr ⟨path, hgrows.isSome_include? hdocument⟩

/-- A node into which something has been compiled has something below it. -/
theorem Extended.children_ne_nil {template : Template} (h : template.Extended) :
    template.children ≠ [] := by
  rcases h with ⟨placeholder, hbody⟩ | ⟨path, hdocument⟩
  · obtain ⟨body, hfound⟩ := Option.isSome_iff_exists.1 hbody
    exact List.ne_nil_of_mem (mem_children_iff.2
      (.inl ⟨placeholder.kind, Table.mem_flatMap_of_getAt? hfound⟩))
  · obtain ⟨document, hfound⟩ := Option.isSome_iff_exists.1 hdocument
    exact List.ne_nil_of_mem (mem_children_iff.2
      (.inr (List.mem_map_of_mem (Table.mem_of_get? hfound))))

section Extending

variable {openPaths : List String} {resolve : String → CompileM Template}

/-- Including paths, if there are any, compiles something into the node. -/
theorem yields_addIncludes_extended
    (hresolve : ∀ path, Yields openPaths (resolve path) (fun _ => True) fun _ => True)
    {paths : List String} (h : paths ≠ []) (template : Template) :
    Yields openPaths (addIncludes resolve paths template) Extended fun _ => True := by
  have hgrows : ∀ (paths : List String) (template : Template), template.Extended →
      Yields openPaths (addIncludes resolve paths template) Extended fun _ => True :=
    fun paths template hextended =>
      (@yields_addIncludes (fun _ => True) _ _ _ _ _ (fun path _ => hresolve path) template).mono
        fun changed hchanges => hextended.of_grows hchanges.grows
  cases paths with
  | nil => exact absurd rfl h
  | cons path paths =>
    rw [addIncludes]
    split
    · next hfound => exact hgrows paths template (.inr ⟨path, hfound⟩)
    · refine .bind (hresolve path) fun document _ => hgrows paths _ (.inr ⟨path, ?_⟩)
      rw [include?, Table.get?_insert_self]
      rfl

/-- The first line that is not inert extends the node, and nothing behind it takes that back. -/
theorem yields_cutLines_extended
    (hresolve : ∀ path, Yields openPaths (resolve path) (fun _ => True) fun _ => True)
    {lines : List Line} (hcomment : ∀ line ∈ lines, opens .comment line = false)
    (h : ∃ line ∈ lines, ¬Inert line) (number : Nat) (template : Template) :
    Yields openPaths (cutLines resolve number lines template) (fun cut => cut.2.Extended)
      fun _ => True := by
  have hgrows : ∀ number lines template, template.Extended →
      Yields openPaths (cutLines resolve number lines template) (fun cut => cut.2.Extended)
        fun _ => True := fun number lines template hextended =>
    (@yields_cutLines (fun _ => True) (fun _ _ => True) _ _ _ (fun _ _ => trivial)
      (fun _ _ _ => trivial) _ (fun path _ => hresolve path) number template).mono
        fun cut hchanges => hextended.of_grows hchanges.grows
  induction lines generalizing number template with
  | nil => simp at h
  | cons line lines ih =>
    rw [List.forall_mem_cons] at hcomment
    have hblock : ∀ opening : Opening, opening.OpensOn line →
        Yields openPaths (cutLines resolve number (line :: lines) template)
          (fun cut => cut.2.Extended) fun _ => True := by
      intro opening hopens
      rw [cutLines_opening _ hopens]
      refine .bind (.lift (fun _ hcheck => hcheck) fun _ _ => trivial) fun _ hcheck => ?_
      refine .bind (@yields_compileLines (fun _ => True) (fun _ _ => True) _ _ _
        (fun _ _ => trivial) (fun _ _ _ => trivial) _ (fun path _ => hresolve path) _)
        fun body _ => ?_
      refine .bind (hgrows _ _ _ (.inl ?_)) fun cut hcut => .pure hcut
      have hgains := Opening.gainsBody_addBody (Opening.wellFormed_of_opensOn hopens hcheck)
        (template.noteCut opening.kind number (cutBlock opening.kind line lines)) body
      exact ⟨_, Option.isSome_of_eq_some hgains.body?_self⟩
    cases hname : listName? line with
    | some name => exact hblock _ (.repetition hcomment.1 hname)
    | none =>
      cases hcondition : condition? line with
      | some source => exact hblock _ (.conditional hcomment.1 hname hcondition)
      | none =>
        rw [cutLines_plain _ _ _ _ hcomment.1 hname hcondition]
        by_cases hincludes : includePaths line = []
        · have hinert : Inert line := ⟨⟨hcomment.1, hname, hcondition⟩, hincludes⟩
          have hbehind : ∃ other ∈ lines, ¬Inert other := by
            simpa only [List.exists_mem_cons_iff, hinert, not_true_eq_false, false_or] using h
          rw [hincludes, addIncludes, pure_bind]
          exact .bind (ih hcomment.2 hbehind (number + 1) template) fun cut hcut => .pure hcut
        · refine .bind (yields_addIncludes_extended hresolve hincludes template)
            fun between hbetween => ?_
          exact .bind (hgrows _ _ _ hbetween) fun cut hcut => .pure hcut

/-- Lines that are not all inert compile something into their node. -/
theorem yields_compileLines_extended
    (hresolve : ∀ path, Yields openPaths (resolve path) (fun _ => True) fun _ => True)
    {lines : List Line} (hcomment : ∀ line ∈ lines, opens .comment line = false)
    (h : ∃ line ∈ lines, ¬Inert line) (name : String) :
    Yields openPaths (compileLines resolve name lines) Extended fun _ => True := by
  refine .bind (yields_cutLines_extended hresolve hcomment h 1 (empty name)) fun cut hcut => ?_
  exact (@yields_lift_complete (fun _ => True) (fun _ _ => True) _ _ (fun _ _ => trivial) _ _).mono
    fun template hchanges => hcut.of_grows hchanges.grows

end Extending

end Template

/-! ### Compiling -/

/-- Lines are nothing but text: they compile to a template with nothing below it and without a
warning, and whatever is bound in it, it renders to the lines with the backslashes in front of
braces left out. -/
def CompilesToText (compiler : Compiler) (name : String) (lines : List Line) : Prop :=
  ∃ template, (compiler.compile name lines).1 = .ok template ∧ template.children = [] ∧
    template.warnings = [] ∧
    ∀ bindings, (template.setAll bindings).render = String.ofList (lines.flatMap unescape)

open Template

/-- Inert lines in which no brace opens are nothing but text. -/
theorem compilesToText_of_inert {lines : List Line} (hescapes : ∀ line ∈ lines, Escapes '\x7b' line)
    (hinert : ∀ line ∈ lines, Inert line) (compiler : Compiler) (name : String) :
    CompilesToText compiler name lines := by
  let result : Template := bindNames
    { empty name with segments := Piece.segments ((lines.flatMap unescape).map .char) }
  have hrun : Template.compileLines compiler.resolve name lines = pure result := by
    rw [Template.compileLines, cutLines_of_inert _ hinert, pure_bind]
    dsimp only
    rw [complete, readLines_of_escapes hescapes]
    rfl
  have hchildren : result.children = [] := rfl
  refine ⟨result, by rw [Compiler.compile, hrun]; rfl, hchildren, ?_, fun bindings => ?_⟩
  · rw [warnings_eq, hchildren]
    rfl
  · rw [setAll_eq_mapScopes, render, segments_mapScopes]
    exact renderSegments_chars _ _

/-- Lines with a backslash directly in front of every opening brace are nothing but text exactly if
none of them has an opening marker of a block or an include marker, be it behind a backslash. In
particular they are if every closing brace has a backslash directly in front of it, too. -/
theorem compilesToText_iff_inert (compiler : Compiler) (name : String) {lines : List Line}
    (h : ∀ line ∈ lines, Escapes '\x7b' line) :
    (CompilesToText compiler name lines ↔ ∀ line ∈ lines, Inert line) ∧
      ((∀ line ∈ lines, Escapes '\x7d' line) → CompilesToText compiler name lines) := by
  refine ⟨⟨?_, fun hinert => compilesToText_of_inert h hinert compiler name⟩, fun hclose => ?_⟩
  · rintro ⟨template, hcompile, hchildren, -⟩
    by_contra hmarked
    simp only [not_forall, exists_prop] at hmarked
    have hyields := yields_compileLines_extended
      (fun path =>
        (restores_compilePath compiler.loader compiler.loader.depth path compiler.openPaths).yields)
      (fun line hline => (h line hline).opens_comment) hmarked name
    exact (hyields.of_ok hcompile).children_ne_nil hchildren
  · exact compilesToText_of_inert h (fun line hline => (h line hline).inert (hclose line hline))
      compiler name

/-- Escaped braces that come close to markers, and a marker that both of its backslashes keep from
being one. -/
theorem compilesToText_iff_inert_braces :
    let lines : List Line :=
      ["\\\x7ba\x7d \\\x7bif \x7d*\x7d\n", "\\\x7b/if\x7d\\\\\x7b\\\x7d\n"].map String.toList
    let marker : List Line := ["\\\x7bif a\\\x7d"].map String.toList
    (∀ line ∈ lines, Escapes '\x7b' line) ∧ (∀ line ∈ lines, Inert line) ∧
      CompilesToText ⟨.none, []⟩ "page" lines ∧ (∀ line ∈ marker, Escapes '\x7b' line) ∧
      (∀ line ∈ marker, Escapes '\x7d' line) ∧ CompilesToText ⟨.none, []⟩ "page" marker := by
  intro lines marker
  have hlines : ∀ line ∈ lines, Escapes '\x7b' line := by decide +kernel
  have hinert : ∀ line ∈ lines, Inert line := by decide +kernel
  have hopen : ∀ line ∈ marker, Escapes '\x7b' line := by decide +kernel
  have hclose : ∀ line ∈ marker, Escapes '\x7d' line := by decide +kernel
  exact ⟨hlines, hinert, (compilesToText_iff_inert _ _ hlines).1.2 hinert, hopen, hclose,
    (compilesToText_iff_inert _ _ hopen).2 hclose⟩

/-- A backslash in front of its opening brace alone does not keep a conditional from being cut
out. -/
theorem not_compilesToText_escaped_if :
    (∀ line ∈ ["\\\x7bif a\x7d\n".toList], Escapes '\x7b' line) ∧
      ¬CompilesToText ⟨.none, []⟩ "page" ["\\\x7bif a\x7d\n".toList] := by
  refine ⟨by decide +kernel, ?_⟩
  rintro ⟨template, hcompile, hchildren, -⟩
  have hcount : (Compiler.compile ⟨.none, []⟩ "page" ["\\\x7bif a\x7d\n".toList]).1.toOption.map
      (fun template => template.children.length) = some 1 := by decide +kernel
  rw [hcompile] at hcount
  simp [Except.toOption, hchildren] at hcount

end BraceTemplate
