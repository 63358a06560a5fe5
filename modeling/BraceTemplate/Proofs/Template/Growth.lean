import BraceTemplate.Proofs.Template.Changes

/-!
# Nothing is lost while a node is compiled

Whatever a node has it keeps while it is compiled, and its bodies keep their places. So what a
segment refers to when it is read is still there in the end: no segment of a compiled node refers to
something that the node does not have.
-/

namespace BraceTemplate

namespace Template

/-! ### Growing -/

/-- A node has all that another one has, under the same keys. -/
structure Grows (before after : Template) : Prop where
  body? : ∀ placeholder body, before.body? placeholder = some body →
    after.body? placeholder = some body
  include? : ∀ path document, before.include? path = some document →
    after.include? path = some document
  expression? : ∀ id expression, before.expression? id = some expression →
    after.expression? id = some expression
  names : before.names ⊆ after.names
  ownWarnings : before.ownWarnings ⊆ after.ownWarnings

namespace Grows

variable {before between after : Template}

/-- A node has all that it has. -/
theorem refl (template : Template) : template.Grows template :=
  ⟨fun _ _ => id, fun _ _ => id, fun _ _ => id, List.Subset.refl _, List.Subset.refl _⟩

/-- What grows twice grows. -/
theorem trans (h : before.Grows between) (h' : between.Grows after) : before.Grows after :=
  ⟨fun placeholder body hbody => h'.body? placeholder body (h.body? placeholder body hbody),
    fun path document hdocument => h'.include? path document (h.include? path document hdocument),
    fun id expression hfound => h'.expression? id expression (h.expression? id expression hfound),
    fun _ hname => h'.names (h.names hname),
    fun _ hwarning => h'.ownWarnings (h.ownWarnings hwarning)⟩

/-- A body that was there stays. -/
theorem isSome_body? (h : before.Grows after) {placeholder : Placeholder}
    (hbody : (before.body? placeholder).isSome = true) :
    (after.body? placeholder).isSome = true := by
  obtain ⟨body, hfound⟩ := Option.isSome_iff_exists.1 hbody
  exact Option.isSome_of_eq_some (h.body? placeholder body hfound)

/-- A document that was there stays. -/
theorem isSome_include? (h : before.Grows after) {path : String}
    (hdocument : (before.include? path).isSome = true) : (after.include? path).isSome = true := by
  obtain ⟨document, hfound⟩ := Option.isSome_iff_exists.1 hdocument
  exact Option.isSome_of_eq_some (h.include? path document hfound)

/-- An expression that was there stays. -/
theorem isSome_expression? (h : before.Grows after) {id : String}
    (hexpression : (before.expression? id).isSome = true) :
    (after.expression? id).isSome = true := by
  obtain ⟨expression, hfound⟩ := Option.isSome_iff_exists.1 hexpression
  exact Option.isSome_of_eq_some (h.expression? id expression hfound)

end Grows

section Changes

variable {IsBody : Template → Prop} {IsDocument : String → Template → Prop}
  {before after : Template}

/-- No change takes anything away from a node, and no key that was in use gets another value. -/
theorem Change.grows (h : Change IsBody IsDocument before after) : before.Grows after := by
  cases h with
  | warn warning => exact { Grows.refl before with ownWarnings := List.subset_append_left _ _ }
  | repetition name hbody =>
    have hgains := gainsBody_addRepetition before (by assumption) name
    exact { Grows.refl before with body? := fun _ _ => hgains.body?_of_some }
  | @conditional source condition body hcompile hbody =>
    have hgains := gainsBody_addConditional before body condition
    refine { Grows.refl before with body? := fun _ _ => hgains.body?_of_some, expression? := ?_ }
    intro id expression hfound
    exact (Table.get?_insertNew ..).trans (Option.or_eq_some_iff.2 (.inl hfound))
  | document hdocument hmissing =>
    refine { Grows.refl before with include? := ?_ }
    intro path document hfound
    exact (Table.get?_insert_of_missing hmissing ..).trans (Option.or_eq_some_iff.2 (.inl hfound))
  | refer segment =>
    cases segment with
    | binding name =>
      exact { Grows.refl before with names := fun _ hname => mem_addName.2 (.inl hname) }
    | text | expression | block | inclusion => exact .refl before
  | expression hcompile hmissing =>
    refine { Grows.refl before with expression? := ?_ }
    intro id expression hfound
    exact (Table.get?_insert_of_missing hmissing ..).trans (Option.or_eq_some_iff.2 (.inl hfound))
  | finish segments => exact { Grows.refl before with }

/-- However often a node is changed, nothing is taken away from it. -/
theorem Changes.grows (h : Changes IsBody IsDocument before after) : before.Grows after := by
  induction h with
  | refl => exact .refl before
  | tail _ hchange ih => exact ih.trans hchange.grows

end Changes

/-! ### What segments refer to -/

/-- A node has what a segment refers to: the name, the expression, the document, or the body and in
front of a conditional body its condition. -/
def Has (template : Template) : Segment → Prop
  | .text _ => True
  | .binding name => name ∈ template.names
  | .expression id => (template.expression? id).isSome = true
  | .inclusion path => (template.include? path).isSome = true
  | .block placeholder => (template.body? placeholder).isSome = true ∧
      (placeholder.kind = .conditional → (template.expression? placeholder.key).isSome = true)

/-- What a segment refers to stays there while the node grows. -/
theorem Has.of_grows {before after : Template} {segment : Segment} (h : before.Has segment)
    (hgrows : before.Grows after) : after.Has segment := by
  cases segment with
  | text text => trivial
  | binding name => exact hgrows.names h
  | expression id => exact hgrows.isSome_expression? h
  | inclusion path => exact hgrows.isSome_include? h
  | block placeholder =>
    exact ⟨hgrows.isSome_body? h.1, fun hkind => hgrows.isSome_expression? (h.2 hkind)⟩

/-- A node has the condition of every conditional body. -/
def Guarded (template : Template) : Prop :=
  ∀ key, (Table.get? template.conditionals key).isSome = true →
    (template.expression? key).isSome = true

/-- A change that brings a conditional body brings its condition. -/
theorem Change.guarded {IsBody : Template → Prop} {IsDocument : String → Template → Prop}
    {before after : Template} (hchange : Change IsBody IsDocument before after)
    (h : before.Guarded) : after.Guarded := by
  cases hchange with
  | warn | repetition | document | finish => exact h
  | refer segment => cases segment <;> exact h
  | @conditional source condition body hcompile hbody =>
    intro key hkey
    rw [expression?, addConditional, Table.get?_insertNew]
    by_cases heq : key = condition.id
    · simp [heq]
    · rw [addConditional, Table.append, Table.get?_insert_of_ne _ heq] at hkey
      rw [Option.isSome_or, Bool.or_eq_true]
      exact .inl (h key hkey)
  | expression hcompile hmissing =>
    intro key hkey
    rw [expression?, Table.get?_insert_of_missing hmissing, Option.isSome_or, Bool.or_eq_true]
    exact .inl (h key hkey)

/-- However often a node is changed, every conditional body has its condition. -/
theorem Changes.guarded {IsBody : Template → Prop} {IsDocument : String → Template → Prop}
    {before after : Template} (hchanges : Changes IsBody IsDocument before after)
    (h : before.Guarded) : after.Guarded :=
  hchanges.keeps (fun _ _ => Change.guarded) h

/-- An empty node has no body that could lack a condition. -/
theorem guarded_empty (name : String) : (empty name).Guarded := by
  intro key hkey
  cases hkey

/-- A node binds no names but its own. -/
def Scoped (template : Template) : Prop :=
  ∀ name ∉ template.names, template.scope.get? name = none

/-- A node binds its own names in the end, and no others. -/
theorem scoped_bindNames {template : Template} (h : template.Scoped) :
    template.bindNames.Scoped := by
  intro name hname
  have hmissing : ∀ (names : List String) (scope : Scope), name ∉ names → scope.get? name = none →
      Table.get? (names.foldl (fun scope name => scope.insertNew name (.string "")) scope)
        name = none := by
    intro names
    induction names with
    | nil => exact fun _ _ hscope => hscope
    | cons other names ih =>
      intro scope hnames hscope
      rw [List.mem_cons, not_or] at hnames
      refine ih _ hnames.2 ?_
      rw [Table.get?_insertNew, hscope, if_neg hnames.1, Option.none_or]
  exact hmissing template.names template.scope hname (h name hname)

/-- Every compiled node binds no names but its own. -/
theorem grown_scoped : Grown Scoped := by
  intro name template hchanges
  refine hchanges.keeps (fun before after hchange h => ?_) fun _ _ => rfl
  cases hchange with
  | warn | repetition | conditional | document | expression => exact h
  | finish segments => exact scoped_bindNames h
  | refer segment =>
    cases segment with
    | binding name =>
      exact fun other hother => h other fun hmem => hother (mem_addName.2 (.inl hmem))
    | text | expression | block | inclusion => exact h

/-- A body that is referred to is there, with its condition. -/
theorem has_of_hasBody {template : Template} (h : template.Guarded) {placeholder : Placeholder}
    (hbody : template.hasBody placeholder = true) : template.Has (.block placeholder) := by
  rw [hasBody_eq_isSome_body?] at hbody
  refine ⟨hbody, fun hkind => h _ ?_⟩
  obtain ⟨body, hfound⟩ := Option.isSome_iff_exists.1 hbody
  rw [body?, hkind] at hfound
  obtain ⟨bodies, hbodies, -⟩ := Option.bind_eq_some_iff.1 hfound
  exact Option.isSome_of_eq_some hbodies

/-- What braces refer to is there as soon as the reference is noted. -/
theorem has_of_meaning {template : Template} (h : template.Guarded) {content : List Char}
    {segment : Segment} (hmeaning : template.meaning content = .segment segment) :
    (template.refer segment).Has segment := by
  cases refersTo_of_meaning hmeaning with
  | block _ hbody => exact has_of_hasBody h hbody
  | inclusion hpath => exact hpath
  | binding => exact mem_addName.2 (.inr rfl)

/-- An expression is there as soon as it is added. -/
theorem has_of_addExpression {template changed : Template} {source : String}
    (h : template.addExpression source = .ok changed) :
    changed.Has (.expression (Expression.idOf source)) := by
  unfold addExpression at h
  split at h
  · next hhas =>
    cases h
    exact hhas
  · split at h
    · cases h
      exact Option.isSome_of_eq_some (Table.get?_insert_self ..)
    · simp at h

/-! ### Reading -/

section Reads

variable {template changed : Template}

/-- To add an expression is a change of the node. -/
theorem changes_of_addExpression {source : String}
    (h : template.addExpression source = .ok changed) :
    Changes (fun _ => True) (fun _ _ => True) template changed := by
  have hreads :
      Reads (fun _ => True) (fun _ _ => True) template id (template.addExpression source) :=
    reads_addExpression template source
  rwa [h] at hreads

/-- Reading a line changes a node step by step. -/
theorem changes_of_readLine {number : Nat} {cs : List Char} {pieces : List Piece}
    (h : readLine number cs template = .ok (pieces, changed)) :
    Changes (fun _ => True) (fun _ _ => True) template changed := by
  have hreads : Reads (fun _ => True) (fun _ _ => True) template Prod.snd
      (readLine number cs template) := reads_readLine number cs template
  rwa [h] at hreads

/-- Reading lines changes a node step by step. -/
theorem changes_of_readLines {number : Nat} {lines : List Line} {pieces : List Piece}
    (h : readLines number lines template = .ok (pieces, changed)) :
    Changes (fun _ => True) (fun _ _ => True) template changed := by
  have hreads : Reads (fun _ => True) (fun _ _ => True) template Prod.snd
      (readLines number lines template) := reads_readLines number lines template
  rwa [h] at hreads

end Reads

/-- The node behind a reading has what the segments that have been read refer to. -/
def ReadsHad (reading : Except Error (List Piece × Template)) : Prop :=
  ∀ pieces changed, reading = .ok (pieces, changed) →
    ∀ segment, .segment segment ∈ pieces → changed.Has segment

/-- A piece may come in front if the node has in the end what it refers to. -/
theorem ReadsHad.cons {reading : Except Error (List Piece × Template)} (h : ReadsHad reading)
    {piece : Piece} (hpiece : ∀ segment, piece = .segment segment →
      ∀ pieces changed, reading = .ok (pieces, changed) → changed.Has segment) :
    ReadsHad (do
      let (pieces, changed) ← reading
      return (piece :: pieces, changed)) := by
  cases reading with
  | error error => exact fun pieces changed hread => by cases hread
  | ok read =>
    intro pieces changed hread segment hsegment
    cases hread
    rcases List.mem_cons.1 hsegment with heq | hmem
    · exact hpiece segment heq.symm _ _ rfl
    · exact h _ _ rfl segment hmem

/-- Reading meets only segments whose referents the node has, or gains on the way. -/
theorem readsHad_readLine {template : Template} (h : template.Guarded) (number : Nat)
    (cs : List Char) : ReadsHad (readLine number cs template) := by
  fun_induction readLine number cs template with
  | case1 template =>
    intro pieces changed hread segment hsegment
    cases hread
    cases hsegment
  | case2 template rest ih | case3 template rest ih | case4 template cs hcontent ih
  | case5 template cs content rest hcontent hmeaning ih
  | case9 template c rest hescape hescape' hopen ih =>
    exact (ih h).cons fun segment hsegment => by cases hsegment
  | case6 =>
    rename_i ih
    exact ih h
  | case7 template cs content rest hcontent segment hmeaning ih =>
    have hguarded : (template.refer segment).Guarded :=
      (Change.refer template segment : Change (fun _ => True) (fun _ _ => True) _ _).guarded h
    refine (ih hguarded).cons fun other hother pieces changed hread => ?_
    cases hother
    exact (has_of_meaning h hmeaning).of_grows (changes_of_readLine hread).grows
  | case8 template cs content rest hcontent source hmeaning ih =>
    cases hadd : template.addExpression source with
    | error error => exact fun pieces changed hread => by cases hread
    | ok between =>
      refine (ih between ((changes_of_addExpression hadd).guarded h)).cons
        fun other hother pieces changed hread => ?_
      cases hother
      exact (has_of_addExpression hadd).of_grows (changes_of_readLine hread).grows

/-- Behind the reading of lines the node has all that the pieces refer to. -/
theorem readsHad_readLines {template : Template} (h : template.Guarded) (number : Nat)
    (lines : List Line) : ReadsHad (readLines number lines template) := by
  induction lines generalizing number template with
  | nil =>
    intro pieces changed hread segment hsegment
    cases hread
    cases hsegment
  | cons line lines ih =>
    intro pieces changed hread segment hsegment
    obtain ⟨first, between, more, hline, hlines, rfl⟩ := exists_of_readLines_cons hread
    rcases List.mem_append.1 hsegment with hfirst | hmore
    · exact (readsHad_readLine h number line first between hline segment hfirst).of_grows
        (changes_of_readLines hlines).grows
    · exact ih ((changes_of_readLine hline).guarded h) _ more changed hlines segment hmore

end Template

end BraceTemplate
