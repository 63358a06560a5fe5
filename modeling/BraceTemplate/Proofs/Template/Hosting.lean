import BraceTemplate.Proofs.Template.Growth
import BraceTemplate.Proofs.Template.Naming
import BraceTemplate.Proofs.Template.Splitting

/-!
# A document within a larger one

When a document is compiled as a part of a larger one, the node of the whole has what the node of
the part would have: the same documents and expressions under the same keys, and the same bodies
behind those that were there before. Cutting and reading the lines of the part keep this up,
whatever the whole has got from elsewhere.
-/

namespace BraceTemplate

open CompileM (AgreeAt Follows Yields)

/-! ### Placeholders behind others -/

/-- How many bodies of a kind and key stand in front. -/
abbrev Offset := PlaceholderKind → String → Nat

/-- The placeholder that counts the bodies in front as well. -/
def Placeholder.behind (offset : Offset) (placeholder : Placeholder) : Placeholder :=
  { placeholder with index := offset placeholder.kind placeholder.key + placeholder.index }

/-- The segment with the placeholder of a block counted behind others. -/
def Segment.behind (offset : Offset) : Segment → Segment
  | block placeholder => block (placeholder.behind offset)
  | segment => segment

/-- The piece with the placeholder of a block counted behind others. -/
def Piece.behind (offset : Offset) : Piece → Piece
  | char c => char c
  | segment found => segment (found.behind offset)

namespace Template

/-! ### A part and the whole -/

/-- A node has what another one has, its bodies behind others. All other expressions and names that
it has are those of a third node. -/
structure Hosts (offset : Offset) (other part whole : Template) : Prop where
  body? : ∀ placeholder body, part.body? placeholder = some body →
    ∃ copy, whole.body? (placeholder.behind offset) = some copy ∧ copy.unnamed = body.unnamed
  include? : ∀ path document, part.include? path = some document →
    whole.include? path = some document
  stored : ∀ id, (part.expression? id).isSome = true → (whole.expression? id).isSome = true
  expression? : ∀ id expression, whole.expression? id = some expression →
    part.expression? id = some expression ∨ other.expression? id = some expression
  names : ∀ name ∈ whole.names, name ∈ part.names ∨ name ∈ other.names

/-- A node stores an expression unless it has one under the id. -/
def StoresNew (id : String) (expression : Expression) (template changed : Template) : Prop :=
  ∀ key, changed.expression? key =
    (template.expression? key).or (if key = id then some expression else none)

/-- A node that has an expression under the id stores nothing and stays as it is. -/
theorem storesNew_of_isSome {template : Template} {id : String}
    (h : (template.expression? id).isSome = true) (expression : Expression) :
    StoresNew id expression template template := by
  intro key
  by_cases hkey : key = id
  · obtain ⟨found, hfound⟩ := Option.isSome_iff_exists.1 h
    rw [hkey, hfound, Option.some_or]
  · rw [if_neg hkey, Option.or_none]

namespace Hosts

variable {offset : Offset} {other part whole part' whole' : Template}

/-- The whole may grow, as long as it gains expressions and names of the part or of a third node
only. -/
theorem of_grows {offset' : Offset} {other' : Template} (h : Hosts offset other part whole)
    (hgrows : whole.Grows whole') (h' : Hosts offset' part other' whole') :
    Hosts offset other' part whole' where
  body? placeholder body hbody := by
    obtain ⟨copy, hcopy, hsame⟩ := h.body? placeholder body hbody
    exact ⟨copy, hgrows.body? _ copy hcopy, hsame⟩
  include? path document hdocument :=
    hgrows.include? path document (h.include? path document hdocument)
  stored id hid := hgrows.isSome_expression? (h.stored id hid)
  expression? id expression hexpression := (h'.expression? id expression hexpression).symm
  names name hname := (h'.names name hname).symm

/-- When both nodes store the same expression, all expressions of the whole are still those of the
part or of the third node. -/
theorem expressions_of_storesNew (h : Hosts offset other part whole) {id : String}
    {expression : Expression} (hpart : StoresNew id expression part part')
    (hwhole : StoresNew id expression whole whole') :
    (∀ key, (part'.expression? key).isSome = true → (whole'.expression? key).isSome = true) ∧
      ∀ key found, whole'.expression? key = some found →
        part'.expression? key = some found ∨ other.expression? key = some found := by
  refine ⟨fun key hkey => ?_, fun key found hfound => ?_⟩
  · rw [hpart, Option.isSome_or, Bool.or_eq_true] at hkey
    rw [hwhole, Option.isSome_or, Bool.or_eq_true]
    exact hkey.imp_left (h.stored key)
  · rw [hwhole, Option.or_eq_some_iff] at hfound
    rw [hpart]
    rcases hfound with hold | ⟨hmissing, hnew⟩
    · exact (h.expression? key found hold).imp_left fun hold => Option.or_eq_some_iff.2 (.inl hold)
    · -- What the whole does not have yet the part does not have either.
      have hpartMissing : part.expression? key = none := by
        rw [← Option.not_isSome_iff_eq_none]
        intro hsome
        have hstored := h.stored key hsome
        simp [hmissing] at hstored
      exact .inl (by rw [hpartMissing, Option.none_or, hnew])

/-- Both nodes gain a body under the same key; in the whole it comes behind those in front. -/
theorem body?_of_gainsBody (h : Hosts offset other part whole) {kind : PlaceholderKind}
    {key : String} {body copy : Template} (hpart : part.GainsBody part' kind key body)
    (hwhole : whole.GainsBody whole' kind key copy)
    (hcount : (whole.bodies kind).count key = offset kind key + (part.bodies kind).count key)
    (hcopy : copy.unnamed = body.unnamed) (placeholder : Placeholder) (child : Template)
    (hchild : part'.body? placeholder = some child) :
    ∃ copy, whole'.body? (placeholder.behind offset) = some copy ∧
      copy.unnamed = child.unnamed := by
  rcases hpart.body?_cases hchild with hold | ⟨rfl, rfl⟩
  · obtain ⟨found, hfound, hsame⟩ := h.body? placeholder child hold
    exact ⟨found, hwhole.body?_of_some hfound, hsame⟩
  · refine ⟨copy, ?_, hcopy⟩
    have hself := hwhole.body?_self
    rw [hcount] at hself
    exact hself

/-- Both nodes gain the body of the same block. A conditional brings its condition along. -/
theorem addBody (h : Hosts offset other part whole) {opening : Opening}
    (hopening : opening.WellFormed)
    (hcount : (whole.bodies opening.placeholderKind).count opening.key =
      offset opening.placeholderKind opening.key +
        (part.bodies opening.placeholderKind).count opening.key)
    {body copy : Template} (hcopy : copy.unnamed = body.unnamed) :
    Hosts offset other (opening.addBody part body) (opening.addBody whole copy) := by
  have hpart := Opening.gainsBody_addBody hopening part body
  have hwhole := Opening.gainsBody_addBody hopening whole copy
  have hbodies := h.body?_of_gainsBody hpart hwhole hcount hcopy
  cases opening with
  | repetition name => exact ⟨hbodies, h.include?, h.stored, h.expression?, h.names⟩
  | conditional source =>
    obtain ⟨condition, hcompile⟩ := hopening.compiles source rfl
    rw [Opening.addBody_conditional hcompile, Opening.addBody_conditional hcompile] at hbodies ⊢
    have hnew : ∀ template body, StoresNew condition.id condition template
        (template.addConditional condition body) :=
      fun template _ => Table.get?_insertNew template.expressions _ _
    obtain ⟨hstored, hexpression⟩ := h.expressions_of_storesNew (hnew part body) (hnew whole copy)
    exact ⟨hbodies, h.include?, hstored, hexpression, h.names⟩

/-- The whole may have a document that the part gains. -/
theorem part_document (h : Hosts offset other part whole) {path : String} {document : Template}
    (hdocument : whole.include? path = some document) :
    Hosts offset other
      { part with includes := Table.insert part.includes path document } whole := by
  refine ⟨h.body?, fun key found hfound => ?_, h.stored, h.expression?, h.names⟩
  by_cases hkey : key = path
  · subst hkey
    rw [Template.include?, Table.get?_insert_self, Option.some.injEq] at hfound
    exact hfound ▸ hdocument
  · rw [Template.include?, Table.get?_insert_of_ne _ hkey] at hfound
    exact h.include? key found hfound

/-- The whole may gain a document that it does not have. -/
theorem whole_document (h : Hosts offset other part whole) {path : String}
    (hmissing : whole.include? path = none) (document : Template) :
    Hosts offset other part
      { whole with includes := Table.insert whole.includes path document } := by
  refine ⟨h.body?, fun key found hfound => ?_, h.stored, h.expression?, h.names⟩
  rw [Template.include?, Table.get?_insert_of_missing hmissing]
  exact Option.or_eq_some_iff.2 (.inl (h.include? key found hfound))

end Hosts

/-! ### Cutting -/

section Cutting

variable {resolve : String → CompileM Template} {openPaths : List String} {offset : Offset}
  {other part whole : Template}

/-- While blocks are cut out, the bodies of the whole are counted behind those in front, and its
documents are those that their paths are compiled to. -/
structure Aligned (resolve : String → CompileM Template) (openPaths : List String) (offset : Offset)
    (other part whole : Template) : Prop extends Hosts offset other part whole where
  count : ∀ kind key, (whole.bodies kind).count key =
    offset kind key + (part.bodies kind).count key
  resolved : ∀ path document, whole.include? path = some document →
    resolve path openPaths = (.ok document, openPaths)

namespace Aligned

/-- That a cut is noted in both nodes changes nothing but warnings. -/
theorem noteCut (h : Aligned resolve openPaths offset other part whole) (kind : BlockKind)
    (number number' : Nat) (cut cut' : Cut) :
    Aligned resolve openPaths offset other (part.noteCut kind number cut)
      (whole.noteCut kind number' cut') := by
  obtain ⟨warnings, hpart⟩ := exists_noteCut_eq part kind number cut
  obtain ⟨warnings', hwhole⟩ := exists_noteCut_eq whole kind number' cut'
  rw [hpart, hwhole]
  exact ⟨⟨h.body?, h.include?, h.stored, h.expression?, h.names⟩, h.count, h.resolved⟩

/-- Both nodes gain the body of the same block, and the counts go up together. -/
theorem addBody (h : Aligned resolve openPaths offset other part whole) {opening : Opening}
    (hopening : opening.WellFormed) {body copy : Template} (hcopy : copy.unnamed = body.unnamed) :
    Aligned resolve openPaths offset other (opening.addBody part body)
      (opening.addBody whole copy) := by
  have hpart := Opening.gainsBody_addBody hopening part body
  have hwhole := Opening.gainsBody_addBody hopening whole copy
  refine ⟨h.toHosts.addBody hopening (h.count _ _) hcopy, fun kind key => ?_, ?_⟩
  · rw [hpart.count, hwhole.count, h.count, Nat.add_assoc]
  · intro path document hdocument
    rw [include?, hwhole.includes] at hdocument
    exact h.resolved path document hdocument

/-- The part may take a document that the whole has. -/
theorem part_document (h : Aligned resolve openPaths offset other part whole) {path : String}
    {document : Template} (hdocument : whole.include? path = some document) :
    Aligned resolve openPaths offset other
      { part with includes := Table.insert part.includes path document } whole :=
  ⟨h.toHosts.part_document hdocument, h.count, h.resolved⟩

/-- Both may take the document that a path is compiled to. -/
theorem both_document (h : Aligned resolve openPaths offset other part whole) {path : String}
    (hmissing : whole.include? path = none) {document : Template}
    (hrun : resolve path openPaths = (.ok document, openPaths)) :
    Aligned resolve openPaths offset other
      { part with includes := Table.insert part.includes path document }
      { whole with includes := Table.insert whole.includes path document } := by
  have hwhole := h.toHosts.whole_document hmissing document
  refine ⟨hwhole.part_document (Table.get?_insert_self ..), h.count, fun key found hfound => ?_⟩
  by_cases hkey : key = path
  · subst hkey
    rw [include?, Table.get?_insert_self, Option.some.injEq] at hfound
    exact hfound ▸ hrun
  · rw [include?, Table.get?_insert_of_ne _ hkey] at hfound
    exact h.resolved key found hfound

end Aligned

section Growing

variable {template changed : Template}
  (hrestores : ∀ path, AgreeAt openPaths (resolve path) (resolve path))
include hrestores

/-- Including documents takes nothing away from a node. -/
theorem grows_of_addIncludes {paths : List String}
    (hrun : addIncludes resolve paths template openPaths = (.ok changed, openPaths)) :
    template.Grows changed := by
  have hyields : Yields openPaths (addIncludes resolve paths template)
      (Changes (fun _ => True) (fun _ _ => True) template) fun _ => True :=
    yields_addIncludes (fun path _ => (hrestores path).yields) template
  exact (hyields.of_ok (congrArg Prod.fst hrun)).grows

/-- Cutting blocks out of lines changes a node step by step. -/
theorem yields_changes_cutLines (number : Nat) (lines : List Line) (template : Template) :
    Yields openPaths (cutLines resolve number lines template)
      (fun cut => Changes (fun _ => True) (fun _ _ => True) template cut.2) fun _ => True :=
  yields_cutLines (fun _ _ => trivial) (fun _ _ _ => trivial)
    (fun path _ => (hrestores path).yields) number template

/-- A node is changed step by step to what is left of it when blocks are cut out. -/
theorem changes_of_cutLines {number : Nat} {lines left : List Line}
    (hrun : cutLines resolve number lines template openPaths = (.ok (left, changed), openPaths)) :
    Changes (fun _ => True) (fun _ _ => True) template changed :=
  (yields_changes_cutLines hrestores number lines template).of_ok (congrArg Prod.fst hrun)

end Growing

/-- The documents of the paths are met in the part and in the whole, if they are not there
already. -/
theorem follows_addIncludes (hrestores : ∀ path, AgreeAt openPaths (resolve path) (resolve path))
    {paths : List String} (h : Aligned resolve openPaths offset other part whole) :
    Follows openPaths openPaths (fun part' whole' =>
        Aligned resolve openPaths offset other part' whole' ∧ whole'.bodies = whole.bodies ∧
          ∀ path ∈ paths, (part'.include? path).isSome = true)
      (addIncludes resolve paths part) (addIncludes resolve paths whole) := by
  induction paths generalizing part whole with
  | nil => exact .pure ⟨h, rfl, fun path hpath => by cases hpath⟩
  | cons path paths ih =>
    have hrest : ∀ {part whole : Template}, Aligned resolve openPaths offset other part whole →
        (part.include? path).isSome = true → Follows openPaths openPaths (fun part' whole' =>
          Aligned resolve openPaths offset other part' whole' ∧ whole'.bodies = whole.bodies ∧
            ∀ path' ∈ path :: paths, (part'.include? path').isSome = true)
        (addIncludes resolve paths part) (addIncludes resolve paths whole) := by
      intro part whole halign hfound
      refine (ih halign).mono fun part' whole' hrun _ hpair => ⟨hpair.1, hpair.2.1, ?_⟩
      have hgrows := grows_of_addIncludes hrestores hrun
      exact List.forall_mem_cons.2 ⟨hgrows.isSome_include? hfound, hpair.2.2⟩
    rw [addIncludes, addIncludes]
    cases hpart : part.include? path with
    | some document =>
      have hwhole := h.include? path document hpart
      rw [hwhole, Option.isSome_some, if_pos rfl, if_pos rfl]
      exact hrest h (Option.isSome_of_eq_some hpart)
    | none =>
      rw [Option.isSome_none, if_neg Bool.false_ne_true]
      cases hwhole : whole.include? path with
      | some document =>
        rw [Option.isSome_some, if_pos rfl]
        refine .bind_left (h.resolved path document hwhole) (hrest (h.part_document hwhole) ?_)
        exact Option.isSome_of_eq_some (Table.get?_insert_self ..)
      | none =>
        rw [Option.isSome_none, if_neg Bool.false_ne_true]
        have hresolve : Follows openPaths openPaths (fun document document' =>
            document = document' ∧ resolve path openPaths = (.ok document, openPaths))
            (resolve path) (resolve path) :=
          (Follows.of_restores (hrestores path)).mono fun _ _ hrun _ heq => ⟨heq, hrun⟩
        refine .bind hresolve fun document document' hfound => ?_
        obtain ⟨rfl, hrun⟩ := hfound
        exact hrest (h.both_document hwhole hrun)
          (Option.isSome_of_eq_some (Table.get?_insert_self ..))

/-! ### Lines of the part and of the whole -/

/-- Text without placeholders, of which a node has all documents. -/
structure Settled (template : Template) (cs : List Char) : Prop where
  unmarked : Unmarked cs
  included : ∀ path ∈ includePaths cs, (template.include? path).isSome = true

namespace Settled

variable {template changed : Template} {cs : List Char}

/-- A part of a settled text is settled. -/
theorem of_part (h : template.Settled cs) {rest : List Char} (hpart : rest <:+: cs) :
    template.Settled rest :=
  ⟨h.unmarked.of_part hpart,
    fun path hpath => h.included path (includePaths_subset_of_part hpart hpath)⟩

/-- What stands behind a pair of braces. -/
theorem behind {content rest : List Char}
    (h : template.Settled ('\x7b' :: (content ++ '\x7d' :: rest))) : template.Settled rest :=
  h.of_part ⟨'\x7b' :: content ++ ['\x7d'], [], by simp⟩

/-- A text stays settled while the node grows. -/
theorem of_grows (h : template.Settled cs) (hgrows : template.Grows changed) : changed.Settled cs :=
  ⟨h.unmarked, fun path hpath => hgrows.isSome_include? (h.included path hpath)⟩

end Settled

/-- What is left of a line in the part and in the whole: the line itself, or the placeholder of a
body that the part has. -/
inductive Counterpart (offset : Offset) (part : Template) : Line → Line → Prop
  | line {line : Line} (hsettled : part.Settled line) : Counterpart offset part line line
  | block {placeholder : Placeholder} (hreadable : placeholder.Readable)
      (hbehind : (placeholder.behind offset).Readable) (hbody : part.hasBody placeholder = true) :
    Counterpart offset part placeholder.text (placeholder.behind offset).text

/-- Lines stay counterparts while the part grows. -/
theorem Counterpart.of_grows {part' : Template} {line line' : Line}
    (h : Counterpart offset part line line') (hgrows : part.Grows part') :
    Counterpart offset part' line line' := by
  cases h with
  | line hsettled => exact .line (hsettled.of_grows hgrows)
  | block hreadable hbehind hbody =>
    refine .block hreadable hbehind ?_
    rw [hasBody_eq_isSome_body?] at hbody ⊢
    exact hgrows.isSome_body? hbody

/-- The placeholder of a block in the part and the one in the whole stand for the body that they
gain. -/
theorem Aligned.counterpart (h : Aligned resolve openPaths offset other part whole)
    {opening : Opening} (hopening : opening.WellFormed) (body : Template)
    (hcount : (whole.bodies opening.placeholderKind).count opening.key < 2 ^ 64) :
    Counterpart offset (opening.addBody part body)
      (Placeholder.text ⟨opening.placeholderKind, opening.key,
        (part.bodies opening.placeholderKind).count opening.key⟩)
      (Placeholder.text ⟨opening.placeholderKind, opening.key,
        (whole.bodies opening.placeholderKind).count opening.key⟩) := by
  have hreadable : ∀ index < 2 ^ 64,
      Placeholder.Readable ⟨opening.placeholderKind, opening.key, index⟩ := fun index hindex =>
    ⟨Opening.key_ne_nil hopening, Opening.braceFree_key hopening, hindex⟩
  have hbody := (Opening.gainsBody_addBody hopening part body).body?_self
  rw [h.count] at hcount ⊢
  refine .block (hreadable _ (by omega)) (hreadable _ hcount) ?_
  rw [hasBody_eq_isSome_body?, hbody, Option.isSome_some]

/-- What is left of lines that are cut in the part and in the whole. -/
structure CutPair (resolve : String → CompileM Template) (openPaths : List String) (offset : Offset)
    (other whole : Template) (length : Nat) (cut cut' : List Line × Template) : Prop where
  aligned : Aligned resolve openPaths offset other cut.2 cut'.2
  lines : List.Forall₂ (Counterpart offset cut.2) cut.1 cut'.1
  count_le : ∀ kind key, (cut'.2.bodies kind).count key ≤ (whole.bodies kind).count key + length

/-- A body is the same in the part and in the whole, except for the names of its nodes. -/
theorem follows_compileLines (hrestores : ∀ path, AgreeAt openPaths (resolve path) (resolve path))
    (name name' : String) (lines : List Line) :
    Follows openPaths openPaths (fun body copy => copy.unnamed = body.unnamed)
      (compileLines resolve name lines) (compileLines resolve name' lines) := by
  intro body after hrun
  have hrestored : ∀ name, AgreeAt openPaths (compileLines resolve name lines)
      (compileLines resolve name lines) := fun name =>
    congruent_compileLines (CompileM.congruent_agreeAt openPaths)
      (fun path _ => hrestores path) name
  have hsame := congrFun (compileLines_unnamed resolve name name' lines) openPaths
  rw [CompileM.map_apply, CompileM.map_apply, hrun] at hsame
  obtain rfl : after = openPaths := by simpa [hrun] using (hrestored name).2
  cases hrun' : compileLines resolve name' lines after with
  | mk result after' =>
    rw [hrun'] at hsame
    cases result with
    | error failure => cases hsame
    | ok copy =>
      obtain ⟨hunnamed, rfl⟩ := Prod.mk.inj hsame
      exact ⟨rfl, copy, rfl, (Except.ok.inj hunnamed).symm⟩

/-- A line is left in front of what is left of the lines behind it. -/
theorem follows_cons (hrestores : ∀ path, AgreeAt openPaths (resolve path) (resolve path))
    {number number' : Nat} {rest : List Line} {part' whole' : Template} {line line' : Line}
    (hrest : Follows openPaths openPaths (CutPair resolve openPaths offset other whole' rest.length)
      (cutLines resolve number rest part') (cutLines resolve number' rest whole'))
    (hline : Counterpart offset part' line line')
    (hcount : ∀ kind key, (whole'.bodies kind).count key ≤ (whole.bodies kind).count key + 1) :
    Follows openPaths openPaths
      (CutPair resolve openPaths offset other whole (rest.length + 1))
      (do
        let (left, changed) ← cutLines resolve number rest part'
        return (line :: left, changed))
      (do
        let (left, changed) ← cutLines resolve number' rest whole'
        return (line' :: left, changed)) := by
  have hgrowing : Follows openPaths openPaths (fun cut cut' =>
      CutPair resolve openPaths offset other whole' rest.length cut cut' ∧ part'.Grows cut.2)
      (cutLines resolve number rest part') (cutLines resolve number' rest whole') :=
    hrest.mono fun _ _ hrun _ hpair => ⟨hpair, (changes_of_cutLines hrestores hrun).grows⟩
  refine .bind hgrowing fun cut cut' ⟨hpair, hgrows⟩ =>
    .pure ⟨hpair.aligned, ?_, fun kind key => ?_⟩
  · exact .cons (hline.of_grows hgrows) hpair.lines
  · have hrest := hpair.count_le kind key
    have hline := hcount kind key
    dsimp only
    omega

/-- In whatever node lines are cut as a part, they are cut in the whole as they are on their own. -/
def CutsAlike (resolve : String → CompileM Template) (openPaths : List String) (offset : Offset)
    (other : Template) (lines : List Line) : Prop :=
  ∀ part whole, Aligned resolve openPaths offset other part whole →
    (∀ kind key, (whole.bodies kind).count key + lines.length < 2 ^ 64) → ∀ number number',
    Follows openPaths openPaths (CutPair resolve openPaths offset other whole lines.length)
      (cutLines resolve number lines part) (cutLines resolve number' lines whole)

namespace CutsAlike

variable {line : Line} {rest : List Line}

/-- A comment leaves an empty line, and a warning at most. -/
theorem comment (hrestores : ∀ path, AgreeAt openPaths (resolve path) (resolve path))
    (hcomment : opens .comment line = true)
    (hrest : CutsAlike resolve openPaths offset other (cutBlock .comment line rest).rest) :
    CutsAlike resolve openPaths offset other (line :: rest) := by
  intro part whole h hlength number number'
  rw [cutLines_comment _ _ _ _ hcomment, cutLines_comment _ _ _ _ hcomment]
  rw [List.length_cons, ← length_rest_cutBlock .comment line rest] at hlength ⊢
  refine follows_cons hrestores (hrest _ _ (h.noteCut .comment _ _ _ _) ?_ _ _)
    (.line ⟨by decide, fun path hpath => by cases hpath⟩) ?_
  · intro kind key
    rw [bodies_noteCut]
    have hcount := hlength kind key
    omega
  · exact fun kind key => by rw [bodies_noteCut]; exact Nat.le_succ _

/-- A block leaves the placeholder of a body that both nodes gain. -/
theorem block (hrestores : ∀ path, AgreeAt openPaths (resolve path) (resolve path))
    {opening : Opening} (hopens : opening.OpensOn line)
    (hrest : CutsAlike resolve openPaths offset other (cutBlock opening.kind line rest).rest) :
    CutsAlike resolve openPaths offset other (line :: rest) := by
  intro part whole h hlength number number'
  rw [cutLines_opening _ hopens, cutLines_opening _ hopens]
  have hchecks : Follows openPaths openPaths (fun _ _ => opening.check = .ok ())
      (CompileM.lift opening.check) (CompileM.lift opening.check) :=
    .lift fun found hfound => ⟨found, hfound, hfound⟩
  refine .bind hchecks fun _ _ hcheck =>
    .bind (follows_compileLines hrestores _ _ _) fun body copy hcopy => ?_
  have hopening := Opening.wellFormed_of_opensOn hopens hcheck
  let cut := cutBlock opening.kind line rest
  have hgains : ∀ (template : Template) number body kind key,
      ((opening.addBody (template.noteCut opening.kind number cut) body).bodies kind).count key =
        (template.bodies kind).count key +
          if kind = opening.placeholderKind ∧ key = opening.key then 1 else 0 := by
    intro template number body kind key
    rw [(Opening.gainsBody_addBody hopening _ body).count, bodies_noteCut]
  rw [List.length_cons, ← length_rest_cutBlock opening.kind line rest] at hlength ⊢
  refine follows_cons hrestores
    (hrest _ _ ((h.noteCut opening.kind _ _ _ _).addBody hopening hcopy) ?_ _ _) ?_ ?_
  · intro kind key
    have hcount := hlength kind key
    rw [hgains]
    split <;> omega
  · have hcounterpart := (h.noteCut opening.kind number number' cut cut).counterpart hopening body
    rw [bodies_noteCut, bodies_noteCut] at hcounterpart
    exact hcounterpart (by have hcount := hlength opening.placeholderKind opening.key; omega)
  · intro kind key
    rw [hgains]
    split <;> omega

/-- Any other line is left as it is, once the documents that it includes are met. -/
theorem plain (hrestores : ∀ path, AgreeAt openPaths (resolve path) (resolve path))
    (hunmarked : Unmarked line) (hcomment : opens .comment line = false)
    (hname : listName? line = none) (hcondition : condition? line = none)
    (hrest : CutsAlike resolve openPaths offset other rest) :
    CutsAlike resolve openPaths offset other (line :: rest) := by
  intro part whole h hlength number number'
  rw [cutLines_plain _ _ _ _ hcomment hname hcondition,
    cutLines_plain _ _ _ _ hcomment hname hcondition]
  refine .bind (follows_addIncludes hrestores h)
    fun part' whole' ⟨haligned, hbodies, hincludes⟩ => ?_
  refine follows_cons hrestores (hrest _ _ haligned ?_ _ _) (.line ⟨hunmarked, hincludes⟩) ?_
  · intro kind key
    have hcount := hlength kind key
    rw [List.length_cons] at hcount
    rw [hbodies]
    omega
  · exact fun kind key => by rw [hbodies]; exact Nat.le_succ _

end CutsAlike

/-- Lines without placeholders are cut in the whole as they are on their own. -/
theorem cutsAlike (hrestores : ∀ path, AgreeAt openPaths (resolve path) (resolve path))
    {lines : List Line} (hunmarked : ∀ line ∈ lines, Unmarked line) :
    CutsAlike resolve openPaths offset other lines := by
  have hrest : ∀ kind (line : Line) rest, (∀ other ∈ line :: rest, Unmarked other) →
      ∀ other ∈ (cutBlock kind line rest).rest, Unmarked other := by
    intro kind line rest hunmarked other hother
    obtain ⟨found, hfound, hpart⟩ := partsOf_rest_cutBlock kind line rest other hother
    exact (hunmarked found hfound).of_part hpart
  induction lines using block_induction with
  | nil =>
    intro part whole h hlength number number'
    rw [cutLines_nil, cutLines_nil]
    exact .pure ⟨h, .nil, fun kind key => Nat.le_refl _⟩
  | comment line rest hcomment ihRest =>
    exact .comment hrestores hcomment (ihRest (hrest .comment line rest hunmarked))
  | block line rest opening hopens ihBody ihRest =>
    exact .block hrestores hopens (ihRest (hrest opening.kind line rest hunmarked))
  | plain line rest hcomment hname hcondition ihRest =>
    exact .plain hrestores (hunmarked line List.mem_cons_self) hcomment hname hcondition
      (ihRest fun other hother => hunmarked other (List.mem_cons_of_mem _ hother))

end Cutting

/-! ### Reading -/

namespace Hosts

variable {offset : Offset} {other part whole : Template}

/-- Both nodes note the name that a segment refers to. -/
theorem refer (h : Hosts offset other part whole) (segment : Segment) :
    Hosts offset other (part.refer segment) (whole.refer segment) := by
  cases segment with
  | binding name =>
    refine ⟨h.body?, h.include?, h.stored, h.expression?, fun found hfound => ?_⟩
    rcases mem_addName.1 hfound with hold | rfl
    · exact (h.names found hold).imp_left fun hold => mem_addName.2 (.inl hold)
    · exact .inl (mem_addName.2 (.inr rfl))
  | text | expression | block | inclusion => exact h

/-- Both nodes add the same expression, whether or not they have one under its id. -/
theorem exists_addExpression (h : Hosts offset other part whole) {source : String}
    {part' : Template} (hadd : part.addExpression source = .ok part') :
    ∃ whole', whole.addExpression source = .ok whole' ∧ Hosts offset other part' whole' := by
  unfold addExpression at hadd ⊢
  split at hadd
  · next hhas =>
    cases hadd
    have hwhole : whole.expressions.has (Expression.idOf source) = true := h.stored _ hhas
    rw [if_pos hwhole]
    exact ⟨whole, rfl, h⟩
  · next hmissing =>
    split at hadd
    · next expression hcompile =>
      cases hadd
      have hpart : StoresNew (Expression.idOf source) expression part
          { part with
            expressions := part.expressions.insert (Expression.idOf source) expression } :=
        Table.get?_insert_of_missing (Option.not_isSome_iff_eq_none.1 hmissing) expression
      split
      · next hhas =>
        have hwhole := storesNew_of_isSome hhas expression
        obtain ⟨hstored, hexpression⟩ := h.expressions_of_storesNew hpart hwhole
        exact ⟨whole, rfl, h.body?, h.include?, hstored, hexpression, h.names⟩
      · next hmissing' =>
        have hwhole : StoresNew (Expression.idOf source) expression whole
            { whole with
              expressions := whole.expressions.insert (Expression.idOf source) expression } :=
          Table.get?_insert_of_missing (Option.not_isSome_iff_eq_none.1 hmissing') expression
        obtain ⟨hstored, hexpression⟩ := h.expressions_of_storesNew hpart hwhole
        exact ⟨_, rfl, h.body?, h.include?, hstored, hexpression, h.names⟩
    · cases hadd

/-- Braces in a settled text have the same meaning in both nodes, as nothing in them is a
placeholder or a document that the part does not have. -/
theorem meaning_eq (h : Hosts offset other part whole) {content rest : List Char}
    (hsettled : part.Settled ('\x7b' :: (content ++ '\x7d' :: rest))) :
    whole.meaning content = part.meaning content := by
  have hincluded : whole.includedPath? content = part.includedPath? content := by
    unfold includedPath?
    split
    · next blank path hcontent =>
      by_cases hpath : (isBlank blank && isPath path) = true
      · rw [Bool.and_eq_true] at hpath
        have hsome := hsettled.included (String.ofList path)
          (mem_includePaths_of_content (eq_of_afterPrefix? hcontent) hpath.1 hpath.2 rest)
        obtain ⟨document, hdocument⟩ := Option.isSome_iff_exists.1 hsome
        rw [hdocument, h.include? _ document hdocument]
      · rw [Bool.not_eq_true] at hpath
        simp only [hpath, Bool.false_and]
    · rfl
  unfold meaning
  rw [hsettled.unmarked.ofContent?_eq_none, hincluded]

end Hosts

/-- The segments of text without placeholders are no blocks. -/
theorem behind_of_meaning {template : Template} {content rest : List Char}
    (h : Unmarked ('\x7b' :: (content ++ '\x7d' :: rest))) {segment : Segment}
    (hmeaning : template.meaning content = .segment segment) (offset : Offset) :
    segment.behind offset = segment := by
  cases refersTo_of_meaning hmeaning with
  | block hcontent =>
    rw [h.ofContent?_eq_none] at hcontent
    cases hcontent
  | inclusion | binding => rfl

/-- What reading gives in the part it gives in the whole, the blocks behind those in front. -/
def ReadsAlike (offset : Offset) (other : Template)
    (reading reading' : Except Error (List Piece × Template)) : Prop :=
  ∀ pieces part', reading = .ok (pieces, part') →
    ∃ whole', reading' = .ok (pieces.map (Piece.behind offset), whole') ∧
      Hosts offset other part' whole'

section Reading

variable {offset : Offset} {other part whole : Template}

/-- A piece that does not count blocks may come in front in both nodes. -/
theorem ReadsAlike.cons {reading reading' : Except Error (List Piece × Template)}
    (h : ReadsAlike offset other reading reading') {piece : Piece}
    (hpiece : piece.behind offset = piece) :
    ReadsAlike offset other (do
        let (pieces, changed) ← reading
        return (piece :: pieces, changed))
      (do
        let (pieces, changed) ← reading'
        return (piece :: pieces, changed)) := by
  cases reading with
  | error error => exact fun pieces changed hread => by cases hread
  | ok read =>
    intro pieces changed hread
    cases hread
    obtain ⟨whole', rfl, hosts⟩ := h _ _ rfl
    refine ⟨whole', ?_, hosts⟩
    rw [List.map_cons, hpiece]
    rfl

/-- A line without placeholders is read in the whole as in the part. -/
theorem readsAlike_readLine {cs : List Char} (hsettled : part.Settled cs)
    (h : Hosts offset other part whole) (number number' : Nat) :
    ReadsAlike offset other (readLine number cs part) (readLine number' cs whole) := by
  fun_induction readLine number cs part generalizing whole with
  | case1 part =>
    intro pieces part' hread
    cases hread
    exact ⟨whole, by rw [readLine]; rfl, h⟩
  | case2 part rest ih =>
    rw [readLine]
    exact (ih (hsettled.of_part ⟨['\\', '\x7b'], [], by simp⟩) h).cons rfl
  | case3 part rest ih =>
    rw [readLine]
    exact (ih (hsettled.of_part ⟨['\\', '\x7d'], [], by simp⟩) h).cons rfl
  | case4 part cs hcontent ih =>
    rw [readLine_open_of_none hcontent]
    exact (ih (hsettled.of_part ⟨['\x7b'], [], by simp⟩) h).cons rfl
  | case5 part cs content rest hcontent hmeaning ih =>
    have hrest := ih (hsettled.of_part ⟨['\x7b'], [], by simp⟩) h
    rw [eq_of_content? hcontent] at hsettled
    rw [readLine_open_of_some hcontent, h.meaning_eq hsettled, hmeaning]
    exact hrest.cons rfl
  | case6 part cs content rest hcontent kind hmeaning =>
    rename_i ih
    rw [eq_of_content? hcontent] at hsettled
    rw [readLine_open_of_some hcontent, h.meaning_eq hsettled, hmeaning]
    exact ih ⟨hsettled.behind.unmarked, hsettled.behind.included⟩
      ⟨h.body?, h.include?, h.stored, h.expression?, h.names⟩
  | case7 part cs content rest hcontent segment hmeaning ih =>
    rw [eq_of_content? hcontent] at hsettled
    rw [readLine_open_of_some hcontent, h.meaning_eq hsettled, hmeaning]
    have hgrows : part.Grows (part.refer segment) :=
      (Change.refer part segment : Change (fun _ => True) (fun _ _ => True) _ _).grows
    have hsame := behind_of_meaning hsettled.unmarked hmeaning offset
    exact (ih (hsettled.behind.of_grows hgrows) (h.refer segment)).cons
      (congrArg Piece.segment hsame)
  | case8 part cs content rest hcontent source hmeaning ih =>
    rw [eq_of_content? hcontent] at hsettled
    rw [readLine_open_of_some hcontent, h.meaning_eq hsettled, hmeaning]
    cases hadd : part.addExpression source with
    | error error => exact fun pieces changed hread => by cases hread
    | ok between =>
      obtain ⟨whole', hadd', hosts⟩ := h.exists_addExpression hadd
      dsimp only
      rw [hadd']
      have hgrows := (changes_of_addExpression hadd).grows
      exact (ih between (hsettled.behind.of_grows hgrows) hosts).cons rfl
  | case9 part c rest hescape hescape' hopen ih =>
    rw [readLine]
    · exact (ih (hsettled.of_part ⟨[c], [], by simp⟩) h).cons rfl
    all_goals assumption

/-- The lines that are left are read in the whole as in the part. -/
theorem readsAlike_readLines {lines lines' : List Line}
    (hlines : List.Forall₂ (Counterpart offset part) lines lines')
    (h : Hosts offset other part whole) (number number' : Nat) :
    ReadsAlike offset other (readLines number lines part) (readLines number' lines' whole) := by
  induction lines generalizing lines' part whole number number' with
  | nil =>
    cases hlines
    intro pieces part' hread
    cases hread
    exact ⟨whole, rfl, h⟩
  | cons line lines ih =>
    obtain ⟨line', rest, hline, hrest, rfl⟩ := List.forall₂_cons_left_iff.1 hlines
    intro pieces part' hread
    obtain ⟨first, between, more, hfirst, hmore, rfl⟩ := exists_of_readLines_cons hread
    have hgrows := (changes_of_readLine hfirst).grows
    have hrest : List.Forall₂ (Counterpart offset between) lines rest :=
      hrest.imp fun _ _ hcounterpart => hcounterpart.of_grows hgrows
    obtain ⟨whole', hfirst', hosts⟩ : ∃ whole', readLine number' line' whole =
        .ok (first.map (Piece.behind offset), whole') ∧ Hosts offset other between whole' := by
      cases hline with
      | line hsettled => exact readsAlike_readLine hsettled h number number' first between hfirst
      | @block placeholder hreadable hbehind hbody =>
        rw [readLine_text hreadable hbody] at hfirst
        cases hfirst
        rw [hasBody_eq_isSome_body?] at hbody
        obtain ⟨body, hfound⟩ := Option.isSome_iff_exists.1 hbody
        obtain ⟨copy, hcopy, -⟩ := h.body? placeholder body hfound
        refine ⟨whole, readLine_text hbehind ?_ number', h⟩
        rw [hasBody_eq_isSome_body?, hcopy, Option.isSome_some]
    obtain ⟨whole'', hmore', hosts'⟩ := ih hrest hosts (number + 1) (number' + 1) more part' hmore
    refine ⟨whole'', ?_, hosts'⟩
    rw [List.map_append]
    exact readLines_cons hfirst' hmore'

end Reading

end Template

end BraceTemplate
