import Mathlib.Logic.Relation
import BraceTemplate.Proofs.Template.Terminating
import BraceTemplate.Proofs.Template.Tracing

/-!
# Calls and nodes

Every call of a compilation that succeeds gives a node: a body that is cut out becomes a body of the
node that its lines belong to, and a document that lines ask for is included in theirs. So what
holds of each node and the lines it is compiled from holds of all lines that are compiled on the
way.
-/

namespace BraceTemplate

open CompileM (AgreeAt Ensures Yields congruent_agreeAt)
open Relation (ReflTransGen)

/-- A compilation that restores the open paths gives what it gives, or it fails. -/
theorem CompileM.AgreeAt.yields_run {α : Type} {openPaths : List String} {m : CompileM α}
    (h : AgreeAt openPaths m m) :
    Yields openPaths m (fun a => m openPaths = (.ok a, openPaths)) fun _ => True := by
  rcases h.yields with ⟨a, hrun, -⟩ | ⟨failure, hrun, -⟩
  · exact .inl ⟨a, hrun, hrun⟩
  · exact .inr ⟨failure, hrun, trivial⟩

/-! ### The lines that are met -/

section Meets

variable {line first : Line} {rest others : List Line}

/-- On a line that opens no block no block opens. -/
theorem Plain.not_opensOn {opening : Opening} (hplain : Plain line) : ¬ opening.OpensOn line := by
  intro hopens
  have hnone := hplain.opening?_eq
  rw [opening?_of_opensOn hopens] at hnone
  cases hnone

/-- At most one block opens on a line. -/
theorem Opening.OpensOn.unique {opening other : Opening} (h : opening.OpensOn line)
    (h' : other.OpensOn line) : opening = other :=
  Option.some.inj ((opening?_of_opensOn h).symm.trans (opening?_of_opensOn h'))

/-- Behind the line that opens a comment, the lines are met that the comment leaves. -/
theorem meets_comment_iff (hcomment : opens .comment first = true) :
    Meets line rest (first :: others) ↔
      line = first ∧ rest = others ∨ Meets line rest (cutBlock .comment first others).rest := by
  constructor
  · rintro (_ | ⟨_, hrest⟩ | ⟨hopens, _⟩ | ⟨hplain, _⟩)
    · exact .inl ⟨rfl, rfl⟩
    · exact .inr hrest
    · rw [Opening.opens_comment_of_opensOn hopens] at hcomment
      cases hcomment
    · rw [hplain.comment] at hcomment
      cases hcomment
  · rintro (⟨rfl, rfl⟩ | hrest)
    · exact .here
    · exact .comment hcomment hrest

/-- Behind the line that opens a block, the lines are met that the block leaves. -/
theorem meets_block_iff {opening : Opening} (hopens : opening.OpensOn first) :
    Meets line rest (first :: others) ↔
      line = first ∧ rest = others ∨ Meets line rest (cutBlock opening.kind first others).rest := by
  constructor
  · rintro (_ | ⟨hcomment, _⟩ | ⟨hother, hrest⟩ | ⟨hplain, _⟩)
    · exact .inl ⟨rfl, rfl⟩
    · rw [Opening.opens_comment_of_opensOn hopens] at hcomment
      cases hcomment
    · rw [hopens.unique hother]
      exact .inr hrest
    · exact absurd hopens hplain.not_opensOn
  · rintro (⟨rfl, rfl⟩ | hrest)
    · exact .here
    · exact .block hopens hrest

/-- Behind a line that opens no block, the next lines are met. -/
theorem meets_plain_iff (hplain : Plain first) :
    Meets line rest (first :: others) ↔ line = first ∧ rest = others ∨ Meets line rest others := by
  constructor
  · rintro (_ | ⟨hcomment, _⟩ | ⟨hopens, _⟩ | ⟨_, hrest⟩)
    · exact .inl ⟨rfl, rfl⟩
    · rw [hplain.comment] at hcomment
      cases hcomment
    · exact absurd hopens hplain.not_opensOn
    · exact .inr hrest
  · rintro (⟨rfl, rfl⟩ | hrest)
    · exact .here
    · exact .plain hplain hrest

/-- A line is met in its place: there are `n` lines in front of it. -/
def MeetsAt (n : Nat) (line : Line) (rest lines : List Line) : Prop :=
  Meets line rest lines ∧ n + 1 + rest.length = lines.length

namespace MeetsAt

variable {n : Nat}

/-- The first line is met at once. -/
theorem here : MeetsAt 0 line rest (line :: rest) :=
  ⟨.here, by rw [List.length_cons]; omega⟩

/-- One line more in front of the lines is one more in front of those that are met. -/
theorem cons {lines : List Line} (h : MeetsAt n line rest lines)
    (hmeets : Meets line rest (first :: others)) (hlength : lines.length = others.length) :
    MeetsAt (n + 1) line rest (first :: others) := by
  have hplace := h.2
  exact ⟨hmeets, by rw [List.length_cons]; omega⟩

/-- Behind a comment a line is met one place further on. -/
theorem comment (h : MeetsAt n line rest (cutBlock .comment first others).rest)
    (hcomment : opens .comment first = true) : MeetsAt (n + 1) line rest (first :: others) :=
  h.cons (.comment hcomment h.1) (length_rest_cutBlock ..)

/-- Behind the line that opens a block, a line is met one place further on. -/
theorem block {opening : Opening}
    (h : MeetsAt n line rest (cutBlock opening.kind first others).rest)
    (hopens : opening.OpensOn first) : MeetsAt (n + 1) line rest (first :: others) :=
  h.cons (.block hopens h.1) (length_rest_cutBlock ..)

/-- Behind a line that opens no block, a line is met one place further on. -/
theorem plain (h : MeetsAt n line rest others) (hplain : Plain first) :
    MeetsAt (n + 1) line rest (first :: others) :=
  h.cons (.plain hplain h.1) rfl

end MeetsAt

end Meets

namespace Template

/-! ### The course of a compilation and its calls -/

/-- Lines are compiled into a node, under some name. -/
def Compiles (resolve : String → CompileM Template) (openPaths : List String) (lines : List Line)
    (node : Template) : Prop :=
  ∃ name, compileLines resolve name lines openPaths = (.ok node, openPaths)

section Compiles

variable {resolve : String → CompileM Template} {openPaths : List String} {lines : List Line}
  {node : Template}

/-- Compiling lines leaves the open paths as they were if compiling each document does. -/
theorem agreeAt_compileLines_self
    (hrestores : ∀ path, AgreeAt openPaths (resolve path) (resolve path)) (name : String)
    (lines : List Line) :
    AgreeAt openPaths (compileLines resolve name lines) (compileLines resolve name lines) :=
  congruent_compileLines (congruent_agreeAt openPaths) (fun path _ => hrestores path) name

/-- Lines are compiled into the node that a run gives. -/
theorem Compiles.of_ok (hrestores : ∀ path, AgreeAt openPaths (resolve path) (resolve path))
    {name : String} (hrun : (compileLines resolve name lines openPaths).1 = .ok node) :
    Compiles resolve openPaths lines node :=
  ⟨name, Prod.ext hrun (agreeAt_compileLines_self hrestores name lines).2⟩

/-- Blocks are cut out step by step, and every body is what its own lines compile to. -/
theorem yields_cutting_compiles
    (hrestores : ∀ path, AgreeAt openPaths (resolve path) (resolve path))
    (number : Nat) (lines : List Line) (template : Template) :
    Yields openPaths (cutLines resolve number lines template)
      (fun cut => Cutting (Compiles resolve openPaths)
        (fun path document => resolve path openPaths = (.ok document, openPaths))
        number lines template cut.1 cut.2) fun _ => True := by
  induction lines using block_induction generalizing number template with
  | nil =>
    rw [cutLines_nil]
    exact .pure (.done number template)
  | comment line rest hcomment ihRest =>
    rw [cutLines_comment _ _ _ _ hcomment]
    exact .bind (ihRest _ _) fun cut hcut => .pure (.comment hcomment hcut)
  | block line rest opening hopens ihBody ihRest =>
    -- The body is compiled by a call of its own, which restores the open paths as well.
    have hrun := fun name => (agreeAt_compileLines_self hrestores name
      (cutBlock opening.kind line rest).body).yields_run
    rw [cutLines_opening _ hopens]
    refine .bind (.lift (fun _ hcheck => hcheck) fun _ _ => trivial) fun _ hcheck =>
      .bind (hrun _) fun body hbody => .bind (ihRest _ _) fun cut hcut => ?_
    exact .pure (.block hopens (Opening.wellFormed_of_opensOn hopens hcheck) ⟨_, hbody⟩ hcut)
  | plain line rest hcomment hname hcondition ihRest =>
    rw [cutLines_plain _ _ _ _ hcomment hname hcondition]
    refine .bind (yields_gainsDocuments (fun path _ => (hrestores path).yields_run) template)
      fun between hbetween => .bind (ihRest _ _) fun cut hcut => ?_
    exact .pure (.plain hcomment hname hcondition hbetween hcut)

/-- The bodies of a compiled node are compiled from what was cut out, and its documents are
resolved. -/
theorem Compiles.course (h : Compiles resolve openPaths lines node)
    (hrestores : ∀ path, AgreeAt openPaths (resolve path) (resolve path)) :
    Course (Compiles resolve openPaths)
      (fun path document => resolve path openPaths = (.ok document, openPaths)) lines node := by
  obtain ⟨name, hrun⟩ := h
  have hyields : Yields openPaths (compileLines resolve name lines)
      (Course (Compiles resolve openPaths)
        (fun path document => resolve path openPaths = (.ok document, openPaths)) lines)
      fun _ => True := by
    refine .bind (yields_cutting_compiles hrestores 1 lines (empty name)) fun cut hcut => ?_
    refine .lift (fun node hcomplete => ?_) fun _ _ => trivial
    obtain ⟨pieces, read, hreading, rfl⟩ := exists_of_complete hcomplete
    exact .mk hcut hreading
  exact hyields.of_ok (congrArg Prod.fst hrun)

/-- What stands below a compiled node is compiled from lines as well, or resolved. -/
theorem Compiles.below (h : Compiles resolve openPaths lines node)
    (hrestores : ∀ path, AgreeAt openPaths (resolve path) (resolve path)) :
    node.Below (fun child => ∃ body, Compiles resolve openPaths body child)
      fun path document => resolve path openPaths = (.ok document, openPaths) := by
  obtain ⟨start, hchanges⟩ := (h.course hrestores).changes
    (P := fun child => ∃ body, Compiles resolve openPaths body child)
    fun body child _ _ hchild => ⟨body, hchild⟩
  exact hchanges.below

end Compiles

/-! ### Bodies -/

section Bodies

variable {IsBody : List Line → Template → Prop} {IsDocument : String → Template → Prop}

/-- Cutting takes nothing away from a node. -/
theorem Cutting.grows {number : Nat} {lines left : List Line} {template changed : Template}
    (h : Cutting IsBody IsDocument number lines template left changed) : template.Grows changed :=
  (h.changes (P := fun _ => True) fun _ _ _ _ _ => trivial).grows

/-- A body that is cut out has a place in the node. -/
theorem Cutting.exists_body {number : Nat} {lines left body : List Line}
    {template changed : Template}
    (h : Cutting IsBody IsDocument number lines template left changed)
    (hcuts : CutsOut lines body) :
    ∃ placeholder child, changed.body? placeholder = some child ∧ IsBody body child := by
  obtain ⟨line, rest, opening, hmeets, hopens, rfl⟩ := hcuts
  induction h with
  | done => cases hmeets
  | comment hcomment hrest ih =>
    rcases (meets_comment_iff hcomment).1 hmeets with ⟨rfl, rfl⟩ | hmeets
    · rw [Opening.opens_comment_of_opensOn hopens] at hcomment
      cases hcomment
    · exact ih hmeets
  | @block number line' rest' left other template child changed hother hwellFormed hbody hrest ih =>
    rcases (meets_block_iff hother).1 hmeets with ⟨rfl, rfl⟩ | hmeets
    · obtain rfl := hother.unique hopens
      exact ⟨_, child,
        hrest.grows.body? _ _ (Opening.gainsBody_addBody hwellFormed _ child).body?_self, hbody⟩
    · exact ih hmeets
  | plain hcomment hname hcondition hdocuments hrest ih =>
    rcases (meets_plain_iff ⟨hcomment, hname, hcondition⟩).1 hmeets with ⟨rfl, rfl⟩ | hmeets
    · exact absurd hopens (Plain.not_opensOn ⟨hcomment, hname, hcondition⟩)
    · exact ih hmeets

/-- So it has in the node that is completed. -/
theorem Course.exists_child {lines body : List Line} {node : Template}
    (h : Course IsBody IsDocument lines node) (hcuts : CutsOut lines body) :
    ∃ step child, node.child? step = some child ∧ IsBody body child := by
  obtain ⟨hcutting, hreading⟩ := h
  rename_i name left cut read pieces
  obtain ⟨placeholder, child, hchild, hbody⟩ := hcutting.exists_body hcuts
  rw [body?, ← (retains_of_readLines hreading).bodies] at hchild
  obtain ⟨kind, key, index⟩ := placeholder
  cases kind with
  | conditional => exact ⟨.conditional key index, child, hchild, hbody⟩
  | repetition => exact ⟨.repetition key index, child, hchild, hbody⟩

end Bodies

/-! ### The lines that are left -/

section Left

variable {IsBody : List Line → Template → Prop} {IsDocument : String → Template → Prop}

/-- What is left in the place of a line: the line itself if no block covers it and none opens on it,
and otherwise nothing or a placeholder. -/
theorem Cutting.left_cases {number : Nat} {lines left : List Line} {template changed : Template}
    (h : Cutting IsBody IsDocument number lines template left changed) {n : Nat} {cs : Line}
    (hcs : left[n]? = some cs) :
    cs = [] ∨
      (∃ placeholder : Placeholder, BraceFree placeholder.key.toList ∧ cs = placeholder.text) ∨
      ∃ rest, MeetsAt n cs rest lines ∧ Plain cs := by
  induction h generalizing n with
  | done => cases hcs
  | @comment number line others left template changed hcomment hrest ih =>
    cases n with
    | zero => exact .inl (Option.some.inj hcs).symm
    | succ n =>
      refine (ih hcs).imp_right (Or.imp_right ?_)
      rintro ⟨rest, hmeets, hplain⟩
      exact ⟨rest, hmeets.comment hcomment, hplain⟩
  | @block number line others left opening template body changed hopens hopening hbody hrest ih =>
    cases n with
    | zero => exact .inr (.inl ⟨_, Opening.braceFree_key hopening, (Option.some.inj hcs).symm⟩)
    | succ n =>
      refine (ih hcs).imp_right (Or.imp_right ?_)
      rintro ⟨rest, hmeets, hplain⟩
      exact ⟨rest, hmeets.block hopens, hplain⟩
  | @plain number line others left template between changed hcomment hname hcondition
      hdocuments hrest ih =>
    have hplain : Plain line := ⟨hcomment, hname, hcondition⟩
    cases n with
    | zero =>
      obtain rfl : line = cs := Option.some.inj hcs
      exact .inr (.inr ⟨others, .here, hplain⟩)
    | succ n =>
      refine (ih hcs).imp_right (Or.imp_right ?_)
      rintro ⟨rest, hmeets, hplain'⟩
      exact ⟨rest, hmeets.plain hplain, hplain'⟩

/-- A line is left as it is if it is met and no block opens on it. -/
theorem Cutting.mem_left {number : Nat} {lines left : List Line} {template changed : Template}
    (h : Cutting IsBody IsDocument number lines template left changed) {line : Line}
    {rest : List Line} (hmeets : Meets line rest lines) (hplain : Plain line) : line ∈ left := by
  induction h with
  | done => cases hmeets
  | comment hcomment hrest ih =>
    rcases (meets_comment_iff hcomment).1 hmeets with ⟨rfl, rfl⟩ | hmeets
    · rw [hplain.comment] at hcomment
      cases hcomment
    · exact List.mem_cons_of_mem _ (ih hmeets)
  | block hopens hopening hbody hrest ih =>
    rcases (meets_block_iff hopens).1 hmeets with ⟨rfl, rfl⟩ | hmeets
    · exact absurd hopens hplain.not_opensOn
    · exact List.mem_cons_of_mem _ (ih hmeets)
  | plain hcomment hname hcondition hdocuments hrest ih =>
    rcases (meets_plain_iff ⟨hcomment, hname, hcondition⟩).1 hmeets with ⟨rfl, rfl⟩ | hmeets
    · exact List.mem_cons_self
    · exact List.mem_cons_of_mem _ (ih hmeets)

end Left

/-! ### Included documents -/

section Documents

variable {resolve : String → CompileM Template}

/-- Behind the inclusion of paths a node has the documents of all of them, and all it had before. -/
theorem ensures_addIncludes (paths : List String) (template : Template) :
    Ensures (addIncludes resolve paths template) fun changed =>
      ∀ path, path ∈ paths ∨ (template.include? path).isSome = true →
        (changed.include? path).isSome = true := by
  induction paths generalizing template with
  | nil => exact .pure fun path hpath => hpath.resolve_left List.not_mem_nil
  | cons first paths ih =>
    rw [addIncludes]
    split
    · next hfound =>
      refine fun openPaths changed after hrun path hpath =>
        ih _ openPaths changed after hrun path ?_
      rcases hpath with hmem | hpath
      · rcases List.mem_cons.1 hmem with rfl | hmem
        · exact .inr hfound
        · exact .inl hmem
      · exact .inr hpath
    · next hmissing =>
      refine .bind (P := fun _ => True) (fun _ _ _ _ => trivial) fun document _ => ?_
      refine fun openPaths changed after hrun path hpath =>
        ih _ openPaths changed after hrun path ?_
      by_cases hfirst : path = first
      · subst hfirst
        exact .inr (Option.isSome_of_eq_some (Table.get?_insert_self ..))
      · refine hpath.imp (fun hmem => (List.mem_cons.1 hmem).resolve_left hfirst) fun hfound => ?_
        rw [include?, Table.get?_insert_of_ne _ hfirst]
        exact hfound

/-- A body that is added is no document. -/
theorem include?_addBody {opening : Opening} (hopening : opening.WellFormed)
    (template body : Template)
    (path : String) : (opening.addBody template body).include? path = template.include? path := by
  rw [include?, (Opening.gainsBody_addBody hopening template body).includes, include?]

/-- Cutting includes every document that lines ask for. -/
theorem ensures_asked (number : Nat) (lines : List Line) (template : Template) :
    Ensures (cutLines resolve number lines template) fun cut =>
      ∀ path, AsksFor lines path ∨ (template.include? path).isSome = true →
        (cut.2.include? path).isSome = true := by
  induction lines using block_induction generalizing number template with
  | nil =>
    rw [cutLines_nil]
    refine .pure fun path hpath => hpath.resolve_left ?_
    rintro ⟨line, rest, hmeets, -⟩
    cases hmeets
  | comment first others hcomment ihRest =>
    rw [cutLines_comment _ _ _ _ hcomment]
    refine .bind (ihRest _ _) fun cut hcut => .pure fun path hpath => hcut path ?_
    refine hpath.imp ?_ fun hfound => by rwa [include?_noteCut]
    rintro ⟨line, rest, hmeets, hplain, hmem⟩
    rcases (meets_comment_iff hcomment).1 hmeets with ⟨rfl, rfl⟩ | hmeets
    · rw [hplain.comment] at hcomment
      cases hcomment
    · exact ⟨line, rest, hmeets, hplain, hmem⟩
  | block first others opening hopens ihBody ihRest =>
    rw [cutLines_opening _ hopens]
    refine .bind (.lift fun _ hcheck => hcheck) fun _ hcheck =>
      .bind (P := fun _ => True) (fun _ _ _ _ => trivial) fun body _ =>
        .bind (ihRest _ _) fun cut hcut =>
        .pure fun path hpath => hcut path ?_
    refine hpath.imp ?_ fun hfound => by
      rwa [include?_addBody (Opening.wellFormed_of_opensOn hopens hcheck), include?_noteCut]
    rintro ⟨line, rest, hmeets, hplain, hmem⟩
    rcases (meets_block_iff hopens).1 hmeets with ⟨rfl, rfl⟩ | hmeets
    · exact absurd hopens hplain.not_opensOn
    · exact ⟨line, rest, hmeets, hplain, hmem⟩
  | plain first others hcomment hname hcondition ihRest =>
    rw [cutLines_plain _ _ _ _ hcomment hname hcondition]
    refine .bind (ensures_addIncludes _ template) fun between hbetween =>
      .bind (ihRest _ _) fun cut hcut => .pure fun path hpath => hcut path ?_
    rcases hpath with ⟨line, rest, hmeets, hplain, hmem⟩ | hfound
    · rcases (meets_plain_iff ⟨hcomment, hname, hcondition⟩).1 hmeets with ⟨rfl, rfl⟩ | hmeets
      · exact .inr (hbetween path (.inl hmem))
      · exact .inl ⟨line, rest, hmeets, hplain, hmem⟩
    · exact .inr (hbetween path (.inr hfound))

/-- A compiled node includes every document that its lines ask for. -/
theorem Compiles.exists_include {openPaths : List String} {lines : List Line} {node : Template}
    (h : Compiles resolve openPaths lines node)
    (hrestores : ∀ path, AgreeAt openPaths (resolve path) (resolve path)) {path : String}
    (hasks : AsksFor lines path) :
    ∃ document, node.include? path = some document ∧
      resolve path openPaths = (.ok document, openPaths) := by
  obtain ⟨name, hrun⟩ := h
  have hincludes : Ensures (compileLines resolve name lines) fun node =>
      (node.include? path).isSome = true := by
    refine .bind (ensures_asked 1 lines (empty name)) fun cut hcut => .lift fun node hcomplete => ?_
    obtain ⟨pieces, read, hreading, rfl⟩ := exists_of_complete hcomplete
    have hfound := hcut path (.inl hasks)
    rwa [include?, ← (retains_of_readLines hreading).includes] at hfound
  obtain ⟨document, hfound⟩ := Option.isSome_iff_exists.1 (hincludes _ _ _ hrun)
  have hbelow := Compiles.below ⟨name, hrun⟩ hrestores
  exact ⟨document, hfound, hbelow.documents (path, document) (Table.mem_of_get? hfound)⟩

end Documents

/-! ### Chains of calls -/

section Calls

variable {loader : Loader} {openPaths : List String}

/-- A document that is resolved is compiled from the lines that are loaded. -/
theorem compiles_of_compilePath {depth : Nat} {path : String} {document : Template}
    (hrun : compilePath loader depth path openPaths = (.ok document, openPaths)) :
    ∃ depth' lines, loader.load path = .ok lines ∧
      Compiles (compilePath loader depth') (path :: openPaths) lines document := by
  cases depth with
  | zero => cases hrun
  | succ depth =>
    by_cases hclosed : path ∈ openPaths
    · rw [compilePath_of_mem hclosed] at hrun
      cases hrun
    · cases hload : loader.load path with
      | error error =>
        rw [compilePath_of_error hclosed hload] at hrun
        cases hrun
      | ok lines =>
        rw [compilePath_of_lines hclosed hload, compileDocument] at hrun
        have hresult := congrArg Prod.fst hrun
        exact ⟨depth, lines, rfl,
          .of_ok (fun other => restores_compilePath loader depth other _) hresult⟩

/-- Every node of the template is compiled from lines. -/
theorem Compiles.of_nodeAt? {depth : Nat} {lines : List Line} {template node : Template}
    (h : Compiles (compilePath loader depth) openPaths lines template) {address : List Step}
    (hnode : template.nodeAt? address = some node) :
    ∃ depth' openPaths' lines', Compiles (compilePath loader depth') openPaths' lines' node := by
  induction address generalizing depth openPaths lines template with
  | nil =>
    cases hnode
    exact ⟨depth, openPaths, lines, h⟩
  | cons step address ih =>
    obtain ⟨child, hchild, hnode⟩ := Option.bind_eq_some_iff.1 hnode
    have hbelow := h.below fun path => restores_compilePath loader depth path openPaths
    rcases mem_children_iff.1 (mem_children_of_child? hchild) with ⟨kind, hbody⟩ | hdocument
    · obtain ⟨body, hcompiles⟩ := hbelow.bodies kind child hbody
      exact ih hcompiles hnode
    · obtain ⟨entry, hentry, rfl⟩ := List.mem_map.1 hdocument
      obtain ⟨depth', lines', -, hcompiles⟩ :=
        compiles_of_compilePath (hbelow.documents entry hentry)
      exact ih hcompiles hnode

/-- Whatever lines are compiled on the way, the node that they give stands in the template. -/
theorem Compiles.exists_node {depth : Nat} {lines : List Line} {template : Template}
    (h : Compiles (compilePath loader depth) openPaths lines template)
    {call : List String × List Line}
    (hcalls : ReflTransGen (Calls loader) (openPaths, lines) call) :
    ∃ depth' node address, Compiles (compilePath loader depth') call.1 call.2 node ∧
      template.nodeAt? address = some node := by
  induction hcalls with
  | refl => exact ⟨depth, template, [], h, rfl⟩
  | tail hcalls hcall ih =>
    obtain ⟨depth', node, address, hnode, haddress⟩ := ih
    have hbelow : ∀ (step : Step) {child : Template}, node.child? step = some child →
        template.nodeAt? (address ++ [step]) = some child := by
      intro step child hchild
      rw [nodeAt?_append, haddress, Option.bind_some, nodeAt?_cons, hchild]
      rfl
    have hrestores := fun path => restores_compilePath loader depth' path
    cases hcall with
    | body hcuts =>
      obtain ⟨step, child, hchild, hcompiles⟩ :=
        (hnode.course fun path => hrestores path _).exists_child hcuts
      exact ⟨depth', child, _, hcompiles, hbelow step hchild⟩
    | @document _ _ _ path hasks hclosed hload =>
      obtain ⟨document, hfound, hrun⟩ := hnode.exists_include (fun path => hrestores path _) hasks
      obtain ⟨depth'', lines', hlines, hcompiles⟩ := compiles_of_compilePath hrun
      obtain rfl := Except.ok.inj (hload.symm.trans hlines)
      exact ⟨depth'', document, _, hcompiles, hbelow (.inclusion path) hfound⟩

end Calls

end Template

end BraceTemplate
