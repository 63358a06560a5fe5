import Mathlib.Logic.Relation
import BraceTemplate.Proofs.Template.Bodies
import BraceTemplate.Proofs.Template.Descent
import BraceTemplate.Proofs.Template.Including
import BraceTemplate.Proofs.Template.Reading

/-!
# How a node grows while it is compiled

Compiling starts from an empty node and changes it in few ways: a warning, a further body, an
included document, a name, an expression, and its segments and bindings in the end. What every
change keeps holds of every compiled node. Bodies are compiled like documents; how include paths are
compiled is open, so what is known of the included documents is a parameter.
-/

namespace BraceTemplate

open CompileM (Yields)

/-- The error that a source is no expression. -/
def Error.IsFault (error : Error) : Prop :=
  ∃ source fault, error = .ofFault source fault

namespace Template

/-- One change of a node that is being compiled. The bodies and the included documents that it gains
have given properties. -/
inductive Change (IsBody : Template → Prop) (IsDocument : String → Template → Prop) :
    Template → Template → Prop
  | warn (template : Template) (warning : Error) :
    Change IsBody IsDocument template
      { template with ownWarnings := template.ownWarnings ++ [warning] }
  | repetition (template : Template) (name : String) {body : Template} (hbody : IsBody body) :
    Change IsBody IsDocument template (template.addRepetition name body)
  | conditional (template : Template) {source : String} {condition : Expression} {body : Template}
      (hcompile : Expression.compile source = .ok condition) (hbody : IsBody body) :
    Change IsBody IsDocument template (template.addConditional condition body)
  | document (template : Template) {path : String} {document : Template}
      (hdocument : IsDocument path document) (hmissing : template.include? path = none) :
    Change IsBody IsDocument template
      { template with includes := Table.insert template.includes path document }
  | refer (template : Template) (segment : Segment) :
    Change IsBody IsDocument template (template.refer segment)
  | expression (template : Template) {source : String} {expression : Expression}
      (hcompile : Expression.compile source = .ok expression)
      (hmissing : template.expression? (Expression.idOf source) = none) :
    Change IsBody IsDocument template
      { template with
        expressions := template.expressions.insert (Expression.idOf source) expression }
  | finish (template : Template) (segments : List Segment) :
    Change IsBody IsDocument template { template with segments }.bindNames

/-- Any number of changes. -/
abbrev Changes (IsBody : Template → Prop) (IsDocument : String → Template → Prop) :
    Template → Template → Prop :=
  Relation.ReflTransGen (Change IsBody IsDocument)

/-- What every change keeps is kept by any number of them. -/
theorem Changes.keeps {IsBody : Template → Prop} {IsDocument : String → Template → Prop}
    {P : Template → Prop} {template changed : Template}
    (h : Changes IsBody IsDocument template changed)
    (hstep : ∀ before after, Change IsBody IsDocument before after → P before → P after)
    (hbefore : P template) : P changed := by
  induction h with
  | refl => exact hbefore
  | tail _ hchange ih => exact hstep _ _ hchange ih

section Growing

variable (IsBody : Template → Prop) (IsDocument : String → Template → Prop)

/-! ### Reading lines -/

/-- Reading changes a node, or it ends because a source is no expression. -/
def Reads {α : Type} (template : Template) (node : α → Template)
    (reading : Except Error α) : Prop :=
  match reading with
  | .ok read => Changes IsBody IsDocument template (node read)
  | .error error => error.IsFault

variable {IsBody IsDocument} {α β : Type} {node : α → Template} {node' : β → Template}
  {template between : Template}

/-- Reading may come behind a change of the node. -/
theorem Reads.of_change {reading : Except Error α}
    (hchange : Change IsBody IsDocument template between)
    (h : Reads IsBody IsDocument between node reading) :
    Reads IsBody IsDocument template node reading := by
  cases reading with
  | error error => exact h
  | ok read => exact .head hchange h

/-- Two readings in a row change a node as one does. -/
theorem Reads.bind {reading : Except Error α} {next : α → Except Error β}
    (h : Reads IsBody IsDocument template node reading)
    (hnext : ∀ read, Reads IsBody IsDocument (node read) node' (next read)) :
    Reads IsBody IsDocument template node' (reading >>= next) := by
  cases reading with
  | error error => exact h
  | ok read =>
    have hread := hnext read
    change Reads IsBody IsDocument template node' (next read)
    cases hresult : next read with
    | error error =>
      rw [hresult] at hread
      exact hread
    | ok read' =>
      rw [hresult] at hread
      exact h.trans hread

/-- To read nothing changes nothing. -/
theorem Reads.pure (read : α) (hread : node read = template) :
    Reads IsBody IsDocument template node (.ok read) := by
  subst hread
  exact .refl

/-- To add an expression changes a node, or its source is no expression. -/
theorem reads_addExpression (template : Template) (source : String) :
    Reads IsBody IsDocument template id (template.addExpression source) := by
  unfold addExpression
  split
  · exact .pure _ rfl
  · next hmissing =>
    split
    · next expression hcompile =>
      exact .of_change (.expression template hcompile (Option.not_isSome_iff_eq_none.1 hmissing))
        (.pure _ rfl)
    · next fault _ => exact ⟨source, fault, rfl⟩

/-- Reading a line changes a node step by step, or one of the sources in it is no expression. -/
theorem reads_readLine (number : Nat) (cs : List Char) (template : Template) :
    Reads IsBody IsDocument template Prod.snd (readLine number cs template) := by
  fun_induction readLine number cs template with
  | case1 => exact .pure _ rfl
  | case2 _ _ ih | case3 _ _ ih | case4 _ _ _ ih | case5 _ _ _ _ _ _ ih | case9 _ _ _ _ _ _ ih =>
    exact ih.bind fun _ => .pure _ rfl
  | case6 =>
    rename_i ih
    exact .of_change (.warn ..) ih
  | case7 template cs content rest hcontent segment hmeaning ih =>
    exact .of_change (.refer template segment) (ih.bind fun _ => .pure _ rfl)
  | case8 template cs content rest hcontent source hmeaning ih =>
    exact (reads_addExpression template source).bind fun between =>
      (ih between).bind fun _ => .pure _ rfl

/-- Reading lines changes a node step by step, or one of the sources in them is no expression. -/
theorem reads_readLines (number : Nat) (lines : List Line) (template : Template) :
    Reads IsBody IsDocument template Prod.snd (readLines number lines template) := by
  induction lines generalizing number template with
  | nil => exact .pure _ rfl
  | cons line lines ih =>
    exact (reads_readLine number line template).bind fun read =>
      (ih (number + 1) read.2).bind fun _ => .pure _ rfl

/-- Completing a node from lines changes it step by step, or one of the sources in them is no
expression. -/
theorem reads_complete (template : Template) (lines : List Line) :
    Reads IsBody IsDocument template id (template.complete lines) :=
  (reads_readLines 1 lines template).bind fun read =>
    (Relation.ReflTransGen.single (Change.finish read.2 (Piece.segments read.1)) :)

/-! ### Compiling lines -/

section Compiling

variable {openPaths : List String} {resolve : String → CompileM Template} {Q : Failure → Prop}

/-- To note a cut changes a node by a warning or not at all. -/
theorem changes_noteCut (template : Template) (kind : BlockKind) (number : Nat) (cut : Cut) :
    Changes IsBody IsDocument template (template.noteCut kind number cut) := by
  unfold noteCut
  split
  · exact .refl
  · exact .single (.warn ..)

/-- Completing a node fails only because a source is no expression. -/
theorem yields_lift_complete (hfault : ∀ error, error.IsFault → Q (.error error))
    (template : Template) (lines : List Line) :
    Yields openPaths (CompileM.lift (template.complete lines))
      (Changes IsBody IsDocument template) Q := by
  have hreads := @reads_complete IsBody IsDocument template lines
  refine .lift (fun changed hok => ?_) fun error herror => hfault error ?_
  · rw [hok] at hreads
    exact hreads
  · rw [herror] at hreads
    exact hreads

/-- Including documents changes a node step by step, and fails only as compiling one of them
does. -/
theorem yields_addIncludes {paths : List String}
    (hresolve : ∀ path ∈ paths, Yields openPaths (resolve path) (IsDocument path) Q)
    (template : Template) :
    Yields openPaths (addIncludes resolve paths template)
      (Changes IsBody IsDocument template) Q := by
  induction paths generalizing template with
  | nil => exact .pure .refl
  | cons path paths ih =>
    have ih := ih fun other hother => hresolve other (List.mem_cons_of_mem _ hother)
    rw [addIncludes]
    split
    · exact ih template
    · next hmissing =>
      refine .bind (hresolve path List.mem_cons_self) fun document hdocument => ?_
      exact (ih _).mono fun changed hchanged =>
        .head (.document template hdocument (Option.not_isSome_iff_eq_none.1 hmissing)) hchanged

/-- Lines compile to a body if cutting blocks out of them changes an empty node step by step. -/
theorem yields_compileLines_of_cutLines (hfault : ∀ error, error.IsFault → Q (.error error))
    (hbody : ∀ name body, Changes IsBody IsDocument (empty name) body → IsBody body)
    {lines : List Line} {name : String}
    (hcut : Yields openPaths (cutLines resolve 1 lines (empty name))
      (fun cut => Changes IsBody IsDocument (empty name) cut.2) Q) :
    Yields openPaths (compileLines resolve name lines) IsBody Q :=
  .bind hcut fun _ hcut => (yields_lift_complete hfault _ _).mono fun body hchanges =>
    hbody name body (hcut.trans hchanges)

/-- Cutting blocks out of lines changes a node step by step. It fails as compiling an include path
does, or because a source is no expression. -/
theorem yields_cutLines (hfault : ∀ error, error.IsFault → Q (.error error))
    (hbody : ∀ name body, Changes IsBody IsDocument (empty name) body → IsBody body)
    {lines : List Line}
    (hresolve : ∀ path ∈ documentPaths lines, Yields openPaths (resolve path) (IsDocument path) Q)
    (number : Nat) (template : Template) :
    Yields openPaths (cutLines resolve number lines template)
      (fun cut => Changes IsBody IsDocument template cut.2) Q := by
  -- A body is cut and completed from an empty node on, so that `hbody` tells what it is.
  induction lines using cut_induction generalizing number template with
  | nil =>
    rw [cutLines_nil]
    exact .pure .refl
  | comment line rest hcomment ihRest =>
    have hrest := documentPaths_subset_of_partsOf (partsOf_rest_cutBlock .comment line rest)
    rw [cutLines_comment _ _ _ _ hcomment]
    refine .bind (ihRest (fun path hpath => hresolve path (hrest hpath)) _ _) fun cut hcut => ?_
    exact .pure ((changes_noteCut ..).trans hcut)
  | repetition line rest key hcomment hname ihBody ihRest =>
    have hbodyPaths := documentPaths_subset_of_partsOf (partsOf_body_cutBlock .repetition line rest)
    have hrest := documentPaths_subset_of_partsOf (partsOf_rest_cutBlock .repetition line rest)
    rw [cutLines_repetition _ _ _ _ hcomment hname]
    refine .bind (yields_compileLines_of_cutLines hfault hbody
      (ihBody (fun path hpath => hresolve path (hbodyPaths hpath)) _ _)) fun body hbody => ?_
    refine .bind (ihRest (fun path hpath => hresolve path (hrest hpath)) _ _) fun cut hcut => ?_
    exact .pure ((changes_noteCut ..).trans (.head (.repetition _ key hbody) hcut))
  | conditional line rest source hcomment hname hcondition ihBody ihRest =>
    have hbodyPaths :=
      documentPaths_subset_of_partsOf (partsOf_body_cutBlock .conditional line rest)
    have hrest := documentPaths_subset_of_partsOf (partsOf_rest_cutBlock .conditional line rest)
    rw [cutLines_conditional _ _ _ _ hcomment hname hcondition]
    refine .bind (P := fun condition => Expression.compile source = .ok condition) ?_
      fun condition hcompile => .bind (yields_compileLines_of_cutLines hfault hbody
        (ihBody (fun path hpath => hresolve path (hbodyPaths hpath)) _ _)) fun body hbody => ?_
    · cases hcompile : Expression.compile source with
      | ok condition => exact .pure rfl
      | error fault => exact .throw (hfault _ ⟨source, fault, rfl⟩)
    · refine .bind (ihRest (fun path hpath => hresolve path (hrest hpath)) _ _) fun cut hcut => ?_
      exact .pure ((changes_noteCut ..).trans (.head (.conditional _ hcompile hbody) hcut))
  | plain line rest hcomment hname hcondition ihRest =>
    rw [cutLines_plain _ _ _ _ hcomment hname hcondition]
    refine .bind (P := Changes IsBody IsDocument template)
      (yields_addIncludes (fun path hpath => hresolve path ?_) template) fun between hbetween => ?_
    · exact List.mem_flatMap.2 ⟨line, List.mem_cons_self, hpath⟩
    refine .bind (ihRest (fun path hpath => hresolve path ?_) _ _) fun cut hcut => ?_
    · obtain ⟨other, hother, hmem⟩ := List.mem_flatMap.1 hpath
      exact List.mem_flatMap.2 ⟨other, List.mem_cons_of_mem _ hother, hmem⟩
    · exact .pure (hbetween.trans hcut)

/-- Lines compile to a body, or fail as one of their documents or one of their sources does. -/
theorem yields_compileLines (hfault : ∀ error, error.IsFault → Q (.error error))
    (hbody : ∀ name body, Changes IsBody IsDocument (empty name) body → IsBody body)
    {lines : List Line}
    (hresolve : ∀ path ∈ documentPaths lines, Yields openPaths (resolve path) (IsDocument path) Q)
    (name : String) :
    Yields openPaths (compileLines resolve name lines) IsBody Q :=
  yields_compileLines_of_cutLines hfault hbody
    (yields_cutLines hfault hbody hresolve 1 (empty name))

/-- A document is compiled like its lines, with its path open. -/
theorem yields_compileDocument_of_lines {path : String} {lines : List Line} {P : Template → Prop}
    (hlines : Yields (path :: openPaths) (compileLines resolve path lines) P Q) :
    Yields openPaths (compileDocument resolve path lines) P Q := by
  rcases hlines with ⟨template, hrun, htemplate⟩ | ⟨failure, hrun, hfailure⟩
  · refine .inl ⟨template, ?_, htemplate⟩
    rw [compileDocument, hrun]
    rfl
  · refine .inr ⟨failure, ?_, hfailure⟩
    rw [compileDocument, hrun]
    rfl

/-- A document compiles to a body like its lines, its own path open. -/
theorem yields_compileDocument (hfault : ∀ error, error.IsFault → Q (.error error))
    (hbody : ∀ name body, Changes IsBody IsDocument (empty name) body → IsBody body)
    {path : String} {lines : List Line}
    (hresolve : ∀ other ∈ documentPaths lines,
      Yields (path :: openPaths) (resolve other) (IsDocument other) Q) :
    Yields openPaths (compileDocument resolve path lines) IsBody Q :=
  yields_compileDocument_of_lines (yields_compileLines hfault hbody hresolve path)

/-- Compiling a path fails if the path is open or cannot be loaded; otherwise it is compiling the
lines that are loaded. -/
theorem yields_compilePath_succ {loader : Loader} {depth : Nat} {path : String}
    {P : Template → Prop} (hcycle : path ∈ openPaths → Q (.error (.includeCycle path)))
    (herror : path ∉ openPaths → ∀ error, loader.load path = .error error → Q (.error error))
    (hlines : path ∉ openPaths → ∀ lines, loader.load path = .ok lines →
      Yields openPaths (compileDocument (compilePath loader depth) path lines) P Q) :
    Yields openPaths (compilePath loader (depth + 1) path) P Q := by
  by_cases hmem : path ∈ openPaths
  · exact .inr ⟨_, compilePath_of_mem hmem depth, hcycle hmem⟩
  · cases hload : loader.load path with
    | error error => exact .inr ⟨_, compilePath_of_error hmem hload depth, herror hmem error hload⟩
    | ok lines =>
      have hdocument := hlines hmem lines hload
      unfold Yields at hdocument ⊢
      rw [compilePath_of_lines hmem hload]
      exact hdocument

end Compiling

end Growing

/-! ### What stands below a node -/

/-- The bodies and the included documents of a node have given properties. -/
structure Below (IsBody : Template → Prop) (IsDocument : String → Template → Prop)
    (template : Template) : Prop where
  bodies : ∀ kind, ∀ body ∈ (template.bodies kind).flatMap Prod.snd, IsBody body
  documents : ∀ entry ∈ template.includes, IsDocument entry.1 entry.2

section Below

variable {IsBody : Template → Prop} {IsDocument : String → Template → Prop}

/-- A body that a node gains joins those below it. -/
theorem Below.of_gainsBody {template changed body : Template} {kind : PlaceholderKind}
    {key : String}
    (h : template.Below IsBody IsDocument) (hgains : template.GainsBody changed kind key body)
    (hbody : IsBody body) : changed.Below IsBody IsDocument := by
  refine ⟨fun other child hchild => ?_, fun entry hentry => ?_⟩
  · rw [hgains.bodies] at hchild
    by_cases hkind : other = kind
    · rw [if_pos hkind] at hchild
      rcases Table.mem_flatMap_append hchild with hold | rfl
      · exact h.bodies kind child hold
      · exact hbody
    · rw [if_neg hkind] at hchild
      exact h.bodies other child hchild
  · exact h.documents entry (hgains.includes ▸ hentry)

/-- A change adds to what stands below a node only what it is known to add. -/
theorem Change.below {before after : Template} (hchange : Change IsBody IsDocument before after)
    (h : before.Below IsBody IsDocument) : after.Below IsBody IsDocument := by
  cases hchange with
  | warn warning => exact ⟨h.bodies, h.documents⟩
  | repetition name hbody => exact h.of_gainsBody (gainsBody_addRepetition before _ name) hbody
  | conditional hcompile hbody => exact h.of_gainsBody (gainsBody_addConditional before _ _) hbody
  | document hdocument =>
    refine ⟨h.bodies, fun entry hentry => ?_⟩
    rcases Table.mem_of_mem_insert hentry with hold | rfl
    · exact h.documents entry hold
    · exact hdocument
  | refer segment => cases segment <;> exact ⟨h.bodies, h.documents⟩
  | expression hcompile => exact ⟨h.bodies, h.documents⟩
  | finish segments => exact ⟨h.bodies, h.documents⟩

/-- Nothing is below an empty node. -/
theorem below_empty (name : String) : (empty name).Below IsBody IsDocument := by
  refine ⟨fun kind body hbody => ?_, fun entry hentry => ?_⟩
  · cases kind <;> simp [empty, bodies] at hbody
  · simp [empty] at hentry

/-- All that is below a node has come there by one of its changes. -/
theorem Changes.below {name : String} {template : Template}
    (h : Changes IsBody IsDocument (empty name) template) : template.Below IsBody IsDocument :=
  h.keeps (fun _ _ => Change.below) (below_empty name)

end Below

/-! ### What holds in a whole template -/

/-- What the changes of an empty node lead to, if everything below the node has it already. -/
def Grown (P : Template → Prop) : Prop :=
  ∀ name template, Changes (Everywhere P) (fun _ => Everywhere P) (empty name) template → P template

section Everywhere

variable {P : Template → Prop}

/-- What holds of a node as soon as it holds below it holds everywhere. -/
theorem Grown.everywhere (h : Grown P) {name : String} {template : Template}
    (hchanges : Changes (Everywhere P) (fun _ => Everywhere P) (empty name) template) :
    template.Everywhere P := by
  refine .node (h name template hchanges) fun child hchild => ?_
  rcases mem_children_iff.1 hchild with ⟨kind, hbody⟩ | hdocument
  · exact hchanges.below.bodies kind child hbody
  · obtain ⟨entry, hentry, rfl⟩ := List.mem_map.1 hdocument
    exact hchanges.below.documents entry hentry

/-- Lines are compiled into a template that has a property, if every document that they include
is. -/
def FromDocuments (P : Template → Prop) : Prop :=
  ∀ resolve : String → CompileM Template,
    (∀ path openPaths, Yields openPaths (resolve path) P fun _ => True) →
    ∀ name lines openPaths, Yields openPaths (compileLines resolve name lines) P fun _ => True

/-- A property that goes from documents to the template that includes them holds of what every path
is compiled to. -/
theorem FromDocuments.yields_compilePath (h : FromDocuments P) (loader : Loader) (depth : Nat)
    (path : String) (openPaths : List String) :
    Yields openPaths (compilePath loader depth path) P fun _ => True := by
  induction depth generalizing path openPaths with
  | zero => exact .throw trivial
  | succ depth ih =>
    refine yields_compilePath_succ (fun _ => trivial) (fun _ _ _ => trivial) fun _ lines _ => ?_
    exact yields_compileDocument_of_lines (h _ ih path lines (path :: openPaths))

/-- What the changes of a node lead to goes from documents to the template that includes them. -/
theorem Grown.fromDocuments (h : Grown P) : FromDocuments (Everywhere P) :=
  fun _ hresolve name _ openPaths =>
    yields_compileLines (fun _ _ => trivial) (fun _ _ => h.everywhere)
      (fun path _ => hresolve path openPaths) name

end Everywhere

/-- Every table of a compiled node has its keys once. -/
theorem grown_keysDistinct : Grown KeysDistinct := by
  intro name template hchanges
  have hempty : (empty name).KeysDistinct := by
    constructor <;> simp [empty, Table.Distinct, Table.names]
  refine hchanges.keeps (fun before after hchange h => ?_) hempty
  cases hchange with
  | warn | expression | finish => exact ⟨h.repetitions, h.conditionals, h.includes⟩
  | refer segment => cases segment <;> exact ⟨h.repetitions, h.conditionals, h.includes⟩
  | repetition name hbody => exact { h with repetitions := h.repetitions.append _ _ }
  | conditional hcompile hbody => exact { h with conditionals := h.conditionals.append _ _ }
  | document hdocument => exact { h with includes := h.includes.insert _ _ }

end Template

/-! ### Compilers -/

namespace Compiler

/-- A compiler gives a template for lines, for the lines of a document, or for a path. -/
inductive Produces (compiler : Compiler) (template : Template) : Prop
  | lines {name : String} {lines : List Line} (h : (compiler.compile name lines).1 = .ok template)
  | document {path : String} {lines : List Line}
      (h : (compiler.compileDocument path lines).1 = .ok template)
  | path {path : String} (h : (compiler.compilePath path).1 = .ok template)

/-- A property that goes from documents to the template that includes them holds of every template
that a compiler gives. -/
theorem Produces.of_fromDocuments {compiler : Compiler} {template : Template}
    (h : compiler.Produces template) {P : Template → Prop} (hlines : Template.FromDocuments P) :
    P template := by
  have hresolve : ∀ path openPaths,
      Yields openPaths (compiler.resolve path) P fun _ => True :=
    fun path openPaths =>
      hlines.yields_compilePath compiler.loader compiler.loader.depth path openPaths
  cases h with
  | lines hrun => exact (hlines _ hresolve _ _ compiler.openPaths).of_ok hrun
  | document hrun =>
    exact (Template.yields_compileDocument_of_lines (hlines _ hresolve _ _ _)).of_ok hrun
  | path hrun => exact (hresolve _ compiler.openPaths).of_ok hrun

/-- What every compiled node has as soon as all below it have it holds in a whole template. -/
theorem Produces.everywhere {compiler : Compiler} {template : Template}
    (h : compiler.Produces template) {P : Template → Prop} (hgrown : Template.Grown P) :
    template.Everywhere P :=
  h.of_fromDocuments hgrown.fromDocuments

end Compiler

end BraceTemplate
