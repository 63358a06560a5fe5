import BraceTemplate.Proofs.Template.Cycles

/-!
# What is open does not show

The paths that are open decide whether a document is compiled, but not to what. A result that a
compiler gives while some documents are open it gives as well while fewer are open, and all the same
when documents may include each other more deeply. So an included document is, wherever it stands,
what a compiler makes of its path when nothing is open.
-/

namespace BraceTemplate

open CompileM (Follows Yields congruent_follows)

namespace Template

/-! ### Fewer open paths -/

/-- A document compiles to the same with fewer paths open, if the documents that it includes do. -/
theorem follows_compileDocument {openPaths fewer : List String}
    {resolve resolve' : String → CompileM Template} {path : String} {lines : List Line}
    (h : ∀ other ∈ documentPaths lines,
      Follows (path :: openPaths) (path :: fewer) Eq (resolve other) (resolve' other)) :
    Follows openPaths fewer Eq (compileDocument resolve path lines)
      (compileDocument resolve' path lines) := by
  intro template after hrun
  have hlines : Follows (path :: openPaths) (path :: fewer) Eq (compileLines resolve path lines)
      (compileLines resolve' path lines) := congruent_compileLines (congruent_follows _ _) h path
  cases hresult : compileLines resolve path lines (path :: openPaths) with
  | mk result between =>
    rw [compileDocument, hresult] at hrun
    obtain ⟨rfl, rfl⟩ := Prod.mk.inj hrun
    obtain ⟨rfl, _, hfound, rfl⟩ := hlines template between hresult
    refine ⟨rfl, template, ?_, rfl⟩
    rw [compileDocument, hfound]
    rfl

/-- A path that is compiled while some documents are open is compiled to the same while fewer of
them are open, and with more depth to spare. -/
theorem follows_compilePath (loader : Loader) {depth deeper : Nat} (hle : depth ≤ deeper)
    {openPaths fewer : List String} (hsubset : fewer ⊆ openPaths) (path : String) :
    Follows openPaths fewer Eq (compilePath loader depth path)
      (compilePath loader deeper path) := by
  -- Every document that is met is open in both compilations while its own includes are compiled.
  induction depth generalizing deeper path openPaths fewer with
  | zero =>
    have htooDeep : compilePath loader 0 path openPaths = (.error .tooDeep, openPaths) := rfl
    exact .of_error htooDeep _
  | succ depth ih =>
    obtain ⟨deeper, rfl⟩ : ∃ n, deeper = n + 1 := ⟨deeper - 1, by omega⟩
    by_cases hmem : path ∈ openPaths
    · exact .of_error (compilePath_of_mem hmem depth) _
    · have hfewer : path ∉ fewer := fun hopen => hmem (hsubset hopen)
      cases hload : loader.load path with
      | error error => exact .of_error (compilePath_of_error hmem hload depth) _
      | ok lines =>
        have hdocument : Follows openPaths fewer Eq
            (compileDocument (compilePath loader depth) path lines)
            (compileDocument (compilePath loader deeper) path lines) :=
          follows_compileDocument fun other _ =>
            ih (by omega) (List.cons_subset_cons path hsubset) other
        unfold Follows at hdocument ⊢
        rw [compilePath_of_lines hmem hload, compilePath_of_lines hfewer hload]
        exact hdocument

/-! ### Documents on their own -/

/-- Every document that a node includes is what its path is compiled to when nothing is open. -/
def IncludesAlone (loader : Loader) (node : Template) : Prop :=
  ∀ entry ∈ node.includes, Compiler.compilePath ⟨loader, []⟩ entry.1 = (.ok entry.2, ⟨loader, []⟩)

section Alone

variable {loader : Loader} {template : Template}

/-- A document that is what its path is compiled to when nothing is open, as are all documents that
it includes. -/
def Standalone (loader : Loader) (path : String) (document : Template) : Prop :=
  document.Everywhere (IncludesAlone loader) ∧
    Compiler.compilePath ⟨loader, []⟩ path = (.ok document, ⟨loader, []⟩)

/-- Documents that stand alone, and bodies that include such ones, are included by nodes that do. -/
theorem everywhere_includesAlone
    (h : template.Below (Everywhere (IncludesAlone loader)) (Standalone loader)) :
    template.Everywhere (IncludesAlone loader) := by
  refine .node (fun entry hentry => (h.documents entry hentry).2) fun child hchild => ?_
  rcases mem_children_iff.1 hchild with ⟨kind, hbody⟩ | hdocument
  · exact h.bodies kind child hbody
  · obtain ⟨entry, hentry, rfl⟩ := List.mem_map.1 hdocument
    exact (h.documents entry hentry).1

/-- A node that changes lead to includes standalone documents everywhere if what it gains does. -/
theorem everywhere_includesAlone_of_changes (name : String) (template : Template)
    (h : Changes (Everywhere (IncludesAlone loader)) (Standalone loader) (empty name) template) :
    template.Everywhere (IncludesAlone loader) :=
  everywhere_includesAlone h.below

/-- Whatever is open, a path is compiled to what it is compiled to when nothing is open, and so is
every document below it. -/
theorem yields_standalone (loader : Loader) {depth : Nat} (hle : depth ≤ loader.depth)
    (path : String) (openPaths : List String) :
    Yields openPaths (compilePath loader depth path) (Standalone loader path) fun _ => True := by
  induction depth generalizing path openPaths with
  | zero => exact .throw trivial
  | succ depth ih =>
    have hbelow : Yields openPaths (compilePath loader (depth + 1) path)
        (Everywhere (IncludesAlone loader)) fun _ => True :=
      yields_compilePath_succ (fun _ => trivial) (fun _ _ _ => trivial) fun _ lines _ =>
        yields_compileDocument (fun _ _ => trivial) everywhere_includesAlone_of_changes
          fun other _ => ih (by omega) other (path :: openPaths)
    rcases hbelow with ⟨document, hrun, hdocument⟩ | hfailure
    · obtain ⟨-, _, halone, rfl⟩ :=
        follows_compilePath loader hle (List.nil_subset openPaths) path document openPaths hrun
      refine .inl ⟨document, hrun, hdocument, ?_⟩
      rw [Compiler.compilePath, Compiler.run, Compiler.resolve, halone]
    · exact .inr hfailure

end Alone

end Template

/-! ### Requests -/

/-- What a compiler can be asked for: a template for lines, for lines that come from a path, or for
a path. -/
inductive Request where
  | lines (name : String) (lines : List Line)
  | document (path : String) (lines : List Line)
  | path (path : String)

namespace Compiler

/-- The answer to a request, and the compiler after it. -/
def answer (compiler : Compiler) : Request → Except Failure Template × Compiler
  | .lines name lines => compiler.compile name lines
  | .document path lines => compiler.compileDocument path lines
  | .path path => compiler.compilePath path

/-- The compilation that a request asks for. -/
def compilation (compiler : Compiler) : Request → CompileM Template
  | .lines name lines => Template.compileLines compiler.resolve name lines
  | .document path lines => Template.compileDocument compiler.resolve path lines
  | .path path => compiler.resolve path

/-- An answer is the run of a compilation. -/
theorem answer_eq_run (compiler : Compiler) (request : Request) :
    compiler.answer request = compiler.run (compiler.compilation request) := by
  cases request <;> rfl

/-- With fewer paths open every request that succeeds gives the same. -/
theorem follows_compilation (loader : Loader) {openPaths fewer : List String}
    (hsubset : fewer ⊆ openPaths) (request : Request) :
    Follows openPaths fewer Eq (compilation ⟨loader, openPaths⟩ request)
      (compilation ⟨loader, fewer⟩ request) := by
  cases request with
  | lines name lines =>
    exact Template.congruent_compileLines (congruent_follows _ _)
      (fun path _ => Template.follows_compilePath loader le_rfl hsubset path) name
  | document path lines =>
    exact Template.follows_compileDocument fun other _ =>
      Template.follows_compilePath loader le_rfl (List.cons_subset_cons path hsubset) other
  | path path => exact Template.follows_compilePath loader le_rfl hsubset path

/-- What a request gives includes standalone documents everywhere. -/
theorem yields_compilation (compiler : Compiler) (request : Request) :
    Yields compiler.openPaths (compiler.compilation request)
      (Template.Everywhere (Template.IncludesAlone compiler.loader)) fun _ => True := by
  cases request with
  | lines name lines =>
    exact Template.yields_compileLines (fun _ _ => trivial)
      Template.everywhere_includesAlone_of_changes
      (fun path _ => Template.yields_standalone compiler.loader le_rfl path _) name
  | document path lines =>
    exact Template.yields_compileDocument (fun _ _ => trivial)
      Template.everywhere_includesAlone_of_changes
      fun other _ => Template.yields_standalone compiler.loader le_rfl other _
  | path path =>
    exact (Template.yields_standalone compiler.loader le_rfl path _).mono fun _ hdocument =>
      hdocument.1

/-- Whatever a compiler is asked for, if it gives a template while some documents are open, then it
gives the same template while fewer of them are open. At every node of the template, inside of
blocks and of included documents too, the included documents are what the compiler makes of their
paths when nothing is open. -/
theorem answer_of_subset {loader : Loader} {openPaths fewer : List String}
    (hsubset : fewer ⊆ openPaths) {request : Request} {template : Template}
    (h : (answer ⟨loader, openPaths⟩ request).1 = .ok template) :
    answer ⟨loader, fewer⟩ request = (.ok template, ⟨loader, fewer⟩) ∧
      template.Everywhere fun node => ∀ entry ∈ node.includes,
        compilePath ⟨loader, []⟩ entry.1 = (.ok entry.2, ⟨loader, []⟩) := by
  rw [answer_eq_run] at h
  refine ⟨?_, (yields_compilation ⟨loader, openPaths⟩ request).of_ok h⟩
  obtain ⟨_, hrun, rfl⟩ := (follows_compilation loader hsubset request).of_ok h
  rw [answer_eq_run, run, hrun]

/-- The document that the page of the diamond includes in two ways, once from within a block. An
index is open meanwhile. -/
theorem answer_of_subset_diamond :
    [] ⊆ ["index"] ∧ ∃ template left right,
      (answer ⟨.ofDocuments diamond, ["index"]⟩ (.path "page")).1 = .ok template ∧
      answer ⟨.ofDocuments diamond, []⟩ (.path "page") =
        (.ok template, ⟨.ofDocuments diamond, []⟩) ∧
      template.nodeAt? [.inclusion "left", .conditional "a" 0] = some left ∧
      template.nodeAt? [.inclusion "right"] = some right ∧
      left.includes.map Prod.fst = ["base"] ∧ right.includes.map Prod.fst = ["base"] ∧
      ∀ entry ∈ left.includes ++ right.includes, compilePath ⟨.ofDocuments diamond, []⟩ entry.1 =
        (.ok entry.2, ⟨.ofDocuments diamond, []⟩) := by
  have hfound : ((answer ⟨.ofDocuments diamond, ["index"]⟩ (.path "page")).1.toOption.bind
      fun template => (template.nodeAt? [.inclusion "left", .conditional "a" 0]).bind fun left =>
        (template.nodeAt? [.inclusion "right"]).map fun right =>
          (left.includes.map Prod.fst, right.includes.map Prod.fst)) =
      some (["base"], ["base"]) := by decide +kernel
  obtain ⟨template, hrun, hfound⟩ := Option.bind_eq_some_iff.1 hfound
  obtain ⟨left, hleft, hfound⟩ := Option.bind_eq_some_iff.1 hfound
  obtain ⟨right, hright, hfound⟩ := Option.map_eq_some_iff.1 hfound
  obtain ⟨hleftPaths, hrightPaths⟩ := Prod.mk.inj hfound
  have hsubset : [] ⊆ ["index"] := List.nil_subset _
  obtain ⟨hsame, hincludes⟩ := answer_of_subset hsubset (eq_ok_of_toOption hrun)
  refine ⟨hsubset, template, left, right, eq_ok_of_toOption hrun, hsame, hleft, hright, hleftPaths,
    hrightPaths, fun entry hentry => ?_⟩
  rcases List.mem_append.1 hentry with hentry | hentry
  · exact hincludes.of_nodeAt? hleft entry hentry
  · exact hincludes.of_nodeAt? hright entry hentry

end Compiler

end BraceTemplate
