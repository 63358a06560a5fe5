import BraceTemplate.Proofs.Template.Compiling
import BraceTemplate.Proofs.Template.Marking

/-!
# Included documents

Compiling lines asks for no other documents than those that the include markers of the lines name,
and every compilation restores the open paths. So compiling gives the same with two loaders that
agree on all documents that can be reached through include markers. The depth that is allowed for is
of no account as soon as it exceeds the number of paths that can be open at once.
-/

namespace BraceTemplate

open CompileM (AgreeAt Congruent congruent_agreeAt)

namespace Loader

/-- The paths that may be asked for, when compiling starts with some path, come from a finite list
as far as they can be loaded. -/
structure Bounded (loader : Loader) (asked : String → Prop) (paths : List String) : Prop where
  mem : ∀ path lines, asked path → loader.load path = .ok lines → path ∈ paths
  closed : ∀ path lines, asked path → loader.load path = .ok lines →
    ∀ other ∈ documentPaths lines, asked other

/-- Something is spared for the documents that are still to be opened, and each document that is
opened takes a part of it, as long as the open paths and the path that is asked for fit. -/
structure Spares (loader : Loader) (Fits : List String → String → Prop)
    (spare : List String → Nat) : Prop where
  lt : ∀ {openPaths path lines}, Fits openPaths path → path ∉ openPaths →
    loader.load path = .ok lines → spare (path :: openPaths) < spare openPaths
  fits : ∀ {openPaths path lines}, Fits openPaths path → path ∉ openPaths →
    loader.load path = .ok lines → ∀ other ∈ documentPaths lines, Fits (path :: openPaths) other

/-- Of finitely many paths those are spared that are not open. -/
theorem Bounded.spares {loader : Loader} {asked : String → Prop} {paths : List String}
    (h : loader.Bounded asked paths) :
    loader.Spares (fun openPaths path => asked path ∧ openPaths.Nodup ∧ openPaths ⊆ paths)
      fun openPaths => paths.length - openPaths.length := by
  have hopened : ∀ {openPaths : List String} {path : String} {lines : List Line},
      asked path ∧ openPaths.Nodup ∧ openPaths ⊆ paths → path ∉ openPaths →
      loader.load path = .ok lines → (path :: openPaths).Nodup ∧ path :: openPaths ⊆ paths :=
    fun hfits hclosed hload => ⟨List.nodup_cons.2 ⟨hclosed, hfits.2.1⟩,
      List.cons_subset.2 ⟨h.mem _ _ hfits.1 hload, hfits.2.2⟩⟩
  refine ⟨fun hfits hclosed hload => ?_, fun hfits hclosed hload other hother => ?_⟩
  · obtain ⟨hnodup, hsubset⟩ := hopened hfits hclosed hload
    have hlength := hnodup.length_le_of_subset hsubset
    rw [List.length_cons] at hlength ⊢
    omega
  · exact ⟨h.closed _ _ hfits.1 hload other hother, hopened hfits hclosed hload⟩

/-- Wherever compiling starts, fewer paths can be open at once than the loader allows for. -/
def Suffices (loader : Loader) : Prop :=
  ∀ path, ∃ asked paths, loader.Bounded asked paths ∧ asked path ∧ paths.length < loader.depth

end Loader

namespace Template

/-! ### Resolving include markers -/

section Resolving

variable {Rel : ∀ {α : Type}, CompileM α → CompileM α → Prop}
  {resolve resolve' : String → CompileM Template}

/-- Including paths goes from the documents to the node. -/
theorem congruent_addIncludes (hrel : Congruent Rel) {paths : List String}
    (h : ∀ path ∈ paths, Rel (resolve path) (resolve' path)) (template : Template) :
    Rel (addIncludes resolve paths template) (addIncludes resolve' paths template) := by
  induction paths generalizing template with
  | nil => exact hrel.lift (.ok template)
  | cons path paths ih =>
    have hpaths := fun template => ih (fun other hother => h other (by simp [hother])) template
    rw [addIncludes, addIncludes]
    split
    · exact hpaths template
    · exact hrel.bind (h path (by simp)) fun document => hpaths _

/-- What two ways to compile include paths have in common on the paths that the lines name, cutting
the lines with one and with the other has in common. -/
theorem congruent_cutLines (hrel : Congruent Rel) {lines : List Line}
    (h : ∀ path ∈ documentPaths lines, Rel (resolve path) (resolve' path))
    (number : Nat) (template : Template) :
    Rel (cutLines resolve number lines template) (cutLines resolve' number lines template) := by
  induction lines using cut_induction generalizing number template with
  | nil =>
    rw [cutLines_nil, cutLines_nil]
    exact hrel.lift (.ok _)
  | comment line rest hcomment ihRest =>
    have hrest := documentPaths_subset_of_partsOf (partsOf_rest_cutBlock .comment line rest)
    rw [cutLines_comment _ _ _ _ hcomment, cutLines_comment _ _ _ _ hcomment]
    exact hrel.bind (ihRest (fun path hpath => h path (hrest hpath)) _ _) fun _ => hrel.lift (.ok _)
  | repetition line rest key hcomment hname ihBody ihRest =>
    have hbody := documentPaths_subset_of_partsOf (partsOf_body_cutBlock .repetition line rest)
    have hrest := documentPaths_subset_of_partsOf (partsOf_rest_cutBlock .repetition line rest)
    rw [cutLines_repetition _ _ _ _ hcomment hname, cutLines_repetition _ _ _ _ hcomment hname]
    refine hrel.bind (hrel.bind (ihBody (fun path hpath => h path (hbody hpath)) _ _)
      fun _ => hrel.lift _) fun body => ?_
    exact hrel.bind (ihRest (fun path hpath => h path (hrest hpath)) _ _) fun _ => hrel.lift (.ok _)
  | conditional line rest source hcomment hname hcondition ihBody ihRest =>
    have hbody := documentPaths_subset_of_partsOf (partsOf_body_cutBlock .conditional line rest)
    have hrest := documentPaths_subset_of_partsOf (partsOf_rest_cutBlock .conditional line rest)
    rw [cutLines_conditional _ _ _ _ hcomment hname hcondition,
      cutLines_conditional _ _ _ _ hcomment hname hcondition]
    refine hrel.bind (hrel.lift _) fun condition => ?_
    refine hrel.bind (hrel.bind (ihBody (fun path hpath => h path (hbody hpath)) _ _)
      fun _ => hrel.lift _) fun body => ?_
    exact hrel.bind (ihRest (fun path hpath => h path (hrest hpath)) _ _) fun _ => hrel.lift (.ok _)
  | plain line rest hcomment hname hcondition ihRest =>
    rw [cutLines_plain _ _ _ _ hcomment hname hcondition,
      cutLines_plain _ _ _ _ hcomment hname hcondition]
    refine hrel.bind (congruent_addIncludes hrel (fun path hpath => h path ?_) template)
      fun template => ?_
    · exact List.mem_flatMap.2 ⟨line, List.mem_cons_self, hpath⟩
    refine hrel.bind (ihRest (fun path hpath => h path ?_) _ _) fun _ => hrel.lift (.ok _)
    obtain ⟨other, hother, hmem⟩ := List.mem_flatMap.1 hpath
    exact List.mem_flatMap.2 ⟨other, List.mem_cons_of_mem _ hother, hmem⟩

/-- Compiling lines goes from the documents that they include to the template. -/
theorem congruent_compileLines (hrel : Congruent Rel) {lines : List Line}
    (h : ∀ path ∈ documentPaths lines, Rel (resolve path) (resolve' path)) (name : String) :
    Rel (compileLines resolve name lines) (compileLines resolve' name lines) :=
  hrel.bind (congruent_cutLines hrel h 1 _) fun _ => hrel.lift _

/-- Runs a compilation with a path open, and closes it again. -/
def within (path : String) (compilation : CompileM Template) : CompileM Template := fun openPaths =>
  let (result, openPaths) := compilation (path :: openPaths)
  (result, openPaths.tail)

/-- Compilations agree if they do with one more path open, which is closed again. -/
theorem agreeAt_within {openPaths : List String} {path : String}
    {compilation compilation' : CompileM Template}
    (h : AgreeAt (path :: openPaths) compilation compilation') :
    AgreeAt openPaths (within path compilation) (within path compilation') := by
  obtain ⟨hsame, hrestored⟩ := h
  refine ⟨by rw [within, within, hsame], ?_⟩
  change (compilation (path :: openPaths)).2.tail = openPaths
  rw [hrestored, List.tail_cons]

/-- A document is compiled with its path open, and closed again. -/
theorem agreeAt_compileDocument {openPaths : List String} {path : String} {lines : List Line}
    (h : ∀ other ∈ documentPaths lines,
      AgreeAt (path :: openPaths) (resolve other) (resolve' other)) :
    AgreeAt openPaths (compileDocument resolve path lines) (compileDocument resolve' path lines) :=
  agreeAt_within (congruent_compileLines (congruent_agreeAt (path :: openPaths)) h path)

end Resolving

/-! ### Loaders -/

/-- A path that is open is not compiled again. -/
theorem compilePath_of_mem {loader : Loader} {path : String} {openPaths : List String}
    (h : path ∈ openPaths) (depth : Nat) :
    compilePath loader (depth + 1) path openPaths =
      (.error (.error (.includeCycle path)), openPaths) := by
  change (if path ∈ openPaths then _ else _ : CompileM Template) openPaths = _
  rw [if_pos h]
  rfl

/-- A document that cannot be read is not compiled. -/
theorem compilePath_of_error {loader : Loader} {path : String} {openPaths : List String}
    (h : path ∉ openPaths) {error : Error} (hload : loader.load path = .error error) (depth : Nat) :
    compilePath loader (depth + 1) path openPaths = (.error (.error error), openPaths) := by
  change (if path ∈ openPaths then _ else _ : CompileM Template) openPaths = _
  rw [if_neg h, hload]
  rfl

/-- A path is compiled to the document of its lines, with one level less. -/
theorem compilePath_of_lines {loader : Loader} {path : String} {openPaths : List String}
    (h : path ∉ openPaths) {lines : List Line} (hload : loader.load path = .ok lines)
    (depth : Nat) :
    compilePath loader (depth + 1) path openPaths =
      compileDocument (compilePath loader depth) path lines openPaths := by
  change (if path ∈ openPaths then _ else _ : CompileM Template) openPaths = _
  rw [if_neg h, hload]
  rfl

/-- Two loaders that have the same documents wherever include markers lead give the same result. -/
theorem agreeAt_compilePath {loader loader' : Loader} {reached : String → Prop}
    (hsame : ∀ path, reached path → loader.load path = loader'.load path)
    (hclosed : ∀ path lines, reached path → loader.load path = .ok lines →
      ∀ other ∈ documentPaths lines, reached other)
    (depth : Nat) {path : String} (hpath : reached path) (openPaths : List String) :
    AgreeAt openPaths (compilePath loader depth path) (compilePath loader' depth path) := by
  induction depth generalizing path openPaths with
  | zero => exact .throw .tooDeep
  | succ depth ih =>
    unfold AgreeAt
    by_cases hmem : path ∈ openPaths
    · rw [compilePath_of_mem hmem, compilePath_of_mem hmem]
      exact ⟨rfl, rfl⟩
    · cases hload : loader.load path with
      | error error =>
        have hload' := (hsame path hpath).symm.trans hload
        rw [compilePath_of_error hmem hload, compilePath_of_error hmem hload']
        exact ⟨rfl, rfl⟩
      | ok lines =>
        have hload' := (hsame path hpath).symm.trans hload
        rw [compilePath_of_lines hmem hload, compilePath_of_lines hmem hload']
        refine agreeAt_compileDocument fun other hother => ?_
        exact ih (hclosed path lines hpath hload other hother) (path :: openPaths)

/-- Every compilation of a path restores the open paths. -/
theorem restores_compilePath (loader : Loader) (depth : Nat) (path : String)
    (openPaths : List String) :
    AgreeAt openPaths (compilePath loader depth path) (compilePath loader depth path) :=
  @agreeAt_compilePath loader loader (fun _ => True) (fun _ _ => rfl)
    (fun _ _ _ _ _ _ => trivial) depth path trivial openPaths

/-- A greater depth changes nothing once it exceeds what is spared. -/
theorem agreeAt_compilePath_of_spares {loader : Loader} {Fits : List String → String → Prop}
    {spare : List String → Nat} (hspares : loader.Spares Fits spare) {depth : Nat} {path : String}
    {openPaths : List String} (hfits : Fits openPaths path) (hdepth : spare openPaths < depth) :
    AgreeAt openPaths (compilePath loader depth path) (compilePath loader (depth + 1) path) := by
  induction depth generalizing path openPaths with
  | zero => cases hdepth
  | succ depth ih =>
    unfold AgreeAt
    by_cases hmem : path ∈ openPaths
    · rw [compilePath_of_mem hmem, compilePath_of_mem hmem]
      exact ⟨rfl, rfl⟩
    · cases hload : loader.load path with
      | error error =>
        rw [compilePath_of_error hmem hload, compilePath_of_error hmem hload]
        exact ⟨rfl, rfl⟩
      | ok lines =>
        rw [compilePath_of_lines hmem hload, compilePath_of_lines hmem hload]
        have hlt := hspares.lt hfits hmem hload
        exact agreeAt_compileDocument fun other hother =>
          ih (hspares.fits hfits hmem hload other hother) (by omega)

/-- A greater depth changes nothing once no more paths than that can be open. -/
theorem agreeAt_compilePath_succ {loader : Loader} {asked : String → Prop} {paths : List String}
    (hbounded : loader.Bounded asked paths) {depth : Nat} {path : String} (hpath : asked path)
    {openPaths : List String} (hnodup : openPaths.Nodup) (hsubset : openPaths ⊆ paths)
    (hdepth : paths.length < depth + openPaths.length) :
    AgreeAt openPaths (compilePath loader depth path) (compilePath loader (depth + 1) path) := by
  have hlength := hnodup.length_le_of_subset hsubset
  have hspare : paths.length - openPaths.length < depth := by omega
  exact agreeAt_compilePath_of_spares hbounded.spares ⟨hpath, hnodup, hsubset⟩ hspare

/-- More depth makes no difference where the documents that may be open fit into less. -/
theorem agreeAt_compilePath_of_le {loader : Loader} {asked : String → Prop} {paths : List String}
    (hbounded : loader.Bounded asked paths) {depth depth' : Nat} (hle : depth ≤ depth')
    {path : String} (hpath : asked path) {openPaths : List String} (hnodup : openPaths.Nodup)
    (hsubset : openPaths ⊆ paths) (hdepth : paths.length < depth + openPaths.length) :
    AgreeAt openPaths (compilePath loader depth path) (compilePath loader depth' path) := by
  induction hle with
  | refl => exact restores_compilePath loader depth path openPaths
  | @step depth' hle ih =>
    have hle : depth ≤ depth' := hle
    refine ih.trans (agreeAt_compilePath_succ hbounded hpath hnodup hsubset ?_)
    omega

end Template

end BraceTemplate
