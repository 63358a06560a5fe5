import Mathlib.Data.List.Chain
import BraceTemplate.Proofs.Source.Depth
import BraceTemplate.Proofs.Template.Changes

/-!
# Documents that include themselves

The paths of the documents that are being compiled are kept, and a document whose path is among them
is not compiled again. So a cycle is blamed on a path only if markers lead from this path back to
it, and where compiling succeeds no document stands below itself, however many places include it.
-/

namespace BraceTemplate

open CompileM (Yields)

/-! ### Documents and their markers -/

/-- In one of the lines of a text stands `{include path}`, with one blank between the two. -/
def Marks (text path : String) : Prop :=
  ∃ line ∈ splitLines text.toList, ∃ before blank after,
    line = before ++ ("\x7binclude".toList ++ blank :: (path.toList ++ '\x7d' :: after)) ∧
      isBlank blank = true ∧ isPath path.toList = true

/-- A path that lines ask for is marked in their text. -/
theorem marks_of_mem_documentPaths {text path : String}
    (h : path ∈ documentPaths (splitLines text.toList)) : Marks text path := by
  obtain ⟨line, hline, hpath⟩ := List.mem_flatMap.1 h
  obtain ⟨argument, hargument, rfl⟩ := List.mem_map.1 hpath
  obtain ⟨suffix, ⟨before, rfl⟩, hfound⟩ := mem_arguments_iff.1 hargument
  obtain ⟨blank, after, rfl, hblank, hne, hallowed⟩ :=
    (argumentAt?_eq_some_iff (by decide)).1 hfound
  refine ⟨_, hline, before, blank, after, ?_, hblank, ?_⟩
  · rw [String.toList_ofList]
    simp
  · rw [String.toList_ofList, isPath]
    simpa [hne] using hallowed

namespace Loader

/-- A document has an include marker of a path. -/
def Includes (loader : Loader) (path other : String) : Prop :=
  ∃ lines, loader.load path = .ok lines ∧ other ∈ documentPaths lines

/-- If a failure blames a cycle on a path, then markers lead from the path that was asked for to the
blamed one, which is open or has been passed on the way. -/
def Blames (loader : Loader) (openPaths : List String) (path : String) (failure : Failure) : Prop :=
  ∀ blamed, failure = .error (.includeCycle blamed) →
    ∃ passed, (passed ++ [blamed]).head? = some path ∧
      (passed ++ [blamed]).IsChain loader.Includes ∧ (blamed ∈ openPaths ∨ blamed ∈ passed)

/-- A path that is open is blamed for itself. -/
theorem blames_of_mem {loader : Loader} {openPaths : List String} {path : String}
    (h : path ∈ openPaths) : loader.Blames openPaths path (.error (.includeCycle path)) := by
  intro blamed heq
  cases heq
  exact ⟨[], rfl, List.isChain_singleton path, .inl h⟩

/-- Blame goes from an included document up to the one that includes it. -/
theorem Blames.of_includes {loader : Loader} {openPaths : List String} {path other : String}
    {failure : Failure} (h : loader.Blames (path :: openPaths) other failure)
    (hincludes : loader.Includes path other) : loader.Blames openPaths path failure := by
  intro blamed heq
  obtain ⟨passed, hhead, hchain, hmem⟩ := h blamed heq
  refine ⟨path :: passed, rfl, ?_, ?_⟩
  · refine List.isChain_cons.2 ⟨fun next hnext => ?_, hchain⟩
    obtain rfl := Option.some.inj (hhead.symm.trans hnext)
    exact hincludes
  · rcases hmem with hopen | hpassed
    · rcases List.mem_cons.1 hopen with rfl | hopen
      · exact .inr List.mem_cons_self
      · exact .inl hopen
    · exact .inr (List.mem_cons_of_mem _ hpassed)

end Loader

/-! ### Documents on a way down -/

/-- The path of an included document, if a step leads to one. -/
def Step.path? : Step → Option String
  | .inclusion path => some path
  | _ => none

namespace Template

/-- The paths of the included documents that steps lead through. -/
def inclusions (address : List Step) : List String :=
  address.filterMap Step.path?

/-- On every way down the included documents have different paths, and none of these is open. -/
def Apart (openPaths : List String) (template : Template) : Prop :=
  ∀ address node, template.nodeAt? address = some node →
    (inclusions address).Nodup ∧ ∀ path ∈ inclusions address, path ∉ openPaths

/-- A node is apart from the open paths if its bodies are, and if its included documents are not
open and apart from the open paths and their own. -/
theorem apart_of_below {openPaths : List String} {template : Template}
    (h : template.Below (Apart openPaths)
      fun path document => path ∉ openPaths ∧ document.Apart (path :: openPaths)) :
    template.Apart openPaths := by
  intro address node hnode
  cases address with
  | nil => simp [inclusions]
  | cons step address =>
    obtain ⟨child, hchild, hrest⟩ := Option.bind_eq_some_iff.1 hnode
    cases step with
    | repetition name index =>
      exact h.bodies .repetition child (Table.mem_flatMap_of_getAt? hchild) address node hrest
    | conditional id index =>
      exact h.bodies .conditional child (Table.mem_flatMap_of_getAt? hchild) address node hrest
    | inclusion path =>
      obtain ⟨hclosed, hapart⟩ := h.documents _ (Table.mem_of_get? hchild)
      obtain ⟨hnodup, hbelow⟩ := hapart address node hrest
      have hpath : path ∉ inclusions address :=
        fun hmem => hbelow path hmem List.mem_cons_self
      refine ⟨List.nodup_cons.2 ⟨hpath, hnodup⟩, fun other hother => ?_⟩
      rcases List.mem_cons.1 hother with rfl | hother
      · exact hclosed
      · exact fun hopen => hbelow other hother (List.mem_cons_of_mem _ hopen)

/-! ### Compiling a path -/

/-- Compiling a path, while others are open, gives a document that is apart from all of them and
from its own path, or a failure that blames a cycle on a path rightly. -/
theorem yields_compilePath {loader : Loader}
    (hload : ∀ path error, loader.load path = .error error → ∀ other, error ≠ .includeCycle other)
    (depth : Nat) (path : String) (openPaths : List String) :
    Yields openPaths (compilePath loader depth path)
      (fun document => path ∉ openPaths ∧ document.Apart (path :: openPaths))
      (loader.Blames openPaths path) := by
  induction depth generalizing path openPaths with
  | zero => exact .throw fun blamed heq => by cases heq
  | succ depth ih =>
    refine yields_compilePath_succ Loader.blames_of_mem (fun _ error hfailed blamed heq => ?_)
      fun hclosed lines hlines => ?_
    · exact absurd (Failure.error.inj heq) (hload path error hfailed blamed)
    -- With `path` open, a body of the document is what is apart from `path` and all paths above it.
    have hfault : ∀ error : Error, error.IsFault → loader.Blames openPaths path (.error error) := by
      rintro _ ⟨source, fault, rfl⟩ blamed heq
      cases heq
    have hresolve : ∀ other ∈ documentPaths lines,
        Yields (path :: openPaths) (compilePath loader depth other)
          (fun document => other ∉ path :: openPaths ∧ document.Apart (other :: path :: openPaths))
          (loader.Blames openPaths path) := fun other hother =>
      (ih other (path :: openPaths)).mono_failure fun failure hblames =>
        hblames.of_includes ⟨lines, hlines, hother⟩
    have hdocument : Yields openPaths (compileDocument (compilePath loader depth) path lines)
        (Apart (path :: openPaths)) (loader.Blames openPaths path) :=
      yields_compileDocument hfault (fun _ _ hchanges => apart_of_below hchanges.below) hresolve
    exact hdocument.mono fun document hapart => ⟨hclosed, hapart⟩

/-- Documents do not include each other more deeply than is allowed for if this exceeds what is
spared. -/
theorem yields_compilePath_of_spares {loader : Loader} {Fits : List String → String → Prop}
    {spare : List String → Nat} (hspares : loader.Spares Fits spare) {depth : Nat} {path : String}
    {openPaths : List String} (hfits : Fits openPaths path) (hdepth : spare openPaths < depth) :
    Yields openPaths (compilePath loader depth path) (fun _ => True) (· ≠ .tooDeep) := by
  induction depth generalizing path openPaths with
  | zero => cases hdepth
  | succ depth ih =>
    refine yields_compilePath_succ (fun _ => by simp) (fun _ _ _ => by simp)
      fun hclosed lines hlines => ?_
    have hlt := hspares.lt hfits hclosed hlines
    exact yields_compileDocument (fun _ _ => by simp) (fun _ _ _ => trivial) fun other hother =>
      ih (hspares.fits hfits hclosed hlines other hother) (by omega)

/-- The documents that can be open are too few to include each other more deeply than is allowed
for. -/
theorem yields_compilePath_of_bounded {loader : Loader} {asked : String → Prop}
    {paths : List String}
    (hbounded : loader.Bounded asked paths) {depth : Nat} {path : String} (hpath : asked path)
    {openPaths : List String} (hnodup : openPaths.Nodup) (hsubset : openPaths ⊆ paths)
    (hdepth : paths.length < depth + openPaths.length) :
    Yields openPaths (compilePath loader depth path) (fun _ => True) (· ≠ .tooDeep) := by
  have hlength := hnodup.length_le_of_subset hsubset
  have hspare : paths.length - openPaths.length < depth := by omega
  exact yields_compilePath_of_spares hbounded.spares ⟨hpath, hnodup, hsubset⟩ hspare

end Template

/-! ### Compiling with nothing open -/

namespace Compiler

/-- Whatever documents there are, compiling a path with nothing open blames a cycle on a path only
if markers lead from the path that is compiled to the blamed one, and the blamed one has been passed
on the way. If compiling succeeds, no way down the template meets a path twice, the compiled one
among them. The documents are never found to include each other too deeply. -/
theorem compilePath_cycles (documents : Table String) (path : String) :
    let compiler : Compiler := ⟨.ofDocuments documents, []⟩
    (∀ blamed, (compiler.compilePath path).1 = .error (.error (.includeCycle blamed)) →
      ∃ passed, blamed ∈ path :: passed ∧
        (path :: passed ++ [blamed]).IsChain fun first second =>
          ∃ text, documents.get? first = some text ∧ Marks text second) ∧
    (∀ template, (compiler.compilePath path).1 = .ok template →
      ∀ address node, template.nodeAt? address = some node →
        (path :: Template.inclusions address).Nodup) ∧
    (compiler.compilePath path).1 ≠ .error .tooDeep := by
  intro compiler
  have hload : ∀ path error, compiler.loader.load path = .error error →
      ∀ other, error ≠ .includeCycle other := by
    rintro path error hload other rfl
    simp only [compiler, Loader.ofDocuments] at hload
    split at hload <;> cases hload
  have hincludes : ∀ first second, compiler.loader.Includes first second →
      ∃ text, documents.get? first = some text ∧ Marks text second := by
    rintro first second ⟨lines, hlines, hmem⟩
    simp only [compiler, Loader.ofDocuments] at hlines
    split at hlines
    · next text htext =>
      obtain rfl := Except.ok.inj hlines
      exact ⟨text, htext, marks_of_mem_documentPaths hmem⟩
    · cases hlines
  have hyields := Template.yields_compilePath hload compiler.loader.depth path []
  refine ⟨fun blamed hrun => ?_, fun template hrun address node hnode => ?_, fun hrun => ?_⟩
  · obtain ⟨passed, hhead, hchain, hmem⟩ := hyields.of_error hrun blamed rfl
    have hpassed : blamed ∈ passed := hmem.resolve_left List.not_mem_nil
    cases passed with
    | nil => cases hpassed
    | cons first passed =>
      obtain rfl := Option.some.inj hhead
      exact ⟨passed, hpassed, hchain.imp hincludes⟩
  · obtain ⟨hnodup, happart⟩ := (hyields.of_ok hrun).2 address node hnode
    exact List.nodup_cons.2 ⟨fun hmem => happart path hmem List.mem_cons_self, hnodup⟩
  · obtain ⟨asked, paths, hbounded, hpath, hlength⟩ := Loader.suffices_ofDocuments documents path
    exact (Template.yields_compilePath_of_bounded hbounded hpath List.nodup_nil
      (List.nil_subset paths) hlength).of_error hrun rfl

/-- Two documents that include each other, one of them from a block, and a page that includes
one. -/
def ring : Table String :=
  [("page", "\x7binclude part\x7d\n"),
    ("part", "\x7bforeach rows\x7d\n\x7binclude cell\x7d\n\x7b/foreach\x7d\n"),
    ("cell", "\x7binclude part\x7d")]

/-- A page that includes one document in two ways. -/
def diamond : Table String :=
  [("page", "\x7binclude left\x7d\x7binclude right\x7d\n"),
    ("left", "\x7bif a\x7d\n\x7binclude base\x7d\n\x7b/if\x7d\n"),
    ("right", "\x7binclude base\x7d"), ("base", "text")]

/-- The ring is reported; the diamond is none. -/
theorem compilePath_cycles_ring_diamond :
    (compilePath ⟨.ofDocuments ring, []⟩ "page").1 = .error (.error (.includeCycle "part")) ∧
      (∃ passed, "part" ∈ "page" :: passed ∧
        ("page" :: passed ++ ["part"]).IsChain fun first second =>
          ∃ text, ring.get? first = some text ∧ Marks text second) ∧
      ∃ template node, (compilePath ⟨.ofDocuments diamond, []⟩ "page").1 = .ok template ∧
        template.nodeAt? [.inclusion "left", .conditional "a" 0, .inclusion "base"] = some node ∧
        ("page" :: Template.inclusions
          [.inclusion "left", .conditional "a" 0, .inclusion "base"]).Nodup := by
  have hring : (compilePath ⟨.ofDocuments ring, []⟩ "page").1 =
      .error (.error (.includeCycle "part")) := by
    have hfailure : (match (compilePath ⟨.ofDocuments ring, []⟩ "page").1 with
        | .error failure => some failure
        | .ok _ => none) = some (.error (.includeCycle "part")) := by decide +kernel
    split at hfailure
    · next failure hresult => rw [hresult, Option.some.inj hfailure]
    · cases hfailure
  have hdiamond : ((compilePath ⟨.ofDocuments diamond, []⟩ "page").1.toOption.bind fun template =>
      template.nodeAt? [.inclusion "left", .conditional "a" 0, .inclusion "base"]).isSome =
        true := by
    decide +kernel
  obtain ⟨node, hnode⟩ := Option.isSome_iff_exists.1 hdiamond
  obtain ⟨template, hrun, hnode⟩ := Option.bind_eq_some_iff.1 hnode
  have hcompiles := eq_ok_of_toOption hrun
  exact ⟨hring, (compilePath_cycles ring "page").1 "part" hring, template, node, hcompiles, hnode,
    (compilePath_cycles diamond "page").2.1 template hcompiles _ node hnode⟩

end Compiler

end BraceTemplate
