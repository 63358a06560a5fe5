import BraceTemplate.Proofs.Compiled.Results
import BraceTemplate.Proofs.Source.Depth

/-!
# Compiling the documents of an engine

Compiling the document at a path is loading its lines and compiling them with the path open, and all
that counts of the sources is what the include markers lead to. A key of the cache belongs to one
path and one digest only.
-/

namespace BraceTemplate

/-! ### Keys of the cache -/

namespace Sha256

/-- A word has eight hexadecimal digits. -/
theorem length_hexWord (word : UInt32) : (hexWord word).length = 8 := by
  have hle : (Nat.toDigits 16 word.toNat).length ≤ 8 := by
    rw [Nat.length_toDigits_le_iff (by omega) (by omega)]
    exact word.toNat_lt
  simp only [hexWord, List.length_append, List.length_replicate]
  omega

/-- A digest has sixty-four hexadecimal digits. -/
theorem length_hex (message : List UInt8) : (hex message).toList.length = 64 := by
  simp [hex, length_hexWord]

end Sha256

/-- Equal keys belong to the same path and to lines with the same digest. -/
theorem cacheKey_inj {path path' : String} {lines lines' : List Line}
    (h : cacheKey path lines = cacheKey path' lines') :
    path = path' ∧ checksum lines = checksum lines' := by
  have htext := congrArg String.toList h
  simp only [cacheKey, String.toList_append, List.append_assoc] at htext
  have hlength : (":".toList ++ (checksum lines).toList).length =
      (":".toList ++ (checksum lines').toList).length := by
    simp only [List.length_append, checksum, Sha256.length_hex]
  obtain ⟨hpath, hrest⟩ := List.append_inj' htext hlength
  exact ⟨String.toList_inj.1 hpath, String.toList_inj.1 (List.append_cancel_left hrest)⟩

/-! ### Reached documents -/

/-- The paths that include markers lead to from a path, itself included. -/
inductive Loader.Reaches (loader : Loader) (path : String) : String → Prop
  | self : Reaches loader path path
  | marked {between : String} {lines : List Line} {other : String}
      (hbetween : Reaches loader path between) (hload : loader.load between = .ok lines)
      (hmarked : other ∈ documentPaths lines) : Reaches loader path other

namespace Engine

/-- The loader of an engine allows for more paths than can be open at once. -/
theorem suffices_loader (engine : Engine) : engine.loader.Suffices :=
  engine.sources.suffices_loader _

/-- A file is compiled by its path, with nothing open. -/
theorem compileFile_eq (engine : Engine) (path : String) :
    engine.compileFile path =
      (Template.compilePath engine.loader engine.loader.depth path []).1 :=
  rfl

/-- A document is compiled from its lines, with nothing open. -/
theorem compileDocument_eq (engine : Engine) (path : String) (lines : List Line) :
    engine.compileDocument path lines =
      (Template.compileDocument (Template.compilePath engine.loader engine.loader.depth) path lines
        []).1 :=
  rfl

/-- Every loader allows for one path at least. -/
theorem depth_pos (engine : Engine) : ∃ depth, engine.loader.depth = depth + 1 := by
  obtain ⟨_, paths, _, _, hdepth⟩ := engine.suffices_loader ""
  exact ⟨engine.loader.depth - 1, by omega⟩

/-- A file that cannot be read is not compiled. -/
theorem compileFile_of_error {engine : Engine} {path : String} {error : Error}
    (h : engine.loader.load path = .error error) :
    engine.compileFile path = .error (.error error) := by
  obtain ⟨depth, hdepth⟩ := engine.depth_pos
  rw [compileFile_eq, hdepth, Template.compilePath_of_error List.not_mem_nil h]

/-- Compiling a file is compiling its lines as the document at its path. -/
theorem compileFile_of_lines {engine : Engine} {path : String} {lines : List Line}
    (h : engine.loader.load path = .ok lines) :
    engine.compileFile path = engine.compileDocument path lines := by
  obtain ⟨asked, paths, hbounded, hpath, hlength⟩ := engine.suffices_loader path
  obtain ⟨depth, hdepth⟩ := engine.depth_pos
  have hmem := hbounded.mem path lines hpath h
  have hagree : CompileM.AgreeAt []
      (Template.compileDocument (Template.compilePath engine.loader depth) path lines)
      (Template.compileDocument (Template.compilePath engine.loader (depth + 1)) path lines) := by
    refine Template.agreeAt_compileDocument fun other hother => ?_
    refine Template.agreeAt_compilePath_succ hbounded
      (hbounded.closed path lines hpath h other hother) (by simp) (by simpa using hmem) ?_
    simp only [List.length_singleton]
    omega
  rw [compileFile_eq, compileDocument_eq, hdepth,
    Template.compilePath_of_lines List.not_mem_nil h, hagree.1]

/-- Engines whose documents are the same wherever include markers lead compile the same. -/
theorem compileFile_congr {engine engine' : Engine} {path : String}
    (h : ∀ other, engine.loader.Reaches path other →
      engine.loader.load other = engine'.loader.load other) :
    engine.compileFile path = engine'.compileFile path := by
  have hdeeper : ∀ (engine : Engine) (depth : Nat), engine.loader.depth ≤ depth →
      CompileM.AgreeAt [] (Template.compilePath engine.loader engine.loader.depth path)
        (Template.compilePath engine.loader depth path) := by
    intro engine depth hle
    obtain ⟨asked, paths, hbounded, hpath, hlength⟩ := engine.suffices_loader path
    exact Template.agreeAt_compilePath_of_le hbounded hle hpath List.nodup_nil
      (List.nil_subset paths) (by simpa using hlength)
  let depth := max engine.loader.depth engine'.loader.depth
  have hbetween : CompileM.AgreeAt [] (Template.compilePath engine.loader depth path)
      (Template.compilePath engine'.loader depth path) :=
    Template.agreeAt_compilePath h
      (fun _ _ hbetween hload _ hmarked => .marked hbetween hload hmarked)
      depth .self []
  have hagree := ((hdeeper engine depth (Nat.le_max_left ..)).trans hbetween).trans
    (hdeeper engine' depth (Nat.le_max_right ..)).symm
  rw [compileFile_eq, compileFile_eq, hagree.1]

/-- A compiled document can be stored if none of the documents has too many lines. -/
theorem storable_of_compileFile {engine : Engine} {path : String} {template : Template}
    (hlength : ∀ other lines, engine.loader.load other = .ok lines → lines.length < 2 ^ 64)
    (h : engine.compileFile path = .ok template) : template.Storable := by
  have hensures := Template.storable_compilePath hlength engine.loader.depth path
  exact hensures [] template _ (Prod.ext h rfl)

end Engine

end BraceTemplate
