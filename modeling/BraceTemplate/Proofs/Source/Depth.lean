import BraceTemplate.Engine.Basic
import BraceTemplate.Proofs.Template.Including

/-!
# The depth of loaders suffices

Only documents that exist can be open, and an open document is not opened again. A table has as many
documents as entries. The paths of files are without number, but all of them except the first one
stand in an include marker of some file, and each marker takes a byte at least.
-/

namespace BraceTemplate

/-! ### Documents in a table -/

namespace Loader

/-- A table of documents allows for more paths than can be open at once. -/
theorem suffices_ofDocuments (documents : Table String) : (ofDocuments documents).Suffices := by
  intro path
  refine ⟨fun _ => True, documents.names, ⟨?_, fun _ _ _ _ _ _ => trivial⟩, trivial, ?_⟩
  · intro other lines _ hload
    simp only [ofDocuments] at hload
    split at hload
    · next text htext => exact List.mem_map_of_mem (Table.mem_of_get? htext)
    · simp at hload
  · simp [ofDocuments, Table.names]

end Loader

/-! ### Files -/

/-- There are no more markers in a text than characters. -/
theorem length_arguments_le (word : String) (allowed : Char → Bool) (cs : List Char) :
    (arguments word allowed cs).length ≤ cs.length := by
  induction cs with
  | nil => simp [arguments]
  | cons c cs ih =>
    rw [arguments]
    split <;> simp only [List.length_cons] <;> omega

/-- Lines ask for no more documents than they have characters. -/
theorem length_documentPaths_le (lines : List Line) :
    (documentPaths lines).length ≤ lines.flatten.length := by
  induction lines with
  | nil => simp [documentPaths]
  | cons line lines ih =>
    have hline := length_arguments_le "include" isPathChar line
    simp only [documentPaths, includePaths, List.flatMap_cons, List.length_append, List.length_map,
      List.flatten_cons] at ih ⊢
    omega

/-- A text has no more characters than bytes. -/
theorem length_le_byteSize (cs : List Char) : cs.length ≤ byteSize cs := by
  induction cs with
  | nil => simp
  | cons c cs ih =>
    have hpos := c.utf8Size_pos
    rw [List.length_cons, byteSize_cons]
    omega

/-- The paths that the include markers of a file name, if the file is a text. -/
def filePaths (bytes : ByteArray) : List String :=
  match String.fromUTF8? bytes with
  | some text => documentPaths (splitLines text.toList)
  | none => []

/-- The bytes that a text is decoded from are as many as those of its characters. -/
theorem size_of_fromUTF8? {bytes : ByteArray} {text : String}
    (h : String.fromUTF8? bytes = some text) : bytes.size = byteSize text.toList := by
  unfold String.fromUTF8? at h
  split at h
  · cases h
    rw [byteSize_toList]
    rfl
  · simp at h

/-- A file asks for no more documents than it has bytes. -/
theorem length_filePaths_le (bytes : ByteArray) : (filePaths bytes).length ≤ bytes.size := by
  unfold filePaths
  split
  · next text htext =>
    have hpaths := length_documentPaths_le (splitLines text.toList)
    rw [flatten_splitLines] at hpaths
    have hbytes := length_le_byteSize text.toList
    have hsize := size_of_fromUTF8? htext
    omega
  · simp

namespace FileTree

/-- The paths that the include markers of all files name. -/
def markedPaths (tree : FileTree) : List String :=
  tree.files.flatMap fun file => filePaths file.2

/-- The files of a tree ask for no more documents than they have bytes in total. -/
theorem length_markedPaths_le (tree : FileTree) :
    tree.markedPaths.length ≤ tree.size := by
  unfold markedPaths size
  induction tree.files with
  | nil => simp
  | cons file files ih =>
    have hfile := length_filePaths_le file.2
    simp only [List.flatMap_cons, List.length_append, List.foldr_cons]
    omega

/-- A file that is found is one of the files of the tree. -/
theorem mem_files_of_follow {tree : FileTree} {directory : Option (List String)}
    {components : List String} {bytes : ByteArray}
    (h : tree.follow directory components = .ok bytes) : ∃ place, (place, bytes) ∈ tree.files := by
  fun_induction follow tree directory components with
  | case2 _ _ _ ih | case5 _ _ _ _ ih | case6 _ _ _ ih | case8 _ _ _ _ _ _ _ _ ih => exact ih h
  | case9 _ _ _ _ _ place _ found hfound =>
    obtain ⟨before, after, hfiles, -⟩ := List.lookup_eq_some_iff.1 hfound
    cases h
    exact ⟨place, by simp [hfiles]⟩
  | _ => contradiction

/-- A loaded file consists of the lines of one of the files of the tree. -/
theorem exists_file_of_load {tree : FileTree} {base path : String} {lines : List Line}
    (h : (tree.loader base).load path = .ok lines) :
    ∃ file ∈ tree.files, ∃ text, String.fromUTF8? file.2 = some text ∧
      lines = splitLines text.toList := by
  unfold loader at h
  dsimp only at h
  cases hread : tree.read (joinPath base path) with
  | error fault => simp [hread, bind, Except.bind] at h
  | ok bytes =>
    obtain ⟨place, hplace⟩ : ∃ place, (place, bytes) ∈ tree.files := by
      unfold read at hread
      split at hread
      · simp at hread
      · split at hread <;> exact mem_files_of_follow hread
    cases htext : String.fromUTF8? bytes with
    | none => simp [hread, htext, bind, Except.bind, throw, throwThe, MonadExceptOf.throw] at h
    | some text =>
      simp only [hread, htext, bind, Except.bind, pure, Except.pure, Except.ok.injEq] at h
      exact ⟨(place, bytes), hplace, text, htext, h.symm⟩

end FileTree

/-- A tree of files allows for more paths than can be open at once, since a path has to be marked in
one of the files. -/
theorem Loader.suffices_files (tree : FileTree) (base : String) : (tree.loader base).Suffices := by
  intro path
  have hmarked : ∀ other lines, (tree.loader base).load other = .ok lines →
      ∀ path ∈ documentPaths lines, path ∈ tree.markedPaths := by
    intro other lines hload path hpath
    obtain ⟨file, hfile, text, htext, rfl⟩ := FileTree.exists_file_of_load hload
    refine List.mem_flatMap.2 ⟨file, hfile, ?_⟩
    rw [filePaths, htext]
    exact hpath
  refine ⟨fun other => other ∈ path :: tree.markedPaths, path :: tree.markedPaths,
    ⟨fun _ _ hasked _ => hasked, ?_⟩, List.mem_cons_self, ?_⟩
  · intro other lines _ hload next hnext
    exact List.mem_cons_of_mem _ (hmarked other lines hload next hnext)
  · have hlength := tree.length_markedPaths_le
    simp only [List.length_cons, FileTree.loader]
    omega

/-- The loader of any sources allows for enough. -/
theorem Sources.suffices_loader (sources : Sources) (directory : String) :
    (sources.loader directory).Suffices := by
  cases sources with
  | documents texts => exact Loader.suffices_ofDocuments texts
  | files tree => exact Loader.suffices_files tree directory

/-- The lines of a document are those of a text. -/
theorem Sources.exists_text_of_load {sources : Sources} {directory path : String}
    {lines : List Line} (h : (sources.loader directory).load path = .ok lines) :
    ∃ text, lines = splitLines text := by
  cases sources with
  | documents texts =>
    simp only [loader, Loader.ofDocuments] at h
    split at h
    · next text _ => exact ⟨text.toList, (Except.ok.inj h).symm⟩
    · simp at h
  | files tree =>
    obtain ⟨_, _, text, _, hlines⟩ := FileTree.exists_file_of_load h
    exact ⟨text.toList, hlines⟩

end BraceTemplate
