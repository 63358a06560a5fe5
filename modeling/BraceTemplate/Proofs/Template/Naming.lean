import BraceTemplate.Proofs.Table
import BraceTemplate.Proofs.Template.Compiling
import BraceTemplate.Proofs.Template.Reading

/-!
# Names of nodes

The name of a node only goes into the names of the nodes below it. So compiling lines under two
names gives the same template except for the names of its nodes, or the same failure.
-/

namespace BraceTemplate

/-! ### Compilations that agree in part -/

namespace CompileM

variable {α β γ δ : Type}

/-- A mapped compilation runs like the compilation itself. -/
theorem map_apply (f : α → β) (m : CompileM α) (openPaths : List String) :
    (f <$> m) openPaths =
      match m openPaths with
      | (.ok a, after) => (.ok (f a), after)
      | (.error failure, after) => (.error failure, after) := by
  rw [map_eq_pure_bind, bind_apply]
  rfl

/-- Two compilations that go on from results which agree in part agree in part. -/
theorem map_bind_congr {f : α → γ} {g : β → δ} {m m' : CompileM α} {k k' : α → CompileM β}
    (hm : f <$> m = f <$> m') (hk : ∀ a b, f a = f b → g <$> k a = g <$> k' b) :
    g <$> (m >>= k) = g <$> (m' >>= k') := by
  funext openPaths
  have hhere := congrFun hm openPaths
  rw [map_apply, map_apply] at hhere
  rw [map_apply, map_apply, bind_apply, bind_apply]
  cases hleft : m openPaths with
  | mk result after =>
    cases hright : m' openPaths with
    | mk result' after' =>
      rw [hleft, hright] at hhere
      cases result with
      | error failure =>
        cases result' with
        | error failure' =>
          cases hhere
          rfl
        | ok b => cases hhere
      | ok a =>
        cases result' with
        | error failure' => cases hhere
        | ok b =>
          obtain ⟨hsame, rfl⟩ := Prod.mk.inj hhere
          have hnext := congrFun (hk a b (Except.ok.inj hsame)) after
          rw [map_apply, map_apply] at hnext
          exact hnext

/-- To map a given result is to give the mapped one. -/
theorem map_lift (f : α → β) (result : Except Error α) :
    f <$> CompileM.lift result = CompileM.lift (result.map f) := by
  cases result <;> rfl

end CompileM

namespace Template

/-! ### Templates without names -/

mutual

/-- The template with the name of every node removed. -/
def unnamed : Template → Template
  | ⟨node, conditionals, repetitions, includes⟩ =>
    ⟨{ node with name := "" }, unnamedBlocks conditionals, unnamedBlocks repetitions,
      unnamedDocuments includes⟩

/-- Removes the names from a table of block bodies. -/
def unnamedBlocks : List (String × List Template) → List (String × List Template)
  | [] => []
  | (key, bodies) :: rest => (key, unnamedBodies bodies) :: unnamedBlocks rest

/-- Removes the names from a list of templates. -/
def unnamedBodies : List Template → List Template
  | [] => []
  | body :: rest => unnamed body :: unnamedBodies rest

/-- Removes the names from a table of included documents. -/
def unnamedDocuments : List (String × Template) → List (String × Template)
  | [] => []
  | (path, document) :: rest => (path, unnamed document) :: unnamedDocuments rest

end

/-- The names are removed from every body. -/
theorem unnamedBodies_eq_map (bodies : List Template) :
    unnamedBodies bodies = bodies.map unnamed := by
  induction bodies with
  | nil => rfl
  | cons body rest ih => simp [unnamedBodies, ih]

/-- The names are removed from the bodies under every key. -/
theorem unnamedBlocks_eq_mapValues (blocks : Table (List Template)) :
    unnamedBlocks blocks = blocks.mapValues (List.map unnamed) := by
  induction blocks with
  | nil => rfl
  | cons block rest ih =>
    simp only [Table.mapValues] at ih
    simp [unnamedBlocks, unnamedBodies_eq_map, Table.mapValues, ih]

/-- The names are removed from the document under every path. -/
theorem unnamedDocuments_eq_mapValues (includes : Table Template) :
    unnamedDocuments includes = includes.mapValues unnamed := by
  induction includes with
  | nil => rfl
  | cons document rest ih =>
    simp only [Table.mapValues] at ih
    simp [unnamedDocuments, Table.mapValues, ih]

/-- Without names a node has an empty one, and so has everything below it. -/
theorem unnamed_eq (template : Template) : template.unnamed =
    { template with
      name := ""
      conditionals := Table.mapValues (List.map unnamed) template.conditionals
      repetitions := Table.mapValues (List.map unnamed) template.repetitions
      includes := Table.mapValues unnamed template.includes } := by
  obtain ⟨node, conditionals, repetitions, includes⟩ := template
  rw [unnamed, unnamedBlocks_eq_mapValues, unnamedBlocks_eq_mapValues,
    unnamedDocuments_eq_mapValues]

/-! ### Reading lines without names -/

/-- What braces mean does not depend on names. -/
theorem meaning_unnamed (template : Template) (content : List Char) :
    template.unnamed.meaning content = template.meaning content := by
  have hbody :
      ∀ placeholder, template.unnamed.hasBody placeholder = template.hasBody placeholder := by
    intro placeholder
    rw [unnamed_eq]
    unfold hasBody conditional? repetition?
    cases placeholder.kind <;> exact Table.isSome_getAt?_mapValues ..
  have hincluded : template.unnamed.includedPath? content = template.includedPath? content := by
    rw [unnamed_eq]
    unfold includedPath? include?
    simp [Table.get?_mapValues]
  unfold meaning
  simp only [hbody, hincluded]

/-- To add an expression has nothing to do with names. -/
theorem addExpression_unnamed (template : Template) (source : String) :
    template.unnamed.addExpression source = (template.addExpression source).map unnamed := by
  have hexpressions : template.unnamed.expressions = template.expressions := by rw [unnamed_eq]
  unfold addExpression
  rw [hexpressions]
  split
  · rfl
  · split
    · simp [Except.map, unnamed_eq]
    · rfl

/-- Going on with pieces that have been read does not look at names. -/
private theorem map_reading (f : List Piece → List Piece)
    (reading : Except Error (List Piece × Template)) :
    (do
        let (pieces, changed) ← reading.map (Prod.map id unnamed)
        return (f pieces, changed)) =
      Except.map (Prod.map id unnamed) (do
        let (pieces, changed) ← reading
        return (f pieces, changed)) := by
  cases reading <;> rfl

/-- Reading a line gives the same pieces whatever the nodes are called, and leaves the names as they
are. -/
theorem readLine_unnamed (number : Nat) (cs : List Char) (template : Template) :
    readLine number cs template.unnamed =
      (readLine number cs template).map (Prod.map id unnamed) := by
  fun_induction readLine number cs template with
  | case1 template =>
    rw [readLine]
    rfl
  | case2 template rest ih | case3 template rest ih =>
    rw [readLine, ih]
    exact map_reading _ _
  | case4 template cs hcontent ih =>
    rw [readLine_open_of_none hcontent, ih]
    exact map_reading _ _
  | case5 template cs content rest hcontent hmeaning ih =>
    rw [readLine_open_of_some hcontent, meaning_unnamed, hmeaning]
    dsimp only
    rw [ih]
    exact map_reading _ _
  | case6 template cs content rest hcontent kind hmeaning =>
    rename_i ih
    rw [readLine_open_of_some hcontent, meaning_unnamed, hmeaning]
    rw [unnamed_eq] at ih ⊢
    exact ih
  | case7 template cs content rest hcontent segment hmeaning ih =>
    have hrefer : template.unnamed.refer segment = (template.refer segment).unnamed := by
      rw [unnamed_eq, unnamed_eq]
      cases segment <;> rfl
    rw [readLine_open_of_some hcontent, meaning_unnamed, hmeaning]
    dsimp only
    rw [hrefer, ih]
    exact map_reading _ _
  | case8 template cs content rest hcontent source hmeaning ih =>
    rw [readLine_open_of_some hcontent, meaning_unnamed, hmeaning]
    dsimp only
    rw [addExpression_unnamed]
    cases template.addExpression source with
    | error error => rfl
    | ok between =>
      refine Eq.trans ?_ (map_reading (.segment (.expression (Expression.idOf source)) :: ·)
        (readLine number rest between))
      rw [← ih between]
      rfl
  | case9 template c rest hescape hescape' hopen ih =>
    rw [readLine, ih]
    · exact map_reading _ _
    all_goals assumption

/-- Reading lines gives the same pieces whatever the nodes are called, and leaves the names as they
are. -/
theorem readLines_unnamed (number : Nat) (lines : List Line) (template : Template) :
    readLines number lines template.unnamed =
      (readLines number lines template).map (Prod.map id unnamed) := by
  induction lines generalizing number template with
  | nil => rfl
  | cons line lines ih =>
    rw [readLines, readLines, readLine_unnamed]
    cases readLine number line template with
    | error error => rfl
    | ok read =>
      obtain ⟨pieces, between⟩ := read
      refine Eq.trans ?_ (map_reading (pieces ++ ·) (readLines (number + 1) lines between))
      rw [← ih]
      rfl

/-- A node is completed in the same way whatever it is called. -/
theorem complete_unnamed (template : Template) (lines : List Line) :
    template.unnamed.complete lines = (template.complete lines).map unnamed := by
  rw [complete, complete, readLines_unnamed]
  cases readLines 1 lines template with
  | error error => rfl
  | ok read =>
    obtain ⟨pieces, changed⟩ := read
    change Except.ok (bindNames { changed.unnamed with segments := Piece.segments pieces }) =
      Except.ok (unnamed (bindNames { changed with segments := Piece.segments pieces }))
    rw [unnamed_eq, unnamed_eq]
    rfl

/-! ### Compiling lines under another name -/

/-- To note a cut has nothing to do with names. -/
theorem noteCut_unnamed (template : Template) (kind : BlockKind) (number : Nat) (cut : Cut) :
    (template.noteCut kind number cut).unnamed = template.unnamed.noteCut kind number cut := by
  rw [noteCut, noteCut]
  split
  · rfl
  · rw [unnamed_eq, unnamed_eq]

/-- The body of a repetition is added without its name. -/
theorem addRepetition_unnamed (template body : Template) (name : String) :
    (template.addRepetition name body).unnamed =
      template.unnamed.addRepetition name body.unnamed := by
  rw [unnamed_eq, unnamed_eq template, addRepetition, addRepetition]
  simp only [Table.append_mapValues]

/-- The body of a conditional is added without its name. -/
theorem addConditional_unnamed (template body : Template) (condition : Expression) :
    (template.addConditional condition body).unnamed =
      template.unnamed.addConditional condition body.unnamed := by
  rw [unnamed_eq, unnamed_eq template, addConditional, addConditional]
  simp only [Table.append_mapValues]

/-- A document is added without its name. -/
theorem addDocument_unnamed (template document : Template) (path : String) :
    unnamed { template with includes := Table.insert template.includes path document } =
      { template.unnamed with
        includes := Table.insert template.unnamed.includes path document.unnamed } := by
  rw [unnamed_eq, unnamed_eq template]
  simp only [Table.insert_mapValues]

/-- There are as many bodies under a key without names. -/
theorem count_unnamed (template : Template) (key : String) :
    Table.count template.unnamed.repetitions key = Table.count template.repetitions key ∧
      Table.count template.unnamed.conditionals key = Table.count template.conditionals key := by
  rw [unnamed_eq]
  exact ⟨Table.count_mapValues .., Table.count_mapValues ..⟩

section Compiling

variable (resolve : String → CompileM Template)

/-- Nodes that differ in names only gain the same documents. -/
theorem addIncludes_unnamed (paths : List String) {template other : Template}
    (h : template.unnamed = other.unnamed) :
    unnamed <$> addIncludes resolve paths template =
      unnamed <$> addIncludes resolve paths other := by
  have hincluded : ∀ (template : Template) path,
      (template.unnamed.include? path).isSome = (template.include? path).isSome := by
    intro template path
    rw [unnamed_eq, include?, Table.get?_mapValues, Option.isSome_map]
    rfl
  induction paths generalizing template other with
  | nil => rw [addIncludes, addIncludes, map_pure, map_pure, h]
  | cons path paths ih =>
    rw [addIncludes, addIncludes, ← hincluded, ← hincluded other, h]
    split
    · exact ih h
    · refine CompileM.map_bind_congr (f := unnamed) rfl fun document document' hsame => ih ?_
      rw [addDocument_unnamed, addDocument_unnamed, h, hsame]

/-- What is done with the rest of the lines behind the first one. -/
private theorem cutLines_rest (left : Line) {rest rest' : CompileM (List Line × Template)}
    (h : Prod.map id unnamed <$> rest = Prod.map id unnamed <$> rest') :
    Prod.map id unnamed <$> (do
        let (lines, changed) ← rest
        return (left :: lines, changed)) =
      Prod.map id unnamed <$> (do
        let (lines, changed) ← rest'
        return (left :: lines, changed)) := by
  refine CompileM.map_bind_congr h ?_
  rintro ⟨lines, changed⟩ ⟨lines', changed'⟩ hsame
  obtain ⟨hlines, hchanged⟩ := Prod.mk.inj hsame
  obtain rfl : lines = lines' := hlines
  simp only [map_pure, Prod.map, hchanged]

/-- What is done with the lines that are left when the blocks have been cut out. -/
private theorem compileLines_of_cutLines {lines : List Line} (name other : String)
    (h : Prod.map id unnamed <$> cutLines resolve 1 lines (.empty name) =
      Prod.map id unnamed <$> cutLines resolve 1 lines (.empty other)) :
    unnamed <$> compileLines resolve name lines = unnamed <$> compileLines resolve other lines := by
  refine CompileM.map_bind_congr h ?_
  rintro ⟨left, changed⟩ ⟨left', changed'⟩ hsame
  obtain ⟨hleft, hchanged⟩ := Prod.mk.inj hsame
  obtain rfl : left = left' := hleft
  simp only [CompileM.map_lift, ← complete_unnamed, hchanged]

/-- From lines the same blocks are cut out, whatever the node that gains their bodies is called. A
body gets its name from the node, and is compiled to the same otherwise. -/
theorem cutLines_unnamed (lines : List Line) (number : Nat) {template other : Template}
    (h : template.unnamed = other.unnamed) :
    Prod.map id unnamed <$> cutLines resolve number lines template =
      Prod.map id unnamed <$> cutLines resolve number lines other := by
  have hempty : ∀ name other, (empty name).unnamed = (empty other).unnamed := fun _ _ => rfl
  induction lines using cut_induction generalizing number template other with
  | nil =>
    rw [cutLines_nil, cutLines_nil, map_pure, map_pure, Prod.map, Prod.map, h]
  | comment line rest hcomment ihRest =>
    rw [cutLines_comment _ _ _ _ hcomment, cutLines_comment _ _ _ _ hcomment]
    refine cutLines_rest _ (ihRest _ ?_)
    rw [noteCut_unnamed, noteCut_unnamed, h]
  | repetition line rest key hcomment hname ihBody ihRest =>
    have hcount : Table.count template.repetitions key = Table.count other.repetitions key := by
      rw [← (count_unnamed template key).1, ← (count_unnamed other key).1, h]
    rw [cutLines_repetition _ _ _ _ hcomment hname, cutLines_repetition _ _ _ _ hcomment hname]
    dsimp only
    rw [hcount]
    refine CompileM.map_bind_congr (f := unnamed) ?_ fun body body' hbody => ?_
    · exact compileLines_of_cutLines resolve _ _ (ihBody 1 (hempty _ _))
    · refine cutLines_rest _ (ihRest _ ?_)
      rw [addRepetition_unnamed, addRepetition_unnamed, noteCut_unnamed, noteCut_unnamed, h, hbody]
  | conditional line rest source hcomment hname hcondition ihBody ihRest =>
    rw [cutLines_conditional _ _ _ _ hcomment hname hcondition,
      cutLines_conditional _ _ _ _ hcomment hname hcondition]
    refine CompileM.map_bind_congr (f := id) rfl fun condition condition' hsame => ?_
    obtain rfl : condition = condition' := hsame
    have hcount : Table.count template.conditionals condition.id =
        Table.count other.conditionals condition.id := by
      rw [← (count_unnamed template _).2, ← (count_unnamed other _).2, h]
    dsimp only
    rw [hcount]
    refine CompileM.map_bind_congr (f := unnamed) ?_ fun body body' hbody => ?_
    · exact compileLines_of_cutLines resolve _ _ (ihBody 1 (hempty _ _))
    · refine cutLines_rest _ (ihRest _ ?_)
      rw [addConditional_unnamed, addConditional_unnamed, noteCut_unnamed,
        noteCut_unnamed, h, hbody]
  | plain line rest hcomment hname hcondition ihRest =>
    rw [cutLines_plain _ _ _ _ hcomment hname hcondition,
      cutLines_plain _ _ _ _ hcomment hname hcondition]
    exact CompileM.map_bind_congr (addIncludes_unnamed resolve _ h) fun changed changed' hsame =>
      cutLines_rest _ (ihRest _ hsame)

/-- Compiling lines under two names gives the same template except for the names of its nodes, or
the same failure. -/
theorem compileLines_unnamed (name other : String) (lines : List Line) :
    unnamed <$> compileLines resolve name lines = unnamed <$> compileLines resolve other lines :=
  compileLines_of_cutLines resolve name other (cutLines_unnamed resolve lines 1 rfl)

end Compiling

end Template

end BraceTemplate
