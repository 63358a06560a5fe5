import BraceTemplate.Proofs.Compiled.RoundTrip
import BraceTemplate.Proofs.Engine.Loading

/-!
# What a load shows after any history

The sources of an engine are edited and its documents are loaded in any order. When caching is on, a
load shows the document as it was compiled at the first load that found it with the same lines of
its own. So it shows the present sources unless a document that is included has been edited since.
-/

namespace BraceTemplate

/-- What happens to an engine: a document is added or replaced, or a document is loaded. -/
inductive Event where
  | write (path : String) (bytes : ByteArray)
  | load (path : String)

/-- A load: the engine at its beginning, and the path that is loaded. -/
structure Load where
  engine : Engine
  path : String

namespace Load

/-- Whether a load finds the given lines at `path`, and the document can be compiled. -/
def compiles (load : Load) (path : String) (lines : List Line) : Bool :=
  load.path == path &&
    (match load.engine.loader.load path with
      | .ok found => found == lines
      | .error _ => false) &&
    (load.engine.compileFile path).toOption.isSome

/-- A load compiles given lines if it asks for the path, finds the lines there and succeeds. -/
theorem compiles_iff {load : Load} {path : String} {lines : List Line} :
    load.compiles path lines = true ↔
      load.path = path ∧ load.engine.loader.load path = .ok lines ∧
        ∃ template, load.engine.compileFile path = .ok template := by
  unfold compiles
  cases hload : load.engine.loader.load path with
  | error error => simp
  | ok found =>
    cases hcompile : load.engine.compileFile path with
    | error failure => simp [Except.toOption]
    | ok template => simp [Except.toOption]

/-- The first load that finds the given lines at `path` and compiles them. -/
def first? (loads : List Load) (path : String) (lines : List Line) : Option Load :=
  loads.find? fun load => load.compiles path lines

/-- A further load is the first one only if there is no earlier one. -/
theorem first?_append (loads : List Load) (load : Load) (path : String) (lines : List Line) :
    first? (loads ++ [load]) path lines =
      (first? loads path lines).or (if load.compiles path lines then some load else none) := by
  unfold first?
  rw [List.find?_append, List.find?_singleton]

/-- The first load of given lines is one of the loads, and it compiles them. -/
theorem compiles_of_first? {loads : List Load} {path : String} {lines : List Line} {load : Load}
    (h : first? loads path lines = some load) :
    load ∈ loads ∧ load.path = path ∧ load.engine.loader.load path = .ok lines ∧
      ∃ template, load.engine.compileFile path = .ok template := by
  have hcompiles : load.compiles path lines = true := by
    unfold first? at h
    simpa using List.find?_some h
  exact ⟨List.mem_of_find?_eq_some h, compiles_iff.1 hcompiles⟩

/-- What is assumed of the documents that are loaded: their texts differ if their digests do not
collide, their compiled forms are not nested too deeply, and no document has too many lines. -/
structure Manageable (loads : List Load) : Prop where
  no_collision : ∀ load ∈ loads, ∀ other ∈ loads, ∀ lines lines',
    load.engine.loader.load load.path = .ok lines →
    other.engine.loader.load other.path = .ok lines' →
    checksum lines = checksum lines' → lines.flatten = lines'.flatten
  levels_le : ∀ load ∈ loads, ∀ template, load.engine.compileFile load.path = .ok template →
    template.encode.levels ≤ Json.levelLimit
  length_lt : ∀ load ∈ loads, ∀ path lines, load.engine.loader.load path = .ok lines →
    lines.length < 2 ^ 64

/-- What is assumed of all loads is assumed of the earlier ones. -/
theorem Manageable.of_append {loads more : List Load} (h : Manageable (loads ++ more)) :
    Manageable loads :=
  ⟨fun load hload other hother => h.no_collision load (List.mem_append_left _ hload) other
      (List.mem_append_left _ hother),
    fun load hload => h.levels_le load (List.mem_append_left _ hload),
    fun load hload => h.length_lt load (List.mem_append_left _ hload)⟩

/-- Documents with the same key are the same. -/
theorem Manageable.eq_of_cacheKey {loads : List Load} (h : Manageable loads) {load other : Load}
    (hload : load ∈ loads) (hother : other ∈ loads) {lines lines' : List Line}
    (hlines : load.engine.loader.load load.path = .ok lines)
    (hlines' : other.engine.loader.load other.path = .ok lines')
    (hkey : cacheKey load.path lines = cacheKey other.path lines') :
    load.path = other.path ∧ lines = lines' := by
  obtain ⟨hpath, hchecksum⟩ := cacheKey_inj hkey
  have hflatten := h.no_collision load hload other hother lines lines' hlines hlines' hchecksum
  obtain ⟨text, rfl⟩ := Sources.exists_text_of_load hlines
  obtain ⟨text', rfl⟩ := Sources.exists_text_of_load hlines'
  rw [flatten_splitLines, flatten_splitLines] at hflatten
  exact ⟨hpath, by rw [hflatten]⟩

/-- What is compiled at a load can be restored. -/
theorem Manageable.ofCompiled {loads : List Load} (h : Manageable loads) {load : Load}
    (hload : load ∈ loads) {template : Template}
    (hcompile : load.engine.compileFile load.path = .ok template) :
    Template.ofCompiled template.toCompiled = .ok template := by
  have hstorable := Engine.storable_of_compileFile (h.length_lt load hload) hcompile
  have hdecode := Template.decode?_encode hstorable (h.levels_le load hload template hcompile)
  rw [Template.ofCompiled, Template.parse?_toCompiled hstorable]
  simp only [hdecode]

end Load

namespace Engine

/-- The engine after an event. -/
def step (engine : Engine) : Event → Engine
  | .write path bytes => engine.write path bytes
  | .load path => (engine.load path).2

/-- The engine after events in their order. -/
def run (engine : Engine) (events : List Event) : Engine :=
  events.foldl step engine

/-- The loads among events. -/
def loads : Engine → List Event → List Load
  | _, [] => []
  | engine, .write path bytes :: events => loads (engine.write path bytes) events
  | engine, .load path :: events => ⟨engine, path⟩ :: loads (engine.load path).2 events

/-- The engine whose sources a load shows after other loads: the one at the first load that found
the same lines at the path and compiled them, if caching is on and there is one, and the present one
otherwise. -/
def shown (engine : Engine) (loads : List Load) (path : String) : Engine :=
  match engine.config.cache, engine.loader.load path with
  | true, .ok lines => ((Load.first? loads path lines).map Load.engine).getD engine
  | _, _ => engine

/-- A load shows the sources of the first one that compiled the same lines, and its own if there is
none. -/
theorem shown_of_lines {engine : Engine} {path : String} {lines : List Line}
    (h : engine.loader.load path = .ok lines) (hcache : engine.config.cache = true)
    (loads : List Load) :
    engine.shown loads path = ((Load.first? loads path lines).map Load.engine).getD engine := by
  simp only [shown, hcache, h]

/-! ### One load -/

section One

variable {engine : Engine} {path : String} {lines : List Line}

/-- A document that cannot be read is not loaded, and the engine stays as it is. -/
theorem load_of_error {error : Error} (h : engine.loader.load path = .error error) :
    engine.load path = (.error (.error error), engine) := by
  rw [load, h]

/-- With caching off a document is compiled, and the engine stays as it is. -/
theorem load_of_cache_off (h : engine.loader.load path = .ok lines)
    (hcache : engine.config.cache = false) :
    engine.load path = ((engine.compileFile path).map .fresh, engine) := by
  rw [load, h, compileFile_of_lines h]
  simp [hcache]

/-- A document with an entry in the cache is restored from it, and nothing is stored. -/
theorem load_of_found (h : engine.loader.load path = .ok lines)
    (hcache : engine.config.cache = true) {template : Template} {compiled : String}
    (hfound : engine.cache.entries.get? (cacheKey path lines) = some compiled)
    (hdecode : Template.ofCompiled compiled = .ok template) :
    (engine.load path).1 = .ok (.cached template) ∧
      (engine.load path).2.cache.entries = engine.cache.entries := by
  rw [load, h]
  simp [hcache, Cache.get, hfound, hdecode]

/-- A document without an entry in the cache is compiled, and stored if it can be. -/
theorem load_of_missing (h : engine.loader.load path = .ok lines)
    (hcache : engine.config.cache = true)
    (hmissing : engine.cache.entries.get? (cacheKey path lines) = none) :
    (engine.load path).1 = (engine.compileFile path).map .fresh ∧
      (engine.load path).2.cache.entries =
        match engine.compileFile path with
        | .ok template => engine.cache.entries.insert (cacheKey path lines) template.toCompiled
        | .error _ => engine.cache.entries := by
  rw [load, h, compileFile_of_lines h]
  simp only [hcache, if_true, Cache.get, hmissing, Option.map_none, compileAndStore]
  have hcompile : ∀ cache : Cache,
      compileDocument { engine with cache := cache } path lines =
        engine.compileDocument path lines :=
    fun _ => rfl
  rw [hcompile]
  cases engine.compileDocument path lines with
  | error failure => exact ⟨rfl, rfl⟩
  | ok template => exact ⟨rfl, rfl⟩

end One

/-! ### The cache after many loads -/

/-- The cache has the compiled text of the first load for each path and lines that were compiled,
and nothing else. -/
structure Remembers (engine : Engine) (loads : List Load) : Prop where
  stored : ∀ path lines load, Load.first? loads path lines = some load →
    ∃ template, load.engine.compileFile path = .ok template ∧
      engine.cache.entries.get? (cacheKey path lines) = some template.toCompiled
  only : ∀ key compiled, engine.cache.entries.get? key = some compiled →
    ∃ path lines load, Load.first? loads path lines = some load ∧ key = cacheKey path lines

/-- An empty cache remembers that nothing was loaded. -/
theorem remembers_nil {engine : Engine} (h : engine.cache.entries = []) :
    engine.Remembers [] := by
  refine ⟨fun path lines load hfirst => ?_, fun key compiled hget => ?_⟩
  · simp [Load.first?] at hfirst
  · simp [h, Table.get?] at hget

/-- A load that changes nothing in the cache is of no account if it is not the first one to compile
its lines. -/
theorem Remembers.of_entries_eq {engine after : Engine} {loads : List Load} {load : Load}
    (h : engine.Remembers loads) (hentries : after.cache.entries = engine.cache.entries)
    (hload : ∀ path lines, load.compiles path lines = true →
      (Load.first? loads path lines).isSome) :
    after.Remembers (loads ++ [load]) := by
  have hfirst : ∀ path lines,
      Load.first? (loads ++ [load]) path lines = Load.first? loads path lines := by
    intro path lines
    rw [Load.first?_append]
    split
    · next hcompiles =>
      obtain ⟨first, hfirst⟩ := Option.isSome_iff_exists.1 (hload path lines hcompiles)
      rw [hfirst, Option.some_or]
    · rw [Option.or_none]
  refine ⟨fun path lines first hsome => ?_, fun key compiled hget => ?_⟩
  · rw [hfirst] at hsome
    rw [hentries]
    exact h.stored path lines first hsome
  · rw [hentries] at hget
    obtain ⟨path, lines, first, hsome, hkey⟩ := h.only key compiled hget
    exact ⟨path, lines, first, by rw [hfirst]; exact hsome, hkey⟩

section Load

variable {engine : Engine} {loads : List Load} {path : String} {lines : List Line}

/-- What the cache has under the key of a document was stored at the first load of this document. -/
theorem Remembers.first?_of_get? (h : engine.Remembers loads)
    (hmanageable : Load.Manageable (loads ++ [⟨engine, path⟩]))
    (hlines : engine.loader.load path = .ok lines) {compiled : String}
    (hget : engine.cache.entries.get? (cacheKey path lines) = some compiled) :
    ∃ first template, Load.first? loads path lines = some first ∧
      first.engine.compileFile path = .ok template ∧
      Template.ofCompiled compiled = .ok template := by
  obtain ⟨path', lines', first, hfirst, hkey⟩ := h.only _ _ hget
  obtain ⟨hmem, rfl, hlines', -⟩ := Load.compiles_of_first? hfirst
  have hmem' := List.mem_append_left [⟨engine, path⟩] hmem
  have hlast : (⟨engine, path⟩ : Load) ∈ loads ++ [⟨engine, path⟩] :=
    List.mem_append_right loads (List.mem_singleton_self _)
  obtain ⟨hpath, rfl⟩ := hmanageable.eq_of_cacheKey hlast hmem' hlines hlines' hkey
  dsimp only at hpath
  subst hpath
  obtain ⟨template, hcompile, hstored⟩ := h.stored _ _ _ hfirst
  obtain rfl := Option.some.inj (hget.symm.trans hstored)
  exact ⟨first, template, hfirst, hcompile, hmanageable.ofCompiled hmem' hcompile⟩

/-- No load compiled lines for which the cache has no entry. -/
theorem Remembers.first?_of_get?_eq_none (h : engine.Remembers loads)
    (hmissing : engine.cache.entries.get? (cacheKey path lines) = none) :
    Load.first? loads path lines = none := by
  rw [Option.eq_none_iff_forall_ne_some]
  intro first hfirst
  obtain ⟨_, -, hget⟩ := h.stored _ _ _ hfirst
  simp [hmissing] at hget

/-- A document whose key the cache does not have is stored at its first load. -/
theorem Remembers.store (h : engine.Remembers loads) (hlines : engine.loader.load path = .ok lines)
    (hmissing : engine.cache.entries.get? (cacheKey path lines) = none) {template : Template}
    (hcompile : engine.compileFile path = .ok template) {after : Engine}
    (hentries : after.cache.entries =
      engine.cache.entries.insert (cacheKey path lines) template.toCompiled) :
    after.Remembers (loads ++ [⟨engine, path⟩]) := by
  refine ⟨fun other lines' first hsome => ?_, fun key compiled hget => ?_⟩
  · rw [Load.first?_append] at hsome
    cases hfirst : Load.first? loads other lines' with
    | some earlier =>
      rw [hfirst, Option.some_or, Option.some.injEq] at hsome
      subst hsome
      obtain ⟨stored, hstored, hget⟩ := h.stored _ _ _ hfirst
      have hne : cacheKey other lines' ≠ cacheKey path lines := by
        intro heq
        rw [heq, hmissing] at hget
        simp at hget
      exact ⟨stored, hstored, by rw [hentries, Table.get?_insert_of_ne _ hne, hget]⟩
    | none =>
      rw [hfirst, Option.none_or, Option.ite_none_right_eq_some] at hsome
      obtain ⟨hcompiles, heq⟩ := hsome
      cases heq
      obtain ⟨rfl, hlines', -⟩ := Load.compiles_iff.1 hcompiles
      obtain rfl := Except.ok.inj (hlines.symm.trans hlines')
      exact ⟨template, hcompile, by rw [hentries, Table.get?_insert_self]⟩
  · by_cases hkey : key = cacheKey path lines
    · have hnone := h.first?_of_get?_eq_none hmissing
      have hcompiles : Load.compiles ⟨engine, path⟩ path lines = true :=
        Load.compiles_iff.2 ⟨rfl, hlines, template, hcompile⟩
      exact ⟨path, lines, ⟨engine, path⟩, by simp [Load.first?_append, hnone, hcompiles], hkey⟩
    · rw [hentries, Table.get?_insert_of_ne _ hkey] at hget
      obtain ⟨other, lines', first, hfirst, hkey⟩ := h.only key compiled hget
      exact ⟨other, lines', first, by rw [Load.first?_append, hfirst, Option.some_or], hkey⟩

/-- A fresh document has the template that was compiled. -/
theorem map_template_map_fresh (result : Except Failure Template) :
    (result.map Document.fresh).map Document.template = result := by
  cases result <;> rfl

/-- When caching is on, a load shows what it should and leaves a cache that remembers it. -/
theorem Remembers.load (h : engine.Remembers loads) (hcache : engine.config.cache = true)
    (hmanageable : Load.Manageable (loads ++ [⟨engine, path⟩])) :
    (engine.load path).1.map Document.template = (engine.shown loads path).compileFile path ∧
      (engine.load path).2.Remembers (loads ++ [⟨engine, path⟩]) := by
  cases hlines : engine.loader.load path with
  | error error =>
    rw [load_of_error hlines, shown, hcache, hlines]
    refine ⟨(compileFile_of_error hlines).symm, h.of_entries_eq rfl fun other lines hcompiles => ?_⟩
    obtain ⟨rfl, hfound, -⟩ := Load.compiles_iff.1 hcompiles
    exact absurd (hlines.symm.trans hfound) (by simp)
  | ok lines =>
    rw [shown_of_lines hlines hcache]
    cases hget : engine.cache.entries.get? (cacheKey path lines) with
    | some compiled =>
      obtain ⟨first, template, hfirst, hcompile, hdecode⟩ :=
        h.first?_of_get? hmanageable hlines hget
      obtain ⟨hresult, hentries⟩ := load_of_found hlines hcache hget hdecode
      rw [hresult, hfirst]
      refine ⟨hcompile.symm, h.of_entries_eq hentries fun other lines' hcompiles => ?_⟩
      obtain ⟨rfl, hfound, -⟩ := Load.compiles_iff.1 hcompiles
      obtain rfl := Except.ok.inj (hlines.symm.trans hfound)
      exact Option.isSome_of_eq_some hfirst
    | none =>
      have hnone := h.first?_of_get?_eq_none hget
      obtain ⟨hresult, hentries⟩ := load_of_missing hlines hcache hget
      rw [hresult, hnone, map_template_map_fresh]
      refine ⟨rfl, ?_⟩
      cases hcompile : engine.compileFile path with
      | ok template =>
        rw [hcompile] at hentries
        exact h.store hlines hget hcompile hentries
      | error failure =>
        rw [hcompile] at hentries
        refine h.of_entries_eq hentries fun other lines' hcompiles => ?_
        obtain ⟨rfl, -, template, hfound⟩ := Load.compiles_iff.1 hcompiles
        exact absurd (hcompile.symm.trans hfound) (by simp)

end Load

/-! ### Any history -/

/-- A load changes neither the sources nor the configuration. -/
theorem load_sources (engine : Engine) (path : String) :
    (engine.load path).2.sources = engine.sources ∧
      (engine.load path).2.config = engine.config := by
  unfold load
  split
  · exact ⟨rfl, rfl⟩
  · split
    · dsimp only
      split
      · exact ⟨rfl, rfl⟩
      · unfold compileAndStore
        split <;> exact ⟨rfl, rfl⟩
    · exact ⟨rfl, rfl⟩

/-- No event changes the configuration. -/
theorem config_run (engine : Engine) (events : List Event) :
    (engine.run events).config = engine.config := by
  induction events generalizing engine with
  | nil => rfl
  | cons event events ih =>
    have hstep : (engine.step event).config = engine.config := by
      cases event with
      | write path bytes => rfl
      | load path => exact (engine.load_sources path).2
    exact (ih (engine.step event)).trans hstep

/-- The loads among further events begin with the engine that the earlier ones leave. -/
theorem loads_append (engine : Engine) (events more : List Event) :
    engine.loads (events ++ more) = engine.loads events ++ (engine.run events).loads more := by
  induction events generalizing engine with
  | nil => rfl
  | cons event events ih =>
    cases event with
    | write path bytes => exact ih _
    | load path => exact congrArg (⟨engine, path⟩ :: ·) (ih _)

/-- When caching is on, the cache remembers all loads of a history. -/
theorem Remembers.run {engine : Engine} {before : List Load} (h : engine.Remembers before)
    (hcache : engine.config.cache = true) {events : List Event}
    (hmanageable : Load.Manageable (before ++ engine.loads events)) :
    (engine.run events).Remembers (before ++ engine.loads events) := by
  induction events generalizing engine before with
  | nil =>
    rw [loads, List.append_nil]
    exact h
  | cons event events ih =>
    cases event with
    | write path bytes => exact ih ⟨h.stored, h.only⟩ hcache hmanageable
    | load path =>
      have happend : before ++ engine.loads (.load path :: events) =
          before ++ [⟨engine, path⟩] ++ (engine.load path).2.loads events := by
        rw [loads, List.append_assoc, List.singleton_append]
      rw [happend] at hmanageable ⊢
      obtain ⟨-, hload⟩ := h.load hcache hmanageable.of_append
      exact ih hload ((engine.load_sources path).2 ▸ hcache) hmanageable

/-- After any history a load shows the document as it is compiled by the engine at the first load of
the same lines. -/
theorem map_template_load_run {engine : Engine} (hempty : engine.cache.entries = [])
    {history : List Event} {path : String}
    (hmanageable : Load.Manageable (engine.loads (history ++ [.load path]))) :
    ((engine.run history).load path).1.map Document.template =
      ((engine.run history).shown (engine.loads history) path).compileFile path := by
  cases hcache : engine.config.cache with
  | true =>
    rw [loads_append] at hmanageable
    have hrun := (remembers_nil hempty).run hcache hmanageable.of_append
    exact (hrun.load ((config_run engine history) ▸ hcache) hmanageable).1
  | false =>
    have hoff : (engine.run history).config.cache = false := (config_run engine history) ▸ hcache
    have hshown : (engine.run history).shown (engine.loads history) path = engine.run history := by
      simp only [shown, hoff]
    rw [hshown]
    cases hlines : (engine.run history).loader.load path with
    | error error => rw [load_of_error hlines, compileFile_of_error hlines]; rfl
    | ok lines => rw [load_of_cache_off hlines hoff, map_template_map_fresh]

/-- After any history of edits and loads, with caching on or off, a load shows the document as it is
compiled from the sources of the first load that found the same lines at its path. So it agrees with
compiling the present sources if and only if these compile to the same result, and it does whenever
no document that the include markers lead to has been edited since. -/
theorem load_run_exact {engine : Engine} (hempty : engine.cache.entries = [])
    (history : List Event) (path : String)
    (hmanageable : Load.Manageable (engine.loads (history ++ [.load path]))) :
    let now := engine.run history
    let shown := now.shown (engine.loads history) path
    (now.load path).1.map Document.template = shown.compileFile path ∧
      ((now.load path).1.map Document.template = now.compileFile path ↔
        shown.compileFile path = now.compileFile path) ∧
      ((∀ other, now.loader.Reaches path other → now.loader.load other = shown.loader.load other) →
        (now.load path).1.map Document.template = now.compileFile path) := by
  intro now shown
  have hload : (now.load path).1.map Document.template = shown.compileFile path :=
    map_template_load_run hempty hmanageable
  refine ⟨hload, by rw [hload], fun hsame => ?_⟩
  rw [hload, compileFile_congr hsame]

/-! ### An included document is edited -/

/-- A page that includes a part, with the given text of the part, and caching on. -/
def site (part : String) : Engine where
  config := { cache := true }
  sources := .documents [("page", "\x7binclude part\x7d\n"), ("part", part)]

/-- The page is loaded, and then the part is edited. -/
def edits : List Event :=
  [.load "page", .write "part" "new".toUTF8]

/-- Behind the edit of the part, the sources are those of the site with the new part. -/
theorem loader_run_edits : ((site "old").run edits).loader = (site "new").loader := by
  have hload := ((site "old").load_sources "page").1
  have hwrite : ((site "old").run edits).sources =
      ((site "old").load "page").2.sources.write "part" "new".toUTF8 := rfl
  have htext : String.fromUTF8? "new".toUTF8 = some "new" := by decide +kernel
  rw [loader, loader, hwrite, hload, config_run]
  simp only [Sources.write, site, htext]
  rfl

/-- Behind the edit of the part, documents compile as in the site with the new part. -/
theorem compileFile_run_edits (path : String) :
    ((site "old").run edits).compileFile path = (site "new").compileFile path := by
  rw [compileFile_eq, compileFile_eq, loader_run_edits]

/-- What is assumed of loads holds of those of the site. -/
theorem manageable_edits : Load.Manageable ((site "old").loads (edits ++ [.load "page"])) := by
  have hsites : ∀ load ∈ (site "old").loads (edits ++ [.load "page"]), load.path = "page" ∧
      ∃ part ∈ ["old", "new"], load.engine.loader = (site part).loader := by
    intro load hload
    rcases List.mem_cons.1 hload with rfl | hload
    · exact ⟨rfl, "old", by simp, rfl⟩
    · obtain rfl := List.mem_singleton.1 hload
      exact ⟨rfl, "new", by simp, loader_run_edits⟩
  have hpage : ∀ part, (site part).loader.load "page" = .ok ["\x7binclude part\x7d\n".toList] :=
    fun _ => rfl
  refine ⟨fun load hload other hother lines lines' hlines hlines' _ => ?_,
    fun load hload template hcompile => ?_, fun load hload path lines hlines => ?_⟩
  · obtain ⟨hpath, part, -, hloader⟩ := hsites load hload
    obtain ⟨hpath', part', -, hloader'⟩ := hsites other hother
    rw [hpath, hloader, hpage] at hlines
    rw [hpath', hloader', hpage] at hlines'
    rw [← Except.ok.inj hlines, ← Except.ok.inj hlines']
  · obtain ⟨hpath, part, hpart, hloader⟩ := hsites load hload
    have hlevels : ∀ part ∈ ["old", "new"], ∀ template ∈ ((site part).compileFile "page").toOption,
        template.encode.levels ≤ Json.levelLimit := by decide +kernel
    rw [compileFile_eq, hpath, hloader] at hcompile
    exact hlevels part hpart template (by rw [compileFile_eq, hcompile]; rfl)
  · obtain ⟨-, part, hpart, hloader⟩ := hsites load hload
    have hlengths : ∀ part ∈ ["old", "new"], ∀ entry ∈ [("page", "\x7binclude part\x7d\n"),
        ("part", part)], (splitLines entry.2.toList).length < 2 ^ 64 := by decide +kernel
    rw [hloader] at hlines
    change (Loader.ofDocuments _).load path = _ at hlines
    simp only [Loader.ofDocuments] at hlines
    split at hlines
    · next text htext =>
      rw [← Except.ok.inj hlines]
      exact hlengths part hpart (path, text) (Table.mem_of_get? htext)
    · simp at hlines

/-- The page is shown with the old text of the part, although the part has been edited. -/
theorem load_ne_compileFile_of_edited_part :
    (site "old").cache.entries = [] ∧
      Load.Manageable ((site "old").loads (edits ++ [.load "page"])) ∧
      (((site "old").run edits).load "page").1.map Document.template ≠
        ((site "old").run edits).compileFile "page" := by
  refine ⟨rfl, manageable_edits, ?_⟩
  have hlines : ((site "old").run edits).loader.load "page" =
      .ok ["\x7binclude part\x7d\n".toList] := by
    rw [loader_run_edits]
    rfl
  have hcompiles : Load.compiles ⟨site "old", "page"⟩ "page" ["\x7binclude part\x7d\n".toList] =
      true := by decide +kernel
  have hshown : ((site "old").run edits).shown ((site "old").loads edits) "page" = site "old" := by
    rw [shown_of_lines hlines (by rw [config_run]; rfl)]
    simp only [edits, loads, Load.first?, List.find?_cons_of_pos, hcompiles]
    rfl
  rw [map_template_load_run rfl manageable_edits, hshown, compileFile_run_edits]
  intro heq
  have hparts := congrArg (fun result => result.toOption.map fun template =>
    (template.include? "part").map fun document => document.segments) heq
  revert hparts
  decide +kernel

/-- The page that is loaded behind the edit of its part is what the sources at its first load
compile to. -/
theorem load_run_exact_edits :
    (site "old").cache.entries = [] ∧
      Load.Manageable ((site "old").loads (edits ++ [.load "page"])) ∧
      (((site "old").run edits).load "page").1.map Document.template =
        (((site "old").run edits).shown ((site "old").loads edits) "page").compileFile "page" :=
  ⟨rfl, manageable_edits, (load_run_exact rfl edits "page" manageable_edits).1⟩

end Engine

end BraceTemplate
