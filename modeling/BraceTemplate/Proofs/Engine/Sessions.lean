import BraceTemplate.Proofs.Engine.History
import BraceTemplate.Proofs.Template.Setting

/-!
# When a load is served from the cache

An engine is used for any length of time: its sources are edited, its documents are loaded, and
names are set on the documents that loads have returned. A load is served from the cache exactly if
an earlier load of the path succeeded while the document itself was as it is now, and it then gives
the document as the first of those loads compiled it, with nothing set on it.
-/

namespace BraceTemplate

/-- What is done with an engine: its sources are edited in some way, a document is loaded, or a name
is set on one of the documents that have been returned, or its text is rendered. -/
inductive Action where
  | edit (change : Sources → Sources)
  | load (path : String)
  | set (index : Nat) (assignment : Assignment)
  | render (index : Nat)

/-- An engine in use, the documents that its loads have returned, and the texts rendered from
them. -/
structure Session where
  engine : Engine
  documents : List Document := []
  texts : List String := []

namespace Session

/-- The session after an action. -/
def step (session : Session) : Action → Session
  | .edit change =>
    { session with
      engine := { session.engine with sources := change session.engine.sources } }
  | .load path =>
    let (result, engine) := session.engine.load path
    { session with engine, documents := session.documents ++ result.toOption.toList }
  | .set index assignment =>
    { session with
      documents :=
        session.documents.modify index (Document.map fun node => node.assign assignment) }
  | .render index =>
    let text := session.documents[index]?.map fun document => document.template.render
    { session with texts := session.texts ++ text.toList }

/-- The session after actions in their order. -/
def run (session : Session) (history : List Action) : Session :=
  history.foldl step session

/-- The loads among actions. -/
def loads : Session → List Action → List Load
  | _, [] => []
  | session, .load path :: history =>
    ⟨session.engine, path⟩ :: loads (session.step (.load path)) history
  | session, action :: history => loads (session.step action) history

/-- The loads among further actions begin with the session that the earlier ones leave. -/
theorem loads_append (session : Session) (history more : List Action) :
    session.loads (history ++ more) =
      session.loads history ++ (session.run history).loads more := by
  induction history generalizing session with
  | nil => rfl
  | cons action history ih =>
    cases action with
    | load path => exact congrArg (⟨session.engine, path⟩ :: ·) (ih _)
    | edit change => exact ih _
    | set index assignment => exact ih _
    | render index => exact ih _

end Session

namespace Load

/-- The load is one of `path`, it finds the document itself as `now` does, and it succeeds. -/
structure SucceedsAs (load : Load) (now : Engine) (path : String) : Prop where
  path_eq : load.path = path
  lines_eq : load.engine.loader.load path = now.loader.load path
  returns : ∃ document, (load.engine.load path).1 = .ok document

/-- No load succeeds on a document that cannot be read. -/
theorem not_succeedsAs_of_error {now : Engine} {path : String} {error : Error}
    (herror : now.loader.load path = .error error) (load : Load) : ¬load.SucceedsAs now path := by
  rintro ⟨-, hsame, document, hok⟩
  rw [herror] at hsame
  rw [Engine.load_of_error hsame] at hok
  cases hok

end Load

namespace Engine

section One

variable {engine : Engine} {path : String}

/-- A load gives what the first load of the same lines compiled, if there is one, and compiles the
document otherwise. -/
theorem Remembers.load_eq {loads : List Load} {lines : List Line} (h : engine.Remembers loads)
    (hcache : engine.config.cache = true)
    (hmanageable : Load.Manageable (loads ++ [⟨engine, path⟩]))
    (hlines : engine.loader.load path = .ok lines) :
    (∃ first template, Load.first? loads path lines = some first ∧
        first.engine.compileFile path = .ok template ∧
        (engine.load path).1 = .ok (.cached template)) ∨
      (Load.first? loads path lines = none ∧
        (engine.load path).1 = (engine.compileFile path).map .fresh) := by
  cases hget : engine.cache.entries.get? (cacheKey path lines) with
  | some compiled =>
    obtain ⟨first, template, hfirst, hcompile, hdecode⟩ := h.first?_of_get? hmanageable hlines hget
    exact .inl ⟨first, template, hfirst, hcompile, (load_of_found hlines hcache hget hdecode).1⟩
  | none =>
    exact .inr ⟨h.first?_of_get?_eq_none hget, (load_of_missing hlines hcache hget).1⟩

/-- A load that fails, or is served from the cache, stores nothing. -/
theorem entries_load_of_not_fresh (h : ∀ template, (engine.load path).1 ≠ .ok (.fresh template)) :
    (engine.load path).2.cache.entries = engine.cache.entries := by
  revert h
  unfold load
  split
  · exact fun _ => rfl
  · split
    · dsimp only
      split
      · exact fun _ => rfl
      · unfold compileAndStore
        split
        · next template _ => exact fun h => absurd rfl (h template)
        · exact fun _ => rfl
    · exact fun _ => rfl

end One

end Engine

namespace Session

/-- When caching is on, every load of a history finds a cache that remembers the loads before it. -/
theorem remembers_of_loads_eq {session : Session} {earlier before after : List Load} {load : Load}
    (h : session.engine.Remembers earlier) (hcache : session.engine.config.cache = true)
    {history : List Action} (hmanageable : Load.Manageable (earlier ++ session.loads history))
    (heq : session.loads history = before ++ load :: after) :
    load.engine.Remembers (earlier ++ before) ∧ load.engine.config.cache = true := by
  induction history generalizing session earlier before with
  | nil => simp [loads] at heq
  | cons action history ih =>
    have hother (hstep : (session.step action).engine.Remembers earlier)
        (hconfig : (session.step action).engine.config = session.engine.config)
        (hloads : session.loads (action :: history) = (session.step action).loads history) :
        load.engine.Remembers (earlier ++ before) ∧ load.engine.config.cache = true := by
      rw [hloads] at heq hmanageable
      exact ih hstep (hconfig ▸ hcache) hmanageable heq
    cases action with
    | edit change => exact hother ⟨h.stored, h.only⟩ rfl rfl
    | set index assignment => exact hother h rfl rfl
    | render index => exact hother h rfl rfl
    | load path =>
      rw [loads] at heq hmanageable
      cases before with
      | nil =>
        obtain ⟨rfl, -⟩ := List.cons.inj heq
        rw [List.append_nil]
        exact ⟨h, hcache⟩
      | cons first before =>
        obtain ⟨rfl, hrest⟩ := List.cons.inj heq
        rw [List.append_cons] at hmanageable ⊢
        obtain ⟨-, hload⟩ := h.load hcache hmanageable.of_append
        have hconfig := (session.engine.load_sources path).2
        exact ih hload (hconfig ▸ hcache) hmanageable hrest

section History

variable {engine : Engine} {history : List Action} {before after : List Load} {load : Load}
  {lines : List Line}

/-- Every load of a history gives what the first load of the same lines compiled, if there is one
before it, and compiles the document otherwise. -/
theorem load_of_loads_eq (hempty : engine.cache.entries = []) (hcache : engine.config.cache = true)
    (hmanageable : Load.Manageable (Session.loads { engine } history))
    (heq : Session.loads { engine } history = before ++ load :: after)
    (hlines : load.engine.loader.load load.path = .ok lines) :
    (∃ first template, Load.first? before load.path lines = some first ∧
        first.engine.compileFile load.path = .ok template ∧
        (load.engine.load load.path).1 = .ok (.cached template)) ∨
      (Load.first? before load.path lines = none ∧
        (load.engine.load load.path).1 = (load.engine.compileFile load.path).map .fresh) := by
  obtain ⟨hremembers, hon⟩ :=
    remembers_of_loads_eq (Engine.remembers_nil hempty) hcache hmanageable heq
  rw [heq, List.append_cons] at hmanageable
  exact hremembers.load_eq hon hmanageable.of_append hlines

/-- The first load that compiles given lines is the first one that succeeds on them. -/
theorem not_succeedsAs_of_first? (hempty : engine.cache.entries = [])
    (hcache : engine.config.cache = true)
    (hmanageable : Load.Manageable (Session.loads { engine } history))
    (heq : Session.loads { engine } history = before ++ after) {now : Engine} {path : String}
    (hlines : now.loader.load path = .ok lines) (hfirst : Load.first? before path lines = none) :
    ∀ load ∈ before, ¬load.SucceedsAs now path := by
  rintro load hmem ⟨rfl, hsame, document, hdocument⟩
  obtain ⟨front, back, rfl⟩ := List.append_of_mem hmem
  rw [List.append_assoc, List.cons_append] at heq
  rw [hlines] at hsame
  have hnone := List.find?_eq_none.1 hfirst
  rcases load_of_loads_eq hempty hcache hmanageable heq hsame with
    ⟨first, -, hsome, -, -⟩ | ⟨-, hresult⟩
  · obtain ⟨hfront, hpath, hlines', hcompile⟩ := Load.compiles_of_first? hsome
    exact hnone first (List.mem_append_left _ hfront)
      (Load.compiles_iff.2 ⟨hpath, hlines', hcompile⟩)
  · rw [hdocument] at hresult
    cases hcompile : load.engine.compileFile load.path with
    | ok template => exact hnone load hmem (Load.compiles_iff.2 ⟨rfl, hsame, template, hcompile⟩)
    | error failure => simp [hcompile, Except.map] at hresult

/-- The first load that compiles given lines returns what it compiled. -/
theorem exists_fresh_of_first? (hempty : engine.cache.entries = [])
    (hcache : engine.config.cache = true)
    (hmanageable : Load.Manageable (Session.loads { engine } history)) {loads rest : List Load}
    (heq : Session.loads { engine } history = loads ++ rest) {path : String} {first : Load}
    (hfirst : Load.first? loads path lines = some first) :
    ∃ before after, loads = before ++ first :: after ∧ Load.first? before path lines = none ∧
      ∀ template, first.engine.compileFile path = .ok template →
        (first.engine.load path).1 = .ok (.fresh template) := by
  obtain ⟨-, before, after, rfl, hbefore⟩ := List.find?_eq_some_iff_append.1 hfirst
  obtain ⟨-, rfl, hlines, -⟩ := Load.compiles_of_first? hfirst
  have hnone : Load.first? before first.path lines = none :=
    List.find?_eq_none.2 fun load hload => by simpa using hbefore load hload
  refine ⟨before, after, rfl, hnone, fun template hcompile => ?_⟩
  rw [List.append_assoc, List.cons_append] at heq
  rcases load_of_loads_eq hempty hcache hmanageable heq hlines with
    ⟨earlier, -, hsome, -, -⟩ | ⟨-, hresult⟩
  · simp [hnone] at hsome
  · rw [hresult, hcompile]
    rfl

/-- A load gives what the first load that succeeded on the same lines compiled, or it compiles the
document because no earlier load did. -/
theorem serves_or_compiles (hempty : engine.cache.entries = [])
    (hcache : engine.config.cache = true) {loads : List Load} {now : Engine} {path : String}
    (hmanageable : Load.Manageable (Session.loads { engine } history))
    (heq : Session.loads { engine } history = loads ++ [⟨now, path⟩]) :
    (∃ before first after template, loads = before ++ first :: after ∧
        (∀ load ∈ before, ¬load.SucceedsAs now path) ∧ first.SucceedsAs now path ∧
        first.engine.compileFile path = .ok template ∧
        (first.engine.load path).1 = .ok (.fresh template) ∧
        (now.load path).1 = .ok (.cached template)) ∨
      ((∀ load ∈ loads, ¬load.SucceedsAs now path) ∧
        (now.load path).1 = (now.compileFile path).map .fresh) := by
  cases hlines : now.loader.load path with
  | error error =>
    refine .inr ⟨fun load _ => load.not_succeedsAs_of_error hlines, ?_⟩
    rw [Engine.load_of_error hlines, Engine.compileFile_of_error hlines]
    rfl
  | ok lines =>
    rcases load_of_loads_eq hempty hcache hmanageable heq hlines with
      ⟨first, template, hfirst, hcompile, hcached⟩ | ⟨hnone, hresult⟩
    · obtain ⟨before, after, rfl, hbefore, hfresh⟩ :=
        exists_fresh_of_first? hempty hcache hmanageable heq hfirst
      obtain ⟨-, hpath, hlines', -⟩ := Load.compiles_of_first? hfirst
      have hsucceeds : first.SucceedsAs now path :=
        ⟨hpath, hlines'.trans hlines.symm, .fresh template, hfresh template hcompile⟩
      rw [List.append_assoc] at heq
      exact .inl ⟨before, first, after, template, rfl,
        not_succeedsAs_of_first? hempty hcache hmanageable heq hlines hbefore, hsucceeds, hcompile,
        hfresh template hcompile, hcached⟩
    · exact .inr ⟨not_succeedsAs_of_first? hempty hcache hmanageable heq hlines hnone, hresult⟩

/-- After any history a load is served from the cache if and only if an earlier load of the path
succeeded while the document itself was as it is now. It then gives the template as the first of
those loads compiled it, whatever has been set since. Otherwise the document is compiled as it is
now. A load that fails or is served from the cache stores nothing. -/
theorem load_cached_iff (hempty : engine.cache.entries = []) (hcache : engine.config.cache = true)
    (history : List Action) (path : String)
    (hmanageable : Load.Manageable (Session.loads { engine } (history ++ [.load path]))) :
    let now := (Session.run { engine } history).engine
    let loads := Session.loads { engine } history
    ((∃ template, (now.load path).1 = .ok (.cached template)) ↔
        ∃ load ∈ loads, load.SucceedsAs now path) ∧
      (∀ template, (now.load path).1 = .ok (.cached template) →
        ∃ before first after, loads = before ++ first :: after ∧
          (∀ load ∈ before, ¬load.SucceedsAs now path) ∧ first.SucceedsAs now path ∧
          first.engine.compileFile path = .ok template ∧
          (first.engine.load path).1 = .ok (.fresh template)) ∧
      ((∀ template, (now.load path).1 ≠ .ok (.cached template)) →
        (now.load path).1 = (now.compileFile path).map .fresh) ∧
      ((∀ template, (now.load path).1 ≠ .ok (.fresh template)) →
        (now.load path).2.cache.entries = now.cache.entries) := by
  intro now loads
  have hall : Session.loads { engine } (history ++ [.load path]) = loads ++ [⟨now, path⟩] :=
    loads_append _ history [.load path]
  suffices hresult : _ ∧ _ ∧ _ from
    ⟨hresult.1, hresult.2.1, hresult.2.2, Engine.entries_load_of_not_fresh⟩
  rcases serves_or_compiles hempty hcache hmanageable hall with
    ⟨before, first, after, template, hsplit, hbefore, hsucceeds, hcompile, hfresh, hcached⟩ |
      ⟨hearlier, hresult⟩
  · have hmem : first ∈ loads := hsplit ▸ List.mem_append_right _ List.mem_cons_self
    refine ⟨⟨fun _ => ⟨first, hmem, hsucceeds⟩, fun _ => ⟨template, hcached⟩⟩,
      fun other hother => ?_, fun hnot => absurd hcached (hnot template)⟩
    obtain rfl : template = other := by simpa [hcached] using hother
    exact ⟨before, first, after, hsplit, hbefore, hsucceeds, hcompile, hfresh⟩
  · have hnot : ∀ template, (now.load path).1 ≠ .ok (.cached template) := by
      intro template hcached
      rw [hresult] at hcached
      cases hcompile : now.compileFile path <;> simp [hcompile, Except.map] at hcached
    exact ⟨⟨fun ⟨template, hcached⟩ => absurd hcached (hnot template),
      fun ⟨load, hmem, hsucceeds⟩ => absurd hsucceeds (hearlier load hmem)⟩,
      fun template hcached => absurd hcached (hnot template), fun _ => hresult⟩

end History

/-- The page is loaded, a name is set on it, its part is edited, and the page is rendered. -/
def rounds : List Action :=
  [.load "page", .set 0 ⟨[], "name", .string "Ada"⟩, .edit (Sources.write "part" "new".toUTF8),
    .render 0]

/-- What is assumed of loads holds of those of the page. -/
theorem manageable_rounds :
    Load.Manageable (Session.loads { engine := Engine.site "old" } (rounds ++ [.load "page"])) :=
  Engine.manageable_edits

/-- The first load of the page succeeded on the lines that it still has. -/
theorem succeedsAs_rounds : Load.SucceedsAs ⟨Engine.site "old", "page"⟩
    (Session.run { engine := Engine.site "old" } rounds).engine "page" := by
  have hloader : (Session.run { engine := Engine.site "old" } rounds).engine.loader =
      (Engine.site "new").loader := Engine.loader_run_edits
  refine ⟨rfl, by rw [hloader]; rfl, ?_⟩
  have hcompiles : ((Engine.site "old").compileFile "page").toOption.isSome = true := by
    decide +kernel
  have hlines : (Engine.site "old").loader.load "page" =
      .ok ["\x7binclude part\x7d\n".toList] := rfl
  obtain ⟨hload, -⟩ := Engine.load_of_missing hlines rfl rfl
  cases hcompile : (Engine.site "old").compileFile "page" with
  | error failure => simp [hcompile, Except.toOption] at hcompiles
  | ok template => exact ⟨.fresh template, by rw [hload, hcompile]; rfl⟩

/-- After the rounds the page is served from the cache, as it was compiled at the first load. -/
theorem load_cached_iff_rounds :
    (Engine.site "old").cache.entries = [] ∧ (Engine.site "old").config.cache = true ∧
      Load.Manageable (Session.loads { engine := Engine.site "old" } (rounds ++ [.load "page"])) ∧
      ∃ template, (Engine.site "old").compileFile "page" = .ok template ∧
        ((Session.run { engine := Engine.site "old" } rounds).engine.load "page").1 =
          .ok (.cached template) := by
  refine ⟨rfl, rfl, manageable_rounds, ?_⟩
  obtain ⟨hiff, hfirst, -⟩ := load_cached_iff rfl rfl rounds "page" manageable_rounds
  obtain ⟨template, hcached⟩ := hiff.2 ⟨_, List.mem_singleton_self _, succeedsAs_rounds⟩
  obtain ⟨before, first, after, hsplit, -, -, hcompile, -⟩ := hfirst template hcached
  have hmem : first ∈ Session.loads { engine := Engine.site "old" } rounds := by
    rw [hsplit]
    exact List.mem_append_right _ List.mem_cons_self
  obtain rfl := List.mem_singleton.1 hmem
  exact ⟨template, hcompile, hcached⟩

end Session

end BraceTemplate
