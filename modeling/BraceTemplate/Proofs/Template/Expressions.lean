import BraceTemplate.Proofs.Expr.Identity
import BraceTemplate.Proofs.Template.Changes

/-!
# The expressions of a node

A node stores an expression under its own id: a condition under the id that compiling gives it, and
an inline expression under that of its source. So what is found under an id was compiled from a
source with this id. Setting names does not touch it.
-/

namespace BraceTemplate

namespace Template

/-- Every expression of a node is a compiled one, and is stored under its own id. -/
def Keyed (template : Template) : Prop :=
  ∀ entry ∈ template.expressions,
    entry.1 = entry.2.id ∧ Expression.compile entry.2.source = .ok entry.2

/-- An expression that a node has under an id has that id, and it is compiled from its source. -/
theorem Keyed.of_expression? {template : Template} (h : template.Keyed) {id : String}
    {expression : Expression} (hfound : template.expression? id = some expression) :
    expression.id = id ∧ Expression.compile expression.source = .ok expression := by
  obtain ⟨hid, hcompile⟩ := h _ (Table.mem_of_get? hfound)
  exact ⟨hid.symm, hcompile⟩

/-- Every change of a node that is being compiled keeps its expressions in their places. -/
theorem Change.keyed {IsBody : Template → Prop} {IsDocument : String → Template → Prop}
    {before after : Template} (hchange : Change IsBody IsDocument before after)
    (h : before.Keyed) : after.Keyed := by
  cases hchange with
  | warn | repetition | document | finish => exact h
  | refer segment => cases segment <;> exact h
  | @conditional source condition body hcompile hbody =>
    intro entry hentry
    rcases Table.mem_of_mem_insertNew hentry with hold | rfl
    · exact h entry hold
    · exact ⟨rfl, (Expression.of_compile hcompile).1.symm ▸ hcompile⟩
  | @expression source expression hcompile =>
    intro entry hentry
    rcases Table.mem_of_mem_insert hentry with hold | rfl
    · exact h entry hold
    · obtain ⟨hsource, hid, -⟩ := Expression.of_compile hcompile
      exact ⟨hid.symm, hsource.symm ▸ hcompile⟩

/-- Every compiled node has its expressions under their ids. -/
theorem grown_keyed : Grown Keyed := by
  intro name template hchanges
  exact hchanges.keeps (fun _ _ => Change.keyed) (by simp [Keyed, empty])

/-! ### Scopes -/

/-- A property that scopes do not matter for holds in a whole template as well when all scopes are
changed. -/
theorem everywhere_mapScopes {P : Template → Prop} {f : Scope → Scope}
    (hP : ∀ template : Template, P (template.mapScopes f) ↔ P template) (template : Template) :
    (template.mapScopes f).Everywhere P ↔ template.Everywhere P := by
  induction template using children_induction with
  | node template ih =>
    constructor
    · intro h
      refine .node ((hP template).1 h.here) fun child hchild => (ih child hchild).1 ?_
      refine h.of_mem_children ?_
      rw [children_mapScopes]
      exact List.mem_map_of_mem hchild
    · intro h
      refine .node ((hP template).2 h.here) fun child hchild => ?_
      rw [children_mapScopes] at hchild
      obtain ⟨below, hbelow, rfl⟩ := List.mem_map.1 hchild
      exact (ih below hbelow).2 (h.of_mem_children hbelow)

/-- A change of scopes leaves expressions where they are. -/
theorem keyed_mapScopes (f : Scope → Scope) (template : Template) :
    (template.mapScopes f).Keyed ↔ template.Keyed := by
  rw [mapScopes_eq]
  exact Iff.rfl

/-- Setting bindings leaves expressions where they are, everywhere. -/
theorem Everywhere.keyed_setAll {template : Template} (h : template.Everywhere Keyed)
    (bindings : Scope) : (template.setAll bindings).Everywhere Keyed := by
  unfold setAll
  induction bindings generalizing template with
  | nil => exact h
  | cons binding bindings ih =>
    exact ih ((everywhere_mapScopes (keyed_mapScopes _) template).2 h)

end Template

/-! ### Expressions that share an id -/

namespace Expression

/-- Among expressions in whose sources no blanks split an operator, those with one id are one: they
have the same atoms, a memory of values never mixes them up in whatever order they come, and what a
compiled node stores under the id of one of them, and is such an expression itself, has its
atoms. -/
theorem atoms_eq_of_unsplit {expressions : List Expression}
    (h : ∀ expression ∈ expressions, expression.Unsplit) :
    (∀ expression ∈ expressions, ∀ other ∈ expressions, expression.id = other.id →
      expression.atoms = other.atoms) ∧
    (∀ scope, Memo.values [] scope expressions =
      expressions.map fun expression => expression.evaluate scope) ∧
    ∀ (compiler : Compiler) (template : Template), compiler.Produces template →
      ∀ address node, template.nodeAt? address = some node →
      ∀ expression ∈ expressions, ∀ stored, node.expression? expression.id = some stored →
        Token.Unsplit stored.source.toList → stored.atoms = expression.atoms := by
  refine ⟨fun expression hexpression other hother => ?_, fun scope => ?_, ?_⟩
  · exact (h expression hexpression).atoms_eq (h other hother)
  · refine (Memo.recalls_nil scope Unsplit).values (fun expression other hleft hright hid => ?_) h
    rw [evaluate, evaluate, hleft.atoms_eq hright hid]
  · intro compiler template hproduces address node hnode expression hexpression stored hstored
      hunsplit
    have hkeyed := (hproduces.everywhere Template.grown_keyed).of_nodeAt? hnode
    obtain ⟨hid, hcompiles⟩ := hkeyed.of_expression? hstored
    exact Unsplit.atoms_eq ⟨hcompiles, hunsplit⟩ (h expression hexpression) hid

/-- One comparison, as it is compiled from one of its spellings. -/
def comparison (source : String) : Expression :=
  ⟨source, "a+1>=b",
    [.literal "a", .literal "1", .operator .add, .literal "b", .operator .greaterEq]⟩

/-- Three spellings of a comparison have one id, and a node that meets two of them stores the atoms
of all. -/
theorem atoms_eq_of_unsplit_comparison :
    let expressions := ["a+1>=b", " a + 1 >= b", "a  +1>=  b "].map comparison
    (∀ expression ∈ expressions, expression.Unsplit) ∧
      (∀ scope, Memo.values [] scope expressions =
        expressions.map fun expression => expression.evaluate scope) ∧
      ∃ template stored, Compiler.Produces ⟨.none, []⟩ template ∧
        template.expression? "a+1>=b" = some stored ∧
        ∀ expression ∈ expressions, stored.atoms = expression.atoms := by
  intro expressions
  have hunsplit : ∀ expression ∈ expressions, expression.Unsplit := by
    intro expression hexpression
    obtain ⟨source, hsource, rfl⟩ := List.mem_map.1 hexpression
    have hcompiles : ∀ source ∈ ["a+1>=b", " a + 1 >= b", "a  +1>=  b "],
        compile source = .ok (comparison source) := by decide +kernel
    have hblanks : ∀ source ∈ ["a+1>=b", " a + 1 >= b", "a  +1>=  b "],
        Token.Unsplit source.toList := by decide +kernel
    exact ⟨hcompiles source hsource, hblanks source hsource⟩
  have hstored : ((Compiler.compile ⟨.none, []⟩ "page"
      ["\x7ba + 1 >= b\x7d\x7ba+1>=b\x7d".toList]).1.toOption.bind fun template =>
        template.expression? "a+1>=b") = some (comparison "a + 1 >= b") := by decide +kernel
  obtain ⟨template, hrun, hstored⟩ := Option.bind_eq_some_iff.1 hstored
  have hproduces : Compiler.Produces ⟨.none, []⟩ template := .lines (eq_ok_of_toOption hrun)
  refine ⟨hunsplit, (atoms_eq_of_unsplit hunsplit).2.1, template, _, hproduces, hstored, ?_⟩
  intro expression hexpression
  have hid : expression.id = "a+1>=b" := by
    obtain ⟨source, -, rfl⟩ := List.mem_map.1 hexpression
    rfl
  exact (atoms_eq_of_unsplit hunsplit).2.2 _ template hproduces [] template rfl expression
    hexpression _ (hid ▸ hstored) (by decide +kernel)

/-- Blanks split the operator of the second source, so that it compares a negation. It has the id of
the first one, and a node that meets both of them stores only the one that it meets first. -/
theorem atoms_ne_of_split_operator :
    ∃ whole split : Expression, compile "a != b" = .ok whole ∧ compile "a ! = b" = .ok split ∧
      whole.id = split.id ∧ whole.atoms ≠ split.atoms ∧
      (compileText .none "\x7ba != b\x7d|\x7ba ! = b\x7d\n").toOption.map (fun template =>
          (template.segments, template.expressions)) =
        some ([.expression "a!=b", .text "|", .expression "a!=b", .text "\n"], [("a!=b", whole)]) :=
  ⟨⟨"a != b", "a!=b", [.literal "a", .literal "b", .operator .notEqual]⟩,
    ⟨"a ! = b", "a!=b", [.literal "a", .operator .not, .literal "b", .operator .equal]⟩,
    by decide +kernel, by decide +kernel, rfl, by decide, by decide +kernel⟩

end Expression

end BraceTemplate
