import BraceTemplate.Template.Compiler

/-!
# Reasoning about compilations

A compilation runs with the paths that are open, and ends in a result and the open paths behind it.
A few relations with one rule for each way to build a compilation cover what is said: what holds of
every result, what holds of results and of failures at given open paths, and when two compilations
agree there. Cutting the blocks out of lines is opened here once, line by line; later proofs go by
the cases of `cut_induction`.
-/

namespace BraceTemplate

/-- A result from which a value is taken is that value. -/
theorem eq_ok_of_toOption {ε α : Type} {result : Except ε α} {a : α}
    (h : result.toOption = some a) : result = .ok a := by
  cases result with
  | error error => cases h
  | ok found => rw [Option.some.inj h]

namespace CompileM

variable {α β : Type}

/-- The second compilation runs with the result of the first one and the paths that it leaves open,
and not at all if the first one fails. -/
theorem bind_apply (m : CompileM α) (f : α → CompileM β) (openPaths : List String) :
    (m >>= f) openPaths =
      match m openPaths with
      | (.ok a, after) => f a after
      | (.error failure, after) => (.error failure, after) := by
  change (match m openPaths with
    | (a, after) => ExceptT.bindCont f a after : Except Failure β × List String) = _
  rcases m openPaths with ⟨_ | a, after⟩ <;> rfl

/-- Different results are different compilations. -/
theorem pure_inj {a b : α} (h : (pure a : CompileM α) = pure b) : a = b :=
  Except.ok.inj (Prod.mk.inj (congrFun h [])).1

/-! ### What holds of every result -/

/-- Whatever a compilation gives, starting with any open paths, has a property. -/
def Ensures (m : CompileM α) (P : α → Prop) : Prop :=
  ∀ openPaths a after, m openPaths = (.ok a, after) → P a

namespace Ensures

variable {P : α → Prop} {Q : β → Prop}

/-- A given result has the properties that it has. -/
theorem pure {a : α} (h : P a) : Ensures (Pure.pure a) P := by
  intro openPaths b after hrun
  cases hrun
  exact h

/-- A failure gives no result that could lack a property. -/
theorem throw (failure : Failure) : Ensures (MonadExcept.throw failure) P := by
  intro openPaths a after hrun
  cases hrun

/-- A property of results is passed on from compilation to compilation. -/
theorem bind {m : CompileM α} {f : α → CompileM β} (hm : Ensures m P)
    (hf : ∀ a, P a → Ensures (f a) Q) : Ensures (m >>= f) Q := by
  intro openPaths b after hrun
  rw [bind_apply] at hrun
  cases hresult : m openPaths with
  | mk result between =>
    rw [hresult] at hrun
    cases result with
    | error failure => cases hrun
    | ok a => exact hf a (hm _ _ _ hresult) _ _ _ hrun

/-- A result that does not depend on open paths has the property if its value has. -/
theorem lift {result : Except Error α} (h : ∀ a, result = .ok a → P a) :
    Ensures (CompileM.lift result) P := by
  cases result with
  | error error => exact throw _
  | ok a => exact pure (h a rfl)

end Ensures

/-! ### What holds of results and of failures -/

/-- With the given open paths, which are restored, a compilation gives a result with the property
`P` or a failure with the property `Q`. -/
def Yields (openPaths : List String) (m : CompileM α) (P : α → Prop) (Q : Failure → Prop) : Prop :=
  (∃ a, m openPaths = (.ok a, openPaths) ∧ P a) ∨
    ∃ failure, m openPaths = (.error failure, openPaths) ∧ Q failure

namespace Yields

variable {openPaths : List String} {P : α → Prop} {R : β → Prop} {Q : Failure → Prop}

/-- A given result has the properties that it has, and leaves the paths open. -/
theorem pure {a : α} (h : P a) : Yields openPaths (Pure.pure a) P Q :=
  .inl ⟨a, rfl, h⟩

/-- A given failure has the properties that it has, and leaves the paths open. -/
theorem throw {failure : Failure} (h : Q failure) :
    Yields openPaths (MonadExcept.throw failure : CompileM α) P Q :=
  .inr ⟨failure, rfl, h⟩

/-- A result that does not depend on open paths leaves them as they are. -/
theorem lift {result : Except Error α} (hok : ∀ a, result = .ok a → P a)
    (herror : ∀ error, result = .error error → Q (.error error)) :
    Yields openPaths (CompileM.lift result) P Q := by
  cases result with
  | error error => exact throw (herror error rfl)
  | ok a => exact pure (hok a rfl)

/-- What two compilations yield, one after the other they yield as well. -/
theorem bind {m : CompileM α} {f : α → CompileM β} (hm : Yields openPaths m P Q)
    (hf : ∀ a, P a → Yields openPaths (f a) R Q) : Yields openPaths (m >>= f) R Q := by
  rcases hm with ⟨a, hrun, ha⟩ | ⟨failure, hrun, hfailure⟩
  · have hnext := hf a ha
    unfold Yields at hnext ⊢
    rw [bind_apply, hrun]
    exact hnext
  · refine .inr ⟨failure, ?_, hfailure⟩
    rw [bind_apply, hrun]

/-- The property of results may be weakened. -/
theorem mono {m : CompileM α} {P' : α → Prop} (h : Yields openPaths m P Q)
    (hP : ∀ a, P a → P' a) : Yields openPaths m P' Q := by
  rcases h with ⟨a, hrun, ha⟩ | hfailure
  · exact .inl ⟨a, hrun, hP a ha⟩
  · exact .inr hfailure

/-- The property of failures may be weakened. -/
theorem mono_failure {m : CompileM α} {Q' : Failure → Prop} (h : Yields openPaths m P Q)
    (hQ : ∀ failure, Q failure → Q' failure) : Yields openPaths m P Q' := by
  rcases h with hresult | ⟨failure, hrun, hfailure⟩
  · exact .inl hresult
  · exact .inr ⟨failure, hrun, hQ failure hfailure⟩

/-- A result that is yielded has the property. -/
theorem of_ok {m : CompileM α} (h : Yields openPaths m P Q) {a : α}
    (hrun : (m openPaths).1 = .ok a) : P a := by
  rcases h with ⟨b, hb, hP⟩ | ⟨failure, hfailure, -⟩
  · rw [hb] at hrun
    exact Except.ok.inj hrun ▸ hP
  · rw [hfailure] at hrun
    cases hrun

/-- A failure that is yielded has the property. -/
theorem of_error {m : CompileM α} (h : Yields openPaths m P Q) {failure : Failure}
    (hrun : (m openPaths).1 = .error failure) : Q failure := by
  rcases h with ⟨a, ha, -⟩ | ⟨other, hother, hQ⟩
  · rw [ha] at hrun
    cases hrun
  · rw [hother] at hrun
    exact Except.error.inj hrun ▸ hQ

end Yields

/-! ### Compilations that agree -/

/-- Two compilations have the same outcome with the given open paths, and both leave them as they
were. -/
def AgreeAt (openPaths : List String) (m m' : CompileM α) : Prop :=
  m openPaths = m' openPaths ∧ (m openPaths).2 = openPaths

namespace AgreeAt

variable {openPaths : List String}

/-- A given result is the same in both compilations. -/
theorem pure (a : α) : AgreeAt openPaths (Pure.pure a : CompileM α) (Pure.pure a) :=
  ⟨rfl, rfl⟩

/-- A given failure is the same in both compilations. -/
theorem throw (failure : Failure) :
    AgreeAt openPaths (MonadExcept.throw failure : CompileM α) (MonadExcept.throw failure) :=
  ⟨rfl, rfl⟩

/-- A result that does not depend on open paths is the same in both compilations. -/
theorem lift (result : Except Error α) :
    AgreeAt openPaths (CompileM.lift result) (CompileM.lift result) := by
  cases result with
  | error error => exact throw _
  | ok a => exact pure a

/-- Compilations agree if their parts agree, the second ones for every result of the first ones. -/
theorem bind {m m' : CompileM α} {f f' : α → CompileM β} (hm : AgreeAt openPaths m m')
    (hf : ∀ a, AgreeAt openPaths (f a) (f' a)) : AgreeAt openPaths (m >>= f) (m' >>= f') := by
  obtain ⟨hsame, hrestored⟩ := hm
  unfold AgreeAt
  rw [bind_apply, bind_apply, ← hsame]
  cases hresult : m openPaths with
  | mk result after =>
    rw [hresult] at hrestored
    dsimp only at hrestored
    subst hrestored
    cases result with
    | error failure => exact ⟨rfl, rfl⟩
    | ok a => exact hf a

/-- To agree is transitive. -/
theorem trans {m₁ m₂ m₃ : CompileM α} (h : AgreeAt openPaths m₁ m₂)
    (h' : AgreeAt openPaths m₂ m₃) : AgreeAt openPaths m₁ m₃ :=
  ⟨h.1.trans h'.1, h.2⟩

/-- To agree is symmetric. -/
theorem symm {m m' : CompileM α} (h : AgreeAt openPaths m m') : AgreeAt openPaths m' m :=
  ⟨h.1.symm, h.1 ▸ h.2⟩

/-- A compilation that restores the open paths gives some result or some failure. -/
theorem yields {m m' : CompileM α} (h : AgreeAt openPaths m m') :
    Yields openPaths m (fun _ => True) fun _ => True := by
  have hrestored : m openPaths = ((m openPaths).1, openPaths) := Prod.ext rfl h.2
  cases hresult : (m openPaths).1 with
  | ok a => exact .inl ⟨a, hresult ▸ hrestored, trivial⟩
  | error failure => exact .inr ⟨failure, hresult ▸ hrestored, trivial⟩

end AgreeAt

/-! ### Results that are found again -/

/-- Every result of the first compilation, with its open paths, is found again by the second one
with its own, up to a relation between results. Both leave their open paths as they were. -/
def Follows (openPaths openPaths' : List String) (Rel : α → β → Prop) (m : CompileM α)
    (m' : CompileM β) : Prop :=
  ∀ a after, m openPaths = (.ok a, after) →
    after = openPaths ∧ ∃ b, m' openPaths' = (.ok b, openPaths') ∧ Rel a b

namespace Follows

variable {γ δ : Type} {openPaths openPaths' : List String} {Rel : α → β → Prop}
  {Rel' : γ → δ → Prop}

/-- A compilation that restores its open paths follows itself. -/
theorem of_restores {m : CompileM α} (h : AgreeAt openPaths m m) :
    Follows openPaths openPaths Eq m m := by
  intro a after hrun
  obtain rfl : after = openPaths := by simpa [hrun] using h.2
  exact ⟨rfl, a, hrun, rfl⟩

/-- Given results follow each other if they are related. -/
theorem pure {a : α} {b : β} (h : Rel a b) :
    Follows openPaths openPaths' Rel (Pure.pure a) (Pure.pure b) := by
  intro found after hrun
  cases hrun
  exact ⟨rfl, b, rfl, h⟩

/-- A compilation that fails has no result to be found again. -/
theorem of_error {m : CompileM α} {failure : Failure} {after : List String}
    (h : m openPaths = (.error failure, after)) (m' : CompileM β) :
    Follows openPaths openPaths' Rel m m' := by
  intro a after hrun
  rw [h] at hrun
  cases hrun

/-- Results that do not depend on open paths follow each other if their values are related. -/
theorem lift {result : Except Error α} {result' : Except Error β}
    (h : ∀ a, result = .ok a → ∃ b, result' = .ok b ∧ Rel a b) :
    Follows openPaths openPaths' Rel (CompileM.lift result) (CompileM.lift result') := by
  cases result with
  | error error => exact of_error rfl _
  | ok a =>
    obtain ⟨b, rfl, hrel⟩ := h a rfl
    exact pure hrel

/-- Compilations follow each other if their parts do, the second ones for all related results. -/
theorem bind {m : CompileM α} {m' : CompileM β} {f : α → CompileM γ} {f' : β → CompileM δ}
    (hm : Follows openPaths openPaths' Rel m m')
    (hf : ∀ a b, Rel a b → Follows openPaths openPaths' Rel' (f a) (f' b)) :
    Follows openPaths openPaths' Rel' (m >>= f) (m' >>= f') := by
  intro c after hrun
  rw [bind_apply] at hrun
  cases hresult : m openPaths with
  | mk result between =>
    rw [hresult] at hrun
    cases result with
    | error failure => cases hrun
    | ok a =>
      obtain ⟨rfl, b, hrun', hrel⟩ := hm a between hresult
      rw [bind_apply, hrun']
      exact hf a b hrel c after hrun

/-- The relation may be strengthened by what is known of the two results. -/
theorem mono {m : CompileM α} {m' : CompileM β} {Rel₂ : α → β → Prop}
    (h : Follows openPaths openPaths' Rel m m')
    (hrel : ∀ a b, m openPaths = (.ok a, openPaths) → m' openPaths' = (.ok b, openPaths') →
      Rel a b → Rel₂ a b) :
    Follows openPaths openPaths' Rel₂ m m' := by
  intro a after hrun
  obtain ⟨rfl, b, hrun', hab⟩ := h a after hrun
  exact ⟨rfl, b, hrun', hrel a b hrun hrun' hab⟩

/-- What the first compilation does before it goes on may be left out if its result is known. -/
theorem bind_left {m : CompileM α} {a : α} (hrun : m openPaths = (.ok a, openPaths))
    {f : α → CompileM γ} {m' : CompileM δ} (h : Follows openPaths openPaths' Rel' (f a) m') :
    Follows openPaths openPaths' Rel' (m >>= f) m' := by
  unfold Follows at h ⊢
  rw [bind_apply, hrun]
  exact h

/-- A result of the first compilation is found again in the second one. -/
theorem of_ok {m : CompileM α} {m' : CompileM β} (h : Follows openPaths openPaths' Rel m m') {a : α}
    (hrun : (m openPaths).1 = .ok a) : ∃ b, m' openPaths' = (.ok b, openPaths') ∧ Rel a b :=
  (h a (m openPaths).2 (Prod.ext hrun rfl)).2

end Follows

/-! ### Relations that hold of the whole as of the parts -/

/-- A relation between compilations with one kind of result that holds of a compilation which is put
together as soon as it holds of the parts. -/
structure Congruent (Rel : ∀ {α : Type}, CompileM α → CompileM α → Prop) : Prop where
  lift : ∀ {α : Type} (result : Except Error α), Rel (CompileM.lift result) (CompileM.lift result)
  bind : ∀ {α β : Type} {m m' : CompileM α} {f f' : α → CompileM β}, Rel m m' →
    (∀ a, Rel (f a) (f' a)) → Rel (m >>= f) (m' >>= f')

/-- To agree is a relation that goes from the parts to the whole. -/
theorem congruent_agreeAt (openPaths : List String) :
    Congruent fun {_} m m' => AgreeAt openPaths m m' :=
  ⟨.lift, .bind⟩

/-- To follow with the same results is a relation that goes from the parts to the whole. -/
theorem congruent_follows (openPaths openPaths' : List String) :
    Congruent fun {_} m m' => Follows openPaths openPaths' Eq m m' :=
  ⟨fun _ => .lift fun a hok => ⟨a, hok, rfl⟩,
    fun hm hf => .bind hm fun a _ heq => heq ▸ hf a⟩

end CompileM

/-! ### Sizes of what is cut out -/

/-- Cutting a block out leaves as many lines behind its first one as there were. -/
theorem length_rest_cutBlock (kind : BlockKind) (line : Line) (rest : List Line) :
    (cutBlock kind line rest).rest.length = rest.length := by
  unfold cutBlock
  split
  · simp
  · rfl
  · next hdistance =>
    have hlt := endDistance?_lt_length hdistance
    simp only [List.length_cons, List.length_tail] at hlt ⊢
    omega
  · next hdistance =>
    have hlt := endDistance?_lt_length hdistance
    simp only [List.length_cons, List.length_append, List.length_replicate,
      List.length_drop] at hlt ⊢
    omega

/-- A body within a line is one line at most. -/
theorem length_inlineBody_le (line : Line) : (inlineBody line).length ≤ 1 := by
  unfold inlineBody
  split
  · split <;> simp
  · simp

/-- A body has no more lines than those it is cut out of. -/
theorem length_body_cutBlock_le (kind : BlockKind) (line : Line) (rest : List Line) :
    (cutBlock kind line rest).body.length ≤ rest.length + 1 := by
  unfold cutBlock
  split
  · simp
  · have := length_inlineBody_le line
    dsimp only
    omega
  · simp
  · simp only [List.length_take]
    omega

namespace Template

/-! ### Cutting line by line -/

section Cutting

variable (resolve : String → CompileM Template) (number : Nat) {line : Line} (rest : List Line)
  (template : Template)

/-- Where there are no lines nothing is cut out. -/
theorem cutLines_nil : cutLines resolve number [] template = pure ([], template) := by
  rw [cutLines.eq_def]

/-- A comment leaves an empty line behind. -/
theorem cutLines_comment (hcomment : opens .comment line = true) :
    cutLines resolve number (line :: rest) template = (do
      let cut := cutBlock .comment line rest
      let (left, template) ← cutLines resolve (number + 1) cut.rest
        (template.noteCut .comment number cut)
      return ([] :: left, template)) := by
  rw [cutLines.eq_def]
  simp only [hcomment, dite_true]

/-- A repetition leaves a placeholder behind. Its body is compiled like a document. -/
theorem cutLines_repetition {key : String} (hcomment : opens .comment line = false)
    (hname : listName? line = some key) :
    cutLines resolve number (line :: rest) template = (do
      let placeholder := ⟨.repetition, key, Table.count template.repetitions key⟩
      let cut := cutBlock .repetition line rest
      let body ← compileLines resolve (bodyName template.name placeholder) cut.body
      let (left, template) ← cutLines resolve (number + 1) cut.rest
        ((template.noteCut .repetition number cut).addRepetition key body)
      return (placeholder.text :: left, template)) := by
  rw [cutLines.eq_def]
  simp only [hcomment, Bool.false_eq_true, dite_false, compileLines, bind_assoc]
  split
  · next hkey =>
    obtain rfl := Option.some.inj (hname.symm.trans hkey)
    rfl
  · next hnone => simp [hname] at hnone

/-- A conditional leaves a placeholder behind. Its body is compiled like a document. -/
theorem cutLines_conditional {source : String} (hcomment : opens .comment line = false)
    (hname : listName? line = none) (hcondition : condition? line = some source) :
    cutLines resolve number (line :: rest) template = (do
      let condition ← CompileM.lift ((Expression.compile source).mapError (.ofFault source))
      let placeholder :=
        ⟨.conditional, condition.id, Table.count template.conditionals condition.id⟩
      let cut := cutBlock .conditional line rest
      let body ← compileLines resolve (bodyName template.name placeholder) cut.body
      let (left, template) ← cutLines resolve (number + 1) cut.rest
        ((template.noteCut .conditional number cut).addConditional condition body)
      return (placeholder.text :: left, template)) := by
  rw [cutLines.eq_def]
  simp only [hcomment, Bool.false_eq_true, dite_false, compileLines, bind_assoc]
  split
  · next hkey => simp [hname] at hkey
  · split
    · next hsource =>
      obtain rfl := Option.some.inj (hcondition.symm.trans hsource)
      rfl
    · next hnone => simp [hcondition] at hnone

/-- Any other line stays as it is. The documents that it includes are compiled. -/
theorem cutLines_plain (hcomment : opens .comment line = false) (hname : listName? line = none)
    (hcondition : condition? line = none) :
    cutLines resolve number (line :: rest) template = (do
      let template ← addIncludes resolve (includePaths line) template
      let (left, template) ← cutLines resolve (number + 1) rest template
      return (line :: left, template)) := by
  rw [cutLines.eq_def]
  simp only [hcomment, Bool.false_eq_true, dite_false]
  split
  · next hkey => simp [hname] at hkey
  · split
    · next hsource => simp [hcondition] at hsource
    · rfl

end Cutting

/-- Lines are gone through as their blocks are cut out: behind a block come the lines that it
leaves, and the body of a conditional or a repetition is gone through on its own. -/
@[elab_as_elim]
theorem cut_induction {motive : List Line → Prop} (nil : motive [])
    (comment : ∀ line rest, opens .comment line = true →
      motive (cutBlock .comment line rest).rest → motive (line :: rest))
    (repetition : ∀ line rest key, opens .comment line = false → listName? line = some key →
      motive (cutBlock .repetition line rest).body →
      motive (cutBlock .repetition line rest).rest → motive (line :: rest))
    (conditional : ∀ line rest source, opens .comment line = false → listName? line = none →
      condition? line = some source → motive (cutBlock .conditional line rest).body →
      motive (cutBlock .conditional line rest).rest → motive (line :: rest))
    (plain : ∀ line rest, opens .comment line = false → listName? line = none →
      condition? line = none → motive rest → motive (line :: rest)) :
    ∀ lines, motive lines := by
  intro lines
  induction hweight : weight lines using Nat.strongRecOn generalizing lines with
  | ind n ih =>
    cases lines with
    | nil => exact nil
    | cons line rest =>
      have hrest : ∀ kind, motive (cutBlock kind line rest).rest := by
        intro kind
        have hle := weight_rest_le kind line rest
        rw [weight_cons] at hweight
        exact ih _ (by omega) _ rfl
      have hbody : ∀ kind, opens kind line = true → motive (cutBlock kind line rest).body := by
        intro kind hopens
        have hlt := weight_body_lt rest hopens
        exact ih _ (by omega) _ rfl
      cases hcomment : opens .comment line with
      | true => exact comment line rest hcomment (hrest _)
      | false =>
        cases hname : listName? line with
        | some key =>
          exact repetition line rest key hcomment hname (hbody _ (by simp [opens, hname])) (hrest _)
        | none =>
          cases hcondition : condition? line with
          | some source =>
            exact conditional line rest source hcomment hname hcondition
              (hbody _ (by simp [opens, hcondition])) (hrest _)
          | none =>
            rw [weight_cons] at hweight
            exact plain line rest hcomment hname hcondition (ih _ (by omega) _ rfl)

end Template

end BraceTemplate
