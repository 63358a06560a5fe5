import BraceTemplate.Compiled.Decode
import BraceTemplate.Proofs.Json.Reading
import BraceTemplate.Proofs.Template.Descent

/-!
# Templates that a compiled text can hold

A compiled text holds finite numbers only, natural numbers below `2 ^ 64`, and tables and sets
without repeated names. Of a finite number it holds the decimal digits, which are assumed to read
back.
-/

namespace BraceTemplate

/-! ### What can be stored -/

/-- The text that is written for a number is read back as that number. Only finite numbers have such
a text. -/
def ReadsBack (x : Float) : Prop :=
  (Json.parse? (encodeFloat x).print).bind Json.double? = some x

instance (x : Float) : Decidable (ReadsBack x) :=
  inferInstanceAs (Decidable (_ = _))

/-- A value whose numbers read back and whose scopes have distinct names. -/
inductive Value.Storable : Value → Prop
  | null : Storable null
  | bool (b : Bool) : Storable (bool b)
  | number {x : Float} (h : ReadsBack x) : Storable (number x)
  | string (text : String) : Storable (string text)
  | list {items : List (List (String × Value))} (hdistinct : ∀ item ∈ items, Table.Distinct item)
      (hvalues : ∀ item ∈ items, ∀ entry ∈ item, Storable entry.2) : Storable (list items)

/-- A warning whose place is a natural number below `2 ^ 64`. -/
def Error.Storable : Error → Prop
  | badExpression _ offset _ => offset < 2 ^ 64
  | unclosedBlock _ line => line < 2 ^ 64
  | unmatchedClose _ line => line < 2 ^ 64
  | includeNotFound _ _ | includeCycle _ | undecodable _ => True

/-- A segment whose index is a natural number below `2 ^ 64`. -/
def Segment.Storable : Segment → Prop
  | block placeholder => placeholder.index < 2 ^ 64
  | text _ | binding _ | expression _ | inclusion _ => True

namespace Template

/-- What can be stored of one node, the nodes below it aside. -/
structure StorableNode (template : Template) : Prop where
  expressions_distinct : template.expressions.Distinct
  conditionals_distinct : Table.Distinct template.conditionals
  repetitions_distinct : Table.Distinct template.repetitions
  includes_distinct : Table.Distinct template.includes
  names_nodup : template.names.Nodup
  scope_distinct : template.scope.Distinct
  scope_values : ∀ entry ∈ template.scope, entry.2.Storable
  segments : ∀ segment ∈ template.segments, segment.Storable
  warnings : ∀ warning ∈ template.ownWarnings, warning.Storable

/-- A template all whose nodes can be stored. -/
abbrev Storable (template : Template) : Prop :=
  template.Everywhere StorableNode

end Template

/-! ### Numbers -/

/-- A number that reads back is printed as a numeral of which it is the value. -/
theorem ReadsBack.exists_numeral {x : Float} (h : ReadsBack x) :
    ∃ numeral : Numeral, encodeFloat x = .number numeral ∧ numeral.WellFormed ∧
      numeral.toDouble? = some x := by
  unfold ReadsBack at h
  unfold encodeFloat at h ⊢
  split at h
  · next value _ =>
    generalize value.compiledNumeral = numeral at h
    obtain ⟨json, hparse, hjson⟩ := Option.bind_eq_some_iff.1 h
    have hwellFormed : numeral.WellFormed := by
      rw [Json.parse?, Json.print, Json.chars, String.toList_ofList] at hparse
      split at hparse
      · next tokens htokens =>
        refine Json.Token.wellFormed_of_tokens? htokens ?_
        rintro rfl
        simp [Json.run?] at hparse
      · simp at hparse
    rw [Json.parse?_print (.number hwellFormed), Option.some.injEq] at hparse
    subst hparse
    exact ⟨numeral, rfl, hwellFormed, hjson⟩
  · rw [Json.parse?_print .null] at h
    simp [Json.double?] at h

/-- A number that reads back is decoded to itself. -/
theorem double?_encodeFloat {x : Float} (h : ReadsBack x) :
    Json.double? (encodeFloat x) = some x := by
  obtain ⟨numeral, hencode, -, hdouble⟩ := h.exists_numeral
  rw [hencode]
  exact hdouble

/-- A number that reads back is printed as JSON asks for it. -/
theorem wellFormed_encodeFloat {x : Float} (h : ReadsBack x) : (encodeFloat x).WellFormed := by
  obtain ⟨numeral, hencode, hwellFormed, -⟩ := h.exists_numeral
  rw [hencode]
  exact .number hwellFormed

/-- An index that fits into a machine word is decoded to itself. -/
theorem index?_encodeNat {n : Nat} (h : n < 2 ^ 64) : Json.index? (encodeNat n) = some n := by
  have hvalue := Digit.value_ofNat n
  rw [encodeNat, Json.index?, Numeral.toIndex?, if_neg] <;> simp [Numeral.ofNat, hvalue]
  omega

/-- A natural number is printed as JSON asks for it. -/
theorem wellFormed_encodeNat (n : Nat) : (encodeNat n).WellFormed :=
  .number (Numeral.wellFormed_ofNat n)

/-! ### Encodings as maps -/

namespace Value

/-- The values of a scope are encoded one after another. -/
theorem encodeBindings_eq_map (scope : List (String × Value)) :
    encodeBindings scope = scope.map fun entry => (entry.1, entry.2.encode) := by
  induction scope with
  | nil => rfl
  | cons entry scope ih => rw [encodeBindings, ih, List.map_cons]

/-- The items of a list are encoded one after another, each as an object. -/
theorem encodeItems_eq_map (items : List (List (String × Value))) :
    encodeItems items = items.map fun item =>
      Json.object (item.map fun entry => (entry.1, entry.2.encode)) := by
  induction items with
  | nil => rfl
  | cons item items ih => rw [encodeItems, ih, List.map_cons, encodeBindings_eq_map]

end Value

namespace Template

/-- Bodies are encoded one after another. -/
theorem encodeBodies_eq_map (bodies : List Template) :
    encodeBodies bodies = bodies.map encode := by
  induction bodies with
  | nil => rfl
  | cons body bodies ih => rw [encodeBodies, ih, List.map_cons]

/-- The bodies under every key are encoded as an array. -/
theorem encodeBlocks_eq_map (blocks : List (String × List Template)) :
    encodeBlocks blocks =
      blocks.map fun entry => (entry.1, Json.array (entry.2.map encode)) := by
  induction blocks with
  | nil => rfl
  | cons entry blocks ih => rw [encodeBlocks, ih, List.map_cons, encodeBodies_eq_map]

/-- The document under every path is encoded. -/
theorem encodeIncludes_eq_map (documents : List (String × Template)) :
    encodeIncludes documents = documents.map fun entry => (entry.1, entry.2.encode) := by
  induction documents with
  | nil => rfl
  | cons entry documents ih => rw [encodeIncludes, ih, List.map_cons]

end Template

end BraceTemplate
