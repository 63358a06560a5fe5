import BraceTemplate.Value.OfJson
import BraceTemplate.Proofs.Decimal.Doubles
import BraceTemplate.Proofs.Expr.Bindings
import BraceTemplate.Proofs.Table

/-!
# Loose comparisons agree with each other

Loose equality does not depend on which operand comes first, and loose order turns around with the
operands. The comparison operators of the expression language are read off these two, so they agree
with each other as one expects: `a < b` is `b > a`, and `a >= b` is the opposite of `a < b` unless
one of them is NaN.

Scopes are tables, in which no name has two entries. With repeated names the order of the operands
would matter, as of a repeated name only the first entry is found.
-/

namespace BraceTemplate

namespace Value

/-! ### Values in values -/

/-- A value stands in a value: it is that value, or it stands in one that a scope of the value
binds. -/
inductive Contains : Value → Value → Prop
  | self (value : Value) : Contains value value
  | bound {items : List Scope} {item : Scope} {entry : String × Value} {inner : Value}
      (hitem : item ∈ items)
      (hentry : entry ∈ item) (h : Contains entry.2 inner) : Contains (list items) inner

/-- No scope in a value binds a name twice. -/
def Unambiguous (value : Value) : Prop :=
  ∀ items, value.Contains (list items) → ∀ item ∈ items, Table.Distinct item

/-- One of the numbers in a value is NaN. -/
def HasNaN (value : Value) : Prop :=
  ∃ x, value.Contains (number x) ∧ x.isNaN = true

/-- What holds of a value if it holds of all that its scopes bind holds of every value. -/
@[elab_as_elim]
theorem induction_bound {motive : Value → Prop}
    (step :
      ∀ value, (∀ items, value = list items → ∀ item ∈ items, ∀ entry ∈ item, motive entry.2) →
      motive value) (value : Value) : motive value :=
  step value fun items heq item hitem entry hentry =>
    have hlt : sizeOf entry.2 < sizeOf value := by
      obtain ⟨name, inner⟩ := entry
      have hitems := List.sizeOf_lt_of_mem hitem
      have hinner := List.sizeOf_lt_of_mem hentry
      rw [heq, list.sizeOf_spec]
      rw [Prod.mk.sizeOf_spec] at hinner
      dsimp only
      omega
    induction_bound step entry.2
termination_by sizeOf value

section Bound

variable {items : List Scope} {item : Scope} {entry : String × Value}

/-- In an unambiguous list every item binds its names once. -/
theorem Unambiguous.distinct (h : (list items).Unambiguous) (hitem : item ∈ items) :
    Table.Distinct item :=
  h items (.self _) item hitem

/-- What an unambiguous list binds is unambiguous. -/
theorem Unambiguous.bound (h : (list items).Unambiguous) (hitem : item ∈ items)
    (hentry : entry ∈ item) : entry.2.Unambiguous :=
  fun inner hinner => h inner (.bound hitem hentry hinner)

/-- A list has a NaN in it if one of the values that it binds has. -/
theorem HasNaN.of_bound (hitem : item ∈ items) (hentry : entry ∈ item) (h : entry.2.HasNaN) :
    (list items).HasNaN := by
  obtain ⟨x, hcontains, hnan⟩ := h
  exact ⟨x, .bound hitem hentry hcontains, hnan⟩

end Bound

/-! ### Strict equality -/

/-- A scope has as many bindings as another one, and the other one binds every name of it to the
same value. -/
def Agrees (a b : Scope) : Prop :=
  a.length = b.length ∧ ∀ entry ∈ a, ∃ found, b.get? entry.1 = some found ∧
    same entry.2 found = true

/-- A scope binds all entries if it binds each of them to the same value. -/
theorem bindsAll_iff {scope entries : Scope} : bindsAll scope entries = true ↔
    ∀ entry ∈ entries, ∃ found, scope.get? entry.1 = some found ∧ same entry.2 found = true := by
  induction entries with
  | nil => simp [bindsAll]
  | cons entry entries ih =>
    obtain ⟨name, value⟩ := entry
    rw [bindsAll, Bool.and_eq_true, ih, List.forall_mem_cons]
    refine and_congr_left' ?_
    rw [Table.get?]
    cases List.lookup name scope <;> simp

/-- Items are the same if they agree pairwise. -/
theorem sameItems_iff {as bs : List Scope} :
    sameItems as bs = true ↔ List.Forall₂ Agrees as bs := by
  induction as generalizing bs with
  | nil => cases bs <;> simp [sameItems]
  | cons a as ih =>
    cases bs with
    | nil => simp [sameItems]
    | cons b bs =>
      rw [sameItems, Bool.and_eq_true, Bool.and_eq_true, beq_iff_eq, bindsAll_iff, ih,
        List.forall₂_cons]
      rfl

/-- Scopes that agree bind the same names, so that each agrees with the other one. -/
theorem Agrees.symm {a b : Scope} (h : Agrees a b) (ha : a.Distinct) (hb : b.Distinct)
    (hsame : ∀ entry ∈ a, ∀ other ∈ b, same entry.2 other.2 = true → same other.2 entry.2 = true) :
    Agrees b a := by
  obtain ⟨hlength, hbinds⟩ := h
  have hnames : a.names ⊆ b.names := by
    intro name hname
    obtain ⟨entry, hentry, rfl⟩ := List.mem_map.1 hname
    obtain ⟨found, hfound, -⟩ := hbinds entry hentry
    exact List.mem_map.2 ⟨_, Table.mem_of_get? hfound, rfl⟩
  -- the names of `a` are as many as those of `b` and all among them, so there are no others in `b`
  have hperm : a.names.Perm b.names :=
    (List.subperm_of_subset ha hnames).perm_of_length_le (by simp [Table.names, hlength])
  refine ⟨hlength.symm, fun other hother => ?_⟩
  obtain ⟨entry, hentry, hname⟩ := List.mem_map.1 (hperm.mem_iff.2 (List.mem_map_of_mem hother))
  obtain ⟨found, hfound, hvalue⟩ := hbinds entry hentry
  have hother' : b.get? entry.1 = some other.2 := by
    rw [hname]
    exact Table.get?_of_mem hb hother
  obtain rfl : found = other.2 := Option.some.inj (hfound.symm.trans hother')
  exact ⟨entry.2, by rw [← hname]; exact Table.get?_of_mem ha hentry,
    hsame entry hentry other hother hvalue⟩

/-- To be the same is symmetric. A scope that binds as many names as another one, and all of the
other one's, is bound by it in turn, because none of them binds a name twice. -/
theorem same_symm {a b : Value} (ha : a.Unambiguous) (hb : b.Unambiguous) (h : same a b = true) :
    same b a = true := by
  induction a using induction_bound generalizing b with
  | step a ih =>
    cases a with
    | null => cases b <;> simp_all [same]
    | bool x => cases b <;> simp_all [same]
    | number x =>
      cases b with
      | number y => rwa [same, beq_comm_double]
      | _ => simp [same] at h
    | string s => cases b <;> simp_all [same]
    | list as =>
      cases b with
      | list bs =>
        rw [same, sameItems_iff, List.forall₂_iff_get] at h ⊢
        obtain ⟨hlength, hagree⟩ := h
        refine ⟨hlength.symm, fun i hbs has => ?_⟩
        have hitem := as.get_mem ⟨i, has⟩
        have hitem' := bs.get_mem ⟨i, hbs⟩
        exact (hagree i has hbs).symm (ha.distinct hitem) (hb.distinct hitem')
          fun entry hentry other hother => ih as rfl _ hitem entry hentry (ha.bound hitem hentry)
            (hb.bound hitem' hother)
      | _ => simp [same] at h

/-- The order of two unambiguous values does not matter for whether they are the same. -/
theorem same_comm {a b : Value} (ha : a.Unambiguous) (hb : b.Unambiguous) : same a b = same b a :=
  Bool.eq_iff_iff.2 ⟨same_symm ha hb, same_symm hb ha⟩

/-- A value without NaN is the same as itself. -/
theorem same_self {a : Value} (ha : a.Unambiguous) (hnan : ¬a.HasNaN) : same a a = true := by
  induction a using induction_bound with
  | step a ih =>
    cases a with
    | null => rfl
    | bool b => exact beq_self_eq_true b
    | number x =>
      exact beq_self_of_isNaN_eq_false (Bool.eq_false_iff.2 fun hx => hnan ⟨x, .self _, hx⟩)
    | string s => exact beq_self_eq_true s
    | list items =>
      rw [same, sameItems_iff, List.forall₂_same]
      exact fun item hitem => ⟨rfl, fun entry hentry =>
        ⟨entry.2, Table.get?_of_mem (ha.distinct hitem) hentry,
          ih items rfl item hitem entry hentry (ha.bound hitem hentry)
            fun hentry' => hnan (.of_bound hitem hentry hentry')⟩⟩

/-! ### Numbers of values -/

/-- No text is read as NaN. -/
theorem isNaN_of_numberOf? {text : String} {x : Float} (h : numberOf? text = some x) :
    x.isNaN = false := by
  obtain ⟨numeral, -, rfl⟩ := Option.map_eq_some_iff.1 h
  exact numeral.isNaN_toFloat

/-- Only NaN itself is taken for NaN by arithmetic. -/
theorem isNaN_toNumber_iff {value : Value} :
    value.toNumber.isNaN = true ↔ ∃ x, value = number x ∧ x.isNaN = true := by
  have hother : (∀ x, value ≠ number x) → value.toNumber.isNaN = false := by
    intro hvalue
    cases value with
    | null => decide
    | bool b => cases b <;> decide
    | number x => exact absurd rfl (hvalue x)
    | string text =>
      rw [toNumber]
      cases h : numberOf? text with
      | none => decide
      | some x => exact isNaN_of_numberOf? h
    | list items => exact Binary64.isNaN_ofInt _
  constructor
  · intro hnan
    by_contra hnone
    rw [hother fun x heq => hnone ⟨x, heq, by rwa [heq] at hnan⟩] at hnan
    cases hnan
  · rintro ⟨x, rfl, hx⟩
    exact hx

/-! ### Loose comparisons -/

/-- Loose equality does not depend on the order of unambiguous values. -/
theorem looseEq_comm {a b : Value} (ha : a.Unambiguous) (hb : b.Unambiguous) :
    a.looseEq b = b.looseEq a := by
  cases a <;> cases b <;> simp only [looseEq]
  case bool.bool => exact Bool.beq_comm
  case list.list as bs => simpa only [same] using same_comm ha hb
  -- left are numbers and texts, where both sides look at what is a number in the same way
  all_goals
    split
    · next x y hx hy =>
      rw [hx, hy]
      exact beq_comm_double x y
    · next hnone =>
      split
      · next y x hy hx => exact absurd hy (hnone x y hx)
      · exact Bool.beq_comm

-- Of a repeated name only the first entry is found, so that here the order of the operands matters.
example : looseEq (list [[("a", null), ("a", null)]]) (list [[("a", null), ("b", null)]]) = true ∧
    looseEq (list [[("a", null), ("b", null)]]) (list [[("a", null), ("a", null)]]) = false := by
  decide

/-- A value without NaN is loosely equal to itself. -/
theorem looseEq_self {a : Value} (ha : a.Unambiguous) (hnan : ¬a.HasNaN) : a.looseEq a = true := by
  have hsame := same_self ha hnan
  cases a with
  | null => rfl
  | bool b => exact beq_self_eq_true b
  | number x => exact hsame
  | string text =>
    simp only [looseEq, numeric?]
    cases h : numberOf? text with
    | none => exact beq_self_eq_true text
    | some x => exact beq_self_of_isNaN_eq_false (isNaN_of_numberOf? h)
  | list items => exact hsame

section Order

variable (a b : Value)

/-- Loose order turns around with its operands. -/
theorem looseCmp?_swap : b.looseCmp? a = (a.looseCmp? b).map Ordering.swap := by
  cases a <;> cases b <;> simp only [looseCmp?]
  case string.string s t =>
    have htexts : compare t s = (compare s t).swap := Std.OrientedCmp.eq_swap
    cases numberOf? s with
    | none => cases numberOf? t <;> exact congrArg some htexts
    | some x =>
      cases numberOf? t with
      | none => exact congrArg some htexts
      | some y => exact orderNumbers?_swap x y
  all_goals exact orderNumbers?_swap _ _

variable {a b}

/-- Values are not comparable exactly if one of them is NaN. -/
theorem looseCmp?_eq_none_iff : a.looseCmp? b = none ↔
    (∃ x, a = number x ∧ x.isNaN = true) ∨ ∃ x, b = number x ∧ x.isNaN = true := by
  rw [← isNaN_toNumber_iff, ← isNaN_toNumber_iff]
  cases a <;> cases b <;> simp only [looseCmp?]
  case string.string s t =>
    rw [isNaN_toNumber_iff, isNaN_toNumber_iff]
    have hnone : ∀ x y, numberOf? s = some x → numberOf? t = some y → orderNumbers? x y ≠ none := by
      intro x y hx hy
      rw [ne_eq, orderNumbers?_eq_none_iff, isNaN_of_numberOf? hx, isNaN_of_numberOf? hy]
      simp
    split
    · next x y hx hy => simp [hnone x y hx hy]
    · simp
  all_goals exact orderNumbers?_eq_none_iff _ _

end Order

end Value

namespace Operator

variable (a b : Value)

/-- With its operands exchanged a comparison is the one in the other direction. -/
theorem apply_swap :
    less.apply a b = greater.apply b a ∧ lessEq.apply a b = greaterEq.apply b a := by
  simp only [apply, Value.looseCmp?_swap a b]
  cases a.looseCmp? b with
  | none => exact ⟨rfl, rfl⟩
  | some ordering => cases ordering <;> exact ⟨rfl, rfl⟩

variable {a b}

/-- Values that can be compared are less exactly if they are not greater or equal. -/
theorem apply_less_of_comparable (h : a.looseCmp? b ≠ none) :
    less.apply a b = .bool (!(greaterEq.apply a b).truthy) := by
  simp only [apply]
  cases hcmp : a.looseCmp? b with
  | none => exact absurd hcmp h
  | some ordering => cases ordering <;> rfl

end Operator

namespace Value

/-- How the comparisons of two values go together: those of the operators with each other, and all
of them with the comparisons of the same values in exchanged order. -/
structure Coherent (a b : Value) : Prop where
  looseEq_comm : a.looseEq b = b.looseEq a
  looseEq_self : ¬a.HasNaN → a.looseEq a = true
  looseCmp?_swap : a.looseCmp? b = (b.looseCmp? a).map Ordering.swap
  less : Operator.less.apply a b = Operator.greater.apply b a
  lessEq : Operator.lessEq.apply a b = Operator.greaterEq.apply b a
  notEqual : Operator.notEqual.apply a b = bool (!(Operator.equal.apply a b).truthy)
  less_of_comparable : a.looseCmp? b ≠ none →
    Operator.less.apply a b = bool (!(Operator.greaterEq.apply a b).truthy)

/-- The comparisons of values of any two kinds are coherent. -/
theorem comparisons_coherent {a b : Value} (ha : a.Unambiguous) (hb : b.Unambiguous) :
    Coherent a b where
  looseEq_comm := looseEq_comm ha hb
  looseEq_self := looseEq_self ha
  looseCmp?_swap := looseCmp?_swap b a
  less := (Operator.apply_swap a b).1
  lessEq := (Operator.apply_swap a b).2
  notEqual := rfl
  less_of_comparable := Operator.apply_less_of_comparable

/-! ### Values without repeated names -/

/-- A value that is no list binds nothing twice. -/
theorem unambiguous_of_ne_list {value : Value} (h : ∀ items, value ≠ list items) :
    value.Unambiguous := by
  intro items hcontains
  cases hcontains with
  | self => exact absurd rfl (h items)
  | bound => exact absurd rfl (h _)

/-- Nothing is bound by a null. -/
@[simp] theorem unambiguous_null : null.Unambiguous :=
  unambiguous_of_ne_list fun items heq => by cases heq

/-- Nothing is bound by a boolean. -/
@[simp] theorem unambiguous_bool (b : Bool) : (bool b).Unambiguous :=
  unambiguous_of_ne_list fun items heq => by cases heq

/-- Nothing is bound by a number. -/
@[simp] theorem unambiguous_number (x : Float) : (number x).Unambiguous :=
  unambiguous_of_ne_list fun items heq => by cases heq

/-- Nothing is bound by a text. -/
@[simp] theorem unambiguous_string (text : String) : (string text).Unambiguous :=
  unambiguous_of_ne_list fun items heq => by cases heq

/-- A list is unambiguous if its items bind every name once, and to unambiguous values. -/
theorem unambiguous_list_iff {items : List Scope} : (list items).Unambiguous ↔
    ∀ item ∈ items, Table.Distinct item ∧ ∀ entry ∈ item, entry.2.Unambiguous := by
  refine ⟨fun h item hitem => ⟨h.distinct hitem, fun entry hentry => h.bound hitem hentry⟩, ?_⟩
  intro h inner hcontains
  cases hcontains with
  | self => exact fun item hitem => (h item hitem).1
  | bound hitem hentry hinner => exact (h _ hitem).2 _ hentry inner hinner

/-- Two lists whose scopes bind the same in another order, also within a scope of a scope. -/
theorem comparisons_coherent_lists :
    let a := list [[("x", bool true), ("y", list [[("u", number 0.5), ("v", string "1e3")]])], []]
    let b := list [[("y", list [[("v", string "1e3"), ("u", number 0.5)]]), ("x", bool true)], []]
    a.Unambiguous ∧ b.Unambiguous ∧ Coherent a b ∧ a.looseEq b = true := by
  intro a b
  have ha : a.Unambiguous := by
    simp [a, -Prod.forall, unambiguous_list_iff, Table.Distinct, Table.names]
  have hb : b.Unambiguous := by
    simp [b, -Prod.forall, unambiguous_list_iff, Table.Distinct, Table.names]
  exact ⟨ha, hb, comparisons_coherent ha hb, by decide +kernel⟩

end Value

/-! ### Where values come from -/

/-- A sorted table has no entries of its own. -/
theorem mem_of_mem_sortedTable {α : Type} {entries : List (String × α)} {entry : String × α}
    (h : entry ∈ sortedTable entries) : entry ∈ entries :=
  Table.mem_of_mem_ofList ((List.mergeSort_perm _ _).mem_iff.1 h)

/-- A sorted table has every name once. -/
theorem distinct_sortedTable {α : Type} (entries : List (String × α)) :
    Table.Distinct (sortedTable entries) :=
  ((List.mergeSort_perm _ _).map Prod.fst).nodup_iff.2 (Table.distinct_ofList entries)

namespace Value

mutual

/-- Values from JSON have no repeated names, whatever names are repeated in the objects. -/
theorem unambiguous_ofJson : (json : Json) → (ofJson json).Unambiguous
  | .null | .bool _ | .string _ | .object _ | .illFormed => by simp [ofJson]
  | .number numeral => by
    rw [ofJson]
    cases numeral.toDouble? with
    | none => exact unambiguous_null
    | some x => exact unambiguous_number x
  | .array items => by
    rw [ofJson, unambiguous_list_iff]
    exact unambiguous_scopesOfJson items

/-- The scopes that are decoded from a document bind every name once, and to unambiguous values. -/
theorem unambiguous_scopesOfJson : (items : List Json) → ∀ item ∈ scopesOfJson items,
    Table.Distinct item ∧ ∀ entry ∈ item, entry.2.Unambiguous
  | [] => by simp [scopesOfJson]
  | json :: rest => by
    have ih := unambiguous_scopesOfJson rest
    cases json with
    | object members =>
      have hmembers := unambiguous_bindingsOfJson members
      rw [scopesOfJson, List.forall_mem_cons]
      exact ⟨⟨distinct_sortedTable _,
        fun entry hentry => hmembers entry (mem_of_mem_sortedTable hentry)⟩, ih⟩
    | _ => simpa [scopesOfJson, Table.Distinct, Table.names] using ih

/-- The values that are decoded from the members of an object are unambiguous. -/
theorem unambiguous_bindingsOfJson : (members : List (String × Json)) →
    ∀ entry ∈ bindingsOfJson members, entry.2.Unambiguous
  | [] => by simp [bindingsOfJson]
  | (name, json) :: rest => by
    rw [bindingsOfJson, List.forall_mem_cons]
    exact ⟨unambiguous_ofJson json, unambiguous_bindingsOfJson rest⟩

end

/-- No operator yields a list. -/
theorem unambiguous_apply (op : Operator) (a b : Value) : (op.apply a b).Unambiguous := by
  cases op
  case div | mod =>
    rw [Operator.apply]
    split <;> exact unambiguous_number _
  case add | sub | mul => exact unambiguous_number _
  all_goals exact unambiguous_bool _

section Evaluating

variable {scope : Scope}

/-- The value of a literal is unambiguous if all that the scope binds is. -/
theorem unambiguous_literalValue (h : ∀ entry ∈ scope, entry.2.Unambiguous) (text : String) :
    (literalValue scope text).Unambiguous := by
  have hbinding : ((scope.get? text).getD (number 0)).Unambiguous := by
    cases hget : scope.get? text with
    | none => exact unambiguous_number 0
    | some value => exact h _ (Table.mem_of_get? hget)
  unfold literalValue
  split
  · exact unambiguous_number _
  · split
    · exact unambiguous_string _
    · split
      · exact unambiguous_bool _
      · split
        · exact unambiguous_bool _
        · exact hbinding

/-- Every operand that an expression compares has no repeated names if the bindings have none. -/
theorem unambiguous_takeOperand (h : ∀ entry ∈ scope, entry.2.Unambiguous) (atoms : List Atom) :
    (takeOperand scope atoms).val.1.Unambiguous := by
  cases atoms with
  | nil =>
    rw [takeOperand]
    exact unambiguous_null
  | cons atom rest =>
    cases atom with
    | literal text =>
      rw [takeOperand]
      exact unambiguous_literalValue h text
    | operator op =>
      by_cases hop : op = .not
      · subst hop
        rw [takeOperand_not]
        exact unambiguous_bool _
      · rw [takeOperand_operator scope hop]
        exact unambiguous_apply op _ _

end Evaluating

end Value

end BraceTemplate
