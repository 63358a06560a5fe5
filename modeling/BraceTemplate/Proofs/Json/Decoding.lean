import BraceTemplate.Json.Decode
import BraceTemplate.Proofs.Table

/-!
# Decoding what was encoded entry by entry

If each item of a list is decoded from its encoding, so is the list, and likewise a table with
distinct names and a record that is written with all its fields in order. A decoder has to be
allowed as many levels as the encoding has.
-/

namespace BraceTemplate

namespace Json

/-! ### Levels of arrays and objects -/

mutual

/-- How many arrays and objects are entered on the longest way down. -/
def levels : Json → Nat
  | array items => 1 + itemsLevels items
  | object members => 1 + membersLevels members
  | null | bool _ | number _ | string _ | illFormed => 0

/-- The most levels of an item. -/
def itemsLevels : List Json → Nat
  | [] => 0
  | item :: items => max (levels item) (itemsLevels items)

/-- The most levels of a member. -/
def membersLevels : List (String × Json) → Nat
  | [] => 0
  | (_, value) :: members => max (levels value) (membersLevels members)

end

/-- Items have no more levels than each of them. -/
theorem itemsLevels_le {items : List Json} {n : Nat} :
    itemsLevels items ≤ n ↔ ∀ item ∈ items, item.levels ≤ n := by
  induction items with
  | nil => simp [itemsLevels]
  | cons item items ih =>
    rw [itemsLevels, Nat.max_le, ih, List.forall_mem_cons]

/-- Members have no more levels than the value of each of them. -/
theorem membersLevels_le {members : List (String × Json)} {n : Nat} :
    membersLevels members ≤ n ↔ ∀ member ∈ members, member.2.levels ≤ n := by
  induction members with
  | nil => simp [membersLevels]
  | cons member members ih =>
    rw [membersLevels, Nat.max_le, ih, List.forall_mem_cons]

/-- Whoever may enter an array may enter its items with one level less. -/
theorem exists_of_levels_array_le {items : List Json} {n : Nat} (h : (array items).levels ≤ n) :
    ∃ k, n = k + 1 ∧ ∀ item ∈ items, item.levels ≤ k := by
  rw [levels] at h
  exact ⟨n - 1, by omega, itemsLevels_le.1 (by omega)⟩

/-- Whoever may enter an object may enter its values with one level less. -/
theorem exists_of_levels_object_le {members : List (String × Json)} {n : Nat}
    (h : (object members).levels ≤ n) :
    ∃ k, n = k + 1 ∧ ∀ member ∈ members, member.2.levels ≤ k := by
  rw [levels] at h
  exact ⟨n - 1, by omega, membersLevels_le.1 (by omega)⟩

/-! ### Lists and tables -/

variable {α : Type}

/-- A list is decoded if each of its values is. -/
theorem decodeAll_map {item : Json → Option α} {encode : α → Json} {values : List α}
    (h : ∀ value ∈ values, item (encode value) = some value) :
    decodeAll item (values.map encode) = some values := by
  induction values with
  | nil => rfl
  | cons value values ih =>
    have hvalue := h value (by simp)
    have hvalues := ih fun other hmem => h other (by simp [hmem])
    simp [decodeAll, hvalue, hvalues]

/-- The members of an object are decoded if each of their values is. -/
theorem decodeMembers_map {item : Json → Option α} {encode : α → Json}
    {entries : List (String × α)} (h : ∀ entry ∈ entries, item (encode entry.2) = some entry.2) :
    decodeMembers item (entries.map fun entry => (entry.1, encode entry.2)) = some entries := by
  induction entries with
  | nil => rfl
  | cons entry entries ih =>
    have hentry := h entry (by simp)
    have hentries := ih fun other hmem => h other (by simp [hmem])
    simp [decodeMembers, hentry, hentries]

/-- A list is decoded if its items are, with one level less to enter. -/
theorem listOf_map {n : Nat} (item : (l : Nat) → l < n → Json → Option α) (encode : α → Json)
    {values : List α} (hlevels : (array (values.map encode)).levels ≤ n)
    (h : ∀ value ∈ values, ∀ (l : Nat) (hl : l < n), (encode value).levels ≤ l →
      item l hl (encode value) = some value) :
    listOf n item (.array (values.map encode)) = some values := by
  obtain ⟨k, rfl, hitems⟩ := exists_of_levels_array_le hlevels
  rw [listOf]
  refine decodeAll_map fun value hvalue => ?_
  exact h value hvalue k (Nat.lt_succ_self k) (hitems _ (List.mem_map_of_mem hvalue))

/-- A table with distinct names is decoded if its values are, with one level less to enter. -/
theorem tableOf_map {n : Nat} (item : (l : Nat) → l < n → Json → Option α) (encode : α → Json)
    {table : Table α} (hdistinct : table.Distinct)
    (hlevels : (object (table.map fun entry => (entry.1, encode entry.2))).levels ≤ n)
    (h : ∀ entry ∈ table, ∀ (l : Nat) (hl : l < n), (encode entry.2).levels ≤ l →
      item l hl (encode entry.2) = some entry.2) :
    tableOf n item (.object (table.map fun entry => (entry.1, encode entry.2))) = some table := by
  obtain ⟨k, rfl, hmembers⟩ := exists_of_levels_object_le hlevels
  have hdecode : decodeMembers (item k (Nat.lt_succ_self k))
      (table.map fun entry => (entry.1, encode entry.2)) = some table := by
    refine decodeMembers_map fun entry hentry => ?_
    have hlevel := hmembers (entry.1, encode entry.2) (List.mem_map_of_mem hentry)
    exact h entry hentry k (Nat.lt_succ_self k) hlevel
  rw [tableOf, hdecode, Option.map_some, Table.ofList_of_distinct hdistinct]

/-! ### Records and variants -/

/-- Among members with different names only one has a given name. -/
theorem filter_name_of_distinct {members : Table Json} (h : members.Distinct)
    {member : String × Json} (hmember : member ∈ members) :
    (members.filter fun other => other.1 == member.1) = [member] := by
  induction members with
  | nil => simp at hmember
  | cons first members ih =>
    have hnames : first.1 ∉ members.map Prod.fst ∧ Table.Distinct members :=
      List.nodup_cons.1 h
    rcases List.mem_cons.1 hmember with rfl | hmember
    · have hnone : (members.filter fun other => other.1 == member.1) = [] := by
        rw [List.filter_eq_nil_iff]
        intro other hother heq
        exact hnames.1 (beq_iff_eq.1 heq ▸ List.mem_map_of_mem hother)
      rw [List.filter_cons_of_pos (by simp), hnone]
    · have hne : first.1 ≠ member.1 := by
        intro heq
        exact hnames.1 (heq ▸ List.mem_map_of_mem hmember)
      rw [List.filter_cons_of_neg (by simpa using hne), ih hnames.2 hmember]

/-- The fields of a record that is written with all of them in order, each once. -/
theorem fields?_object {names : List String} {members : Table Json} (hnames : members.names = names)
    (h : names.Nodup) :
    fields? names (.object members) = some (members.map fun member => some member.2) := by
  subst hnames
  have hlisted : ∀ listed : List (String × Json), (∀ member ∈ listed, member ∈ members) →
      (listed.map Prod.fst).mapM (member? members) =
        some (listed.map fun member => some member.2) := by
    intro listed hsub
    induction listed with
    | nil => rfl
    | cons member rest ih =>
      have hmember : member? members member.1 = some (some member.2) := by
        rw [member?, filter_name_of_distinct h (hsub member (by simp))]
      have hrest := ih fun other hother => hsub other (by simp [hother])
      rw [List.map_cons, List.mapM_cons, hmember, hrest]
      rfl
  exact hlisted members fun _ hmember => hmember

/-- A variant with data is an object of one member, and takes one level. -/
theorem variant?_object {tag : String} {content : Json} {n : Nat}
    (h : (object [(tag, content)]).levels ≤ n) :
    ∃ k, n = k + 1 ∧ content.levels ≤ k ∧
      variant? n (.object [(tag, content)]) = some (tag, some content, k) := by
  obtain ⟨k, rfl, hcontent⟩ := exists_of_levels_object_le h
  exact ⟨k, rfl, hcontent _ (List.mem_singleton_self _), rfl⟩

end Json

end BraceTemplate
