import Mathlib.Data.List.Induction
import BraceTemplate.Table

/-!
# Tables whose names are distinct

An insertion either replaces the value of a name in place or adds an entry at the end, so it never
repeats a name. A table with distinct names is rebuilt by inserting its entries in order.
-/

namespace BraceTemplate

/-! ### Lists of names -/

/-- A name that is listed already is not listed again. -/
theorem addName_of_mem {names : List String} {name : String} (h : name ∈ names) :
    addName names name = names := by
  rw [addName, if_pos h]

/-- A new name is listed behind the others. -/
theorem addName_of_notMem {names : List String} {name : String} (h : name ∉ names) :
    addName names name = names ++ [name] := by
  rw [addName, if_neg h]

/-- Names stay different when a new one is listed behind them. -/
theorem nodup_append_singleton {names : List String} {name : String} (h : names.Nodup)
    (hname : name ∉ names) : (names ++ [name]).Nodup := by
  refine List.nodup_append.2 ⟨h, by simp, ?_⟩
  intro a ha b hb heq
  rw [List.mem_singleton] at hb
  subst heq hb
  exact hname ha

/-- Names stay different when one is added. -/
theorem nodup_addName {names : List String} (h : names.Nodup) (name : String) :
    (addName names name).Nodup := by
  by_cases hmem : name ∈ names
  · rw [addName_of_mem hmem]
    exact h
  · rw [addName_of_notMem hmem]
    exact nodup_append_singleton h hmem

/-- Adding distinct names one after another lists them all in their order. -/
theorem foldl_addName {names more : List String} (h : (names ++ more).Nodup) :
    more.foldl addName names = names ++ more := by
  induction more generalizing names with
  | nil => simp
  | cons name more ih =>
    have hname : name ∉ names := by
      intro hmem
      exact (List.nodup_append.1 h).2.2 name hmem name (by simp) rfl
    rw [List.foldl_cons, addName_of_notMem hname, ih (by simpa using h)]
    simp

/-- Added to names is the name, and no other. -/
theorem mem_addName {names : List String} {name other : String} :
    other ∈ addName names name ↔ other ∈ names ∨ other = name := by
  by_cases hmem : name ∈ names
  · rw [addName_of_mem hmem]
    exact ⟨.inl, fun h => h.elim id fun heq => heq ▸ hmem⟩
  · rw [addName_of_notMem hmem, List.mem_append, List.mem_singleton]

/-- Names that are added one after another are listed in the order in which they come first. -/
theorem foldl_addName_nil (names : List String) : names.foldl addName [] = names.eraseDups := by
  induction names using List.reverseRecOn with
  | nil => rfl
  | append_singleton names name ih =>
    rw [List.foldl_append, ih, List.foldl_cons, List.foldl_nil, List.eraseDups_append]
    by_cases hmem : name ∈ names
    · rw [addName_of_mem (List.mem_eraseDups.2 hmem)]
      simp [List.removeAll, hmem]
    · rw [addName_of_notMem fun herased => hmem (List.mem_eraseDups.1 herased)]
      simp [List.removeAll, hmem, List.eraseDups_cons]

/-- Without duplicates all names are different. -/
theorem nodup_eraseDups (names : List String) : names.eraseDups.Nodup := by
  rw [← foldl_addName_nil]
  induction names using List.reverseRecOn with
  | nil => exact List.nodup_nil
  | append_singleton names name ih =>
    rw [List.foldl_append]
    exact nodup_addName ih name

namespace Table

variable {α β : Type}

/-! ### Insertion -/

/-- Insertion adds the name to the names of the table. -/
theorem names_insert (table : Table α) (name : String) (value : α) :
    (table.insert name value).names = addName table.names name := by
  induction table with
  | nil => rfl
  | cons entry table ih =>
    obtain ⟨key, old⟩ := entry
    have hnames :
        ∀ (value : α) (rest : Table α), names ((key, value) :: rest) = key :: rest.names :=
      fun _ _ => rfl
    by_cases hkey : key = name
    · subst hkey
      rw [insert, if_pos rfl, hnames, hnames, addName_of_mem List.mem_cons_self]
    · rw [insert, if_neg hkey, hnames, hnames, ih]
      by_cases hmem : name ∈ names table
      · rw [addName_of_mem hmem, addName_of_mem (List.mem_cons_of_mem _ hmem)]
      · have hmem' : name ∉ key :: names table := by
          rw [List.mem_cons, not_or]
          exact ⟨fun heq => hkey heq.symm, hmem⟩
        rw [addName_of_notMem hmem, addName_of_notMem hmem', List.cons_append]

/-- A new name is bound behind the others. -/
theorem insert_of_notMem {table : Table α} {name : String} (h : name ∉ table.names) (value : α) :
    table.insert name value = table ++ [(name, value)] := by
  induction table with
  | nil => rfl
  | cons entry table ih =>
    obtain ⟨key, old⟩ := entry
    simp only [names, List.map_cons, List.mem_cons, not_or] at h
    rw [insert, if_neg (fun heq => h.1 heq.symm), ih h.2]
    rfl

/-- What is bound to a name is found under it. -/
theorem get?_insert_self (table : Table α) (name : String) (value : α) :
    (table.insert name value).get? name = some value := by
  induction table with
  | nil => simp [insert, get?]
  | cons entry table ih =>
    obtain ⟨key, old⟩ := entry
    rw [insert]
    split
    · next hkey => simp [get?, hkey]
    · next hkey =>
      have hne : (name == key) = false := beq_false_of_ne fun heq => hkey heq.symm
      simp only [get?, List.lookup_cons, hne] at ih ⊢
      exact ih

/-- Under other names the same is found as before. -/
theorem get?_insert_of_ne (table : Table α) {name other : String} (h : other ≠ name) (value : α) :
    (table.insert name value).get? other = table.get? other := by
  induction table with
  | nil => simp [insert, get?, h]
  | cons entry table ih =>
    obtain ⟨key, old⟩ := entry
    rw [insert]
    split
    · next hkey =>
      have hne : (other == key) = false := beq_false_of_ne (hkey ▸ h)
      simp only [get?, List.lookup_cons, hne]
    · simp only [get?, List.lookup_cons] at ih ⊢
      rw [ih]

/-- An entry of a table whose names are distinct is found under its name. -/
theorem get?_of_mem {table : Table α} (h : table.Distinct) {name : String} {value : α}
    (hentry : (name, value) ∈ table) : table.get? name = some value := by
  induction table with
  | nil => simp at hentry
  | cons entry table ih =>
    obtain ⟨key, old⟩ := entry
    obtain ⟨hkey, hrest⟩ := List.nodup_cons.1 h
    rcases List.mem_cons.1 hentry with heq | hmem
    · cases heq
      simp [get?]
    · have hne : name ≠ key := by
        rintro rfl
        exact hkey (List.mem_map.2 ⟨_, hmem, rfl⟩)
      have hfalse : (name == key) = false := beq_false_of_ne hne
      rw [get?, List.lookup_cons, hfalse]
      exact ih hrest hmem

/-- A table still has every name once when a name is bound in it. -/
theorem Distinct.insert {table : Table α} (h : table.Distinct) (name : String) (value : α) :
    (table.insert name value).Distinct := by
  rw [Distinct, names_insert]
  exact nodup_addName h name

/-- An entry was in the table before or is the one that is inserted. -/
theorem mem_of_mem_insert {table : Table α} {name : String} {value : α} {entry : String × α}
    (h : entry ∈ table.insert name value) : entry ∈ table ∨ entry = (name, value) := by
  induction table with
  | nil => exact .inr (List.mem_singleton.1 h)
  | cons first table ih =>
    obtain ⟨key, old⟩ := first
    rw [insert] at h
    split at h
    · next hkey =>
      rcases List.mem_cons.1 h with rfl | hmem
      · exact .inr (by rw [hkey])
      · exact .inl (List.mem_cons_of_mem _ hmem)
    · rcases List.mem_cons.1 h with rfl | hmem
      · exact .inl List.mem_cons_self
      · exact (ih hmem).imp_left (List.mem_cons_of_mem _)

/-- A name that is new is added to the names, and an old one is not. -/
theorem names_insertNew (table : Table α) (name : String) (value : α) :
    (table.insertNew name value).names = addName table.names name := by
  have hhas : table.has name = true ↔ name ∈ table.names := by
    rw [has, get?, List.lookup_isSome_iff]
    simp [names]
  rw [insertNew]
  by_cases hmem : name ∈ table.names
  · rw [if_pos (hhas.2 hmem), addName_of_mem hmem]
  · rw [if_neg (fun h => hmem (hhas.1 h)), addName_of_notMem hmem]
    simp [names]

/-- A table still has every name once when a name is bound in it for the first time. -/
theorem Distinct.insertNew {table : Table α} (h : table.Distinct) (name : String) (value : α) :
    (table.insertNew name value).Distinct := by
  rw [Distinct, names_insertNew]
  exact nodup_addName h name

/-- What a table has under a name is not replaced. -/
theorem get?_insertNew (table : Table α) (name : String) (value : α) (other : String) :
    (table.insertNew name value).get? other =
      (table.get? other).or (if other = name then some value else none) := by
  have hlookup : List.lookup other [(name, value)] = if other = name then some value else none := by
    by_cases hother : other = name <;> simp [hother]
  rw [insertNew]
  split
  · next hhas =>
    by_cases hother : other = name
    · subst hother
      obtain ⟨found, hfound⟩ := Option.isSome_iff_exists.1 hhas
      rw [hfound, Option.some_or]
    · rw [if_neg hother, Option.or_none]
  · rw [get?, List.lookup_append, hlookup, get?]

/-- Where a table has nothing under a name, inserting is storing something new. -/
theorem get?_insert_of_missing {table : Table α} {name : String} (h : table.get? name = none)
    (value : α) (other : String) :
    (table.insert name value).get? other =
      (table.get? other).or (if other = name then some value else none) := by
  by_cases hother : other = name
  · subst hother
    rw [get?_insert_self, h, if_pos rfl, Option.none_or]
  · rw [get?_insert_of_ne table hother, if_neg hother, Option.or_none]

/-- A new name is bound behind the others. -/
theorem insertNew_of_notMem {table : Table α} {name : String} (h : name ∉ table.names) (value : α) :
    table.insertNew name value = table ++ [(name, value)] := by
  rw [insertNew, has, if_neg]
  rw [get?, List.lookup_isSome_iff]
  rintro ⟨entry, hentry, heq⟩
  exact h (List.mem_map.2 ⟨entry, hentry, (beq_iff_eq.1 heq).symm⟩)

/-- Names that are new and distinct get their entries in their order. -/
theorem foldl_insertNew {table : Table α} {names : List String} (h : (table.names ++ names).Nodup)
    (value : α) : names.foldl (fun table name => table.insertNew name value) table =
      table ++ names.map fun name => (name, value) := by
  induction names generalizing table with
  | nil => simp
  | cons name names ih =>
    have hname : name ∉ table.names := fun hmem =>
      (List.nodup_append.1 h).2.2 name hmem name (by simp) rfl
    have hmore : (Table.names (table ++ [(name, value)]) ++ names).Nodup := by
      simpa [Table.names] using h
    rw [List.foldl_cons, insertNew_of_notMem hname, ih hmore]
    simp

/-- An entry was in the table before or is the one that is inserted. -/
theorem mem_of_mem_insertNew {table : Table α} {name : String} {value : α} {entry : String × α}
    (h : entry ∈ table.insertNew name value) : entry ∈ table ∨ entry = (name, value) := by
  rw [insertNew] at h
  split at h
  · exact .inl h
  · simpa using h

/-- A table of lists still has every name once when a value is appended under a name. -/
theorem Distinct.append {table : Table (List α)} (h : table.Distinct) (name : String) (value : α) :
    (table.append name value).Distinct :=
  h.insert name _

/-- The values in a table after one more is listed. -/
theorem mem_flatMap_append {table : Table (List α)} {name : String} {value other : α}
    (h : other ∈ (table.append name value).flatMap Prod.snd) :
    other ∈ table.flatMap Prod.snd ∨ other = value := by
  obtain ⟨entry, hentry, hother⟩ := List.mem_flatMap.1 h
  rcases mem_of_mem_insert hentry with hentry | rfl
  · exact .inl (List.mem_flatMap.2 ⟨entry, hentry, hother⟩)
  · rcases List.mem_append.1 hother with hother | hother
    · cases hget : table.get? name with
      | none => simp [hget] at hother
      | some values =>
        rw [hget, Option.getD_some] at hother
        exact .inl (List.mem_flatMap.2 ⟨_, mem_of_get? hget, hother⟩)
    · exact .inr (List.mem_singleton.1 hother)

/-- What is found at a place is one of the values in the lists. -/
theorem mem_flatMap_of_getAt? {table : Table (List α)} {name : String} {index : Nat} {value : α}
    (h : table.getAt? name index = some value) : value ∈ table.flatMap Prod.snd := by
  obtain ⟨values, hvalues, hvalue⟩ := Option.bind_eq_some_iff.1 h
  exact List.mem_flatMap.2 ⟨_, mem_of_get? hvalues, List.mem_of_getElem? hvalue⟩

/-! ### Values listed under a name -/

/-- Appended under a name is one value, and none under other names. -/
theorem count_append (table : Table (List α)) (name : String) (value : α) (other : String) :
    (table.append name value).count other =
      table.count other + if other = name then 1 else 0 := by
  unfold count append
  by_cases heq : other = name
  · subst heq
    rw [get?_insert_self, if_pos rfl, Option.getD_some, List.length_append, List.length_singleton]
  · rw [get?_insert_of_ne table heq, if_neg heq, Nat.add_zero]

/-- Under a name there are values at the indexes below their number. -/
theorem isSome_getAt?_iff {table : Table (List α)} {name : String} {index : Nat} :
    (table.getAt? name index).isSome = true ↔ index < table.count name := by
  unfold getAt? count
  cases table.get? name with
  | none => simp
  | some values => simp

/-- The value that is listed last under a name. -/
theorem getAt?_append_self (table : Table (List α)) (name : String) (value : α) :
    (table.append name value).getAt? name (table.count name) = some value := by
  rw [getAt?, append, get?_insert_self, count]
  simp

/-- Listing one more value keeps the places of the others. -/
theorem getAt?_append_of_some {table : Table (List α)} {key : String} {index : Nat} {found : α}
    (h : table.getAt? key index = some found) (name : String) (value : α) :
    (table.append name value).getAt? key index = some found := by
  unfold getAt? at h ⊢
  obtain ⟨values, hvalues, hfound⟩ := Option.bind_eq_some_iff.1 h
  by_cases heq : key = name
  · subst heq
    obtain ⟨hlt, -⟩ := List.getElem?_eq_some_iff.1 hfound
    rw [append, get?_insert_self, hvalues, Option.getD_some, Option.bind_eq_bind, Option.bind_some,
      List.getElem?_append_left hlt]
    exact hfound
  · rw [append, get?_insert_of_ne table heq]
    exact h

/-- A value that is listed after one more has been added is that one or had its place before. -/
theorem getAt?_append_cases {table : Table (List α)} {name key : String} {index : Nat}
    {value found : α} (h : (table.append name value).getAt? key index = some found) :
    table.getAt? key index = some found ∨
      key = name ∧ index = table.count name ∧ found = value := by
  unfold getAt? at h ⊢
  obtain ⟨values, hvalues, hfound⟩ := Option.bind_eq_some_iff.1 h
  by_cases heq : key = name
  · subst heq
    rw [append, get?_insert_self, Option.some.injEq] at hvalues
    subst hvalues
    rcases Nat.lt_or_ge index ((table.get? key).getD []).length with hlt | hge
    · rw [List.getElem?_append_left hlt] at hfound
      left
      cases hget : table.get? key with
      | none => simp [hget] at hfound
      | some values => simpa [hget] using hfound
    · right
      rw [List.getElem?_append_right hge] at hfound
      obtain ⟨hindex, hvalue⟩ := List.getElem?_eq_some_iff.1 hfound
      rw [List.length_singleton] at hindex
      refine ⟨rfl, ?_, by simpa using hvalue.symm⟩
      rw [count]
      omega
  · rw [append, get?_insert_of_ne table heq] at hvalues
    exact .inl (Option.bind_eq_some_iff.2 ⟨values, hvalues, hfound⟩)

/-- Entries with new and different names come behind those of the table. -/
theorem insertAll_of_distinct {table : Table α} {entries : List (String × α)}
    (h : Distinct (table ++ entries)) : table.insertAll entries = table ++ entries := by
  induction entries generalizing table with
  | nil => simp [insertAll]
  | cons entry entries ih =>
    obtain ⟨name, value⟩ := entry
    have hname : name ∉ table.names := by
      intro hmem
      simp only [Distinct, names, List.map_append, List.map_cons] at h
      exact (List.nodup_append.1 h).2.2 name hmem name (by simp) rfl
    calc table.insertAll ((name, value) :: entries)
      _ = insertAll (table.insert name value) entries := rfl
      _ = insertAll (table ++ [(name, value)]) entries := by rw [insert_of_notMem hname]
      _ = table ++ [(name, value)] ++ entries := ih (by simpa using h)
      _ = table ++ (name, value) :: entries := by simp

/-- A table with distinct names is the table of its entries. -/
theorem ofList_of_distinct {table : Table α} (h : table.Distinct) : ofList table = table :=
  @insertAll_of_distinct _ [] table h

/-- A table still has every name once when entries are inserted one after another. -/
theorem Distinct.insertAll {table : Table α} (h : table.Distinct) (entries : List (String × α)) :
    (table.insertAll entries).Distinct := by
  induction entries generalizing table with
  | nil => exact h
  | cons entry entries ih => exact ih (h.insert entry.1 entry.2)

/-- A table that is made of entries has every name once. -/
theorem distinct_ofList (entries : List (String × α)) : (ofList entries).Distinct :=
  @Distinct.insertAll _ [] List.nodup_nil entries

/-- An entry was in the table before or is one of those that are inserted. -/
theorem mem_of_mem_insertAll {table : Table α} {entries : List (String × α)} {entry : String × α}
    (h : entry ∈ table.insertAll entries) : entry ∈ table ∨ entry ∈ entries := by
  induction entries generalizing table with
  | nil => exact .inl h
  | cons first entries ih =>
    rcases ih h with hmem | hmem
    · rcases mem_of_mem_insert hmem with htable | rfl
      · exact .inl htable
      · exact .inr List.mem_cons_self
    · exact .inr (List.mem_cons_of_mem _ hmem)

/-- A table that is made of entries has no others. -/
theorem mem_of_mem_ofList {entries : List (String × α)} {entry : String × α}
    (h : entry ∈ ofList entries) : entry ∈ entries :=
  (mem_of_mem_insertAll h).resolve_left List.not_mem_nil

/-- What is inserted last under a name counts, and if nothing is inserted there, what the table
has. -/
theorem get?_insertAll (table : Table α) (entries : List (String × α)) (name : String) :
    (table.insertAll entries).get? name = (get? entries.reverse name).or (table.get? name) := by
  induction entries generalizing table with
  | nil => rfl
  | cons entry entries ih =>
    obtain ⟨key, value⟩ := entry
    have hfirst : (table.insert key value).get? name =
        (get? [(key, value)] name).or (table.get? name) := by
      by_cases hkey : name = key
      · subst hkey
        rw [get?_insert_self]
        simp [get?]
      · have hne : (name == key) = false := beq_false_of_ne hkey
        rw [get?_insert_of_ne table hkey]
        simp [get?, List.lookup_cons, hne]
    have happend : get? ((key, value) :: entries).reverse name =
        (get? entries.reverse name).or (get? [(key, value)] name) := by
      rw [List.reverse_cons]
      exact List.lookup_append
    calc (table.insertAll ((key, value) :: entries)).get? name
      _ = ((table.insert key value).insertAll entries).get? name := rfl
      _ = ((get? entries.reverse name).or (get? [(key, value)] name)).or (table.get? name) := by
        rw [ih, hfirst, Option.or_assoc]
      _ = (get? ((key, value) :: entries).reverse name).or (table.get? name) := by
        rw [happend]

/-! ### Changing every value -/

/-- What is inserted last under a name counts, whatever a table has there. -/
theorem get?_insertAll_congr {table table' : Table α} {entries : List (String × α)} {name : String}
    (h : name ∈ names entries ∨ table.get? name = table'.get? name) :
    (table.insertAll entries).get? name = (table'.insertAll entries).get? name := by
  induction entries generalizing table table' with
  | nil => exact h.resolve_left List.not_mem_nil
  | cons entry entries ih =>
    obtain ⟨key, value⟩ := entry
    refine @ih (table.insert key value) (table'.insert key value) ?_
    by_cases hkey : name = key
    · right
      rw [hkey, get?_insert_self, get?_insert_self]
    · rw [get?_insert_of_ne _ hkey, get?_insert_of_ne _ hkey]
      exact h.imp_left fun hmem => (List.mem_cons.1 hmem).resolve_left hkey

/-- The table with every value changed. -/
def mapValues (f : α → β) (table : Table α) : Table β :=
  table.map fun (name, value) => (name, f value)

/-- Two changes of all values in a row are one change. -/
theorem mapValues_mapValues {γ : Type} (f : α → β) (g : β → γ) (table : Table α) :
    (table.mapValues f).mapValues g = table.mapValues fun value => g (f value) := by
  simp [mapValues]

/-- A change that leaves every value as it is leaves the table as it is. -/
theorem mapValues_id (table : Table α) : table.mapValues (fun value => value) = table :=
  List.map_id' table

/-- Changes that do the same to the values of a table do the same to the table. -/
theorem mapValues_congr {f g : α → β} {table : Table α}
    (h : ∀ entry ∈ table, f entry.2 = g entry.2) : table.mapValues f = table.mapValues g :=
  List.map_congr_left fun entry hentry => congrArg (Prod.mk entry.1) (h entry hentry)

/-- Under a name the changed value is found. -/
theorem get?_mapValues (f : α → β) (table : Table α) (name : String) :
    (table.mapValues f).get? name = (table.get? name).map f := by
  induction table with
  | nil => rfl
  | cons entry table ih =>
    obtain ⟨key, value⟩ := entry
    simp only [mapValues, get?, List.map_cons, List.lookup_cons] at ih ⊢
    split
    · rfl
    · exact ih

/-- A value may be changed before or after it is inserted. -/
theorem insert_mapValues (f : α → β) (table : Table α) (name : String) (value : α) :
    (table.insert name value).mapValues f = (table.mapValues f).insert name (f value) := by
  induction table with
  | nil => rfl
  | cons entry table ih =>
    obtain ⟨key, old⟩ := entry
    by_cases hkey : key = name
    · simp [insert, mapValues, hkey]
    · simp only [mapValues] at ih
      simp [insert, mapValues, hkey, ih]

/-- A value may be changed before or after it is appended. -/
theorem append_mapValues (f : α → β) (table : Table (List α)) (name : String) (value : α) :
    (table.append name value).mapValues (List.map f) =
      (table.mapValues (List.map f)).append name (f value) := by
  rw [append, insert_mapValues, append, get?_mapValues]
  cases table.get? name <;> simp

/-- There are as many values under a name after a change. -/
theorem count_mapValues (f : α → β) (table : Table (List α)) (name : String) :
    (table.mapValues (List.map f)).count name = table.count name := by
  rw [count, get?_mapValues, count]
  cases table.get? name <;> simp

/-! ### Replacing a value in its place -/

/-- Storing what is stored already changes nothing. -/
theorem insert_of_get? {table : Table α} {name : String} {value : α}
    (h : table.get? name = some value) : table.insert name value = table := by
  induction table with
  | nil => simp [get?] at h
  | cons entry table ih =>
    obtain ⟨key, old⟩ := entry
    rw [insert]
    by_cases hkey : key = name
    · subst hkey
      have hvalue : old = value := by simpa [get?] using h
      rw [if_pos rfl, hvalue]
    · have hne : (name == key) = false := beq_false_of_ne fun heq => hkey heq.symm
      rw [get?, List.lookup_cons, hne] at h
      rw [if_neg hkey, ih h]

/-- A value that is replaced is found in its place, and all others stay where they are. -/
theorem getAt?_setAt {table : Table (List α)} {name : String} {index : Nat} {old : α}
    (h : table.getAt? name index = some old) (value : α) (key : String) (place : Nat) :
    (table.setAt name index value).getAt? key place =
      if key = name ∧ place = index then some value else table.getAt? key place := by
  obtain ⟨values, hvalues, hold⟩ := Option.bind_eq_some_iff.1 h
  obtain ⟨hlt, -⟩ := List.getElem?_eq_some_iff.1 hold
  have hset : table.setAt name index value = table.insert name (values.set index value) := by
    rw [setAt, hvalues]
  rw [hset, getAt?, getAt?]
  by_cases hkey : key = name
  · subst hkey
    rw [get?_insert_self, hvalues]
    by_cases hplace : place = index
    · subst hplace
      simp [hlt]
    · have hne : index ≠ place := fun heq => hplace heq.symm
      simp [hplace, List.getElem?_set_ne hne]
  · rw [get?_insert_of_ne table hkey, if_neg fun hboth => hkey hboth.1]

/-- Putting a value where it is already changes nothing. -/
theorem setAt_of_getAt? {table : Table (List α)} {name : String} {index : Nat} {value : α}
    (h : table.getAt? name index = some value) : table.setAt name index value = table := by
  obtain ⟨values, hvalues, hvalue⟩ := Option.bind_eq_some_iff.1 h
  obtain ⟨hlt, rfl⟩ := List.getElem?_eq_some_iff.1 hvalue
  rw [setAt, hvalues]
  dsimp only
  rw [List.set_getElem_self hlt]
  exact insert_of_get? hvalues

/-- A value may be changed before or after it replaces another one. -/
theorem setAt_mapValues (f : α → β) (table : Table (List α)) (name : String) (index : Nat)
    (value : α) :
    (table.setAt name index value).mapValues (List.map f) =
      (table.mapValues (List.map f)).setAt name index (f value) := by
  rw [setAt, setAt, get?_mapValues]
  cases table.get? name with
  | none => rfl
  | some values => simp only [Option.map_some, insert_mapValues, List.map_set]

/-- At a place the changed value is found. -/
theorem getAt?_mapValues (f : α → β) (table : Table (List α)) (name : String) (index : Nat) :
    (table.mapValues (List.map f)).getAt? name index = (table.getAt? name index).map f := by
  rw [getAt?, get?_mapValues, getAt?]
  cases table.get? name <;> simp

/-- A change of values changes none of the places at which there are any. -/
theorem isSome_getAt?_mapValues (f : α → β) (table : Table (List α)) (name : String)
    (index : Nat) :
    ((table.mapValues (List.map f)).getAt? name index).isSome =
      (table.getAt? name index).isSome := by
  rw [getAt?_mapValues, Option.isSome_map]

end Table

end BraceTemplate
